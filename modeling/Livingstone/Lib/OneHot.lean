import Mathlib.Tactic

/-! A value as one atom out of a list: the atom of the value is true, and the others are false. -/

namespace OneHot

variable {α : Type*} {τ : α → Bool} {atoms : List α} {x : ℕ}

def Shows (τ : α → Bool) (atoms : List α) (x : ℕ) : Prop :=
  ∀ y p, atoms[y]? = some p → (τ p = true ↔ x = y)

def ExactlyOne (τ : α → Bool) (atoms : List α) : Prop := ∃ x < atoms.length, Shows τ atoms x

theorem Shows.eq_iff (h : Shows τ atoms x) {y : ℕ} (hy : y < atoms.length) :
    τ (atoms.get ⟨y, hy⟩) = true ↔ x = y :=
  h y _ (List.getElem?_eq_getElem hy)

/-- What clauses say it with: some atom is true, and of any two of them one is false. -/
theorem exactlyOne_iff : ExactlyOne τ atoms ↔
    (∃ p ∈ atoms, τ p = true) ∧ atoms.Pairwise fun p q => τ q = false ∨ τ p = false := by
  constructor
  · rintro ⟨x, hx, hshows⟩
    refine ⟨⟨_, List.get_mem atoms ⟨x, hx⟩, (hshows.eq_iff hx).mpr rfl⟩, ?_⟩
    rw [List.pairwise_iff_getElem]
    intro i j hi hj hij
    by_contra hboth
    push Not at hboth
    obtain ⟨hj', hi'⟩ := hboth
    have hxi := (hshows.eq_iff hi).mp (by simpa using hi')
    have hxj := (hshows.eq_iff hj).mp (by simpa using hj')
    omega
  · rintro ⟨⟨p, hp, htrue⟩, hpairs⟩
    obtain ⟨x, hx, rfl⟩ := List.mem_iff_getElem.mp hp
    rw [List.pairwise_iff_getElem] at hpairs
    refine ⟨x, hx, fun y q hq => ⟨fun hq' => ?_, ?_⟩⟩
    · obtain ⟨hy, rfl⟩ := List.getElem?_eq_some_iff.mp hq
      -- two places with true atoms are the same
      rcases lt_trichotomy x y with hlt | heq | hlt
      · rcases hpairs x y hx hy hlt with hfalse | hfalse
        · cases hfalse.symm.trans hq'
        · cases hfalse.symm.trans htrue
      · exact heq
      · rcases hpairs y x hy hx hlt with hfalse | hfalse
        · cases hfalse.symm.trans htrue
        · cases hfalse.symm.trans hq'
    · rintro rfl
      obtain ⟨hy, rfl⟩ := List.getElem?_eq_some_iff.mp hq
      exact htrue

variable {ι : Type*}

def Distinct (atoms : ι → List α) : Prop :=
  ∀ (i j : ι) (x y : ℕ) (p : α), (atoms i)[x]? = some p → (atoms j)[y]? = some p → i = j ∧ x = y

theorem Distinct.exists_shows {atoms : ι → List α} (h : Distinct atoms) (a : ι → ℕ) :
    ∃ τ, ∀ i, Shows τ (atoms i) (a i) := by
  classical
  refine ⟨fun p => decide (∃ i, (atoms i)[a i]? = some p), fun i y p hp => ?_⟩
  rw [decide_eq_true_iff]
  constructor
  · rintro ⟨j, hj⟩
    obtain ⟨rfl, heq⟩ := h j i (a j) y p hj hp
    exact heq
  · rintro rfl
    exact ⟨i, hp⟩

end OneHot
