import Mathlib.Tactic

/-! Unit propagation over an arbitrary set of clauses. A literal is an atom with
a sign and a clause a set of literals. `Derives Γ` is the least set of literals
closed under the unit rule, so it depends on the clause set alone and on no
order of propagation. -/

namespace UnitProp

variable {α : Type*}

abbrev Literal (α : Type*) := α × Bool

def Literal.neg (l : Literal α) : Literal α := (l.1, !l.2)

@[simp] theorem Literal.neg_neg (l : Literal α) : l.neg.neg = l := by
  simp [Literal.neg]

@[simp] theorem Literal.neg_fst (l : Literal α) : l.neg.1 = l.1 := rfl

@[simp] theorem Literal.neg_mk (a : α) (b : Bool) : Literal.neg (a, b) = (a, !b) := rfl

/-- The unit propagation closure: a clause whose other literals are all refuted
yields the remaining one. -/
inductive Derives (Γ : Set (Set (Literal α))) : Literal α → Prop
  | unit {C : Set (Literal α)} {l : Literal α} (hC : C ∈ Γ) (hl : l ∈ C)
      (hrest : ∀ m ∈ C, m ≠ l → Derives Γ m.neg) : Derives Γ l

/-- Unit propagation refutes every literal of some clause. -/
def Contradicts (Γ : Set (Set (Literal α))) : Prop :=
  ∃ C ∈ Γ, ∀ l ∈ C, Derives Γ l.neg

theorem Derives.mono {Γ Δ : Set (Set (Literal α))} (h : Γ ⊆ Δ) {l : Literal α}
    (hl : Derives Γ l) : Derives Δ l := by
  induction hl with
  | unit hC hl _ ih => exact .unit (h hC) hl ih

theorem Contradicts.mono {Γ Δ : Set (Set (Literal α))} (h : Γ ⊆ Δ) (hc : Contradicts Γ) :
    Contradicts Δ := by
  obtain ⟨C, hC, hrefuted⟩ := hc
  exact ⟨C, h hC, fun l hl => (hrefuted l hl).mono h⟩

theorem contradicts_of_both {Γ : Set (Set (Literal α))} {l : Literal α}
    (h : Derives Γ l) (hn : Derives Γ l.neg) : Contradicts Γ := by
  cases h with
  | unit hC hl hrest =>
    rename_i C
    refine ⟨C, hC, fun m hm => ?_⟩
    by_cases hml : m = l
    · exact hml ▸ hn
    · exact hrest m hm hml

theorem Derives.sound {Γ : Set (Set (Literal α))} {v : α → Bool}
    (hv : ∀ C ∈ Γ, ∃ l ∈ C, v l.1 = l.2) {l : Literal α} (h : Derives Γ l) : v l.1 = l.2 := by
  induction h with
  | @unit C l hC _ _ ih =>
    obtain ⟨m, hm, hvm⟩ := hv C hC
    by_cases hml : m = l
    · exact hml ▸ hvm
    · have := ih m hm hml
      simp only [Literal.neg, hvm] at this
      cases h : m.2 <;> simp [h] at this

theorem not_contradicts_of_satisfies {Γ : Set (Set (Literal α))} {v : α → Bool}
    (hv : ∀ C ∈ Γ, ∃ l ∈ C, v l.1 = l.2) : ¬ Contradicts Γ := by
  rintro ⟨C, hC, hrefuted⟩
  obtain ⟨l, hl, hvl⟩ := hv C hC
  have hneg := (hrefuted l hl).sound hv
  simp only [Literal.neg, hvl] at hneg
  cases h : l.2 <;> simp [h] at hneg

/-- A partial valuation is saturated when no clause is falsified and none is unit:
each clause has a true literal or two unassigned ones. -/
def Saturated (Γ : Set (Set (Literal α))) (v : Literal α → Option Bool) : Prop :=
  ∀ C ∈ Γ, (∃ l ∈ C, v l = some true) ∨
    ∃ l ∈ C, ∃ m ∈ C, l ≠ m ∧ v l = none ∧ v m = none

/-- A partial valuation of literals that comes from one of atoms. -/
def Coherent (v : Literal α → Option Bool) : Prop := ∀ l, v l.neg = (v l).map (!·)

theorem Coherent.neg_true {v : Literal α → Option Bool} (h : Coherent v) {l : Literal α} :
    v l.neg = some true ↔ v l = some false := by
  rw [h l]
  cases v l with
  | none => simp
  | some b => cases b <;> simp

theorem Saturated.derives {Γ : Set (Set (Literal α))} {v : Literal α → Option Bool}
    (hv : Coherent v) (hs : Saturated Γ v) {l : Literal α} (h : Derives Γ l) :
    v l = some true := by
  induction h with
  | @unit C l hC _ _ ih =>
    have hfalse : ∀ m ∈ C, m ≠ l → v m = some false := fun m hm hne =>
      hv.neg_true.mp (ih m hm hne)
    rcases hs C hC with ⟨m, hm, ht⟩ | ⟨m, hm, k, hk, hmk, hm', hk'⟩
    · by_cases hml : m = l
      · exact hml ▸ ht
      · simp [hfalse m hm hml] at ht
    · -- two unassigned literals: one of them is not `l`, hence refuted
      by_cases hml : m = l
      · have := hfalse k hk (fun h => hmk (hml.trans h.symm))
        simp [hk'] at this
      · have := hfalse m hm hml
        simp [hm'] at this

theorem Saturated.not_contradicts {Γ : Set (Set (Literal α))} {v : Literal α → Option Bool}
    (hv : Coherent v) (hs : Saturated Γ v) : ¬ Contradicts Γ := by
  rintro ⟨C, hC, hl⟩
  have hfalse : ∀ l ∈ C, v l = some false := fun l hm => hv.neg_true.mp (hs.derives hv (hl l hm))
  rcases hs C hC with ⟨m, hm, ht⟩ | ⟨m, hm, _, _, _, hm', _⟩
  · simp [hfalse m hm] at ht
  · simp [hfalse m hm] at hm'

/-- A justification: every true literal is the one unrefuted literal of a clause
whose other atoms rank lower. -/
def Justified (Γ : Set (Set (Literal α))) (v : Literal α → Option Bool) (rank : α → ℕ) : Prop :=
  ∀ l, v l = some true → ∃ C ∈ Γ, l ∈ C ∧
    ∀ m ∈ C, m ≠ l → v m = some false ∧ rank m.1 < rank l.1

/-- Whatever is justified is derivable: the induction is on the rank. -/
theorem Justified.derives {Γ : Set (Set (Literal α))} {v : Literal α → Option Bool}
    {rank : α → ℕ} (hv : Coherent v) (hj : Justified Γ v rank) {l : Literal α}
    (h : v l = some true) : Derives Γ l := by
  induction hr : rank l.1 using Nat.strong_induction_on generalizing l with
  | _ n ih =>
    obtain ⟨C, hC, hl, hrest⟩ := hj l h
    refine .unit hC hl fun m hm hne => ?_
    obtain ⟨hf, hlt⟩ := hrest m hm hne
    exact ih (rank m.1) (hr ▸ hlt) (hv.neg_true.mpr hf) rfl

theorem derives_iff {Γ : Set (Set (Literal α))} {v : Literal α → Option Bool}
    {rank : α → ℕ} (hv : Coherent v) (hs : Saturated Γ v) (hj : Justified Γ v rank)
    (l : Literal α) : v l = some true ↔ Derives Γ l :=
  ⟨hj.derives hv, hs.derives hv⟩

end UnitProp
