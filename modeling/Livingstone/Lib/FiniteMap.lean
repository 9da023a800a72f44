import Mathlib.Tactic

/-! Finite maps whose keys are equal up to `==`. A map returns the whole entry of a key, since the key
that was inserted may not be the one that is looked up. -/

variable {κ τ : Type*}

def FiniteMap (κ τ : Type*) : Type _ := κ → Option (κ × τ)

namespace FiniteMap

def empty : FiniteMap κ τ := fun _ => none

def entries (F : FiniteMap κ τ) : Set (κ × τ) := {e | F e.1 = some e}

noncomputable def size (F : FiniteMap κ τ) : ℕ := F.entries.ncard

section

variable [BEq κ]

def insert (F : FiniteMap κ τ) (k : κ) (v : τ) : FiniteMap κ τ := fun k' =>
  if k == k' then some (k, v) else F k'

def erase (F : FiniteMap κ τ) (k : κ) : FiniteMap κ τ := fun k' =>
  if k == k' then none else F k'

def ofList (l : List (κ × τ)) : FiniteMap κ τ := fun k => l.find? (·.1 == k)

def Distinct (l : List (κ × τ)) : Prop := l.Pairwise fun e e' => (e.1 == e'.1) = false

end

variable [BEq κ] {l l' : List (κ × τ)} {e : κ × τ} {k : κ}

@[simp]
theorem ofList_nil : (ofList [] : FiniteMap κ τ) = empty := rfl

theorem ofList_eq_none : ofList l k = none ↔ ∀ e ∈ l, (e.1 == k) = false := by
  simp [ofList]

theorem of_ofList_eq_some (h : ofList l k = some e) : e ∈ l ∧ (e.1 == k) = true := by
  unfold ofList at h
  exact ⟨List.mem_of_find?_eq_some h, (List.find?_eq_some_iff_append.mp h).1⟩

theorem ofList_cons (e : κ × τ) (l : List (κ × τ)) : ofList (e :: l) = (ofList l).insert e.1 e.2 := by
  funext k
  rw [ofList, List.find?_cons, insert]
  cases e.1 == k <;> rfl

theorem Distinct.remove (h : Distinct (l ++ e :: l')) : Distinct (l ++ l') :=
  h.sublist ((List.sublist_cons_self e l').append_left l)

variable [EquivBEq κ]

theorem erase_of_none (h : ofList l k = none) : (ofList l).erase k = ofList l := by
  funext k'
  rw [erase]
  split_ifs with hk
  · refine (ofList_eq_none.mpr fun e he => Bool.eq_false_iff.mpr fun heq => ?_).symm
    have hne := ofList_eq_none.mp h e he
    exact absurd (BEq.trans heq (BEq.symm hk)) (by simp [hne])
  · rfl

theorem Distinct.perm (h : Distinct l) (hp : l.Perm l') : Distinct l' :=
  hp.pairwise h fun {e e'} he => BEq.comm (a := e'.1) (b := e.1) ▸ he

theorem Distinct.nodup (h : Distinct l) : l.Nodup := by
  refine List.Pairwise.imp ?_ h
  rintro e _ he rfl
  exact absurd he (by simp)

theorem Distinct.find (h : Distinct l) (he : e ∈ l) (hk : (e.1 == k) = true) :
    ofList l k = some e := by
  induction l with
  | nil => cases he
  | cons e' l ih =>
    obtain ⟨hne, hl⟩ := List.pairwise_cons.mp h
    rw [ofList, List.find?_cons]
    rcases List.mem_cons.mp he with rfl | he
    · rw [hk]
    · have hfirst : (e'.1 == k) = false :=
        Bool.eq_false_iff.mpr fun heq =>
          absurd (hne e he) (by simp [BEq.trans heq (BEq.symm hk)])
      rw [hfirst]
      exact ih hl he

theorem Distinct.mem_iff (h : Distinct l) : e ∈ l ↔ e ∈ (ofList l).entries :=
  ⟨fun he => h.find he BEq.rfl, fun he => (of_ofList_eq_some he).1⟩

theorem Distinct.ofList_perm (h : Distinct l) (hp : l.Perm l') : ofList l = ofList l' := by
  funext k
  cases hk : ofList l k with
  | none =>
    rw [ofList_eq_none] at hk
    exact (ofList_eq_none.mpr fun e he => hk e (hp.mem_iff.mpr he)).symm
  | some e =>
    obtain ⟨he, hfound⟩ := of_ofList_eq_some hk
    exact ((h.perm hp).find (hp.mem_iff.mp he) hfound).symm

theorem Distinct.size (h : Distinct l) : (ofList l).size = l.length := by
  classical
  have hentries : (ofList l).entries = (l.toFinset : Set (κ × τ)) := by
    ext e
    rw [List.coe_toFinset]
    exact h.mem_iff.symm
  rw [FiniteMap.size, hentries, Set.ncard_coe_finset, List.toFinset_card_of_nodup h.nodup]

theorem Distinct.ofList_remove (h : Distinct (l ++ e :: l')) (hk : (e.1 == k) = true) :
    ofList (l ++ l') = (ofList (l ++ e :: l')).erase k := by
  have hcons : Distinct (e :: (l ++ l')) := h.perm List.perm_middle
  rw [h.ofList_perm List.perm_middle, ofList_cons]
  funext k'
  rw [erase, insert]
  cases hk' : k == k' with
  | false =>
    have hne : (e.1 == k') = false := Bool.eq_false_iff.mpr fun heq =>
      absurd (BEq.trans (BEq.symm hk) heq) (by simp [hk'])
    rw [hne]
    rfl
  | true =>
    refine ofList_eq_none.mpr fun e' he' => Bool.eq_false_iff.mpr fun heq => ?_
    have heq' : (e.1 == e'.1) = true := BEq.trans (BEq.trans hk hk') (BEq.symm heq)
    exact absurd ((List.pairwise_cons.mp hcons).1 e' he') (by simp [heq'])

end FiniteMap
