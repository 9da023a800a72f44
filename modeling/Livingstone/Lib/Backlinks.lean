import Mathlib.Tactic

/-! Lists of back references, one for each key, and the insertion of an element into a
sorted list after its equals. -/

namespace Backlinks

open Function (update update_of_ne)

variable {κ ι : Type*} [DecidableEq κ]

def link (i : ι) (f : κ → List ι) (k : κ) : κ → List ι := update f k (i :: f k)

def unlink [DecidableEq ι] (i : ι) (f : κ → List ι) (k : κ) : κ → List ι :=
  update f k ((f k).filter fun j => j ≠ i)

variable {i j : ι} {f : κ → List ι} {k x : κ} {ks : List κ}

theorem mem_link : j ∈ link i f k x ↔ j ∈ f x ∨ (j = i ∧ x = k) := by
  by_cases hx : x = k
  · subst hx
    simp [link, or_comm]
  · simp [link, hx]

theorem mem_foldl_link : j ∈ ks.foldl (link i) f x ↔ j ∈ f x ∨ (j = i ∧ x ∈ ks) := by
  induction ks generalizing f with
  | nil => simp
  | cons k ks ih =>
    rw [List.foldl_cons, ih, mem_link, List.mem_cons]
    tauto

variable [DecidableEq ι]

theorem mem_unlink : j ∈ unlink i f k x ↔ j ∈ f x ∧ ¬ (j = i ∧ x = k) := by
  by_cases hx : x = k
  · subst hx
    simp [unlink]
  · simp [unlink, hx]

theorem mem_foldl_unlink : j ∈ ks.foldl (unlink i) f x ↔ j ∈ f x ∧ ¬ (j = i ∧ x ∈ ks) := by
  induction ks generalizing f with
  | nil => simp
  | cons k ks ih =>
    rw [List.foldl_cons, ih, mem_unlink, List.mem_cons]
    tauto

end Backlinks

namespace SortedList

variable {α : Type*} (smaller : α → α → Bool) (x : α)

def insertSorted : List α → List α
  | [] => [x]
  | y :: l => if smaller x y then x :: y :: l else y :: insertSorted l

theorem perm_insertSorted (l : List α) : (insertSorted smaller x l).Perm (x :: l) := by
  induction l with
  | nil => exact List.Perm.refl _
  | cons y l ih =>
    unfold insertSorted
    split_ifs
    · exact List.Perm.refl _
    · exact (List.Perm.cons y ih).trans (List.Perm.swap x y l)

theorem pairwise_insertSorted {key : α → ℕ} (hkey : ∀ x y, smaller x y = decide (key x < key y))
    {l : List α} (h : l.Pairwise fun x y => key x ≤ key y) :
    (insertSorted smaller x l).Pairwise fun x y => key x ≤ key y := by
  induction l with
  | nil => exact List.pairwise_singleton _ x
  | cons y l ih =>
    obtain ⟨hy, hl⟩ := List.pairwise_cons.mp h
    unfold insertSorted
    rw [hkey]
    by_cases hlt : key x < key y
    · rw [if_pos (by simpa using hlt)]
      refine List.pairwise_cons.mpr ⟨fun z hz => ?_, h⟩
      rcases List.mem_cons.mp hz with rfl | hz
      · exact hlt.le
      · exact hlt.le.trans (hy z hz)
    · rw [if_neg (by simpa using hlt)]
      refine List.pairwise_cons.mpr ⟨fun z hz => ?_, ih hl⟩
      rcases List.mem_cons.mp ((perm_insertSorted smaller x l).mem_iff.mp hz) with rfl | hz
      · exact not_lt.mp hlt
      · exact hy z hz

end SortedList
