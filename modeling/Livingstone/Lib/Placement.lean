import Livingstone.Lib.Insertion

/-! A set that is kept as a list. An element is looked for up to the first one that is not smaller,
and put somewhere near to it if it is not there. The list is in order as long as it is put right
before that one. -/

namespace Placement

variable {α β : Type*} [DecidableEq α] [LinearOrder β] (key : α → β)

/-- The place of the first element that is `a` or larger. -/
def search (a : α) (l : List α) : ℕ := l.findIdx fun b => a = b ∨ key a < key b

/-- The list with `a`, at the place `pos` if it was not there. -/
def place (pos : ℕ) (a : α) (l : List α) : List α :=
  if l[search key a l]? = some a then l else l.insertIdx pos a

def Increasing (l : List α) : Prop := l.Pairwise fun a b => key a < key b

variable {key} {a : α} {l l' : List α} {pos i : ℕ}

theorem search_le : search key a l ≤ l.length := List.findIdx_le_length

theorem le_of_lt_search {b : α} (hi : i < search key a l) (hb : l[i]? = some b) :
    a ≠ b ∧ key b ≤ key a := by
  have hnot := List.not_of_lt_findIdx hi
  obtain ⟨hlt, rfl⟩ := List.getElem?_eq_some_iff.mp hb
  simpa [not_or] using hnot

theorem of_getElem?_search {b : α} (hb : l[search key a l]? = some b) : a = b ∨ key a < key b := by
  have hfound := List.findIdx_of_getElem?_eq_some (p := fun b => decide (a = b ∨ key a < key b)) hb
  exact of_decide_eq_true hfound

theorem le_of_mem_take {b : α} (hb : b ∈ l.take (search key a l)) : a ≠ b ∧ key b ≤ key a := by
  obtain ⟨i, hi, rfl⟩ := List.mem_take_iff_getElem.mp hb
  obtain ⟨hlt, hlen⟩ := lt_min_iff.mp hi
  exact le_of_lt_search hlt (List.getElem?_eq_getElem hlen)

theorem lt_of_mem_drop {b : α} (hl : Increasing key l) (ha : a ∉ l)
    (hb : b ∈ l.drop (search key a l)) : key a < key b := by
  obtain ⟨i, hi, rfl⟩ := List.mem_drop_iff_getElem.mp hb
  have hi' : search key a l + i < l.length := by omega
  have hsearch : search key a l < l.length := by omega
  have hfirst : key a < key l[search key a l] := by
    rcases of_getElem?_search (List.getElem?_eq_getElem hsearch) with heq | hlt
    · exact absurd (heq ▸ List.getElem_mem hsearch) ha
    · exact hlt
  rcases Nat.eq_zero_or_pos i with rfl | hpos
  · exact hfirst
  · exact hfirst.trans (List.pairwise_iff_getElem.mp hl _ _ hsearch hi' (by omega))

omit [DecidableEq α] in
theorem insertIdx_eq (hpos : pos ≤ l.length) : l.insertIdx pos a = l.take pos ++ a :: l.drop pos := by
  induction l generalizing pos with
  | nil =>
    obtain rfl := Nat.le_zero.mp hpos
    rfl
  | cons b l ih =>
    cases pos with
    | zero => rfl
    | succ n =>
      rw [List.insertIdx_succ_cons, ih (Nat.le_of_succ_le_succ hpos)]
      rfl

omit [DecidableEq α] in
theorem increasing_insertIdx (hpos : pos ≤ l.length) : Increasing key (l.insertIdx pos a) ↔
    Increasing key l ∧ (∀ b ∈ l.take pos, key b < key a) ∧ ∀ b ∈ l.drop pos, key a < key b := by
  have hsplit : Increasing key l ↔ Increasing key (l.take pos ++ l.drop pos) := by
    rw [List.take_append_drop]
  rw [hsplit, insertIdx_eq hpos]
  unfold Increasing
  rw [List.pairwise_append, List.pairwise_append, List.pairwise_cons]
  simp only [List.mem_cons, forall_eq_or_imp]
  constructor
  · intro ⟨htake, ⟨hdrop, hd⟩, hcross⟩
    exact ⟨⟨htake, hd, fun b hb => (hcross b hb).2⟩, fun b hb => (hcross b hb).1, hdrop⟩
  · intro ⟨⟨htake, hd, hcross⟩, hlt, hdrop⟩
    exact ⟨htake, ⟨hdrop, hd⟩, fun b hb => ⟨hlt b hb, hcross b hb⟩⟩

theorem mem_place {b : α} (hpos : pos ≤ l.length) : b ∈ place key pos a l ↔ b = a ∨ b ∈ l := by
  unfold place
  split
  case isTrue hfound =>
    have ha : a ∈ l := List.mem_of_getElem? hfound
    exact ⟨Or.inr, fun h => h.elim (fun he => he ▸ ha) id⟩
  case isFalse => exact List.mem_insertIdx hpos

theorem found_of_mem (hl : Increasing key l) (ha : a ∈ l) : l[search key a l]? = some a := by
  obtain ⟨j, hj, hja⟩ := List.mem_iff_getElem.mp ha
  have hle : search key a l ≤ j := by
    by_contra hlt
    exact (le_of_lt_search (not_le.mp hlt) (List.getElem?_eq_getElem hj)).1 hja.symm
  have hsearch : search key a l < l.length := hle.trans_lt hj
  rw [List.getElem?_eq_getElem hsearch]
  rcases of_getElem?_search (List.getElem?_eq_getElem hsearch) with heq | hlt
  · rw [← heq]
  · rcases hle.eq_or_lt with heq | hlt'
    · simp only [heq, hja]
    · have hincreasing := List.pairwise_iff_getElem.mp hl _ _ hsearch hj hlt'
      rw [hja] at hincreasing
      exact absurd (hlt.trans hincreasing) (lt_irrefl _)

theorem increasing_place (hpos : pos ≤ l.length) : Increasing key (place key pos a l) ↔
    Increasing key l ∧
      (a ∈ l ∨ (∀ b ∈ l.take pos, key b < key a) ∧ ∀ b ∈ l.drop pos, key a < key b) := by
  unfold place
  split
  case isTrue hfound => simp [List.mem_of_getElem? hfound]
  case isFalse hnone =>
    rw [increasing_insertIdx hpos]
    refine and_congr_right fun hl => ?_
    have ha : a ∉ l := fun ha => hnone (found_of_mem hl ha)
    simp [ha]

omit [DecidableEq α] in
theorem increasing_foldl {f : List α → α → List α} {Q : List α → α → Prop}
    (hf : ∀ l a, Increasing key (f l a) ↔ Increasing key l ∧ Q l a) (as : List α) :
    Increasing key (as.foldl f []) ↔ ∀ as₁ a as₂, as = as₁ ++ a :: as₂ → Q (as₁.foldl f []) a := by
  rw [Insertion.foldl_iff (P := Increasing key) hf]
  exact and_iff_right List.Pairwise.nil

omit [DecidableEq α] in
theorem eq_of_increasing (hl : Increasing key l) (hl' : Increasing key l')
    (h : ∀ a, a ∈ l ↔ a ∈ l') : l = l' := by
  have hnodup {l : List α} (hl : Increasing key l) : l.Nodup := by
    refine hl.imp fun hlt heq => ?_
    exact (heq ▸ hlt).false
  have hperm : l.Perm l' := (List.perm_ext_iff_of_nodup (hnodup hl) (hnodup hl')).mpr h
  exact hperm.eq_of_pairwise (fun a b _ _ hab hba => absurd (hab.trans hba) (lt_irrefl _)) hl hl'

end Placement
