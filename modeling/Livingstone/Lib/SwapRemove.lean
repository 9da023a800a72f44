import Mathlib.Tactic

/-! Removal from an array in constant time: the removed element is replaced by
the last one. The result is the rest of the array up to order, and only the
position of the last element changes. -/

namespace SwapRemove

variable {α : Type*}

def swapRemove (l : List α) (i : ℕ) : List α :=
  match l.getLast? with
  | none => []
  | some x => (l.set i x).dropLast

theorem swapRemove_concat (a : List α) (y : α) : swapRemove (a ++ [y]) a.length = a := by
  simp [swapRemove]

theorem swapRemove_middle (a b : List α) (x y : α) :
    swapRemove (a ++ y :: (b ++ [x])) a.length = a ++ x :: b := by
  have h (z : α) : a ++ z :: (b ++ [x]) = (a ++ z :: b) ++ [x] := by simp
  have hset : (a ++ y :: (b ++ [x])).set a.length x = (a ++ x :: b) ++ [x] := by simp
  have hlast : (a ++ y :: (b ++ [x])).getLast? = some x := by
    rw [h y, List.getLast?_concat]
  simp only [swapRemove, hlast, hset, List.dropLast_concat]

theorem swapRemove_last {l : List α} {i : ℕ} (h : i + 1 = l.length) :
    swapRemove l i = l.dropLast := by
  rcases List.eq_nil_or_concat l with rfl | ⟨a, y, rfl⟩
  · simp at h
  · rw [List.concat_eq_append] at h ⊢
    obtain rfl : i = a.length := by simpa using h
    rw [swapRemove_concat, List.dropLast_concat]

theorem split_at {l : List α} {i : ℕ} (h : i < l.length) :
    ∃ a b, l = a ++ l[i] :: b ∧ a.length = i :=
  ⟨l.take i, l.drop (i + 1), by simp, by simp; omega⟩

theorem perm {l : List α} {i : ℕ} (h : i < l.length) : l.Perm (l[i] :: swapRemove l i) := by
  obtain ⟨a, b, hl, ha⟩ := split_at h
  generalize l[i] = y at hl
  subst hl ha
  rcases List.eq_nil_or_concat b with rfl | ⟨b, x, rfl⟩
  · rw [swapRemove_concat]
    exact List.perm_append_singleton y a
  · rw [List.concat_eq_append, swapRemove_middle]
    refine List.perm_middle.trans (List.Perm.cons y ?_)
    exact (List.Perm.append_left a (List.perm_append_singleton x b))

theorem length_swapRemove {l : List α} {i : ℕ} (h : i < l.length) :
    (swapRemove l i).length = l.length - 1 := by
  have := (perm h).length_eq
  simp only [List.length_cons] at this
  omega

theorem nodup {l : List α} {i : ℕ} (h : i < l.length) (hn : l.Nodup) :
    (swapRemove l i).Nodup :=
  (List.nodup_cons.mp ((perm h).nodup_iff.mp hn)).2

theorem mem_iff {l : List α} {i : ℕ} (h : i < l.length) (hn : l.Nodup) {x : α} :
    x ∈ swapRemove l i ↔ x ∈ l ∧ x ≠ l[i] := by
  have hp := perm h
  have hni := (List.nodup_cons.mp (hp.nodup_iff.mp hn)).1
  rw [hp.mem_iff, List.mem_cons]
  constructor
  · intro hx
    exact ⟨Or.inr hx, fun he => hni (he ▸ hx)⟩
  · rintro ⟨rfl | hx, hne⟩
    · exact absurd rfl hne
    · exact hx

theorem getElem?_of_ne {l : List α} {i j : ℕ} (h : i < l.length) (hj : j ≠ i) {x : α}
    (hx : (swapRemove l i)[j]? = some x) : l[j]? = some x := by
  obtain ⟨a, b, hl, ha⟩ := split_at h
  generalize l[i] = y at hl
  subst hl ha
  rcases List.eq_nil_or_concat b with rfl | ⟨b, z, rfl⟩
  · rw [swapRemove_concat] at hx
    rw [List.getElem?_append_left (List.getElem?_eq_some_iff.mp hx).1]
    exact hx
  · rw [List.concat_eq_append, swapRemove_middle] at hx
    rw [List.concat_eq_append]
    rcases lt_or_gt_of_ne hj with hlt | hgt
    · rw [List.getElem?_append_left hlt] at hx ⊢
      exact hx
    · obtain ⟨k, rfl⟩ : ∃ k, j = a.length + (k + 1) := ⟨j - a.length - 1, by omega⟩
      rw [List.getElem?_append_right (by omega)] at hx ⊢
      simp only [Nat.add_sub_cancel_left, List.getElem?_cons_succ] at hx ⊢
      rw [List.getElem?_append_left (List.getElem?_eq_some_iff.mp hx).1]
      exact hx

/-- Unless the last element was the one removed, the vacated position is filled. -/
theorem lt_length {l : List α} {i : ℕ} (h : i + 1 < l.length) : i < (swapRemove l i).length := by
  rw [length_swapRemove (by omega)]
  omega

/-- The loop over an array that removes the elements with `p`: a removal leaves the
position to the element that takes the place. Each turn passes or removes an element. -/
def sweepFrom (p : α → Bool) : ℕ → ℕ → List α → List α
  | 0, _, l => l
  | n + 1, i, l =>
    match l[i]? with
    | none => l
    | some x => if p x then sweepFrom p n i (swapRemove l i) else sweepFrom p n (i + 1) l

def sweep (p : α → Bool) (l : List α) : List α := sweepFrom p l.length 0 l

theorem sweepFrom_perm (p : α → Bool) {n i : ℕ} {l : List α} (hn : l.length ≤ i + n)
    (hi : ∀ x ∈ l.take i, p x = false) :
    (sweepFrom p n i l).Perm (l.filter fun x => !p x) := by
  induction n generalizing i l with
  | zero =>
    have hl : l.take i = l := List.take_of_length_le (by omega)
    rw [hl] at hi
    rw [sweepFrom, List.filter_eq_self.mpr fun x hx => by simp [hi x hx]]
  | succ n ih =>
    unfold sweepFrom
    cases hget : l[i]? with
    | none =>
      have hlen := List.getElem?_eq_none_iff.mp hget
      rw [List.take_of_length_le hlen] at hi
      simp only
      rw [List.filter_eq_self.mpr fun x hx => by simp [hi x hx]]
    | some x =>
      obtain ⟨hlt, hx⟩ := List.getElem?_eq_some_iff.mp hget
      simp only
      split_ifs with hp
      · have hperm := perm hlt
        have hlen := length_swapRemove hlt
        refine (ih (by omega) fun y hy => ?_).trans ?_
        · obtain ⟨j, hj, hjy⟩ := List.mem_take_iff_getElem.mp hy
          have hjn : (swapRemove l i)[j]? = some y := by
            rw [List.getElem?_eq_getElem (by omega), hjy]
          have hold := getElem?_of_ne hlt (by omega) hjn
          obtain ⟨hjl, hjy⟩ := List.getElem?_eq_some_iff.mp hold
          exact hi y (List.mem_take_iff_getElem.mpr ⟨j, by omega, hjy⟩)
        · have hfilter := hperm.filter fun x => !p x
          rw [List.filter_cons_of_neg (by simp [hx, hp])] at hfilter
          exact hfilter.symm
      · refine ih (by omega) fun y hy => ?_
        rw [List.take_add_one, hget, List.mem_append] at hy
        rcases hy with hy | hy
        · exact hi y hy
        · have hyx : y = x := by simpa using hy
          rw [hyx]
          exact eq_false_of_ne_true hp

theorem sweep_perm (p : α → Bool) (l : List α) :
    (sweep p l).Perm (l.filter fun x => !p x) :=
  sweepFrom_perm p (by omega) (by simp)

end SwapRemove
