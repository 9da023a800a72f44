import Livingstone.Lib.Loop
import Livingstone.Opsat.BinaryHeap

/-! Runs of the heap: what is popped comes before all that is left. -/

namespace Livingstone
namespace Opsat
namespace BinaryHeap

universe u v

variable {α : Type u} {κ : Type v} [LinearOrder κ] {key : α → κ} {h h' : BinaryHeap α} {top : α}

theorem exists_ranks (key : α → κ) (order : Fin 2) :
    ∃ (κ' : Type v) (_ : LinearOrder κ') (rank : α → κ'), Ranks key order rank :=
  match order with
  | 0 => ⟨κᵒᵈ, inferInstance, _, ranks_decreasing key⟩
  | 1 => ⟨κ, inferInstance, key, ranks_increasing key⟩

theorem Ordered.insert (ho : h.Ordered key) (pin : α) : (h.insert key pin).Ordered key := by
  obtain ⟨κ', _, rank, hr⟩ := exists_ranks key h.order
  have hr' : Ranks key (h.insert key pin).order rank := hr
  rw [ordered_iff hr', arr_insert hr]
  exact BinaryHeap.ordered_insert ((ordered_iff hr).mp ho) pin

theorem perm_insert (pin : α) (h : BinaryHeap α) : (h.insert key pin).arr.Perm (pin :: h.arr) := by
  obtain ⟨κ', _, rank, hr⟩ := exists_ranks key h.order
  rw [arr_insert hr]
  exact BinaryHeap.insert_perm pin h.arr

theorem order_pop (hpop : h.pop key = .ok (top, h')) : h'.order = h.order := by
  unfold pop at hpop
  split at hpop
  · cases hpop
  · obtain ⟨-, rfl⟩ := Prod.mk.inj (Except.ok.inj hpop)
    rfl

theorem exists_pop (key : α → κ) (hne : h.arr ≠ []) : ∃ top h', h.pop key = .ok (top, h') := by
  unfold pop
  split
  case h_1 hnil => exact absurd hnil hne
  case h_2 => exact ⟨_, _, rfl⟩

theorem pop_error (hnil : h.arr = []) :
    h.pop key = .error ⟨"popping with no elements left"⟩ := by
  unfold pop
  rw [hnil]

theorem Ordered.pop (ho : h.Ordered key) (hpop : h.pop key = .ok (top, h')) :
    h'.Ordered key ∧ h.arr.Perm (top :: h'.arr) ∧
      ∀ y ∈ h.arr, compare key h.order y top = false := by
  obtain ⟨κ', _, rank, hr⟩ := exists_ranks key h.order
  have hr' : Ranks key h'.order rank := order_pop hpop ▸ hr
  have horder := (ordered_iff hr).mp ho
  have harr := (arr_pop hr).symm
  rw [hpop] at harr
  refine ⟨(ordered_iff hr').mpr (BinaryHeap.ordered_pop horder harr), BinaryHeap.pop_perm harr, ?_⟩
  intro y hy
  have hle := BinaryHeap.root_le horder (BinaryHeap.pop_top harr) y hy
  rw [Bool.eq_false_iff, ne_eq, hr.compare]
  exact not_lt.mpr hle

theorem Ordered.popAll (turns : ℕ) (ho : h.Ordered key) (hturns : h.arr.length ≤ turns) :
    (h.popAll key turns).Perm h.arr ∧
      (h.popAll key turns).Pairwise fun x y => compare key h.order y x = false := by
  induction turns generalizing h with
  | zero =>
    have hnil : h.arr = [] := List.eq_nil_of_length_eq_zero (Nat.le_zero.mp hturns)
    exact ⟨hnil ▸ List.Perm.refl _, List.Pairwise.nil⟩
  | succ turns ih =>
    unfold BinaryHeap.popAll
    by_cases hnil : h.arr = []
    · rw [pop_error hnil, hnil]
      exact ⟨List.Perm.refl _, List.Pairwise.nil⟩
    · obtain ⟨top, h', hpop⟩ := exists_pop key hnil
      obtain ⟨ho', hperm, hleast⟩ := ho.pop hpop
      have hlength := hperm.length_eq
      rw [List.length_cons] at hlength
      obtain ⟨hall, hsorted⟩ := ih ho' (by omega)
      rw [order_pop hpop] at hsorted
      rw [hpop]
      refine ⟨(hall.cons top).trans hperm.symm, List.pairwise_cons.mpr ⟨fun y hy => ?_, hsorted⟩⟩
      exact hleast y (hperm.mem_iff.mpr (List.mem_cons_of_mem top (hall.mem_iff.mp hy)))

inductive HeapOp (α : Type*) where
  | insert (pin : α)
  | pop

/-- With what was popped so far. A pop that fails leaves the heap as it is. -/
def step (key : α → κ) (s : BinaryHeap α × List α) : HeapOp α → BinaryHeap α × List α
  | .insert pin => (s.1.insert key pin, s.2)
  | .pop =>
    match s.1.pop key with
    | .ok (top, h) => (h, s.2 ++ [top])
    | .error _ => s

def run (key : α → κ) (inorder : Fin 2) (ops : List (HeapOp α)) : BinaryHeap α × List α :=
  ops.foldl (step key) (new inorder, [])

def HeapOp.inserted? : HeapOp α → Option α
  | .insert pin => some pin
  | .pop => none

def inserted (ops : List (HeapOp α)) : List α := ops.filterMap HeapOp.inserted?

structure Holds (key : α → κ) (inorder : Fin 2) (done : List (HeapOp α))
    (s : BinaryHeap α × List α) : Prop where
  order : s.1.order = inorder
  ordered : s.1.Ordered key
  perm : (s.2 ++ s.1.arr).Perm (inserted done)

theorem Holds.step {inorder : Fin 2} {done : List (HeapOp α)} {s : BinaryHeap α × List α}
    (hs : Holds key inorder done s) (op : HeapOp α) :
    Holds key inorder (done ++ [op]) (step key s op) := by
  unfold BinaryHeap.step
  cases op with
  | insert pin =>
    have hinserted : inserted (done ++ [.insert pin]) = inserted done ++ [pin] := by
      simp [inserted, HeapOp.inserted?]
    refine ⟨hs.order, hs.ordered.insert pin, ?_⟩
    rw [hinserted]
    calc s.2 ++ (s.1.insert key pin).arr
      _ |>.Perm (s.2 ++ pin :: s.1.arr) := (perm_insert pin s.1).append_left s.2
      _ |>.Perm (pin :: (s.2 ++ s.1.arr)) := List.perm_middle
      _ |>.Perm (pin :: inserted done) := hs.perm.cons pin
      _ |>.Perm (inserted done ++ [pin]) := (List.perm_append_singleton pin _).symm
  | pop =>
    have hinserted : inserted (done ++ [.pop]) = inserted done := by
      simp [inserted, HeapOp.inserted?]
    dsimp only
    split
    case h_1 top h hpop =>
      obtain ⟨ho, hperm, -⟩ := hs.ordered.pop hpop
      refine ⟨(order_pop hpop).trans hs.order, ho, ?_⟩
      rw [hinserted, List.append_assoc, List.singleton_append]
      exact (hperm.symm.append_left s.2).trans hs.perm
    case h_2 => exact ⟨hs.order, hs.ordered, hinserted ▸ hs.perm⟩

theorem holds_run (key : α → κ) (inorder : Fin 2) (ops : List (HeapOp α)) :
    Holds key inorder ops (run key inorder ops) := by
  refine Loop.foldl_visited (Holds key inorder) ops (fun done op _ s hs => hs.step op) ?_
  refine ⟨rfl, fun i _ x p hx => ?_, List.Perm.refl _⟩
  rw [new, List.getElem?_nil] at hx
  cases hx

/-- In every run no element is before its parent, and what is popped, if there is anything, is before
or beside all others; all that is left comes out in order, and with what came out before it is what
was put in. -/
theorem heap_runs (key : α → κ) (inorder : Fin 2) (ops : List (HeapOp α)) :
    (run key inorder ops).1.Ordered key ∧
    ((run key inorder ops).1.arr ≠ [] → ∃ top h,
      (run key inorder ops).1.pop key = .ok (top, h) ∧
      (run key inorder ops).1.arr.Perm (top :: h.arr) ∧
      ∀ y ∈ (run key inorder ops).1.arr, compare key inorder y top = false) ∧
    ((run key inorder ops).1.popAll key (run key inorder ops).1.size).Pairwise
      (fun x y => compare key inorder y x = false) ∧
    ((run key inorder ops).2 ++
      (run key inorder ops).1.popAll key (run key inorder ops).1.size).Perm (inserted ops) := by
  have hs := holds_run key inorder ops
  generalize run key inorder ops = s at hs ⊢
  obtain ⟨hall, hsorted⟩ := hs.ordered.popAll s.1.size le_rfl
  refine ⟨hs.ordered, fun hne => ?_, hs.order ▸ hsorted, (hall.append_left s.2).trans hs.perm⟩
  obtain ⟨top, h, hpop⟩ := exists_pop key hne
  obtain ⟨-, hperm, hleast⟩ := hs.ordered.pop hpop
  exact ⟨top, h, hpop, hperm, hs.order ▸ hleast⟩

end BinaryHeap
end Opsat
end Livingstone
