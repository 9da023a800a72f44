import Livingstone.Lib.BinaryHeap

/-! The heap of pointers of the agenda (`binaryheap.h`). Its elements are compared by a key; the
heap is ordered by `operator>` or by `operator<`. An array of pointers takes less than 2^32 bytes,
so that the indices, which are computed as `int`, are numbers here. -/

namespace Livingstone

namespace Opsat

structure BoundsError where
  errorString : String
  deriving DecidableEq, Repr

/-- The heap is in decreasing order if `order` is 0, and in increasing order if it is 1. -/
structure BinaryHeap (α : Type*) where
  order : Fin 2
  arr : List α

namespace BinaryHeap

variable {α κ : Type*} [LinearOrder κ] (key : α → κ)

/-- `compare[0]` is `operator>`, and `compare[1]` is `operator<`. -/
def compare (order : Fin 2) (x y : α) : Bool :=
  if order = 0 then key y < key x else key x < key y

def new (inorder : Fin 2) : BinaryHeap α := ⟨inorder, []⟩

def parent (i : ℕ) : ℕ := i >>> 1

def left (i : ℕ) : ℕ := i <<< 1

def right (i : ℕ) : ℕ := (i <<< 1) + 1

def size (h : BinaryHeap α) : ℕ := h.arr.length

/-- The loop of `insert`: elements that `pin` comes before move down into the free place `i`. There
are no more turns than `i`. -/
def insertLoop (order : Fin 2) (pin : α) : ℕ → List α → ℕ → List α
  | 0, arr, i => arr.set i pin
  | turns + 1, arr, i =>
    match arr[parent i]? with
    | none => arr.set i pin
    | some p =>
      if 0 < i ∧ compare key (1 - order) p pin then
        insertLoop order pin turns (arr.set i p) (parent i)
      else arr.set i pin

def insert (pin : α) (h : BinaryHeap α) : BinaryHeap α :=
  { h with arr := insertLoop key h.order pin h.size (h.arr ++ [pin]) h.size }

/-- The test of `heapify`; an index beyond the last one is of no element. -/
def outOfOrder (order : Fin 2) (arr : List α) (i j : ℕ) : Bool :=
  match arr[i]?, arr[j]? with
  | some x, some y => compare key order x y
  | _, _ => false

/-- `largest` at the end of one turn of `heapify`. -/
def largest (order : Fin 2) (arr : List α) (i : ℕ) : ℕ :=
  let lastIndex := arr.length - 1
  let l := left i
  let r := right i
  let largest := if l ≤ lastIndex ∧ outOfOrder key order arr l i then l else i
  if r ≤ lastIndex ∧ outOfOrder key order arr r largest then r else largest

def exchange (arr : List α) (i₁ i₂ : ℕ) : List α :=
  match arr[i₁]?, arr[i₂]? with
  | some tmp₁, some tmp₂ => (arr.set i₁ tmp₂).set i₂ tmp₁
  | _, _ => arr

def heapify (order : Fin 2) : ℕ → List α → ℕ → List α
  | 0, arr, _ => arr
  | turns + 1, arr, i =>
    if largest key order arr i ≠ i then
      heapify order turns (exchange arr i (largest key order arr i)) (largest key order arr i)
    else arr

def pop (h : BinaryHeap α) : Except BoundsError (α × BinaryHeap α) :=
  match h.arr with
  | [] => .error ⟨"popping with no elements left"⟩
  | top :: _ =>
    let arr := SwapRemove.swapRemove h.arr 0
    .ok (top, { h with arr := if 0 < arr.length then heapify key h.order arr.length arr 0 else arr })

/-- Everything is popped; there are as many turns as elements. -/
def popAll : ℕ → BinaryHeap α → List α
  | 0, _ => []
  | turns + 1, h =>
    match pop key h with
    | .ok (top, h) => top :: popAll turns h
    | .error _ => []

def Ordered (h : BinaryHeap α) : Prop :=
  ∀ i, 0 < i → ∀ x p, h.arr[i]? = some x → h.arr[parent i]? = some p →
    compare key h.order x p = false

end BinaryHeap

end Opsat

variable {α κ κ' : Type*} [LinearOrder κ] [LinearOrder κ'] {key : α → κ} {rank : α → κ'}
  {order : Fin 2} {h : Opsat.BinaryHeap α}

/-- The order of the heap is that of `rank`. -/
structure Opsat.BinaryHeap.Ranks (key : α → κ) (order : Fin 2) (rank : α → κ') : Prop where
  compare : ∀ x y, compare key order x y = true ↔ rank x < rank y
  converse : ∀ x y, Opsat.BinaryHeap.compare key (1 - order) x y = true ↔ rank y < rank x

theorem Opsat.BinaryHeap.ranks_decreasing (key : α → κ) :
    Ranks key 0 (OrderDual.toDual ∘ key) where
  compare x y := by simp [Opsat.BinaryHeap.compare]
  converse x y := by simp [Opsat.BinaryHeap.compare]

theorem Opsat.BinaryHeap.ranks_increasing (key : α → κ) : Ranks key 1 key where
  compare x y := by simp [Opsat.BinaryHeap.compare]
  converse x y := by simp [Opsat.BinaryHeap.compare]

section

variable (hr : Opsat.BinaryHeap.Ranks key order rank)

include hr

theorem insertLoop_eq (pin : α) (turns : ℕ) (arr : List α) (i : ℕ) :
    Opsat.BinaryHeap.insertLoop key order pin turns arr i =
      BinaryHeap.siftUp rank pin turns arr i := by
  induction turns generalizing arr i with
  | zero => rfl
  | succ turns ih =>
    unfold Opsat.BinaryHeap.insertLoop BinaryHeap.siftUp
    have hparent : BinaryHeap.parent i = Opsat.BinaryHeap.parent i := (Nat.shiftRight_one i).symm
    rw [hparent]
    cases arr[Opsat.BinaryHeap.parent i]? with
    | none => rfl
    | some p => simp only [hr.converse, ih]

theorem smaller_eq_ite (arr : List α) (i j : ℕ) : BinaryHeap.smaller rank arr j i =
    if Opsat.BinaryHeap.outOfOrder key order arr i j then i else j := by
  unfold BinaryHeap.smaller Opsat.BinaryHeap.outOfOrder
  cases arr[i]? <;> cases arr[j]? <;> simp [hr.compare]

theorem largest_eq (arr : List α) (i : ℕ) :
    Opsat.BinaryHeap.largest key order arr i = BinaryHeap.least rank arr i := by
  have hrange {i j : ℕ} (h : Opsat.BinaryHeap.outOfOrder key order arr i j = true) :
      i ≤ arr.length - 1 := by
    unfold Opsat.BinaryHeap.outOfOrder at h
    split at h
    · next x y hx hy =>
      have hlt := (List.getElem?_eq_some_iff.mp hx).1
      omega
    · cases h
  have htest (i j : ℕ) : (i ≤ arr.length - 1 ∧
      Opsat.BinaryHeap.outOfOrder key order arr i j = true) ↔
        Opsat.BinaryHeap.outOfOrder key order arr i j = true := and_iff_right_of_imp hrange
  have hleft : 2 * i = Opsat.BinaryHeap.left i := (Nat.shiftLeft_eq i 1).trans (by omega) |>.symm
  have hright : Opsat.BinaryHeap.left i + 1 = Opsat.BinaryHeap.right i := rfl
  unfold BinaryHeap.least Opsat.BinaryHeap.largest
  simp only [htest, hleft, hright, smaller_eq_ite hr]

theorem heapify_eq (turns : ℕ) (arr : List α) (i : ℕ) :
    Opsat.BinaryHeap.heapify key order turns arr i = BinaryHeap.heapify rank turns arr i := by
  induction turns generalizing arr i with
  | zero => rfl
  | succ turns ih =>
    unfold Opsat.BinaryHeap.heapify BinaryHeap.heapify
    rw [largest_eq hr, ih, ite_not]
    rfl

end

theorem arr_insert (hr : Opsat.BinaryHeap.Ranks key h.order rank) (pin : α) :
    (h.insert key pin).arr = BinaryHeap.insert rank pin h.arr := insertLoop_eq hr pin _ _ _

theorem arr_pop (hr : Opsat.BinaryHeap.Ranks key h.order rank) :
    (h.pop key).toOption.map (fun r => (r.1, r.2.arr)) = BinaryHeap.pop rank h.arr := by
  unfold Opsat.BinaryHeap.pop
  cases harr : h.arr with
  | nil => rfl
  | cons top arr =>
    have hlength : (SwapRemove.swapRemove (top :: arr) 0).length = arr.length :=
      SwapRemove.length_swapRemove (Nat.zero_lt_succ _)
    unfold BinaryHeap.pop
    dsimp only [Except.toOption, Option.map_some]
    rw [heapify_eq hr, hlength]
    split
    case isTrue => rfl
    case isFalse hnone =>
      rw [Nat.eq_zero_of_not_pos hnone]
      rfl

theorem ordered_iff (hr : Opsat.BinaryHeap.Ranks key h.order rank) :
    h.Ordered key ↔ BinaryHeap.Ordered rank h.arr := by
  unfold Opsat.BinaryHeap.Ordered BinaryHeap.Ordered
  have hparent (i : ℕ) : Opsat.BinaryHeap.parent i = BinaryHeap.parent i := Nat.shiftRight_one i
  simp only [hparent, Bool.eq_false_iff, ne_eq, hr.compare, not_lt]

end Livingstone
