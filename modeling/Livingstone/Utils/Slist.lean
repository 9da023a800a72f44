import Livingstone.Lib.LinkedList
import Livingstone.Lib.Loop

/-! Singly linked lists (`slist.h`, `slist_item.h`, `slist_iterator.h`). Their items are allocated
and freed one by one. The recorded length is a number. -/

namespace Livingstone

open LinkedList (Allocator Memory Item Segment addresses)

/-- A failed assertion, a pointer to an item that is not in use is followed, or a loop takes more
turns than it was given. -/
inductive PointerError where
  | assertion
  | dangling
  | outOfFuel
  deriving DecidableEq, Repr

structure Slist where
  head : Option ℕ := none
  length : ℕ := 0
  deriving DecidableEq, Repr

/-- The previous item is there for the erasure of the current one. -/
structure SlistIterator where
  current : Option ℕ
  previous : Option ℕ := none
  deriving DecidableEq, Repr

variable {α : Type}

def readItem (m : Memory α) (a : ℕ) : Except PointerError (Item α) :=
  match m.cell a with
  | some x => .ok x
  | none => .error .dangling

def setNext (a : ℕ) (next : Option ℕ) (m : Memory α) : Except PointerError (Memory α) := do
  let x ← readItem m a
  return m.put a { x with next := next }

namespace SlistIterator

def increment (m : Memory α) (pos : SlistIterator) : Except PointerError SlistIterator :=
  match pos.current with
  | none => .ok pos
  | some a => do
    let x ← readItem m a
    return { current := x.next, previous := some a }

def deref (m : Memory α) (pos : SlistIterator) : Except PointerError α :=
  match pos.current with
  | none => .error .assertion
  | some a => do
    let x ← readItem m a
    return x.item

def eq (pos pos' : SlistIterator) : Bool := pos.current = pos'.current

end SlistIterator

namespace Slist

def begin (s : Slist) : SlistIterator := { current := s.head }

def «end» : SlistIterator := { current := none }

def empty (s : Slist) : Bool := s.head.isNone

def size (s : Slist) : ℕ := s.length

def pushFront (A : Allocator α) (value : α) (m : Memory α) (s : Slist) : Memory α × Slist :=
  let a := A.new m
  (m.put a ⟨value, s.head⟩, { head := some a, length := s.length + 1 })

/-- The iterator to the new item, and what becomes of `pos`, the items and the list. -/
def insertBefore (A : Allocator α) (pos : SlistIterator) (value : α) (m : Memory α) (s : Slist) :
    Except PointerError (SlistIterator × SlistIterator × Memory α × Slist) :=
  if pos.eq s.begin then
    let (m, s) := pushFront A value m s
    .ok (s.begin, pos, m, s)
  else if pos.eq «end» then .error .assertion
  else
    match pos.current, pos.previous with
    | some current, some previous => do
      let newItem := A.new m
      let m := m.put newItem ⟨value, some current⟩
      let m ← setNext previous (some newItem) m
      return ({ current := some newItem, previous := some previous },
        { pos with previous := some newItem }, m, { s with length := s.length + 1 })
    | _, _ => .error .assertion

/-- `erase` at an iterator, which goes on to the next item. -/
def erase (pos : SlistIterator) (m : Memory α) (s : Slist) :
    Except PointerError (SlistIterator × Memory α × Slist) :=
  match pos.current with
  | none => .ok (pos, m, s)
  | some current => do
    let x ← readItem m current
    let m := m.free current
    let pos := { pos with current := x.next }
    match pos.previous with
    | some previous => do
      let m ← setNext previous x.next m
      return (pos, m, { s with length := s.length - 1 })
    | none => return (pos, m, { head := x.next, length := s.length - 1 })

/-- `Slist_item::delete_list`. Each turn frees an item, so that the bound of the memory is enough. -/
def deleteList : ℕ → Option ℕ → Memory α → Except PointerError (Memory α)
  | _, none, m => .ok m
  | 0, some _, _ => .error .outOfFuel
  | turns + 1, some cur, m => do
    let x ← readItem m cur
    deleteList turns x.next (m.free cur)

/-- `erase` of all elements. -/
def eraseAll (m : Memory α) (s : Slist) : Except PointerError (Memory α × Slist) :=
  if s.head.isSome then do
    let m ← deleteList m.bound s.head m
    return (m, {})
  else .ok (m, s)

end Slist

/-- The list has the items `l`. -/
structure Slist.Holds (m : Memory α) (s : Slist) (l : List (ℕ × α)) : Prop where
  segment : Segment m s.head l none
  nodup : (addresses l).Nodup
  length : s.length = l.length

/-- The iterator is between `l` and `r`. -/
structure SlistIterator.At (l r : List (ℕ × α)) (pos : SlistIterator) : Prop where
  current : pos.current = r.head?.map Prod.fst
  previous : r ≠ [] → pos.previous = l.getLast?.map Prod.fst

variable {A : Allocator α} {m m' : Memory α} {s : Slist} {l r : List (ℕ × α)} {n : ℕ × α}
  {pos : SlistIterator} {value : α}

theorem readItem_eq {a : ℕ} {x : Item α} (h : m.cell a = some x) : readItem m a = .ok x := by
  rw [readItem, h]

theorem setNext_eq {a : ℕ} {x : Item α} (next : Option ℕ) (h : m.cell a = some x) :
    setNext a next m = .ok (m.put a { x with next := next }) := by
  rw [setNext, readItem_eq h]
  rfl

namespace Slist

theorem holds_empty (m : Memory α) : Holds m {} [] := ⟨rfl, List.nodup_nil, rfl⟩

theorem Holds.congr (h : s.Holds m l) (hm : ∀ a ∈ addresses l, m'.cell a = m.cell a) :
    s.Holds m' l := ⟨h.segment.congr hm, h.nodup, h.length⟩

theorem Holds.head (h : s.Holds m l) : s.head = l.head?.map Prod.fst := h.segment.start

theorem Holds.cell (h : s.Holds m (l ++ n :: r)) :
    m.cell n.1 = some ⟨n.2, r.head?.map Prod.fst⟩ := by
  obtain ⟨z, -, -, w, hw, hr⟩ := LinkedList.segment_append.mp h.segment
  rw [hw, hr.start]

theorem Holds.empty_iff (h : s.Holds m l) : s.empty = true ↔ l = [] := by
  rw [empty, h.head]
  cases l <;> simp

theorem Holds.atBegin (h : s.Holds m l) : SlistIterator.At [] l s.begin := ⟨h.head, fun _ => rfl⟩

theorem Holds.pushFront (h : s.Holds m l) (A : Allocator α) (value : α) :
    (s.pushFront A value m).2.Holds (s.pushFront A value m).1 ((A.new m, value) :: l) := by
  have hnew : A.new m ∉ addresses l := fun ha => h.segment.used ha (A.unused m)
  refine ⟨⟨rfl, s.head, m.cell_put_self _ _, h.segment.congr fun a ha => ?_⟩,
    List.nodup_cons.mpr ⟨hnew, h.nodup⟩, congrArg (· + 1) h.length⟩
  exact m.cell_put_of_ne _ fun heq => hnew (heq ▸ ha)

end Slist

namespace SlistIterator

theorem At.eq_end_iff (hpos : At l r pos) : pos.eq Slist.«end» = true ↔ r = [] := by
  have hcurrent := hpos.current
  cases r <;> simp_all [SlistIterator.eq, Slist.«end»]

theorem At.eq_begin_iff (hpos : At l r pos) (h : s.Holds m (l ++ r)) :
    pos.eq s.begin = true ↔ l = [] := by
  rw [SlistIterator.eq, decide_eq_true_eq, hpos.current, h.atBegin.current]
  cases l with
  | nil => simp
  | cons n l =>
    refine iff_of_false (fun heq => ?_) (List.cons_ne_nil n l)
    cases r with
    | nil => cases heq
    | cons n' r =>
      have haddress : n'.1 = n.1 := Option.some.inj heq
      have hnodup := h.nodup
      rw [List.cons_append, LinkedList.addresses_cons, List.nodup_cons] at hnodup
      refine hnodup.1 (haddress ▸ LinkedList.mem_addresses (List.mem_append_right l ?_))
      exact List.mem_cons_self

theorem At.increment (hpos : At l (n :: r) pos) (h : s.Holds m (l ++ n :: r)) :
    ∃ pos', pos.increment m = .ok pos' ∧ At (l ++ [n]) r pos' := by
  have hcurrent : pos.current = some n.1 := hpos.current
  refine ⟨⟨r.head?.map Prod.fst, some n.1⟩, ?_, rfl, fun _ => by simp⟩
  rw [SlistIterator.increment, hcurrent]
  dsimp only
  rw [readItem_eq h.cell]
  rfl

theorem At.increment_end (hpos : At l [] pos) : pos.increment m = .ok pos := by
  have hcurrent : pos.current = none := hpos.current
  rw [SlistIterator.increment, hcurrent]

theorem At.deref (hpos : At l (n :: r) pos) (h : s.Holds m (l ++ n :: r)) :
    pos.deref m = .ok n.2 := by
  have hcurrent : pos.current = some n.1 := hpos.current
  rw [SlistIterator.deref, hcurrent]
  dsimp only
  rw [readItem_eq h.cell]
  rfl

end SlistIterator

namespace Slist

open SlistIterator (At)

theorem Holds.erase (h : s.Holds m (l ++ n :: r)) (hpos : At l (n :: r) pos) :
    ∃ pos' m' s', s.erase pos m = .ok (pos', m', s') ∧ s'.Holds m' (l ++ r) ∧ At l r pos' ∧
      ∀ a ∉ addresses (l ++ n :: r), m'.cell a = m.cell a := by
  have hcurrent : pos.current = some n.1 := hpos.current
  have hprevious := hpos.previous (List.cons_ne_nil n r)
  have hnodup := h.nodup
  rw [LinkedList.addresses_append, LinkedList.addresses_cons, List.nodup_append'] at hnodup
  obtain ⟨hl, hnr, hdisjoint⟩ := hnodup
  obtain ⟨hn, hr⟩ := List.nodup_cons.mp hnr
  have hnl : n.1 ∉ addresses l := fun ha => hdisjoint ha List.mem_cons_self
  have hkept : (addresses (l ++ r)).Nodup := by
    rw [LinkedList.addresses_append, List.nodup_append']
    exact ⟨hl, hr, fun _ ha hb => hdisjoint ha (List.mem_cons_of_mem n.1 hb)⟩
  obtain ⟨z, hsl, -, w, hw, hsr⟩ := LinkedList.segment_append.mp h.segment
  have hlength : s.length - 1 = (l ++ r).length := by
    rw [h.length, List.length_append, List.length_append, List.length_cons]
    omega
  have hfree {a : ℕ} (ha : a ≠ n.1) : (m.free n.1).cell a = m.cell a := m.cell_free_of_ne ha
  have hsr' : Segment (m.free n.1) (r.head?.map Prod.fst) r none :=
    hsr.start ▸ hsr.congr fun a ha => hfree fun heq => hn (heq ▸ ha)
  rw [Slist.erase, hcurrent]
  dsimp only
  rw [readItem_eq h.cell, hprevious]
  rcases List.eq_nil_or_concat l with rfl | ⟨l, b, rfl⟩
  · -- the first item goes
    refine ⟨_, _, _, rfl, ⟨hsr', hkept, hlength⟩, ⟨rfl, fun _ => rfl⟩, fun a ha => ?_⟩
    exact hfree fun heq => ha (heq ▸ List.mem_cons_self)
  · -- the item before it is linked to the one after it
    rw [List.concat_eq_append] at *
    have hbn : b.1 ≠ n.1 := fun heq => hnl (heq ▸ LinkedList.mem_addresses (by simp))
    have hbcell : (m.free n.1).cell b.1 = some ⟨b.2, z⟩ :=
      (hfree hbn).trans (LinkedList.segment_concat.mp hsl).2
    have hsl' : Segment (m.free n.1) s.head (l ++ [b]) z :=
      hsl.congr fun a ha => hfree fun heq => hnl (heq ▸ ha)
    rw [LinkedList.addresses_append, List.nodup_append'] at hl
    have hbl : b.1 ∉ addresses l := fun ha => hl.2.2 ha List.mem_cons_self
    have hbr : b.1 ∉ addresses r := fun ha =>
      hdisjoint (LinkedList.mem_addresses (by simp)) (List.mem_cons_of_mem n.1 ha)
    have hlast : ((l ++ [b]).getLast?.map Prod.fst) = some b.1 := by simp
    rw [hlast]
    dsimp only [bind, Except.bind]
    rw [setNext_eq _ hbcell]
    refine ⟨_, _, _, rfl, ⟨LinkedList.segment_append.mpr ⟨_, hsl'.relink hbl _, ?_⟩, hkept,
      hlength⟩, ⟨rfl, fun _ => hlast.symm⟩, fun a ha => ?_⟩
    · exact hsr'.congr fun a ha => Memory.cell_put_of_ne _ _ fun heq => hbr (heq ▸ ha)
    · rw [LinkedList.addresses_append, LinkedList.addresses_cons] at ha
      have hab : a ≠ b.1 := fun heq =>
        ha (heq ▸ List.mem_append_left _ (LinkedList.mem_addresses (by simp)))
      rw [Memory.cell_put_of_ne _ _ hab]
      exact hfree fun heq => ha (heq ▸ List.mem_append_right _ List.mem_cons_self)

theorem deleteList_eq {turns : ℕ} {p : Option ℕ} (h : Segment m p l none)
    (hn : (addresses l).Nodup) (hturns : l.length ≤ turns) :
    ∃ m', deleteList turns p m = .ok m' ∧ ∀ a ∉ addresses l, m'.cell a = m.cell a := by
  induction l generalizing turns p m with
  | nil =>
    obtain rfl : p = none := h
    cases turns <;> exact ⟨m, rfl, fun _ _ => rfl⟩
  | cons n l ih =>
    obtain ⟨rfl, z, hz, hl⟩ := h
    obtain ⟨hn, hnodup⟩ := List.nodup_cons.mp hn
    obtain ⟨turns, rfl⟩ : ∃ k, turns = k + 1 := ⟨turns - 1, by simp at hturns; omega⟩
    have hleft : Segment (m.free n.1) z l none :=
      hl.congr fun a ha => m.cell_free_of_ne fun heq => hn (heq ▸ ha)
    obtain ⟨m', hm', hsame⟩ := ih hleft hnodup (Nat.le_of_succ_le_succ hturns)
    refine ⟨m', ?_, fun a ha => ?_⟩
    · rw [deleteList, readItem_eq hz]
      exact hm'
    · obtain ⟨hne, ha⟩ := not_or.mp (mt List.mem_cons.mpr ha)
      rw [hsame a ha, m.cell_free_of_ne hne]

theorem Holds.eraseAll (h : s.Holds m l) :
    ∃ m' s', s.eraseAll m = .ok (m', s') ∧ s'.Holds m' [] ∧
      ∀ a ∉ addresses l, m'.cell a = m.cell a := by
  rw [Slist.eraseAll]
  split_ifs with hhead
  · obtain ⟨m', hm', hsame⟩ := deleteList_eq h.segment h.nodup (h.segment.length_le h.nodup)
    refine ⟨m', {}, ?_, holds_empty m', hsame⟩
    rw [hm']
    rfl
  · have hnil : l = [] := by
      have hempty := h.empty_iff
      rw [empty] at hempty
      simp_all
    exact ⟨m, s, rfl, hnil ▸ h, fun _ _ => rfl⟩

end Slist

end Livingstone
