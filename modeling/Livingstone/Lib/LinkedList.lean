import Mathlib.Tactic

/-! Singly linked lists of items in memory. An item that was freed may be handed out again. -/

namespace LinkedList

open Function (update update_self update_of_ne)

variable {α : Type*}

structure Item (α : Type*) where
  item : α
  next : Option ℕ

/-- The items that are in use, all of them below the bound. -/
structure Memory (α : Type*) where
  cell : ℕ → Option (Item α)
  bound : ℕ
  unused : ∀ a, bound ≤ a → cell a = none

namespace Memory

def empty : Memory α := ⟨fun _ => none, 0, fun _ _ => rfl⟩

def put (m : Memory α) (a : ℕ) (x : Item α) : Memory α where
  cell := update m.cell a (some x)
  bound := max m.bound (a + 1)
  unused b hb := by
    have hne : b ≠ a := by omega
    rw [update_of_ne hne]
    exact m.unused b (by omega)

def free (m : Memory α) (a : ℕ) : Memory α where
  cell := update m.cell a none
  bound := m.bound
  unused b hb := by
    by_cases h : b = a
    · rw [h, update_self]
    · rw [update_of_ne h, m.unused b hb]

@[simp]
theorem cell_put_self (m : Memory α) (a : ℕ) (x : Item α) : (m.put a x).cell a = some x :=
  update_self ..

@[simp]
theorem cell_free_self (m : Memory α) (a : ℕ) : (m.free a).cell a = none := update_self ..

theorem cell_put_of_ne (m : Memory α) {a b : ℕ} (x : Item α) (h : b ≠ a) :
    (m.put a x).cell b = m.cell b := update_of_ne h ..

theorem cell_free_of_ne (m : Memory α) {a b : ℕ} (h : b ≠ a) : (m.free a).cell b = m.cell b :=
  update_of_ne h ..

theorem lt_bound {m : Memory α} {a : ℕ} (h : m.cell a ≠ none) : a < m.bound :=
  Nat.lt_of_not_le fun hle => h (m.unused a hle)

end Memory

/-- What hands out items: none that is in use. -/
structure Allocator (α : Type*) where
  new : Memory α → ℕ
  unused : ∀ m : Memory α, m.cell (new m) = none

def Allocator.atBound : Allocator α := ⟨Memory.bound, fun m => m.unused m.bound le_rfl⟩

def addresses (l : List (ℕ × α)) : List ℕ := l.map Prod.fst

/-- The items from `p` up to `q`, with their addresses. -/
def Segment (m : Memory α) : Option ℕ → List (ℕ × α) → Option ℕ → Prop
  | p, [], q => p = q
  | p, (a, x) :: l, q => p = some a ∧ ∃ z, m.cell a = some ⟨x, z⟩ ∧ Segment m z l q

variable {m m' : Memory α} {p q z : Option ℕ} {l r : List (ℕ × α)} {a : ℕ} {x : α}

@[simp]
theorem addresses_nil : addresses ([] : List (ℕ × α)) = [] := rfl

@[simp]
theorem addresses_cons (n : ℕ × α) (l : List (ℕ × α)) :
    addresses (n :: l) = n.1 :: addresses l := rfl

@[simp]
theorem addresses_append (l r : List (ℕ × α)) : addresses (l ++ r) = addresses l ++ addresses r :=
  List.map_append

@[simp]
theorem length_addresses (l : List (ℕ × α)) : (addresses l).length = l.length := List.length_map _

theorem mem_addresses {n : ℕ × α} (h : n ∈ l) : n.1 ∈ addresses l := List.mem_map_of_mem h

theorem Segment.congr (h : Segment m p l q) (hm : ∀ a ∈ addresses l, m'.cell a = m.cell a) :
    Segment m' p l q := by
  induction l generalizing p with
  | nil => exact h
  | cons n l ih =>
    obtain ⟨hp, z, hz, hl⟩ := h
    rw [addresses_cons, List.forall_mem_cons] at hm
    exact ⟨hp, z, hm.1.trans hz, ih hl hm.2⟩

theorem segment_append :
    Segment m p (l ++ r) q ↔ ∃ z, Segment m p l z ∧ Segment m z r q := by
  induction l generalizing p with
  | nil => exact ⟨fun h => ⟨p, rfl, h⟩, fun ⟨z, hz, h⟩ => hz ▸ h⟩
  | cons n l ih =>
    constructor
    · intro ⟨hp, z, hz, h⟩
      obtain ⟨w, hl, hr⟩ := ih.mp h
      exact ⟨w, ⟨hp, z, hz, hl⟩, hr⟩
    · intro ⟨w, ⟨hp, z, hz, hl⟩, hr⟩
      exact ⟨hp, z, hz, ih.mpr ⟨w, hl, hr⟩⟩

theorem segment_concat :
    Segment m p (l ++ [(a, x)]) q ↔ Segment m p l (some a) ∧ m.cell a = some ⟨x, q⟩ := by
  rw [segment_append]
  constructor
  · intro ⟨z, hl, hz, w, hw, hq⟩
    exact ⟨hz ▸ hl, hq ▸ hw⟩
  · intro ⟨hl, ha⟩
    exact ⟨some a, hl, rfl, q, ha, rfl⟩

theorem Segment.used (h : Segment m p l q) (ha : a ∈ addresses l) : m.cell a ≠ none := by
  induction l generalizing p with
  | nil => cases ha
  | cons n l ih =>
    obtain ⟨-, z, hz, hl⟩ := h
    rcases List.mem_cons.mp ha with rfl | ha
    · exact hz ▸ Option.some_ne_none _
    · exact ih hl ha

theorem Segment.start (h : Segment m p l none) : p = l.head?.map Prod.fst := by
  cases l with
  | nil => exact h
  | cons n l => exact h.1

theorem Segment.unique {l' : List (ℕ × α)} (h : Segment m p l none) (h' : Segment m p l' none) :
    l = l' := by
  induction l generalizing p l' with
  | nil =>
    obtain rfl : p = none := h
    cases l' with
    | nil => rfl
    | cons n l' => cases h'.1
  | cons n l ih =>
    obtain ⟨rfl, z, hz, hl⟩ := h
    cases l' with
    | nil => cases h'
    | cons n' l' =>
      obtain ⟨hp, z', hz', hl'⟩ := h'
      obtain ⟨a, x⟩ := n
      obtain ⟨a', x'⟩ := n'
      obtain rfl : a = a' := Option.some.inj hp
      obtain ⟨rfl, rfl⟩ := Item.mk.inj (Option.some.inj (hz.symm.trans hz'))
      rw [ih hl hl']

theorem Segment.relink (h : Segment m p (l ++ [(a, x)]) q) (hl : a ∉ addresses l)
    (z : Option ℕ) : Segment (m.put a ⟨x, z⟩) p (l ++ [(a, x)]) z := by
  refine segment_concat.mpr ⟨(segment_concat.mp h).1.congr fun b hb => ?_, m.cell_put_self a _⟩
  exact m.cell_put_of_ne _ fun heq => hl (heq ▸ hb)

theorem Segment.length_le (h : Segment m p l q) (hn : (addresses l).Nodup) :
    l.length ≤ m.bound := by
  have hsub : addresses l ⊆ List.range m.bound := fun a ha =>
    List.mem_range.mpr (Memory.lt_bound (h.used ha))
  have hlength := (hn.subperm hsub).length_le
  rwa [length_addresses, List.length_range] at hlength

end LinkedList
