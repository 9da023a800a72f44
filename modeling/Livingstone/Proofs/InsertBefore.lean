import Livingstone.Utils.Slist

/-! Insertion before an iterator. At the first item the iterator does not learn of the new one before
it, and an erasure there takes the new one away too. -/

namespace Livingstone
namespace Slist

open LinkedList (Allocator Memory Segment addresses)
open SlistIterator (At)

variable {α : Type} {A : Allocator α} {m : Memory α} {s : Slist} {l r : List (ℕ × α)} {n : ℕ × α}
  {pos : SlistIterator} {value : α}

theorem Holds.insertBefore {b : ℕ × α} (h : s.Holds m (l ++ [b] ++ n :: r))
    (hpos : At (l ++ [b]) (n :: r) pos) (A : Allocator α) (value : α) :
    ∃ it pos' m' s', s.insertBefore A pos value m = .ok (it, pos', m', s') ∧
      s'.Holds m' (l ++ [b] ++ (A.new m, value) :: n :: r) ∧
      At (l ++ [b]) ((A.new m, value) :: n :: r) it ∧
      At (l ++ [b] ++ [(A.new m, value)]) (n :: r) pos' := by
  have hcurrent : pos.current = some n.1 := hpos.current
  have hprevious := hpos.previous (List.cons_ne_nil n r)
  have hlast : (l ++ [b]).getLast?.map Prod.fst = some b.1 := by simp
  rw [hlast] at hprevious
  have hbegin : ¬ pos.eq s.begin = true := fun heq => by
    simpa using (hpos.eq_begin_iff h).mp heq
  have hend : ¬ pos.eq «end» = true := fun heq => by
    simpa using hpos.eq_end_iff.mp heq
  have hnew {a : ℕ} (ha : a ∈ addresses (l ++ [b] ++ n :: r)) : a ≠ A.new m := fun heq =>
    h.segment.used ha (heq ▸ A.unused m)
  obtain ⟨z, hl, hn⟩ := LinkedList.segment_append.mp h.segment
  have hnodup := h.nodup
  rw [LinkedList.addresses_append, List.nodup_append'] at hnodup
  have hbl : b.1 ∉ addresses l := fun ha => by
    have hlb := hnodup.1
    rw [LinkedList.addresses_append, List.nodup_append'] at hlb
    exact hlb.2.2 ha List.mem_cons_self
  have hbr : b.1 ∉ addresses (n :: r) := fun ha =>
    hnodup.2.2 (LinkedList.mem_addresses (by simp)) ha
  have hb : b.1 ≠ A.new m := hnew (LinkedList.mem_addresses (by simp))
  -- the new item is written, and then the link to it
  let m₁ := m.put (A.new m) ⟨value, some n.1⟩
  have hput {a : ℕ} (ha : a ∈ addresses (l ++ [b] ++ n :: r)) : m₁.cell a = m.cell a :=
    m.cell_put_of_ne _ (hnew ha)
  have hl₁ : Segment m₁ s.head (l ++ [b]) z := hl.congr fun a ha => hput (by
    rw [LinkedList.addresses_append]
    exact List.mem_append_left _ ha)
  have hset : setNext b.1 (some (A.new m)) m₁ = .ok (m₁.put b.1 ⟨b.2, some (A.new m)⟩) :=
    setNext_eq _ (LinkedList.segment_concat.mp hl₁).2
  refine ⟨{ current := some (A.new m), previous := some b.1 },
    { pos with previous := some (A.new m) }, m₁.put b.1 ⟨b.2, some (A.new m)⟩,
    { s with length := s.length + 1 }, ?_, ⟨?_, ?_, ?_⟩, ⟨rfl, fun _ => hlast.symm⟩,
    ⟨hcurrent, fun _ => by simp⟩⟩
  · rw [Slist.insertBefore, if_neg hbegin, if_neg hend, hcurrent, hprevious]
    dsimp only [bind, Except.bind]
    rw [hset]
    rfl
  · refine LinkedList.segment_append.mpr ⟨_, hl₁.relink hbl _, rfl, some n.1, ?_, ?_⟩
    · rw [Memory.cell_put_of_ne _ _ (Ne.symm hb)]
      exact m.cell_put_self _ _
    · have hn' : Segment m (some n.1) (n :: r) none := by
        have hz : z = some n.1 := hn.1
        exact hz ▸ hn
      refine hn'.congr fun a ha => ?_
      have hab : a ≠ b.1 := fun heq => hbr (heq ▸ ha)
      rw [Memory.cell_put_of_ne _ _ hab]
      refine hput ?_
      rw [LinkedList.addresses_append]
      exact List.mem_append_right _ ha
  · have hperm : (addresses (l ++ [b] ++ (A.new m, value) :: n :: r)).Perm
        (A.new m :: addresses (l ++ [b] ++ n :: r)) := by
      rw [LinkedList.addresses_append, LinkedList.addresses_append (l ++ [b])]
      exact List.perm_middle
    exact hperm.nodup_iff.mpr (List.nodup_cons.mpr ⟨fun ha => hnew ha rfl, h.nodup⟩)
  · rw [h.length]
    simp only [List.length_append, List.length_cons]
    omega

/-- What `insert_before` is to do between `l` and `r`, and `erase` after it. The end of a list that
has items is refused. -/
structure InsertsBefore (A : Allocator α) (m : Memory α) (s : Slist) (l r : List (ℕ × α))
    (pos : SlistIterator) (value : α) : Prop where
  refuses : l ≠ [] → r = [] → s.insertBefore A pos value m = .error .assertion
  inserts : l = [] ∨ r ≠ [] → ∃ it pos' m' s' a,
    s.insertBefore A pos value m = .ok (it, pos', m', s') ∧
    s'.Holds m' (l ++ (a, value) :: r) ∧
    ∃ pos'' m'' s'', s'.erase pos' m' = .ok (pos'', m'', s'') ∧
      s''.Holds m'' (l ++ (a, value) :: r.tail)

theorem insertBefore_begin (h : s.Holds m r) (hpos : At [] r pos) :
    s.insertBefore A pos value m =
      .ok ((s.pushFront A value m).2.begin, pos, s.pushFront A value m) := by
  rw [Slist.insertBefore, if_pos ((hpos.eq_begin_iff h).mpr rfl)]

theorem not_insertsBefore_first (h : s.Holds m (n :: r)) (hpos : At [] (n :: r) pos) :
    ¬ InsertsBefore A m s [] (n :: r) pos value := by
  intro hall
  obtain ⟨it, pos', m', s', a, hinsert, hholds, pos'', m'', s'', herase, hholds''⟩ :=
    hall.inserts (Or.inl rfl)
  rw [insertBefore_begin h hpos] at hinsert
  rw [Except.ok.injEq, Prod.mk.injEq, Prod.mk.injEq] at hinsert
  obtain ⟨-, rfl, hpushed⟩ := hinsert
  obtain rfl : (s.pushFront A value m).1 = m' := congrArg Prod.fst hpushed
  obtain rfl : (s.pushFront A value m).2 = s' := congrArg Prod.snd hpushed
  have hcurrent : pos.current = some n.1 := hpos.current
  have hprevious : pos.previous = none := hpos.previous (List.cons_ne_nil n r)
  have hcell : (s.pushFront A value m).1.cell n.1 = some ⟨n.2, r.head?.map Prod.fst⟩ :=
    hholds.cell (l := [(a, value)])
  rw [Slist.erase, hcurrent] at herase
  dsimp only at herase
  rw [readItem_eq hcell, hprevious] at herase
  obtain ⟨-, herase⟩ := Prod.mk.inj (Except.ok.inj herase)
  obtain ⟨rfl, rfl⟩ := Prod.mk.inj herase
  -- what is left is `r` alone
  obtain ⟨-, w, -, -, z, hz, hr⟩ := hholds.segment
  have hnodup := hholds.nodup
  have hnr : n.1 ∉ addresses r :=
    (List.nodup_cons.mp (List.nodup_cons.mp hnodup).2).1
  have hleft : Segment ((s.pushFront A value m).1.free n.1) (r.head?.map Prod.fst) r none :=
    hr.start ▸ hr.congr fun b hb => Memory.cell_free_of_ne _ fun heq => hnr (heq ▸ hb)
  have heq := congrArg List.length (hleft.unique hholds''.segment)
  simp at heq

/-- `insert_before` does what it is to do if and only if the iterator is not at the first item of a
list that has items. -/
theorem insertsBefore_iff (h : s.Holds m (l ++ r)) (hpos : At l r pos) :
    InsertsBefore A m s l r pos value ↔ (pos.eq s.begin = true → s.empty = true) := by
  rw [hpos.eq_begin_iff h, h.empty_iff]
  constructor
  · rintro hall rfl
    cases r with
    | nil => rfl
    | cons n r => exact absurd hall (not_insertsBefore_first h hpos)
  · intro hfirst
    rcases List.eq_nil_or_concat l with rfl | ⟨l, b, rfl⟩
    · -- an empty list
      obtain rfl : r = [] := hfirst rfl
      refine ⟨fun hne => absurd rfl hne, fun _ => ?_⟩
      refine ⟨_, _, _, _, _, insertBefore_begin h hpos, h.pushFront A value, ?_⟩
      have hcurrent : pos.current = none := hpos.current
      refine ⟨pos, (s.pushFront A value m).1, (s.pushFront A value m).2, ?_, h.pushFront A value⟩
      rw [Slist.erase, hcurrent]
      rfl
    · rw [List.concat_eq_append] at *
      cases r with
      | nil =>
        refine ⟨fun _ _ => ?_, fun hor => by simp at hor⟩
        have hbegin : ¬ pos.eq s.begin = true := fun heq => by
          simpa using (hpos.eq_begin_iff h).mp heq
        rw [Slist.insertBefore, if_neg hbegin, if_pos (hpos.eq_end_iff.mpr rfl)]
      | cons n r =>
        refine ⟨fun _ hnil => absurd hnil (List.cons_ne_nil n r), fun _ => ?_⟩
        obtain ⟨it, pos', m', s', hinsert, hholds, -, hpos'⟩ := h.insertBefore hpos A value
        have hholds' : s'.Holds m' (l ++ [b] ++ [(A.new m, value)] ++ n :: r) := by
          simpa using hholds
        obtain ⟨pos'', m'', s'', herase, hholds'', -⟩ := hholds'.erase hpos'
        refine ⟨it, pos', m', s', A.new m, hinsert, hholds, pos'', m'', s'', herase, ?_⟩
        simpa using hholds''

def single : Memory ℕ × Slist := pushFront Allocator.atBound 5 Memory.empty {}

def double : Memory ℕ × Slist := pushFront Allocator.atBound 4 single.1 single.2

theorem holds_single : single.2.Holds single.1 [(0, 5)] :=
  (holds_empty Memory.empty).pushFront Allocator.atBound 5

theorem holds_double : double.2.Holds double.1 [(1, 4), (0, 5)] :=
  holds_single.pushFront Allocator.atBound 4

/-- At the second item. -/
theorem insertsBefore_iff_double : InsertsBefore Allocator.atBound double.1 double.2 [(1, 4)]
    [(0, 5)] { current := some 0, previous := some 1 } 7 :=
  (insertsBefore_iff holds_double ⟨rfl, fun _ => rfl⟩).mpr (by decide)

/-- At the first item of a list of one item. -/
theorem not_insertsBefore_single : ¬ ∀ (m : Memory ℕ) (s : Slist) (l r : List (ℕ × ℕ))
    (pos : SlistIterator) (value : ℕ), s.Holds m (l ++ r) → At l r pos →
      InsertsBefore Allocator.atBound m s l r pos value := by
  intro hall
  have hinserts := hall single.1 single.2 [] [(0, 5)] single.2.begin 7 holds_single
    holds_single.atBegin
  exact not_insertsBefore_first holds_single holds_single.atBegin hinserts

end Slist
end Livingstone
