import Livingstone.Lib.FiniteMap
import Livingstone.Utils.Slist

/-! Hash tables with a list for each bucket (`hash_table.h`). The buckets share the memory of their
items. The size is a number. -/

namespace Livingstone
namespace MbaUtils

open LinkedList (Allocator Memory Segment addresses)

structure HashTable (κ τ : Type) where
  memory : Memory (κ × τ)
  table : List Slist
  nonempty : 0 < table.length

/-- The table that it iterates over is given to each operation. -/
structure HashTableIterator where
  index : ℕ
  bucketIter : SlistIterator
  deriving DecidableEq, Repr

variable {κ τ : Type}

namespace HashTable

def new (n : ℕ) (h : 0 < n) : HashTable κ τ where
  memory := Memory.empty
  table := List.replicate n {}
  nonempty := by rwa [List.length_replicate]

def tableSize (t : HashTable κ τ) : ℕ := t.table.length

def bucket (t : HashTable κ τ) (i : ℕ) : Except PointerError Slist :=
  match t.table[i]? with
  | some s => .ok s
  | none => .error .dangling

def setBucket (t : HashTable κ τ) (i : ℕ) (m : Memory (κ × τ)) (s : Slist) : HashTable κ τ where
  memory := m
  table := t.table.set i s
  nonempty := by
    rw [List.length_set]
    exact t.nonempty

def empty (t : HashTable κ τ) : Bool := t.table.all Slist.empty

def size (t : HashTable κ τ) : ℕ := (t.table.map Slist.size).sum

def «end» (t : HashTable κ τ) : HashTableIterator := ⟨t.tableSize - 1, Slist.«end»⟩

/-- The loop over the buckets from `i` on, for the first that is not empty. -/
def nonEmptyBucket : ℕ → List Slist → Option HashTableIterator
  | _, [] => none
  | i, s :: rest => if s.empty then nonEmptyBucket (i + 1) rest else some ⟨i, s.begin⟩

def firstFrom (t : HashTable κ τ) (i : ℕ) : HashTableIterator :=
  (nonEmptyBucket i (t.table.drop i)).getD t.end

def begin (t : HashTable κ τ) : HashTableIterator := t.firstFrom 0

end HashTable

namespace HashTableIterator

def eq (it it' : HashTableIterator) : Bool :=
  it.index = it'.index && it.bucketIter.eq it'.bucketIter

/-- `key` and `operator*`. -/
def deref (t : HashTable κ τ) (it : HashTableIterator) : Except PointerError (κ × τ) :=
  it.bucketIter.deref t.memory

def increment (t : HashTable κ τ) (it : HashTableIterator) :
    Except PointerError HashTableIterator := do
  let bucketIter ← it.bucketIter.increment t.memory
  if bucketIter.eq Slist.«end» then return t.firstFrom (it.index + 1)
  else return { it with bucketIter := bucketIter }

/-- `erase`, which goes on to the next entry. -/
def erase (t : HashTable κ τ) (it : HashTableIterator) :
    Except PointerError (HashTableIterator × HashTable κ τ) := do
  let s ← t.bucket it.index
  let (bucketIter, m, s) ← s.erase it.bucketIter t.memory
  let t := t.setBucket it.index m s
  let it := { it with bucketIter := bucketIter }
  if bucketIter.eq Slist.«end» then return (← it.increment t, t)
  else return (it, t)

end HashTableIterator

namespace HashTable

section

variable [BEq κ]

/-- The loop of `find` and of `insert` over a bucket. -/
def findLoop (m : Memory (κ × τ)) (key : κ) :
    ℕ → SlistIterator → Except PointerError (Option SlistIterator) :=
  Loop.whileM .outOfFuel fun it => do
    if it.eq Slist.«end» then return .inr none
    else
      let entry ← it.deref m
      if entry.1 == key then return .inr (some it)
      else return .inl (← it.increment m)

/-- The items of a bucket are below the bound of the memory, so that it is enough turns. -/
def findIn (t : HashTable κ τ) (key : κ) (s : Slist) : Except PointerError (Option SlistIterator) :=
  findLoop t.memory key (t.memory.bound + 1) s.begin

def index (hash : κ → UInt32) (t : HashTable κ τ) (key : κ) : ℕ := (hash key).toNat % t.tableSize

def find (hash : κ → UInt32) (t : HashTable κ τ) (key : κ) :
    Except PointerError HashTableIterator := do
  let s ← t.bucket (t.index hash key)
  match ← t.findIn key s with
  | some bucketIter => return ⟨t.index hash key, bucketIter⟩
  | none => return t.end

/-- The iterator to the entry of the key, and whether it is the new one. -/
def insert (A : Allocator (κ × τ)) (hash : κ → UInt32) (t : HashTable κ τ) (key : κ) (value : τ) :
    Except PointerError (HashTableIterator × Bool × HashTable κ τ) := do
  let index := t.index hash key
  let s ← t.bucket index
  match ← t.findIn key s with
  | some bucketIter => return (⟨index, bucketIter⟩, false, t)
  | none =>
    let (m, s) := s.pushFront A (key, value) t.memory
    return (⟨index, s.begin⟩, true, t.setBucket index m s)

/-- `erase` at an iterator. -/
def eraseAt (t : HashTable κ τ) (it : HashTableIterator) :
    Except PointerError (ℕ × HashTableIterator × HashTable κ τ) :=
  if it.eq t.end then .ok (0, it, t)
  else do
    let (it, t) ← it.erase t
    return (1, it, t)

/-- `erase` of a key. -/
def erase (hash : κ → UInt32) (t : HashTable κ τ) (key : κ) :
    Except PointerError (ℕ × HashTable κ τ) := do
  let it ← t.find hash key
  if it.eq t.end then return (0, t)
  else
    let (_, t) ← it.erase t
    return (1, t)

def emptyBucket (t : HashTable κ τ) (i : ℕ) : Except PointerError (HashTable κ τ) := do
  let s ← t.bucket i
  let (m, s) ← s.eraseAll t.memory
  return t.setBucket i m s

/-- `erase` of all entries. -/
def eraseAll (t : HashTable κ τ) : Except PointerError (HashTable κ τ) :=
  (List.range t.tableSize).foldlM emptyBucket t

/-- A loop from `begin` to `end`. At the entry that is visited as number `i` it is erased if
`erases i`, and otherwise the iterator is incremented. -/
def sweepLoop (erases : ℕ → Bool) :
    ℕ → List (κ × τ) × HashTableIterator × HashTable κ τ →
      Except PointerError (List (κ × τ) × HashTable κ τ) :=
  Loop.whileM .outOfFuel fun (visited, it, t) => do
    if it.eq t.end then return .inr (visited, t)
    else
      let entry ← it.deref t
      if erases visited.length then
        let (_, it, t) ← t.eraseAt it
        return .inl (visited ++ [entry], it, t)
      else return .inl (visited ++ [entry], ← it.increment t, t)

/-- Each turn but the last visits an entry. -/
def sweep (erases : ℕ → Bool) (t : HashTable κ τ) :
    Except PointerError (List (κ × τ) × HashTable κ τ) :=
  sweepLoop erases (t.size + 1) ([], t.begin, t)

end

end HashTable

abbrev Items (κ τ : Type) : Type := List (ℕ × κ × τ)

structure HashTable.Holds (t : HashTable κ τ) (buckets : List (Items κ τ)) : Prop where
  lists : List.Forall₂ (fun s l => s.Holds t.memory l) t.table buckets
  nodup : (addresses buckets.flatten).Nodup

/-- The iterator is between `before` and `after`. A bucket that is at its end is the last one. -/
def HashTableIterator.At (buckets : List (Items κ τ)) (before after : Items κ τ)
    (it : HashTableIterator) : Prop :=
  ∃ front l r back, buckets = front ++ (l ++ r) :: back ∧ it.index = front.length ∧
    it.bucketIter.At l r ∧ before = front.flatten ++ l ∧ after = r ++ back.flatten ∧
    (r = [] → back = [])

variable {t : HashTable κ τ} {m m' : Memory (κ × τ)} {s : Slist} {table : List Slist}
  {buckets front back : List (Items κ τ)} {before after l r : Items κ τ} {n : ℕ × κ × τ}
  {it : HashTableIterator} {pos : SlistIterator}

theorem lists_congr (h : List.Forall₂ (fun s l => s.Holds m l) table buckets)
    (hm : ∀ a ∈ addresses buckets.flatten, m'.cell a = m.cell a) :
    List.Forall₂ (fun s l => s.Holds m' l) table buckets := by
  induction h with
  | nil => exact List.Forall₂.nil
  | cons hs _ ih =>
    rw [List.flatten_cons, LinkedList.addresses_append] at hm
    exact List.Forall₂.cons (hs.congr fun a ha => hm a (List.mem_append_left _ ha))
      (ih fun a ha => hm a (List.mem_append_right _ ha))

namespace HashTable

theorem holds_new {n : ℕ} (h : 0 < n) :
    (new n h : HashTable κ τ).Holds (List.replicate n []) where
  lists := by
    have hempty (k : ℕ) : List.Forall₂ (fun (s : Slist) l => s.Holds (α := κ × τ) Memory.empty l)
        (List.replicate k {}) (List.replicate k []) := by
      induction k with
      | zero => exact List.Forall₂.nil
      | succ k ih => exact List.Forall₂.cons (Slist.holds_empty _) ih
    exact hempty n
  nodup := by simp

theorem Holds.tableSize (h : t.Holds buckets) : t.tableSize = buckets.length := h.lists.length_eq

theorem Holds.ne_nil (h : t.Holds buckets) : buckets ≠ [] :=
  List.ne_nil_of_length_pos (h.tableSize ▸ t.nonempty)

theorem Holds.size (h : t.Holds buckets) : t.size = buckets.flatten.length := by
  have hlists := h.lists
  clear h
  unfold HashTable.size
  generalize t.table = table at hlists
  induction hlists with
  | nil => rfl
  | cons hs _ ih =>
    rw [List.map_cons, List.sum_cons, ih, List.flatten_cons, List.length_append]
    exact congrArg (· + _) hs.length

theorem Holds.split (h : t.Holds (front ++ l :: back)) :
    ∃ T₁ s T₂, t.table = T₁ ++ s :: T₂ ∧ T₁.length = front.length ∧
      List.Forall₂ (fun s l => s.Holds t.memory l) T₁ front ∧ s.Holds t.memory l ∧
      List.Forall₂ (fun s l => s.Holds t.memory l) T₂ back := by
  have hfront := List.forall₂_take_append _ _ _ h.lists
  have hback := List.forall₂_drop_append _ _ _ h.lists
  obtain ⟨s, T₂, hs, hT₂, hdrop⟩ := List.forall₂_cons_right_iff.mp hback
  refine ⟨_, s, T₂, ?_, hfront.length_eq, hfront, hs, hT₂⟩
  rw [← hdrop, List.take_append_drop]

theorem Holds.bucket (h : t.Holds (front ++ l :: back)) :
    ∃ s, t.bucket front.length = .ok s ∧ s.Holds t.memory l := by
  obtain ⟨T₁, s, T₂, htable, hlength, -, hs, -⟩ := h.split
  refine ⟨s, ?_, hs⟩
  rw [HashTable.bucket, htable, ← hlength]
  simp

theorem Holds.setBucket (h : t.Holds (front ++ l :: back)) (hs : s.Holds m r)
    (hm : ∀ a ∈ addresses (front.flatten ++ back.flatten), m.cell a = t.memory.cell a)
    (hn : (addresses (front.flatten ++ (r ++ back.flatten))).Nodup) :
    (t.setBucket front.length m s).Holds (front ++ r :: back) := by
  obtain ⟨T₁, s', T₂, htable, hlength, hT₁, -, hT₂⟩ := h.split
  rw [LinkedList.addresses_append] at hm
  refine ⟨?_, by simpa using hn⟩
  have hset : t.table.set front.length s = T₁ ++ s :: T₂ := by
    rw [htable, ← hlength]
    simp
  change List.Forall₂ _ (t.table.set front.length s) _
  rw [hset]
  exact List.rel_append (lists_congr hT₁ fun a ha => hm a (List.mem_append_left _ ha))
    (List.Forall₂.cons hs (lists_congr hT₂ fun a ha => hm a (List.mem_append_right _ ha)))

theorem Holds.used {a : ℕ} (h : t.Holds buckets) (ha : a ∈ addresses buckets.flatten) :
    t.memory.cell a ≠ none := by
  have hlists := h.lists
  clear h
  generalize t.table = table at hlists
  induction hlists with
  | nil => cases ha
  | cons hs _ ih =>
    rw [List.flatten_cons, LinkedList.addresses_append] at ha
    rcases List.mem_append.mp ha with ha | ha
    · exact hs.segment.used ha
    · exact ih ha

theorem Holds.pushFront (h : t.Holds (front ++ l :: back)) (hs : s.Holds t.memory l)
    (A : Allocator (κ × τ)) (value : κ × τ) :
    (t.setBucket front.length (s.pushFront A value t.memory).1
      (s.pushFront A value t.memory).2).Holds
        (front ++ ((A.new t.memory, value) :: l) :: back) := by
  have hnew {a : ℕ} (ha : a ∈ addresses (front.flatten ++ (l ++ back.flatten))) :
      a ≠ A.new t.memory := by
    rintro rfl
    exact h.used (by simpa using ha) (A.unused t.memory)
  refine h.setBucket (hs.pushFront A value) (fun a ha => ?_) ?_
  · refine Memory.cell_put_of_ne _ _ (hnew ?_)
    rw [LinkedList.addresses_append] at ha
    rw [LinkedList.addresses_append, LinkedList.addresses_append]
    rcases List.mem_append.mp ha with ha | ha
    · exact List.mem_append_left _ ha
    · exact List.mem_append_right _ (List.mem_append_right _ ha)
  · have hperm : (addresses (front.flatten ++ ((A.new t.memory, value) :: l ++ back.flatten))).Perm
        (A.new t.memory :: addresses (front.flatten ++ (l ++ back.flatten))) := by
      rw [LinkedList.addresses_append, LinkedList.addresses_append front.flatten]
      exact List.perm_middle
    refine hperm.nodup_iff.mpr (List.nodup_cons.mpr ⟨fun ha => hnew ha rfl, ?_⟩)
    simpa using h.nodup

theorem Holds.shrink (h : t.Holds (front ++ l :: back)) (hs : s.Holds m r) (hr : r.Sublist l)
    (hm : ∀ a ∉ addresses l, m.cell a = t.memory.cell a) :
    (t.setBucket front.length m s).Holds (front ++ r :: back) := by
  have hnodup := h.nodup
  rw [List.flatten_append, List.flatten_cons] at hnodup
  refine h.setBucket hs (fun a ha => hm a fun hin => ?_) (hnodup.sublist ?_)
  · rw [LinkedList.addresses_append, LinkedList.addresses_append, List.nodup_append',
      List.nodup_append'] at hnodup
    rw [LinkedList.addresses_append] at ha
    rcases List.mem_append.mp ha with ha | ha
    · exact hnodup.2.2 ha (List.mem_append_left _ hin)
    · exact hnodup.2.1.2.2 hin ha
  · exact ((hr.append_right _).append_left _).map _

theorem Holds.emptyBucket (h : t.Holds (front ++ l :: back)) :
    ∃ t', t.emptyBucket front.length = .ok t' ∧ t'.Holds (front ++ [] :: back) := by
  obtain ⟨s, hbucket, hs⟩ := h.bucket
  obtain ⟨m', s', herase, hs', hsame⟩ := hs.eraseAll
  refine ⟨_, ?_, h.shrink hs' (List.nil_sublist l) hsame⟩
  rw [HashTable.emptyBucket, hbucket]
  dsimp only [bind, Except.bind]
  rw [herase]
  rfl

theorem Holds.eraseAll (h : t.Holds buckets) :
    ∃ t', t.eraseAll = .ok t' ∧ t'.Holds (List.replicate buckets.length []) := by
  let I (k : ℕ) (t : HashTable κ τ) : Prop := t.Holds (List.replicate k [] ++ buckets.drop k)
  have hstep (k : ℕ) (hk : k < t.tableSize) (t : HashTable κ τ) (ht : I k t) :
      ∃ t', t.emptyBucket k = .ok t' ∧ I (k + 1) t' := by
    rw [h.tableSize] at hk
    simp only [I, List.drop_eq_getElem_cons hk] at ht
    have hempty := ht.emptyBucket
    rw [List.length_replicate] at hempty
    simp only [I, List.replicate_succ', List.append_assoc]
    exact hempty
  obtain ⟨t', ht', hI⟩ := Loop.foldlM_range I hstep (s := t) h
  refine ⟨t', ht', ?_⟩
  simpa only [I, h.tableSize, List.drop_length, List.append_nil] using hI

theorem nonEmptyBucket_at (h : List.Forall₂ (fun s l => s.Holds m l) table back)
    (front : List (Items κ τ)) :
    (nonEmptyBucket front.length table = none ∧ back.flatten = []) ∨
      ∃ it, nonEmptyBucket front.length table = some it ∧
        it.At (front ++ back) front.flatten back.flatten := by
  induction h generalizing front with
  | nil => exact Or.inl ⟨rfl, rfl⟩
  | @cons s l table back hs _ ih =>
    unfold nonEmptyBucket
    split_ifs with hempty
    · obtain rfl := hs.empty_iff.mp hempty
      have hrest := ih (front ++ [[]])
      have hfront : (front ++ [[]]).flatten = front.flatten := by simp
      rw [hfront, List.length_append, List.append_assoc] at hrest
      exact hrest
    · have hne : l ≠ [] := mt hs.empty_iff.mpr hempty
      exact Or.inr ⟨_, rfl, front, [], l, back, rfl, rfl, hs.atBegin, by simp, rfl,
        fun hnil => absurd hnil hne⟩

theorem Holds.end_at (h : t.Holds buckets) : t.end.At buckets buckets.flatten [] := by
  rcases List.eq_nil_or_concat buckets with rfl | ⟨front, l, rfl⟩
  · exact absurd rfl h.ne_nil
  · rw [List.concat_eq_append] at *
    refine ⟨front, l, [], [], by simp, ?_, ⟨rfl, fun hne => absurd rfl hne⟩, by simp, rfl,
      fun _ => rfl⟩
    rw [HashTable.«end», h.tableSize]
    simp

theorem Holds.firstFrom_at (front back : List (Items κ τ)) (h : t.Holds (front ++ back)) :
    (t.firstFrom front.length).At (front ++ back) front.flatten back.flatten := by
  rw [firstFrom]
  have hlists := List.forall₂_drop_append _ _ _ h.lists
  rcases nonEmptyBucket_at hlists front with ⟨hnone, hempty⟩ | ⟨it, hsome, hat⟩
  · have hend := h.end_at
    rw [List.flatten_append, hempty, List.append_nil] at hend
    rwa [hnone, hempty]
  · rwa [hsome]

theorem Holds.begin_at (h : t.Holds buckets) : t.begin.At buckets [] buckets.flatten :=
  Holds.firstFrom_at [] buckets h

end HashTable

namespace HashTableIterator

theorem At.flatten (hat : it.At buckets before after) : buckets.flatten = before ++ after := by
  obtain ⟨front, l, r, back, rfl, -, -, rfl, rfl, -⟩ := hat
  simp

theorem At.split (hat : it.At buckets before (n :: after)) :
    ∃ front l r back, buckets = front ++ (l ++ n :: r) :: back ∧ it.index = front.length ∧
      it.bucketIter.At l (n :: r) ∧ before = front.flatten ++ l ∧ after = r ++ back.flatten := by
  obtain ⟨front, l, r, back, hbuckets, hindex, hpos, hbefore, hafter, hlast⟩ := hat
  cases r with
  | nil =>
    rw [hlast rfl] at hafter
    cases hafter
  | cons n' r =>
    rw [List.cons_append] at hafter
    obtain ⟨rfl, htail⟩ := List.cons.inj hafter
    exact ⟨front, l, r, back, hbuckets, hindex, hpos, hbefore, htail⟩

theorem At.eq_end_iff (hat : it.At buckets before after) (h : t.Holds buckets) :
    it.eq t.end = true ↔ after = [] := by
  obtain ⟨front, l, r, back, rfl, hindex, hpos, -, rfl, hlast⟩ := hat
  have hend := hpos.eq_end_iff
  rw [HashTableIterator.eq, Bool.and_eq_true, decide_eq_true_eq]
  constructor
  · intro ⟨_, hnull⟩
    obtain rfl := hend.mp hnull
    rw [hlast rfl]
    rfl
  · intro hnil
    obtain ⟨rfl, -⟩ := List.append_eq_nil_iff.mp hnil
    refine ⟨?_, hend.mpr rfl⟩
    rw [hindex, HashTable.«end», h.tableSize, hlast rfl]
    simp

theorem At.deref (hat : it.At buckets before (n :: after)) (h : t.Holds buckets) :
    it.deref t = .ok n.2 := by
  obtain ⟨front, l, r, back, rfl, -, hpos, -, -⟩ := hat.split
  obtain ⟨s, -, hs⟩ := h.bucket
  exact hpos.deref hs

theorem at_next (h : t.Holds (front ++ (l ++ r) :: back)) (hpos : pos.At l r) :
    (if pos.eq Slist.«end» then t.firstFrom (front.length + 1) else ⟨front.length, pos⟩).At
      (front ++ (l ++ r) :: back) (front.flatten ++ l) (r ++ back.flatten) := by
  split_ifs with hend
  · obtain rfl := hpos.eq_end_iff.mp hend
    have hfirst := HashTable.Holds.firstFrom_at (t := t) (front ++ [l]) back (by simpa using h)
    simpa using hfirst
  · exact ⟨front, l, r, back, rfl, rfl, hpos, rfl, rfl,
      fun hnil => absurd (hpos.eq_end_iff.mpr hnil) hend⟩

theorem At.increment (hat : it.At buckets before (n :: after)) (h : t.Holds buckets) :
    ∃ it', it.increment t = .ok it' ∧ it'.At buckets (before ++ [n]) after := by
  obtain ⟨front, l, r, back, rfl, hindex, hpos, rfl, rfl⟩ := hat.split
  obtain ⟨s, -, hs⟩ := h.bucket
  obtain ⟨pos', hpos', hat'⟩ := hpos.increment hs
  have hnext := at_next (t := t) (by simpa using h) hat'
  refine ⟨_, ?_, by simpa using hnext⟩
  rw [HashTableIterator.increment, hpos', hindex]
  dsimp only [bind, Except.bind]
  split_ifs <;> rfl

theorem erase_at (h : t.Holds (front ++ (l ++ n :: r) :: back)) (hpos : pos.At l (n :: r)) :
    ∃ it' t', erase t ⟨front.length, pos⟩ = .ok (it', t') ∧
      t'.Holds (front ++ (l ++ r) :: back) ∧
      it'.At (front ++ (l ++ r) :: back) (front.flatten ++ l) (r ++ back.flatten) := by
  obtain ⟨s, hbucket, hs⟩ := h.bucket
  obtain ⟨pos', m', s', herase, hs', hpos', hsame⟩ := hs.erase hpos
  have hsublist : (l ++ r).Sublist (l ++ n :: r) := (List.sublist_cons_self n r).append_left l
  have hholds : (t.setBucket front.length m' s').Holds (front ++ (l ++ r) :: back) :=
    h.shrink hs' hsublist hsame
  have hnext := at_next hholds hpos'
  refine ⟨_, _, ?_, hholds, hnext⟩
  rw [HashTableIterator.erase, hbucket]
  dsimp only [bind, Except.bind]
  rw [herase]
  dsimp only
  split_ifs with hend
  · -- the end of a bucket is not left by `++`
    obtain rfl := hpos'.eq_end_iff.mp hend
    rw [HashTableIterator.increment, hpos'.increment_end]
    dsimp only [bind, Except.bind]
    rw [if_pos hend]
    rfl
  · rfl

end HashTableIterator

end MbaUtils
end Livingstone
