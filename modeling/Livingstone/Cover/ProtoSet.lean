import Livingstone.Cover.Cover
import Livingstone.Lib.HashTable

/-! Sets of candidates that are built (`Proto_candidate::set` in `cover.cpp`): hash tables of
addresses, with the hash of the candidate at the address. -/

namespace Livingstone

namespace ProtoCandidate

/-- The sum of the ids of the variables, unsigned. -/
def hash (p : ProtoCandidate) : UInt32 :=
  p.foldl (fun result a => result + UInt32.ofNat a.var.id) 0

end ProtoCandidate

abbrev SetId := ℕ

def tableSize : ℕ := 211

theorem tableSize_pos : 0 < tableSize := by decide

/-- The sets and what is at the addresses in them; nothing is at an address that was deleted. -/
structure ProtoSets where
  heap : ℕ → Option ProtoCandidate := fun _ => none
  next : ℕ := 0
  table : SetId → HashTable ℕ := fun _ => .empty tableSize tableSize_pos

namespace ProtoSets

open Function (update)

def hash (heap : ℕ → Option ProtoCandidate) (p : ℕ) : ℕ :=
  match heap p with
  | some p => (ProtoCandidate.hash p).toNat
  | none => 0

def new (p : ProtoCandidate) (s : ProtoSets) : ℕ × ProtoSets :=
  (s.next, { s with heap := update s.heap s.next (some p), next := s.next + 1 })

def delete (p : ℕ) (s : ProtoSets) : ProtoSets := { s with heap := update s.heap p none }

def insert (σ : SetId) (p : ℕ) (s : ProtoSets) : ProtoSets :=
  { s with table := update s.table σ ((s.table σ).insert (hash s.heap) p) }

/-- `add`: what the set has already is deleted, and the address in the set returned. -/
def add (σ : SetId) (p : ℕ) (s : ProtoSets) : ℕ × ProtoSets :=
  match (s.table σ).find (hash s.heap) p with
  | none => (p, s.insert σ p)
  | some found => (found, s.delete p)

/-- One turn of the second loop of `map_add`. -/
def rehash (σ : SetId) (a : Assignment) (s : ProtoSets) (p : ℕ) : ProtoSets :=
  insert σ p { s with heap := update s.heap p ((s.heap p).map (ProtoCandidate.add a)) }

/-- All are taken out before they are changed and put in again. -/
def mapAdd (σ : SetId) (a : Assignment) (s : ProtoSets) : ProtoSets :=
  let arr := (s.table σ).elements
  arr.foldl (rehash σ a) { s with table := update s.table σ (.empty tableSize tableSize_pos) }

def acquire (σ other : SetId) (s : ProtoSets) : ProtoSets :=
  let s := (s.table other).elements.foldl (fun s p => (s.add σ p).2) s
  { s with table := update s.table other (.empty tableSize tableSize_pos) }

end ProtoSets

/-- What a client does. It adds a new candidate that it has built itself. -/
inductive SetOp where
  | add (σ : SetId) (assignments : List Assignment)
  | mapAdd (σ : SetId) (a : Assignment)
  | acquire (σ other : SetId)
  deriving Repr

namespace ProtoSets

def built (assignments : List Assignment) : ProtoCandidate :=
  assignments.foldl (fun p a => ProtoCandidate.add a p) []

def apply (s : ProtoSets) : SetOp → ProtoSets
  | .add σ assignments =>
    let (p, s) := s.new (built assignments)
    (s.add σ p).2
  | .mapAdd σ a => s.mapAdd σ a
  | .acquire σ other => s.acquire σ other

end ProtoSets

end Livingstone
