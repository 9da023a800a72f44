import Livingstone.Lib.Memory

/-! The allocator of blocks whose sizes are powers of two (`array_allocator.cpp`), with pointers of
four bytes. The word of a free block that links it to the next one lies in the block itself, so
that a free list is the list of its blocks. -/

namespace Livingstone
namespace ArrayAllocator

open Function (update)
open Memory (Block)

/-- A failed assertion. -/
inductive AllocError where
  | assertion
  deriving DecidableEq, Repr

def MAX_ITEM_SIZE : ℕ := 30

def INITIAL_BLOCK_LG2 : ℕ := 20

def INITIAL_BLOCK_BYTES : ℕ := 2 ^ INITIAL_BLOCK_LG2

def sizeofFreeItem : ℕ := 4

/-- `live` are the blocks that were handed out and not freed, with the sizes that they were
requested with, which the code does not keep. -/
structure State where
  isReady : Bool := false
  freelists : ℕ → List ℕ := fun _ => []
  chunks : List Block := []
  live : List (ℕ × ℕ) := []

/-- The loop of `lg2`: the number of bits, and of those that are high. One turn for each bit. -/
def lg2Loop : ℕ → ℕ → ℕ → ℕ → ℕ × ℕ
  | 0, _, n, sumBi => (n, sumBi)
  | turns + 1, x, n, sumBi =>
    if x / 2 = 0 then (n + 1, sumBi + x % 2) else lg2Loop turns (x / 2) (n + 1) (sumBi + x % 2)

/-- `x` and one more are enough turns. -/
def lg2 (x : ℕ) : ℕ :=
  let (n, sumBi) := lg2Loop (x + 1) x 0 0
  let k := n - 1
  if sumBi > 1 then k + 1 else k

def exp2 (x : ℕ) : ℕ := 2 ^ x

def ensureMinimalBlockSize (sz : ℕ) : ℕ := if sz < sizeofFreeItem then sizeofFreeItem else sz

/-- The chunks are put on the free lists, one after the other. -/
def L2_alloc_reclaim (s : State) : State :=
  let freelists := s.chunks.foldl (fun freelists d =>
    update freelists (lg2 d.size) (s.chunks.head?.map (·.base)).toList) fun _ => []
  { s with freelists := freelists, live := [] }

/-- `malloc` returns `block`. -/
def getOneBlockFromMalloc (i block : ℕ) (s : State) : Except AllocError State :=
  if s.freelists i ≠ [] then .error .assertion
  else .ok { s with
    freelists := update s.freelists i [block]
    chunks := ⟨block, exp2 i⟩ :: s.chunks }

def pushFreeBlock (i block : ℕ) (s : State) : Except AllocError State :=
  if block = 0 then .error .assertion
  else .ok { s with freelists := update s.freelists i (block :: s.freelists i) }

def popFreeBlock (i : ℕ) (s : State) : Except AllocError (ℕ × State) :=
  match s.freelists i with
  | [] => .error .assertion
  | result :: rest => .ok (result, { s with freelists := update s.freelists i rest })

/-- The first loop of `L2_allocate_exp2`. -/
def findFreeList (s : State) : ℕ → ℕ → ℕ
  | 0, isf => isf
  | turns + 1, isf =>
    if s.freelists isf = [] ∧ isf < INITIAL_BLOCK_LG2 then findFreeList s turns (isf + 1) else isf

/-- The second loop, from the list `logN + turns` down to `logN`. -/
def splitDown (logN : ℕ) : ℕ → State → Except AllocError State
  | 0, s => .ok s
  | turns + 1, s => do
    let half := logN + turns
    let (toSplit, s) ← popFreeBlock (half + 1) s
    let s ← pushFreeBlock half toSplit s
    let s ← pushFreeBlock half (toSplit + exp2 half) s
    splitDown logN turns s

def L2_allocate_exp2 (logN malloc : ℕ) (s : State) : Except AllocError (ℕ × State) :=
  if ¬ logN < MAX_ITEM_SIZE then .error .assertion
  else
    let isf := findFreeList s INITIAL_BLOCK_LG2 logN
    if ¬ (INITIAL_BLOCK_LG2 ≤ isf ∨ s.freelists isf ≠ []) then .error .assertion
    else do
      let s ← if s.freelists isf = [] then getOneBlockFromMalloc isf malloc s else .ok s
      if s.freelists isf = [] then .error .assertion
      else do
        let s ← splitDown logN (isf - logN) s
        popFreeBlock logN s

/-- The first call makes the initial block the only chunk. -/
def makeReady (initialBlock : ℕ) (s : State) : State :=
  if s.isReady then s
  else
    { L2_alloc_reclaim { s with chunks := [⟨initialBlock, INITIAL_BLOCK_BYTES⟩] } with
      isReady := true }

/-- `malloc` is what `malloc` returns if it is called. -/
def L2_alloc (initialBlock sz malloc : ℕ) (s : State) : Except AllocError (ℕ × State) := do
  let s := makeReady initialBlock s
  let (block, s) ← L2_allocate_exp2 (lg2 (ensureMinimalBlockSize sz)) malloc s
  return (block, { s with live := (block, sz) :: s.live })

def L2_free (ptr sz : ℕ) (s : State) : Except AllocError State :=
  if ptr = 0 then .ok s
  else
    let i := lg2 (ensureMinimalBlockSize sz)
    if ¬ i < MAX_ITEM_SIZE then .error .assertion
    else .ok { s with
      freelists := update s.freelists i (ptr :: s.freelists i)
      live := s.live.erase (ptr, sz) }

inductive Call where
  | alloc (sz malloc : ℕ)
  | free (ptr sz : ℕ)
  | reclaim
  deriving DecidableEq, Repr

def step (initialBlock : ℕ) (s : State) : Call → Except AllocError State
  | .alloc sz malloc => do return (← L2_alloc initialBlock sz malloc s).2
  | .free ptr sz => L2_free ptr sz s
  | .reclaim => .ok (L2_alloc_reclaim s)

/-- What the callers see to: `malloc` returns memory of its own, and what is freed is a block that
is live, with the size that it was requested with. -/
def Legal (initialBlock : ℕ) (s : State) : Call → Prop
  | .alloc sz malloc => 0 < malloc ∧ ∀ c ∈ (makeReady initialBlock s).chunks, Block.Apart
      ⟨malloc, exp2 (max INITIAL_BLOCK_LG2 (lg2 (ensureMinimalBlockSize sz)))⟩ c
  | .free ptr sz => (ptr, sz) ∈ s.live
  | .reclaim => True

instance (initialBlock : ℕ) (s : State) : (call : Call) → Decidable (Legal initialBlock s call)
  | .alloc _ _ => inferInstanceAs (Decidable (_ ∧ ∀ c ∈ _, _))
  | .free _ _ => inferInstanceAs (Decidable (_ ∈ s.live))
  | .reclaim => inferInstanceAs (Decidable True)

end ArrayAllocator
end Livingstone
