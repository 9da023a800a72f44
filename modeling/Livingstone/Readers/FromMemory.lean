import Livingstone.Lib.Codec
import Livingstone.Readers.ToBin
import Livingstone.Readers.Translator

/-! Reading a model in the binary format (`from_memory.cpp`). The reader's state is what is left
of the array before `modelSize`. -/

namespace Livingstone.FromMemory

open Codec

structure Counts where
  nenums : ℕ
  nvars : ℕ
  nposprops : ℕ
  nnegprops : ℕ
  nsameprops : ℕ
  ndiffprops : ℕ
  nclauses : ℕ

abbrev MemoryReader := Reader ReaderError

/-- The result is an `unsigned char`. -/
def get1 : MemoryReader ℕ
  | [] => .error (.reader "reached EOF prematurely")
  | c :: rest => .ok (c % 256, rest)

def getLoop : ℕ → ℕ → MemoryReader ℕ
  | 0, acc => pure acc
  | width + 1, acc => do
    let c ← get1
    getLoop width ((acc * 256 + c) % 2 ^ 32)

def get (width : ℕ) : MemoryReader ℕ := getLoop width 0

def readCookie : List ℕ → MemoryReader Bool
  | [] => pure true
  | c :: expected => do
    let b ← get1
    if b ≠ c then return false else readCookie expected

def readVersion : MemoryReader Bool := do return (← get 2) = 3

def readChecksum : MemoryReader Bool := do
  let _ ← get 4
  return true

def assert (b : Bool) : Except ReaderError Unit := if b then .ok () else .error .assertion

/-- In `1 + pack & 0x3` the sum is taken first. The last of the widths is not shifted out
before the assertion. -/
def readWeights : MemoryReader Widths := do
  let pack ← get1
  assert (pack / 4 / 4 / 4 / 4 = 0)
  let pack' ← get1
  assert (pack' / 4 / 4 = 0)
  return {
    wc := (1 + pack) % 4
    wp := (1 + pack / 4) % 4
    wv := (1 + pack / 4 / 4) % 4
    we := (1 + pack / 4 / 4 / 4) % 4
    wxc := (1 + pack') % 4
    wx := (1 + pack' / 4) % 4
    wch := (1 + pack' / 4 / 4) % 4 }

def readCounts (w : Widths) : MemoryReader Counts := do
  return ⟨← get w.we, ← get w.wv, ← get w.wp, ← get w.wp, ← get w.wp, ← get w.wp, ← get w.wc⟩

def readHeader : MemoryReader (Option (Widths × Counts)) := do
  if ← readCookie [76, 50, 98, 105] then
    if ← readVersion then
      if ← readChecksum then
        let w ← readWeights
        return some (w, ← readCounts w)
      else return none
    else return none
  else return none

def readOneEnum (w : Widths) (dest : L2File) : MemoryReader L2File := do
  return { dest with enums := dest.enums ++ [← get w.we] }

def kindOf : ℕ → Except ReaderError VarKind
  | 100 => .ok .unknown
  | 101 => .ok .observed
  | 102 => .ok .commanded
  | 103 => .ok .mode
  | kindint => .error (.reader ("unknown kind " ++ Nat.repr kindint))

/-- Only modes have an initial value in the file. -/
def readInitial (w : Widths) (kind : VarKind) : MemoryReader (Option ℕ) :=
  if kind = .mode then do return some (← get w.we) else pure none

def readOneVariable (w : Widths) (dest : L2File) : MemoryReader L2File := do
  let enumID ← get w.we
  let kindint ← get1
  let kind ← kindOf kindint
  let _ ← dest.getEnum enumID
  let initial ← readInitial w kind
  return { dest with vars := dest.vars ++ [{ type := enumID, kind := kind, initial := initial }] }

def readOneVarval (w : Widths) (pos : Bool) (dest : L2File) : MemoryReader L2File := do
  let varID ← get w.wv
  let value ← get w.we
  let _ ← dest.getVar varID
  return { dest with props := dest.props ++ [.varValue ⟨varID, pos, value⟩] }

def readOneVarvar (w : Widths) (pos : Bool) (dest : L2File) : MemoryReader L2File := do
  let var1 ← get w.wv
  let var2 ← get w.wv
  let _ ← dest.getVar var1
  let _ ← dest.getVar var2
  return { dest with props := dest.props ++ [.varVar (.make var1 pos var2)] }

def readOneClause (w : Widths) (dest : L2File) : MemoryReader L2File := do
  let pack ← get w.wch
  let props ← (List.range (pack / 2)).foldlM (fun props _ => do
    let pid ← get w.wp
    let _ ← dest.getProp pid
    return props ++ [pid]) []
  return { dest with clauses := dest.clauses ++ [⟨props, pack % 2 == 1⟩] }

/-- The rank of a failure, or where a nominal transition starts. -/
def readRankOrFrom (w : Widths) (isnominal : Bool) : MemoryReader (ℕ × Option ℕ) :=
  if isnominal then do return (0, some (← get w.we)) else do return (← get1, none)

def readOneTransition (w : Widths) (isnominal : Bool) (m : ℕ) (dest : L2File) :
    MemoryReader L2File := do
  let (rank, fromMode) ← readRankOrFrom w isnominal
  let toMode ← get w.we
  let ncls ← get w.wxc
  let cls ← (List.range ncls).foldlM (fun cls _ => do
    let cid ← get w.wc
    let _ ← dest.getClause cid
    return cls ++ [some cid]) []
  dest.addTransition ⟨m, fromMode, toMode, cls, isnominal, rank⟩

def readTransitionsOf (w : Widths) (m : ℕ) (dest : L2File) : MemoryReader L2File := do
  let x ← dest.getVar m
  if x.kind ≠ .mode then return dest
  else do
    let nnominal ← get w.wx
    let nfailure ← get w.wx
    let dest ← (List.range nnominal).foldlM (fun dest _ => readOneTransition w true m dest) dest
    (List.range nfailure).foldlM (fun dest _ => readOneTransition w false m dest) dest

def readSections (w : Widths) (n : Counts) : MemoryReader L2File := do
  let dest ← (List.range n.nenums).foldlM (fun dest _ => readOneEnum w dest) {}
  let dest ← (List.range n.nvars).foldlM (fun dest _ => readOneVariable w dest) dest
  let dest ← (List.range n.nposprops).foldlM (fun dest _ => readOneVarval w true dest) dest
  let dest ← (List.range n.nnegprops).foldlM (fun dest _ => readOneVarval w false dest) dest
  let dest ← (List.range n.nsameprops).foldlM (fun dest _ => readOneVarvar w true dest) dest
  let dest ← (List.range n.ndiffprops).foldlM (fun dest _ => readOneVarvar w false dest) dest
  let dest ← (List.range n.nclauses).foldlM (fun dest _ => readOneClause w dest) dest
  (List.range dest.vars.length).foldlM (fun dest m => readTransitionsOf w m dest) dest

/-- The model that is read and the number of bytes taken for it, or `none` where `read` returns
false. `modelSize` is an `int` in the first comparison. -/
def read (theModel : List ℕ) : Except ReaderError (Option (L2File × ℕ)) := do
  let modelSize := theModel.length % 2 ^ 32
  if modelSize = 0 ∨ 2 ^ 31 ≤ modelSize then return none
  else do
    let (header, rest) ← readHeader (theModel.take modelSize)
    match header with
    | none => return none
    | some (w, n) => do
      let (dest, rest) ← readSections w n rest
      return some (dest, modelSize - rest.length)

end Livingstone.FromMemory
