import Livingstone.Lib.Codec
import Livingstone.Readers.L2File

/-! Writing a model in the binary format (`to_bin.cpp`), and the check that its propositions
are sorted, which `xlate_sort_props.cpp` provides. -/

namespace Livingstone

def L2rProposition.isEquality : L2rProposition → Bool
  | .varValue _ => false
  | .varVar _ => true

def L2rProposition.isPositive : L2rProposition → Bool
  | .varValue p => p.positive
  | .varVar p => p.positive

/-- The number of propositions of each kind. -/
structure PropCounts where
  npos : ℕ
  nneg : ℕ
  nsame : ℕ
  ndiff : ℕ

structure Widths where
  we : ℕ
  wv : ℕ
  wp : ℕ
  wc : ℕ
  wch : ℕ
  wx : ℕ
  wxc : ℕ
  deriving DecidableEq, Repr

namespace ToBin

open Codec

variable (f : L2File)

def countProps : Except ReaderError PropCounts :=
  let count (positive equality : Bool) : ℕ :=
    f.props.countP fun p => p.isPositive == positive && p.isEquality == equality
  let n : PropCounts := ⟨count true false, count false false, count true true, count false true⟩
  if f.props.length = n.npos + n.nneg + n.nsame + n.ndiff then .ok n
  else .error (.writer "Tallies don't add up")

/-- One of the loops of `check_sorted`, from the proposition `start`. -/
def checkRun (start count : ℕ) (positive equality : Bool) : Except ReaderError Unit :=
  (List.range count).foldlM (fun _ i => do
    let p ← f.getProp (start + i)
    if p.isPositive = positive ∧ p.isEquality = equality then .ok ()
    else .error (.writer ("propositions are ill-sorted at index " ++ Nat.repr (start + i)))) ()

def checkSorted (n : PropCounts) : Except ReaderError Unit := do
  checkRun f 0 n.npos true false
  checkRun f n.npos n.nneg false false
  checkRun f (n.npos + n.nneg) n.nsame true true
  checkRun f (n.npos + n.nneg + n.nsame) n.ndiff false true

def widthLoop : ℕ → ℕ → ℕ
  | 0, _ => 0
  | n + 1, val => if val = 0 then 0 else widthLoop n (val / 256) + 1

/-- As many turns as `val` are enough. -/
def widthOfInt (val : ℕ) : ℕ := widthLoop val val

def widthToTwoBits : ℕ → Except ReaderError ℕ
  | 1 => .ok 0
  | 2 => .ok 1
  | 3 => .ok 2
  | 4 => .ok 3
  | w => .error (.fatal ("width of " ++ Nat.repr w ++ " does not fit in 2 bits"))

def put1 (c : ℕ) : Writer ReaderError := .ok [c % 256]

/-- The bytes of the value go to `newval` in the opposite order. -/
def flip : ℕ → ℕ → ℕ → ℕ × ℕ
  | 0, newval, value => (newval, value)
  | width + 1, newval, value => flip width (newval * 256 + value % 256) (value / 256)

def emit : ℕ → ℕ → List ℕ
  | 0, _ => []
  | width + 1, newval => newval % 256 :: emit width (newval / 256)

def put (width value : ℕ) : Writer ReaderError :=
  let (newval, value) := flip width 0 value
  if value = 0 then .ok (emit width newval)
  else .error (.writer ("value was too big for width " ++ Nat.repr width))

/-- A value that is −1 where there is none, as an unsigned number. -/
def unsigned : Option ℕ → ℕ
  | some i => i
  | none => 2 ^ 32 - 1

def largest (ns : List ℕ) : ℕ := ns.foldl (fun largest n => if largest < n then n else largest) 0

def modes : List L2rMode := (f.vars.filter fun x => x.kind = .mode).map (·.mode)

def widths : Widths where
  we := widthOfInt (largest f.enums)
  wv := widthOfInt f.vars.length
  wp := widthOfInt f.props.length
  wc := widthOfInt f.clauses.length
  wch := widthOfInt (largest (f.clauses.map (·.props.length)) * 2 % 2 ^ 32)
  wx := widthOfInt (largest ((modes f).flatMap fun m => [m.nominal.length, m.failure.length]))
  wxc := widthOfInt (largest ((modes f).flatMap fun m =>
    (m.nominal ++ m.failure).map (·.clauses.length)))

def putWidths (ws : List ℕ) : Except ReaderError (List ℕ) := do
  let pack ← ws.foldlM (fun pack w => do return pack * 4 + (← widthToTwoBits w)) 0
  put1 pack

def writeHeader (w : Widths) (n : PropCounts) : Writer ReaderError :=
  put1 76 ++ put1 50 ++ put1 98 ++ put1 105 ++ put 2 3 ++ put 4 0 ++
    putWidths [w.we, w.wv, w.wp, w.wc] ++ putWidths [w.wch, w.wx, w.wxc] ++
    put w.we f.enums.length ++ put w.wv f.vars.length ++ put w.wp n.npos ++ put w.wp n.nneg ++
    put w.wp n.nsame ++ put w.wp n.ndiff ++ put w.wc f.clauses.length

def writeEnums (w : Widths) : Writer ReaderError := writeAll (fun nmembers => put w.we nmembers) f.enums

def kindByte : VarKind → ℕ
  | .unknown => 100
  | .observed => 101
  | .commanded => 102
  | .mode => 103

def writeOneVariable (w : Widths) (x : L2rVariable) : Writer ReaderError :=
  put w.we x.type ++ put1 (kindByte x.kind) ++
    if x.kind = .mode then put w.we (unsigned x.initial) else .ok []

def writeVariables (w : Widths) : Writer ReaderError := writeAll (writeOneVariable w) f.vars

def writeOneVarvalue (w : Widths) (id : ℕ) : Except ReaderError (List ℕ) := do
  match ← f.getProp id with
  | .varValue p => (put w.wv p.var ++ put w.we p.value : Writer ReaderError)
  | .varVar _ => .error (.writer ("proposition " ++ Nat.repr id ++ " is an equality"))

def writeOneVarvar (w : Widths) (id : ℕ) : Except ReaderError (List ℕ) := do
  match ← f.getProp id with
  | .varVar p => (put w.wv p.var ++ put w.wv p.otherVar : Writer ReaderError)
  | .varValue _ => .error (.writer ("proposition " ++ Nat.repr id ++ " is not an equality"))

def writeProps (w : Widths) (n : PropCounts) : Writer ReaderError :=
  writeAll (writeOneVarvalue f w) (List.range (n.npos + n.nneg)) ++
    writeAll (writeOneVarvar f w) (List.range' (n.npos + n.nneg) (n.nsame + n.ndiff))

def writeOneClause (w : Widths) (c : L2rClause) : Writer ReaderError :=
  put w.wch (c.props.length * 2 % 2 ^ 32 + if c.isInBackground then 1 else 0) ++
    writeAll (fun i => put w.wp i) c.props

def writeClauses (w : Widths) : Writer ReaderError := writeAll (writeOneClause w) f.clauses

def putClause (w : Widths) : Option ℕ → Writer ReaderError
  | some i => put w.wc i
  | none => .error .nullPointer

def writeOneTransition (w : Widths) (x : L2rTransition) : Writer ReaderError :=
  (if x.isNominal then put w.we (unsigned x.fromMode) else put1 x.rank) ++
    put w.we x.toMode ++ put w.wxc x.clauses.length ++
    writeAll (putClause w) x.clauses

def writeMode (w : Widths) (m : L2rMode) : Writer ReaderError :=
  put w.wx m.nominal.length ++ put w.wx m.failure.length ++
    writeAll (writeOneTransition w) m.nominal ++ writeAll (writeOneTransition w) m.failure

def writeTransitions (w : Widths) : Writer ReaderError := writeAll (writeMode w) (modes f)

/-- The constructor of the writer, and `write`. -/
def write : Except ReaderError (List ℕ) := do
  let n ← countProps f
  checkSorted f n
  let w := widths f
  (writeHeader f w n ++ writeEnums f w ++ writeVariables f w ++ writeProps f w n ++
    writeClauses f w ++ writeTransitions f w : Writer ReaderError)

end ToBin

end Livingstone
