import Livingstone.Lib.SwapRemove
import Livingstone.Lib.UnitPropagation

/-! Propositions, clauses and the theory that holds them (`proposition.h`,
`clause.cpp`, `ptheory.cpp`). Pointers are addresses into two heaps, and a new
object takes the next free address. Arrays are lists with the first element at
index 0. -/

namespace Livingstone

abbrev PropId := ℕ
abbrev ClauseId := ℕ

/-- The exceptions and failed assertions of the code. `outOfFuel` is none of the
code's: it ends a loop that has run longer than the bound it was given. -/
inductive L2Error where
  | fatal (msg : String)
  | notFound (msg : String)
  | assertion
  | outOfFuel
  deriving DecidableEq, Repr

inductive TruthValue where
  | pfalse
  | ptrue
  | unknown
  deriving DecidableEq, Repr

structure Proposition where
  tv : TruthValue := .unknown
  positive : List ClauseId := []
  negative : List ClauseId := []
  supportedBy : Option ClauseId := none
  destroying : Bool := false

def Proposition.initializeProposition (p : Proposition) : Proposition :=
  { p with tv := .unknown, supportedBy := none }

/-- Conversion to `length_t`, a signed char. -/
def lengthT (n : ℤ) : ℤ := n.bmod 256

def noProposition : ℤ := -1

structure Clause where
  numLits : ℤ
  numPosLits : ℤ
  numUnassigned : ℤ := 0
  supports : ℤ := noProposition
  deleted : Bool := true
  inFringe : Bool := false
  unsatisfied : Bool := false
  isVolatile : Bool := false
  destroying : Bool := false
  fringeIndex : ℕ := 0
  timeStamp : ℕ := 0
  satisfyingProp : Option PropId := none
  /-- The assignment the clause stands for, if any. -/
  datum : Option ℕ := none
  literals : List PropId

namespace Clause

def positiveProps (k : Clause) : List PropId := k.literals.take k.numPosLits.toNat

def negativeProps (k : Clause) : List PropId :=
  (k.literals.take k.numLits.toNat).drop k.numPosLits.toNat

/-- The literals in array order, each with its sign. -/
def lits (k : Clause) : List (UnitProp.Literal PropId) :=
  k.positiveProps.map (·, true) ++ k.negativeProps.map (·, false)

/-- The proposition the clause supports, from its index. -/
def getSupports (k : Clause) : Option PropId :=
  if k.supports = noProposition then none else k.literals[k.supports.toNat]?

def setSupports (k : Clause) : Option PropId → Except L2Error Clause
  | none => .ok { k with supports := noProposition }
  | some p =>
    match (k.literals.take k.numLits.toNat).idxOf? p with
    | some i => .ok { k with supports := lengthT i }
    | none => .error (.fatal "clause being supported by a prop not in the clause")

def incrNumUnassigned (k : Clause) : Except L2Error Clause :=
  if k.numUnassigned < k.numLits then
    .ok { k with numUnassigned := lengthT (k.numUnassigned + 1) }
  else .error (.fatal
    s!"number of unassigned literals exceeds total number ({k.numUnassigned + 1}>={k.numLits})")

def decrNumUnassigned (k : Clause) : Except L2Error Clause :=
  if 0 < k.numUnassigned then
    .ok { k with numUnassigned := lengthT (k.numUnassigned - 1) }
  else .error (.fatal "decreasing unassigned count below zero")

end Clause

/-- The constructor of `Clause`: both lists without their repetitions, positive
literals first. -/
def Clause.construct (datum : Option ℕ) (pos neg : List PropId) (isVolatile : Bool) : Clause :=
  let pos := pos.eraseDups
  let neg := neg.eraseDups
  let numPosLits := lengthT (pos.length % 256 : ℕ)
  { numLits := lengthT (numPosLits + (neg.length % 256 : ℕ))
    numPosLits := numPosLits
    isVolatile := isVolatile
    datum := datum
    literals := pos ++ neg }

/-- An `LTMS`, with the `Ptheory` it extends. `undoList` is a stack, top first. -/
structure Ltms where
  prop : PropId → Proposition := fun _ => {}
  clause : ClauseId → Clause := fun _ => { numLits := 0, numPosLits := 0, literals := [] }
  props : List PropId := []
  clauses : List ClauseId := []
  nextProp : PropId := 0
  nextClause : ClauseId := 0
  timeStamp : ℕ := 0
  fringe : List ClauseId := []
  volatileFringe : List ClauseId := []
  unsatisfied : List ClauseId := []
  undoList : List PropId := []

namespace Ltms

def setClause (s : Ltms) (c : ClauseId) (k : Clause) : Ltms :=
  { s with clause := Function.update s.clause c k }

def setProp (s : Ltms) (p : PropId) (x : Proposition) : Ltms :=
  { s with prop := Function.update s.prop p x }

def value (s : Ltms) (p : PropId) : TruthValue := (s.prop p).tv

/-- The value of a literal: `none` while its proposition is unknown. -/
def litVal (s : Ltms) (l : UnitProp.Literal PropId) : Option Bool :=
  match s.value l.1 with
  | .unknown => none
  | .ptrue => some l.2
  | .pfalse => some !l.2

/-- The clauses in which `p` occurs with the given sign. -/
def occurrences (s : Ltms) (p : PropId) (sign : Bool) : List ClauseId :=
  if sign then (s.prop p).positive else (s.prop p).negative

def findSatisfyingProp (s : Ltms) (k : Clause) : Option PropId :=
  (k.lits.find? fun l => s.litVal l = some true).map (·.1)

def countUnassigned (s : Ltms) (k : Clause) : ℤ :=
  lengthT (k.lits.countP fun l => s.litVal l = none)

/-- The first literal without a value: its proposition and its sign. -/
def getUnassignedLiteral (s : Ltms) (k : Clause) : Except L2Error (UnitProp.Literal PropId) :=
  match k.lits.find? fun l => s.litVal l = none with
  | some l => .ok l
  | none => .error (.fatal "called get_unassigned_literal on non-fringe clause")

def addOccurrence (s : Ltms) (c : ClauseId) (l : UnitProp.Literal PropId) : Ltms :=
  let x := s.prop l.1
  s.setProp l.1 (if l.2 then { x with positive := x.positive ++ [c] }
    else { x with negative := x.negative ++ [c] })

/-- `remove_positive` or `remove_negative`. -/
def removeOccurrence (s : Ltms) (c : ClauseId) (l : UnitProp.Literal PropId) : Ltms :=
  let x := s.prop l.1
  let drop (cs : List ClauseId) :=
    match cs.idxOf? c with
    | some i => SwapRemove.swapRemove cs i
    | none => cs
  s.setProp l.1 (if l.2 then { x with positive := drop x.positive }
    else { x with negative := drop x.negative })

def createProposition (s : Ltms) : PropId × Ltms :=
  (s.nextProp,
    { s with
      prop := Function.update s.prop s.nextProp {}
      props := s.props ++ [s.nextProp]
      nextProp := s.nextProp + 1 })

/-- `Ptheory::create_clause` up to the point where the clause may be added. -/
def newClause (s : Ltms) (datum : Option ℕ) (pos neg : List PropId) (isVolatile : Bool) :
    ClauseId × Ltms :=
  let c := s.nextClause
  let k := Clause.construct datum pos neg isVolatile
  let s := { s.setClause c k with nextClause := c + 1 }
  let s := k.lits.foldl (fun s l => s.addOccurrence c l) s
  (c, { s with clauses := s.clauses ++ [c] })

def ptheoryAdd (s : Ltms) (c : ClauseId) : Ltms :=
  let k := s.clause c
  if k.deleted then
    s.setClause c { k with
      deleted := false
      satisfyingProp := s.findSatisfyingProp k
      numUnassigned := s.countUnassigned k }
  else s

def ptheoryRemove (s : Ltms) (c : ClauseId) : Ltms :=
  s.setClause c { s.clause c with deleted := true }

def initializeTimeStamps (s : Ltms) : Ltms :=
  { s with
    timeStamp := 0
    clause := fun c => if c ∈ s.clauses then { s.clause c with timeStamp := 0 } else s.clause c }

end Ltms

end Livingstone
