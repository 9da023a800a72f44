import Livingstone.Lib.Chain
import Livingstone.Tms.Ptheory
import Livingstone.Transition.Transitioned

/-! The variables of the transition system over time (`variable.cpp`, `assignable.cpp`,
`assumption.cpp`, and what `conflict_db.cpp` and `T_system.cpp` do to create them). Pointers are
addresses; a new variable takes the next free one. -/

namespace Livingstone
namespace Transition

open Function (update)

abbrev Ref := ℕ

/-- What the variables use of the truth maintenance system. -/
structure Solver (σ : Type) where
  createProposition : σ → PropId × σ
  /-- The datum is an assignment: a variable and the index of a value. -/
  createClause : σ → Option (Ref × ℕ) → (positive negative : List PropId) →
    (isVolatile inTheory : Bool) → ClauseId × σ
  add : σ → ClauseId → σ
  remove : σ → ClauseId → σ
  isTrue : σ → PropId → Bool
  propagate : σ → Bool × σ
  moveSupport : σ → PropId → List ClauseId → PropId → σ
  setDestroying : σ → PropId → σ
  isDestroying : σ → ClauseId → Bool
  finishDestroying : σ → σ

inductive Kind where
  | dependent
  | transitioned
  | command
  | observable
  | assignable
  | stateVariable
  | transition
  deriving DecidableEq, Repr

namespace Kind

def isAssignable : Kind → Bool
  | .dependent => false
  | .transitioned => false
  | _ => true

def isDependent : Kind → Bool
  | .dependent => true
  | .transitioned => true
  | _ => false

def isAssumption : Kind → Bool
  | .stateVariable => true
  | .transition => true
  | _ => false

end Kind

/-- `T_system::NOW`, and `BEFORE_HORIZON` too. -/
def now : UInt32 := 4294967295

def stateVarID : UInt32 := 4294967295

/-- A variable of any class; what only assignables have is empty in the others. -/
structure VariableCell where
  kind : Kind
  id : UInt32
  timeStep : UInt32
  propositions : List PropId := []
  /-- The unit clause of each assignment. -/
  clauses : List ClauseId := []
  weights : List UInt32 := []
  current : Option ℕ := none
  savedAssignment : Option ℕ := none
  exogenouslyAssigned : Bool := false
  deriving Repr

structure ModeCell where
  zenithTransition : Ref
  horizonTransition : Ref
  ntransitions : ℕ
  transitionCosts : List UInt32
  transitionClauses : List ClauseId := []
  nowHasFailureFromHorizon : Bool := false
  prototypes : Transitioned

abbrev Candidate := List (Ref × ℕ)

structure TSystem (σ : Type) where
  solver : σ
  cell : Ref → VariableCell
  modeCell : Ref → ModeCell
  links : Chain.Links Ref
  fresh : ℕ
  /-- `Conflict_db::variables`. -/
  variableList : List Ref
  /-- The variable before which new ones go; without one, they go to the front. -/
  insertBefore : Option Ref
  assumptions : List Ref
  presentVariables : List (Option Ref)
  stateConstraintPrototypes : List (List ProtoAssignment × List ProtoAssignment)
  stateVar : Ref
  candidates : List Candidate
  newClauses : List ClauseId
  timestep : UInt32
  oldestTimestep : UInt32
  maxHistoryLength : UInt32
  maxTruncatedCandidates : UInt32
  progressUsesFull : Bool

namespace TSystem

variable {σ : Type} (S : Solver σ)

def setVariable (s : TSystem σ) (r : Ref) (v : VariableCell) : TSystem σ :=
  { s with cell := update s.cell r v }

def setMode (s : TSystem σ) (m : Ref) (v : ModeCell) : TSystem σ :=
  { s with modeCell := update s.modeCell m v }

def timeOf (s : TSystem σ) (r : Ref) : UInt32 := (s.cell r).timeStep

def kindOf (s : TSystem σ) (r : Ref) : Kind := (s.cell r).kind

def history (s : TSystem σ) (r : Ref) : List Ref := s.links.walk s.fresh r

def getProp (s : TSystem σ) (r : Ref) (i : ℕ) : Except L2Error PropId :=
  match (s.cell r).propositions[i]? with
  | some p => .ok p
  | none => .error (.fatal "variable propositions")

def getValue (s : TSystem σ) (r : Ref) : Option PropId :=
  (s.cell r).propositions.find? fun p => S.isTrue s.solver p

def getPresentVariable (s : TSystem σ) (id : ℕ) : Option Ref := (s.presentVariables[id]?).join

/-- The present variables in the order of a loop over them. -/
def present (s : TSystem σ) : List Ref := s.presentVariables.filterMap id

def clauseOf (s : TSystem σ) (r : Ref) (i : ℕ) : ClauseId := ((s.cell r).clauses[i]?).getD 0

/-- `Assignable::assign`, to an assignment or to none. -/
def assign (r : Ref) (value : Option ℕ) (s : TSystem σ) : TSystem σ :=
  let v := s.cell r
  if v.current = value then s
  else
    let t := match v.current with
      | some i => S.remove s.solver (s.clauseOf r i)
      | none => s.solver
    let t := match value with
      | some j => S.add t (s.clauseOf r j)
      | none => t
    { s.setVariable r { v with current := value } with solver := t }

def unassign (r : Ref) (s : TSystem σ) : TSystem σ :=
  let v := s.cell r
  match v.current with
  | some i => { s.setVariable r { v with current := none } with
      solver := S.remove s.solver (s.clauseOf r i) }
  | none => s

def save (r : Ref) (s : TSystem σ) : TSystem σ :=
  s.setVariable r { s.cell r with savedAssignment := (s.cell r).current }

def restore (r : Ref) (s : TSystem σ) : TSystem σ := assign S r (s.cell r).savedAssignment s

/-- The default assignment is the first one. -/
def restoreDefault (r : Ref) (s : TSystem σ) : TSystem σ := assign S r (some 0) s

def setExogenouslyAssigned (r : Ref) (b : Bool) (s : TSystem σ) : TSystem σ :=
  s.setVariable r { s.cell r with exogenouslyAssigned := b }

/-- `Observable::observe`; a negative index is `none`. -/
def observe (r : Ref) (value : Option ℕ) (s : TSystem σ) : TSystem σ :=
  setExogenouslyAssigned r value.isSome <|
    match value with
    | some i => assign S r (some i) s
    | none => unassign S r s

def restoreAssumptionDefaults (s : TSystem σ) : TSystem σ :=
  s.assumptions.foldl (fun s r => restoreDefault S r s) s

def assignCandidate (c : Candidate) (s : TSystem σ) : TSystem σ :=
  c.foldl (fun s a => assign S a.1 (some a.2) s) s

def propagate (s : TSystem σ) : Bool × TSystem σ :=
  let (consistent, t) := S.propagate s.solver
  (consistent, { s with solver := t })

def install (c : Candidate) (s : TSystem σ) : TSystem σ :=
  (propagate S (assignCandidate S c (restoreAssumptionDefaults S s))).2

/-- The proposition that is created first is the last one of the variable. -/
def createPropositions : ℕ → σ → List PropId × σ
  | 0, t => ([], t)
  | n + 1, t =>
    let (p, t) := S.createProposition t
    let (ps, t) := createPropositions n t
    (ps ++ [p], t)

/-- No two of the propositions are true. -/
def mutexClauses : List PropId → σ → σ
  | [], t => t
  | p :: ps, t =>
    mutexClauses ps (ps.foldl (fun t q => (S.createClause t none [] [q, p] false true).2) t)

/-- One of the propositions is true, and no two of them. -/
def domainClauses (ps : List PropId) (t : σ) : σ :=
  mutexClauses S ps (S.createClause t none ps [] false true).2

/-- The list with `r` before the first `q`. -/
def insertInFrontOf (q r : Ref) : List Ref → List Ref
  | [] => [r]
  | x :: l => if x = q then r :: x :: l else x :: insertInFrontOf q r l

def insertVariable (r : Ref) (s : TSystem σ) : TSystem σ :=
  match s.insertBefore with
  | none => { s with variableList := r :: s.variableList }
  | some q => { s with
      variableList := insertInFrontOf q r s.variableList
      insertBefore := some r }

/-- The constructor of `Variable`. -/
def newVariable (kind : Kind) (nvalues : ℕ) (timeStep id : UInt32) (s : TSystem σ) :
    Ref × TSystem σ :=
  let (ps, t) := createPropositions S nvalues s.solver
  let r := s.fresh
  (r, insertVariable r { s with
    solver := domainClauses S ps t
    cell := update s.cell r { kind := kind, id := id, timeStep := timeStep, propositions := ps }
    links := s.links.clear r
    fresh := r + 1 })

/-- The unit clauses of the assignments of `r` from the value `i` on. -/
def assignmentClauses (r : Ref) : ℕ → List PropId → σ → List ClauseId × σ
  | _, [], t => ([], t)
  | i, p :: ps, t =>
    let (c, t) := S.createClause t (some (r, i)) [p] [] true false
    let (cs, t) := assignmentClauses r (i + 1) ps t
    (c :: cs, t)

/-- The constructors of `Assignable` and, with weights, of `Assumption`. -/
def newAssignable (kind : Kind) (weights : List UInt32) (timeStep id : UInt32) (s : TSystem σ) :
    Ref × TSystem σ :=
  let (r, s) := newVariable S kind weights.length timeStep id s
  let (cs, t) := assignmentClauses S r 0 (s.cell r).propositions s.solver
  (r, { s.setVariable r { s.cell r with clauses := cs, weights := weights } with solver := t })

def createDependent (nvalues : ℕ) (timeStep id : UInt32) (s : TSystem σ) : Ref × TSystem σ :=
  newVariable S .dependent nvalues timeStep id s

def createAssignable (nvalues : ℕ) (timeStep id : UInt32) (s : TSystem σ) : Ref × TSystem σ :=
  newAssignable S .assignable (List.replicate nvalues 0) timeStep id s

def createCommand (nvalues : ℕ) (timeStep id : UInt32) (s : TSystem σ) : Ref × TSystem σ :=
  newAssignable S .command (List.replicate nvalues 0) timeStep id s

def createObservable (nvalues : ℕ) (timeStep id : UInt32) (s : TSystem σ) : Ref × TSystem σ :=
  newAssignable S .observable (List.replicate nvalues 0) timeStep id s

def registerAssumption (r : Ref) (s : TSystem σ) : TSystem σ :=
  { s with assumptions := r :: s.assumptions }

def createStateVariable (weights : List UInt32) (timeStep id : UInt32) (s : TSystem σ) :
    Ref × TSystem σ :=
  let (r, s) := newAssignable S .stateVariable weights timeStep id s
  (r, registerAssumption r s)

def createTransition (costs : List UInt32) (timeStep id : UInt32) (s : TSystem σ) :
    Ref × TSystem σ :=
  let (r, s) := newAssignable S .transition costs timeStep id s
  (r, registerAssumption r s)

def createModeTransition (costs : List UInt32) (timeStep id : UInt32) (s : TSystem σ) :
    Ref × TSystem σ :=
  let (r, s) := createTransition S costs timeStep id s
  (r, restoreDefault S r s)

def growAndSet (l : List (Option Ref)) (i : ℕ) (r : Ref) : List (Option Ref) :=
  (l ++ List.replicate (i + 1 - l.length) none).set i (some r)

/-- The last index is too large for the array of the present variables. -/
def registerNewVariable (r : Ref) (s : TSystem σ) : Except L2Error (TSystem σ) :=
  let v := s.cell r
  if v.timeStep ≠ now then .error (.fatal "Attempt to register non-NOW Variable")
  else if v.kind = .transition then .error (.fatal "Attempt to register Transition Variable")
  else if (s.getPresentVariable v.id.toNat).isSome then
    .error (.fatal ("index " ++ toString v.id.toNat ++ " already occupied"))
  else if v.id = stateVarID then .error .assertion
  else .ok { s with presentVariables := growAndSet s.presentVariables v.id.toNat r }

/-- The constructor of `Transitioned`. -/
def newTransitioned (nvalues transitionCount : ℕ) (timeStep id : UInt32) (s : TSystem σ) :
    Ref × TSystem σ :=
  let (m, s) := newVariable S .transitioned nvalues timeStep id s
  let (t, s) := createModeTransition S (List.replicate transitionCount 0) now id s
  (m, s.setMode m {
    zenithTransition := t
    horizonTransition := t
    ntransitions := transitionCount
    transitionCosts := [0]
    prototypes := { id := id.toNat } })

def copyInPast (kind : Kind) (v : Ref) (s : TSystem σ) : Ref × TSystem σ :=
  let x := s.cell v
  let (r, s) :=
    if kind.isAssignable then
      newAssignable S kind (List.replicate x.propositions.length 0) s.timestep x.id s
    else newVariable S kind x.propositions.length s.timestep x.id s
  (r, { s with links := s.links.insertPrevious v r })

end TSystem
end Transition
end Livingstone
