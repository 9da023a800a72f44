import Livingstone.ConflictDb.Candidate
import Livingstone.Tms.Variable

/-! A `Conflict_db` with its solver (`conflict_db.cpp`, `assignable.cpp`, `assumption.h`,
`observable.h`): every value of an assignable variable has a unit clause of the solver, which is in
the theory while the variable has that value. -/

namespace Livingstone

/-- `clauseOf` is `Assignment::get_clause`, and `current` is `Assignable::get_current`. -/
structure Engine where
  solver : Ltms := {}
  db : ConflictDb := {}
  assignables : List VarId := []
  assumptions : List VarId := []
  clauseOf : Assignment → ClauseId := fun _ => 0
  current : VarId → Option Assignment := fun _ => none
  candidates : List Candidate := []

namespace Engine

/-- `datum` gives the address of an assignment. -/
def createAssignment (datum : Assignment → ℕ) (e : Engine) (p : Assignment × PropId) :
    Except L2Error Engine := do
  let (c, solver) ← e.solver.createClause (some (datum p.1)) [p.2] [] true false
  return { e with solver := solver, clauseOf := Function.update e.clauseOf p.1 c }

/-- `Conflict_db::registerAssignable`, and `registerAssumption` for an assumption. -/
def register (D : Assignables) (v : VarId) (e : Engine) : Engine :=
  { e with
    assignables := v :: e.assignables
    assumptions := if D.isAssumption v then v :: e.assumptions else e.assumptions }

/-- The constructor of `Assignable`, and what `Conflict_db` and `T_system` do with the new
variable. -/
def createAssignable (D : Assignables) (datum : Assignment → ℕ) (v : VarId) (e : Engine) :
    Except L2Error Engine := do
  let (propositions, solver) ← e.solver.newVariable (D.assignments v).length
  let e ← ((D.assignments v).zip propositions).foldlM (createAssignment datum)
    { e with solver := solver }
  return e.register D v

def createDependent (domainCardinality : ℕ) (e : Engine) : Except L2Error Engine := do
  let (_, solver) ← e.solver.newVariable domainCardinality
  return { e with solver := solver }

def createClause (positive negative : List PropId) (isVolatile inTheory : Bool) (e : Engine) :
    Except L2Error Engine := do
  let (_, solver) ← e.solver.createClause none positive negative isVolatile inTheory
  return { e with solver := solver }

/-- What `assign` and `unassign` do first. -/
def retract (v : VarId) (e : Engine) : Except L2Error Ltms :=
  match e.current v with
  | some a => e.solver.remove (e.clauseOf a)
  | none => .ok e.solver

def assign (a : Assignment) (e : Engine) : Except L2Error Engine :=
  if e.current a.var = some a then .ok e
  else do
    let solver ← e.retract a.var
    let solver ← solver.add (e.clauseOf a)
    return { e with solver := solver, current := Function.update e.current a.var (some a) }

def unassign (v : VarId) (e : Engine) : Except L2Error Engine := do
  let solver ← e.retract v
  return { e with solver := solver, current := Function.update e.current v none }

/-- `Assignable::assign` for the index of a value. -/
def assignIndex (D : Assignables) (v : VarId) (valueIndex : ℕ) (e : Engine) :
    Except L2Error Engine :=
  match (D.assignments v)[valueIndex]? with
  | some a => e.assign a
  | none => .error (.fatal (s!"index {valueIndex} out of bounds in assignments of size " ++
      s!"{(D.assignments v).length}"))

/-- `Observable::observe`. -/
def observe (D : Assignables) (v : VarId) (valueIndex : ℤ) (e : Engine) : Except L2Error Engine :=
  if valueIndex < 0 then e.unassign v else e.assignIndex D v valueIndex.toNat

def restoreDefault (D : Assignables) (e : Engine) (v : VarId) : Except L2Error Engine :=
  e.assign (D.defaultAssignment v)

def restoreAssumptionDefaults (D : Assignables) (e : Engine) : Except L2Error Engine :=
  e.assumptions.foldlM (restoreDefault D) e

def assignCandidate (candidate : Candidate) (e : Engine) : Except L2Error Engine :=
  candidate.foldlM (fun e a => e.assign a) e

def conflict (D : Assignables) (tag : ℕ) (e : Engine) :
    Except L2Error (Option ConflictId × Engine) := do
  let (c, db, solver) ← e.db.discover D e.solver tag
  return (c, { e with db := db, solver := solver })

/-- The defaults with the assignments of the candidate in their place. -/
def adopt (D : Assignables) (candidate : Candidate) (e : Engine) : Except L2Error Engine := do
  let e ← e.restoreAssumptionDefaults D
  e.assignCandidate candidate

def install (D : Assignables) (candidate : Candidate) (propagate : Bool) (e : Engine) :
    Except L2Error Engine := do
  let e ← e.adopt D candidate
  if propagate then
    let (_, solver) ← e.solver.propagate
    return { e with solver := solver }
  else return e

/-- What a search does with the candidate that it has popped. -/
def examine (D : Assignables) (tag : ℕ) (candidate : Candidate) (e : Engine) :
    Except L2Error (Option ConflictId × Engine) := do
  let e ← e.adopt D candidate
  e.conflict D tag

/-- The loop of `T_system::prune_inconsistent_candidates`: those that are kept, and the engine. -/
def pruneLoop (D : Assignables) (timestep : ℕ) :
    List Candidate → Engine → Except L2Error (List Candidate × Engine)
  | [], e => .ok ([], e)
  | candidate :: candidates, e => do
    let e ← e.install D candidate true
    let (conflict, e) ← e.conflict D timestep
    let (kept, e) ← pruneLoop D timestep candidates e
    return (if conflict.isSome then kept else candidate :: kept, e)

def pruneInconsistentCandidates (D : Assignables) (timestep : ℕ) (e : Engine) :
    Except L2Error Engine := do
  let (kept, e) ← pruneLoop D timestep e.candidates e
  return { e with candidates := kept }

end Engine

end Livingstone
