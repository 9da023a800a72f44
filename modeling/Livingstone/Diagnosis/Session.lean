import Livingstone.Diagnosis.Tracker
import Livingstone.Opsat.Frontier
import Livingstone.Tms.Run
import Mathlib.Logic.Relation

/-! A session with the engine (`livingstone.cpp`): variables and clauses are created, and the client
observes, diagnoses and installs candidates in any order. -/

namespace Livingstone

inductive FcStyle where
  | invalid
  | trackerDefault
  | extend
  | findFresh
  | pruneAndSearch
  deriving DecidableEq, Repr

/-- What is fixed for a session. `datum` is the address of an assignment, and so no two assignments
have the same one; an observable is no assumption. -/
structure Session where
  assignables : Assignables
  datum : Assignment → ℕ
  isObservable : VarId → Bool
  tracker : CbfsTracker
  nodup : ∀ v, (assignables.assignments v).Nodup
  assignmentOf_datum : ∀ v, ∀ a ∈ assignables.assignments v, assignables.assignmentOf (datum a) = a
  not_isAssumption : ∀ v, isObservable v = true → assignables.isAssumption v = false

inductive Call where
  | createAssignable (v : VarId)
  | createDependent (domainCardinality : ℕ)
  | createClause (positive negative : List PropId) (isVolatile inTheory : Bool)
  | observe (v : VarId) (value : ℤ)
  | install (candIdx : ℕ)
  | diagnose (style : FcStyle)

/-- Nothing is created or observed. -/
def Call.searches : Call → Bool
  | .install _ => true
  | .diagnose _ => true
  | _ => false

/-- Candidates are looked for. -/
def Call.diagnoses : Call → Bool
  | .diagnose _ => true
  | _ => false

namespace Session

variable (M : Session)

/-- The checks of `Livingstone::observe`. -/
def accepts (e : Engine) (v : VarId) (value : ℤ) : Bool :=
  (v ∈ e.assignables && M.isObservable v) &&
    !(decide (0 ≤ value) && decide ((M.assignables.assignments v).length ≤ value.toNat))

/-- `Livingstone::observe`. -/
def observe (v : VarId) (value : ℤ) (e : Engine) : Except L2Error (Bool × Engine) :=
  if M.accepts e v value then do
    let e ← e.observe M.assignables v value
    return (true, e)
  else return (false, e)

/-- `Livingstone::install`. -/
def install (candIdx : ℕ) (e : Engine) : Except L2Error (Bool × Engine) :=
  match e.candidates[candIdx]? with
  | none => return (false, e)
  | some candidate => do
    let e ← e.install M.assignables candidate true
    return (true, e)

/-- `Livingstone::diagnose`. The default of the tracker is `extend_candidates`. -/
def diagnose (timestep fuel : ℕ) (style : FcStyle) (t : Tracked) : Except L2Error Tracked :=
  match style with
  | .invalid => .error (.fatal "diagnose using invalid fc style")
  | .trackerDefault | .extend => M.tracker.extendCandidates M.assignables timestep fuel t.engine
  | .findFresh => M.tracker.findFreshCandidates M.assignables timestep fuel t.engine
  | .pruneAndSearch => M.tracker.pruneAndSearch M.assignables timestep fuel t

def apply (timestep fuel : ℕ) (t : Tracked) : Call → Except L2Error Tracked
  | .createAssignable v => do
    return { t with engine := ← t.engine.createAssignable M.assignables M.datum v }
  | .createDependent n => do return { t with engine := ← t.engine.createDependent n }
  | .createClause positive negative isVolatile inTheory => do
    return { t with engine := ← t.engine.createClause positive negative isVolatile inTheory }
  | .observe v value => do return { t with engine := (← M.observe v value t.engine).2 }
  | .install candIdx => do return { t with engine := (← M.install candIdx t.engine).2 }
  | .diagnose style => M.diagnose timestep fuel style t

/-- What was observed before, if anything, stays. -/
def Keeps (e : Engine) (v : VarId) (value : ℤ) : Prop :=
  ∀ b, e.current v = some b → 0 ≤ value ∧ (M.assignables.assignments v)[value.toNat]? = some b

/-- A variable is created once, with as many values as a clause takes, and a clause has propositions
that exist. An observation is not taken back. The weights of a selection do not overflow, and the
state variable that a fresh search starts from is there. -/
def Valid (t : Tracked) : Call → Prop
  | .createAssignable v =>
    v ∉ t.engine.assignables ∧ (M.assignables.assignments v).length ≤ 127
  | .createDependent n => n ≤ 127
  | .createClause positive negative _ _ =>
    Fits positive negative ∧ ∀ p ∈ positive ++ negative, p ∈ t.engine.solver.props
  | .observe v value => M.accepts t.engine v value = true → M.Keeps t.engine v value
  | .install _ => True
  | .diagnose style => style ≠ .invalid ∧ (t.engine.space M.assignables).RanksFit 0 ∧
    (style = .findFresh ∨ style = .pruneAndSearch →
      M.tracker.stateVariable ∈ t.engine.assumptions)

/-- One valid call of a kind. -/
def Next (kind : Call → Bool) (t t' : Tracked) : Prop :=
  ∃ call timestep fuel, kind call = true ∧ M.Valid t call ∧ M.apply timestep fuel t call = .ok t'

/-- Any number of them. -/
def Leads (kind : Call → Bool) : Tracked → Tracked → Prop := Relation.ReflTransGen (M.Next kind)

/-- The states to which valid calls of a kind on a new tracker lead. -/
def ReachableBy (kind : Call → Bool) (t : Tracked) : Prop :=
  ∃ fuel t₀, M.tracker.new M.assignables fuel = .ok t₀ ∧ M.Leads kind t₀ t

def Reachable (t : Tracked) : Prop := M.ReachableBy (fun _ => true) t

end Session

end Livingstone
