import Livingstone.Transition.Variables
import Mathlib.Data.UInt

/-! The transition system (`T_system.cpp`, `transitioned.cpp`): progress to a new time step, minimal
or full, and truncation of the old ones. Conflicts and trajectories are left out, and so is
planning. -/

namespace Livingstone
namespace Transition
def Variable.id : Variable → ℕ
  | .command id => id
  | .mode id => id
  | .other id => id

namespace TSystem

open Function (update)

variable {σ : Type} (S : Solver σ)

def createClause (positive negative : List PropId) (inTheory : Bool) (s : TSystem σ) :
    ClauseId × TSystem σ :=
  let (c, t) := S.createClause s.solver none positive negative false inTheory
  (c, { s with solver := t })

/-- The history of the variable of a literal. -/
def historyOf (s : TSystem σ) (v : Variable) : List Ref :=
  match s.getPresentVariable v.id with
  | some r => s.history r
  | none => []

/-- `Proto_transition::prop_closest_before`; that there is none is an assertion. -/
def propClosestBefore (s : TSystem σ) (a : ProtoAssignment) (time : UInt32) :
    Except L2Error PropId :=
  match (s.historyOf a.first).find? fun r => s.timeOf r < time with
  | some r => s.getProp r a.second.toNat
  | none => .error .assertion

/-- The oldest of the variables that is not before the time, or the first one. -/
def closestAfter (s : TSystem σ) (time : UInt32) : List Ref → Option Ref
  | [] => none
  | r :: l => some (((r :: l).takeWhile fun q => time ≤ s.timeOf q).getLast?.getD r)

def propClosestAfter (s : TSystem σ) (a : ProtoAssignment) (time : UInt32) :
    Except L2Error PropId :=
  match s.closestAfter time (s.historyOf a.first) with
  | some r => s.getProp r a.second.toNat
  | none => .error .assertion

/-- The transition variable of a clause. -/
def transitionAt (s : TSystem σ) (m : Ref) (fromTimeStep toTimeStep : UInt32) :
    Except L2Error Ref :=
  let v := s.modeCell m
  if fromTimeStep = s.timeOf m then
    .ok (if toTimeStep = now then v.zenithTransition else v.horizonTransition)
  else
    match (s.history v.zenithTransition).find? fun r => s.timeOf r = fromTimeStep with
    | some r => .ok r
    | none => .error .assertion

/-- `Proto_transition::instantiate` for a prototype of the mode `m`. -/
def instantiate (p : ProtoTransition) (m : Ref) (fromTimeStep toTimeStep : UInt32)
    (s : TSystem σ) : Except L2Error (ClauseId × TSystem σ) := do
  let positive ← p.positives.mapM fun a => s.propClosestBefore a toTimeStep
  let negative ← p.negatives.mapM fun a => s.propClosestBefore a toTimeStep
  let t ← s.transitionAt m fromTimeStep toTimeStep
  let transition ← s.getProp t p.transitionValue.toNat
  let consequent ← s.propClosestAfter ⟨.mode p.consequent.1, p.consequent.2⟩ toTimeStep
  return createClause S (consequent :: positive.reverse) (transition :: negative.reverse) true s

def addTransitionClause (m : Ref) (c : ClauseId) (s : TSystem σ) : TSystem σ :=
  let v := s.modeCell m
  s.setMode m { v with transitionClauses := v.transitionClauses ++ [c] }

def instantiateAll (ps : List ProtoTransition) (m : Ref) (fromTimeStep toTimeStep : UInt32)
    (s : TSystem σ) : Except L2Error (TSystem σ) :=
  ps.foldlM (fun s p => do
    let (c, s) ← instantiate S p m fromTimeStep toTimeStep s
    return addTransitionClause m c s) s

def instantiateIndexedClauses (a : Assignment) (m : Ref) (fromTimeStep toTimeStep : UInt32)
    (s : TSystem σ) : Except L2Error (TSystem σ) :=
  match (s.modeCell m).prototypes.findTransitionPrototypes a with
  | some ps => instantiateAll S ps m fromTimeStep toTimeStep s
  | none => .ok s

def instantiateUnindexedClauses (m : Ref) (fromTimeStep toTimeStep : UInt32) (s : TSystem σ) :
    Except L2Error (TSystem σ) :=
  instantiateAll S (s.modeCell m).prototypes.unindexedPrototypes m fromTimeStep toTimeStep s

def instantiateAutonomousClauses (m : Ref) (timestep : UInt32) (s : TSystem σ) :
    Except L2Error (TSystem σ) := do
  let s ← instantiateAll S (s.modeCell m).prototypes.autonomousTransitions m (s.timeOf m) timestep s
  return if (s.links.previous m).isNone then
    s.setMode m { s.modeCell m with nowHasFailureFromHorizon := true }
  else s

def instantiateClauses (a : Assignment) (m : Ref) (toTimeStep : UInt32) (s : TSystem σ) :
    Except L2Error (TSystem σ) := do
  let s ← instantiateIndexedClauses S a m (s.timeOf m) toTimeStep s
  let s ← instantiateUnindexedClauses S m (s.timeOf m) toTimeStep s
  instantiateAutonomousClauses S m toTimeStep s

/-- `T_system::splice`: the clauses that supported the present mode support its copy. -/
def splice (m past : Ref) (s : TSystem σ) : TSystem σ :=
  let clauses := (s.modeCell m).transitionClauses
  let pairs := (s.cell m).propositions.zip (s.cell past).propositions
  { s.setMode m { s.modeCell m with transitionClauses := [] } with
    solver := pairs.foldl (fun t p => S.moveSupport t p.1 clauses p.2) s.solver }

def createTransitionVariable (m : Ref) (s : TSystem σ) : TSystem σ :=
  let (past, s) := copyInPast S .dependent m s
  let v := s.modeCell m
  let (t, s) := createModeTransition S v.transitionCosts s.timestep (s.cell m).id s
  let s := { s.setMode m { v with zenithTransition := t } with
    links := s.links.insertPrevious t v.zenithTransition }
  let s := splice S m past s
  s.setMode m { s.modeCell m with transitionClauses := [], nowHasFailureFromHorizon := false }

def transition (m : Ref) (a : Assignment) (s : TSystem σ) : Except L2Error (TSystem σ) :=
  instantiateClauses S a m now (createTransitionVariable S m s)

/-- One clause of `add_idle_transitions`. -/
def addIdleTransition (m past : Ref) (nominal : PropId) (s : TSystem σ) (i : ℕ) :
    Except L2Error (TSystem σ) := do
  let nowProp ← s.getProp m i
  let previousProp ← s.getProp past i
  let (c, s) := createClause S [nowProp] [previousProp, nominal] true s
  return addTransitionClause m c s

def addIdleTransitions (m : Ref) (s : TSystem σ) : Except L2Error (TSystem σ) :=
  match s.links.previous m with
  | none => .error .assertion
  | some past => do
    let nominal ← s.getProp (s.modeCell m).zenithTransition 0
    (List.range (s.cell m).propositions.length).foldlM (addIdleTransition S m past nominal) s

def idle (m : Ref) (s : TSystem σ) : Except L2Error (TSystem σ) := do
  let s ← addIdleTransitions S m (createTransitionVariable S m s)
  instantiateAutonomousClauses S m now s

/-- The oldest mode on or after the horizon. -/
def oldestMode (s : TSystem σ) (m : Ref) (horizon : UInt32) : Ref :=
  (((s.history m).tail.takeWhile fun q => horizon ≤ s.timeOf q).getLast?).getD m

/-- The initial value of a mode: the one that is given, or the one that is known, if there is one. -/
def initialModeValue (modeValueIndex : Option ℕ) (horizon : UInt32) (m : Ref) (s : TSystem σ) :
    Except L2Error (Option PropId) :=
  match modeValueIndex with
  | some i => (s.getProp (s.oldestMode m horizon) i).map some
  | none => .ok (s.getValue S (s.oldestMode m horizon))

/-- The failures from before the horizon, unless they are there. -/
def addFailures (horizon : UInt32) (m : Ref) (s : TSystem σ) : Except L2Error (TSystem σ) :=
  if (s.modeCell m).nowHasFailureFromHorizon then .ok s
  else instantiateAutonomousClauses S m horizon s

def setInitialMode (stateVariableValueIndex : ℕ) (modeValueIndex : Option ℕ) (horizon : UInt32)
    (inTheory : Bool) (m : Ref) (s : TSystem σ) :
    Except L2Error (Option ClauseId × TSystem σ) := do
  let state ← s.getProp s.stateVar stateVariableValueIndex
  let nominal ← s.getProp (s.modeCell m).horizonTransition 0
  let value ← s.initialModeValue S modeValueIndex horizon m
  match value with
  | none => return (none, s)
  | some p =>
    let (c, s) := createClause S [p] [nominal, state] inTheory s
    let s ← addFailures S horizon m (addTransitionClause m c s)
    return (some c, s)

/-- The place of the new state variable in the list. -/
def atHorizon (horizon : UInt32) (s : TSystem σ) : TSystem σ :=
  match s.variableList.find? fun r => s.timeOf r ≤ horizon ∨ s.timeOf r = now with
  | some q => { s with insertBefore := some q }
  | none => s

def createStateVar (horizon : UInt32) (nstates : ℕ) (s : TSystem σ) :
    Except L2Error (TSystem σ) :=
  if nstates = 0 then .error .assertion
  else
    let (r, s) := createStateVariable S (List.replicate nstates 0) horizon stateVarID
      (atHorizon horizon s)
    if s.timeOf r = now then do
      let s ← registerNewVariable r { s with stateVar := r }
      return { s with insertBefore := none }
    else .ok { s with stateVar := r, insertBefore := none }

inductive MapCommand where
  | save
  | unassign
  | restore
  deriving DecidableEq, Repr

def mapCommand (command : MapCommand) (r : Ref) (s : TSystem σ) : TSystem σ :=
  match command with
  | .save => save r s
  | .unassign => unassign S r s
  | .restore => restore S r s

/-- The loop over the time steps of one observable; a previous variable is looked for when the one
before it is done. -/
def mapOverHistory (command : MapCommand) : ℕ → Ref → TSystem σ → TSystem σ
  | 0, _, s => s
  | n + 1, r, s =>
    let s := mapCommand S command r s
    match s.links.previous r with
    | some q => mapOverHistory command n q s
    | none => s

def mapOverObservations (command : MapCommand) (s : TSystem σ) : TSystem σ :=
  s.present.foldl (fun s r =>
    if s.kindOf r = .observable then mapOverHistory S command s.fresh r s else s) s

def summarizeVariables (horizon : UInt32) (stateVariableValueIndex : ℕ) (s : TSystem σ) :
    Except L2Error (TSystem σ) :=
  s.present.foldlM (fun s m =>
    if s.kindOf m = .transitioned then do
      let (c, s) ← setInitialMode S stateVariableValueIndex none horizon false m s
      return match c with
        | some c => { s with newClauses := c :: s.newClauses }
        | none => s
    else pure s) s

def weightOf (s : TSystem σ) (a : Ref × ℕ) : UInt32 := ((s.cell a.1).weights[a.2]?).getD 0

def truncateCandidate (horizon : UInt32) (stateEqSi : Ref × ℕ) (c : Candidate) (s : TSystem σ) :
    Candidate × TSystem σ :=
  let isOld := fun a : Ref × ℕ => s.timeOf a.1 < horizon ∨ s.timeOf a.1 = now
  let weight := ((c.filter isOld).map s.weightOf).sum
  let v := s.cell stateEqSi.1
  (c.filter (fun a => ¬ isOld a) ++ [stateEqSi],
    s.setVariable stateEqSi.1 { v with weights := v.weights.set stateEqSi.2 weight })

/-- The loop over the candidates: consistent ones become values of the state variable until there
are enough, the others are deleted. -/
def summarizeCandidates (horizon : UInt32) (truncationLimit : ℕ) :
    ℕ → List Candidate → TSystem σ → Except L2Error (List Candidate × TSystem σ)
  | _, [], s => .ok ([], s)
  | i, c :: cs, s =>
    if i < truncationLimit then do
      let (consistent, s) := propagate S (install S c s)
      if consistent then do
        let s ← summarizeVariables S horizon i s
        let (c, s) := truncateCandidate horizon (s.stateVar, i) c s
        let (cs, s) ← summarizeCandidates horizon truncationLimit (i + 1) cs s
        return (c :: cs, s)
      else summarizeCandidates horizon truncationLimit i cs s
    else .ok ([], s)

def removeOldModeTransition (horizon : UInt32) (m : Ref) (s : TSystem σ) : TSystem σ :=
  let v := s.modeCell m
  if s.timeOf v.zenithTransition < horizon then
    s.setMode m { v with zenithTransition := v.horizonTransition }
  else s

def removeDestroyedClauses (m : Ref) (s : TSystem σ) : TSystem σ :=
  let v := s.modeCell m
  s.setMode m { v with
    transitionClauses := v.transitionClauses.filter fun c => ¬ S.isDestroying s.solver c }

def mapModes (f : Ref → TSystem σ → TSystem σ) (s : TSystem σ) : TSystem σ :=
  s.present.foldl (fun s m => if s.kindOf m = .transitioned then f m s else s) s

def destroyVariable (s : TSystem σ) (r : Ref) : TSystem σ :=
  { s with
    solver := (s.cell r).propositions.foldl S.setDestroying s.solver
    links := s.links.remove r }

/-- `remove_old_variables`; the scans of the list must not run off its end. -/
def removeOldVariables (horizon : UInt32) (s : TSystem σ) : Except L2Error (TSystem σ) :=
  let s := mapModes (removeOldModeTransition horizon) s
  let newer := s.variableList.takeWhile fun r => horizon ≤ s.timeOf r
  let rest := s.variableList.dropWhile fun r => horizon ≤ s.timeOf r
  let range := rest.takeWhile fun r => s.timeOf r ≠ now
  let last := rest.dropWhile fun r => s.timeOf r ≠ now
  if last = [] then .error .assertion
  else
    let isOld := fun r => s.timeOf r < horizon
    let old := range.filter isOld
    let s := { s with
      oldestTimestep := (newer.getLast?.map s.timeOf).getD s.oldestTimestep
      assumptions := s.assumptions.filter fun r => ¬ isOld r
      variableList := newer ++ range.filter (fun r => ¬ isOld r) ++ last }
    let s := mapModes (removeDestroyedClauses S) (old.foldl (destroyVariable S) s)
    .ok { s with solver := S.finishDestroying s.solver }

/-- `install_new_state`. Its sort takes the last assignment of the state variable each time, as it
does not keep the maximum, and so leaves their order. -/
def installNewState (s : TSystem σ) : TSystem σ :=
  { s with solver := s.newClauses.foldl S.add s.solver, newClauses := [] }

/-- The state variable and the clauses for its values. -/
def summarizeState (horizon : UInt32) (s : TSystem σ) : Except L2Error (TSystem σ) :=
  if s.candidates = [] then do
    let s := mapOverObservations S .unassign s
    let count := (s.cell s.stateVar).propositions.length
    let s ← createStateVar S horizon count s
    (List.range count).foldlM
      (fun s' i => summarizeVariables S horizon i (assign S s.stateVar (some i) s')) s
  else do
    let initialSize := s.candidates.length
    let limit := s.maxTruncatedCandidates.toNat
    let truncationLimit := if limit ≠ 0 ∧ limit < initialSize then limit else initialSize
    let s ← createStateVar S horizon truncationLimit s
    let (cs, s) ← summarizeCandidates S horizon truncationLimit 0 s.candidates s
    return { s with candidates := cs }

def truncate (horizon : UInt32) (s : TSystem σ) : Except L2Error (TSystem σ) :=
  if horizon ≤ s.oldestTimestep then .ok s
  else do
    let s ← summarizeState S horizon (mapOverObservations S .save s)
    let s ← removeOldVariables S horizon s
    let s := mapOverObservations S .restore (installNewState S s)
    return match s.candidates with
      | [] => (propagate S s).2
      | c :: _ => install S c s

def getHorizon (s : TSystem σ) : UInt32 :=
  if s.timestep < s.maxHistoryLength then 0 else s.timestep - s.maxHistoryLength + 1

def historyFull (s : TSystem σ) : Bool :=
  s.maxHistoryLength ≠ 0 ∧ s.oldestTimestep + s.maxHistoryLength ≤ s.timestep

def truncateIfNeeded (s : TSystem σ) : Except L2Error (TSystem σ) :=
  if s.historyFull then truncate S s.getHorizon s else .ok s

def nextTimestep (s : TSystem σ) : TSystem σ := { s with timestep := s.timestep + 1 }

/-- The assignment of a command, by which prototypes are indexed. -/
def commandAssignment (s : TSystem σ) (a : Ref × ℕ) : Assignment :=
  ⟨(s.cell a.1).id.toNat, a.2.toUInt32⟩

/-- `minimal_progress`, with the assignment of a command or without. -/
def minimalProgress (command : Option (Ref × ℕ)) (s : TSystem σ) :
    Except L2Error (TSystem σ) := do
  let s ← truncateIfNeeded S s
  match command with
  | none => return nextTimestep s
  | some a => do
    let (past, s) := copyInPast S .command a.1 s
    let index := s.commandAssignment a
    let s ← s.present.foldlM (fun s m =>
      if s.kindOf m = .transitioned ∧ (s.modeCell m).prototypes.hasIndexedTransitions index then
        transition S m index s
      else pure s) s
    let s := setExogenouslyAssigned past true (assign S past (some a.2) s)
    return nextTimestep (propagate S s).2

/-- `full_progress_copy_variables`, for the variables that are not modes. -/
def fullProgressCopy (s : TSystem σ) (v : Ref) : TSystem σ :=
  if (s.kindOf v).isAssignable then
    let (past, s) := copyInPast S .assignable v s
    setExogenouslyAssigned past (s.cell v).exogenouslyAssigned s
  else if s.kindOf v = .dependent then (copyInPast S .dependent v s).2
  else s

def fullProgressCopyVariables (command : Option (Ref × ℕ)) (s : TSystem σ) :
    Except L2Error (TSystem σ) :=
  s.present.foldlM (fun s m =>
    if s.kindOf m = .transitioned then
      match command with
      | some a => transition S m (s.commandAssignment a) s
      | none => idle S m s
    else pure s) (s.present.foldl (fullProgressCopy S) s)

/-- A literal of a state constraint in the past. -/
def propInPast (s : TSystem σ) (a : ProtoAssignment) : Except L2Error PropId :=
  match (s.getPresentVariable a.first.id).bind s.links.previous with
  | some r => s.getProp r a.second.toNat
  | none => .error .assertion

def fullProgressCreateConstraints (s : TSystem σ) : Except L2Error (TSystem σ) :=
  s.stateConstraintPrototypes.foldlM (fun s c => do
    let positive ← c.1.mapM s.propInPast
    let negative ← c.2.mapM s.propInPast
    return (createClause S positive.reverse negative.reverse true s).2) s

/-- `full_progress_make_assignments`, for one variable. -/
def fullProgressAssign (command : Option (Ref × ℕ)) (s : TSystem σ) (v : Ref) :
    Except L2Error (TSystem σ) :=
  if (s.kindOf v).isAssignable then
    match s.links.previous v with
    | none => .error (.fatal "Failed to find variable during progress")
    | some past =>
      match command.filter (fun a => a.1 = v) with
      | some a => .ok (setExogenouslyAssigned past true (assign S past (some a.2) s))
      | none => .ok (setExogenouslyAssigned past false (assign S past (s.cell v).current s))
  else .ok s

def fullProgress (command : Option (Ref × ℕ)) (s : TSystem σ) : Except L2Error (TSystem σ) := do
  let s ← truncateIfNeeded S s
  let s ← fullProgressCopyVariables S command s
  let s ← fullProgressCreateConstraints S s
  let s ← s.present.foldlM (fullProgressAssign S command) s
  return nextTimestep (propagate S s).2

def progress (command : Option (Ref × ℕ)) (s : TSystem σ) : Except L2Error (TSystem σ) :=
  if s.progressUsesFull then fullProgress S command s else minimalProgress S command s

inductive Declaration where
  | command (nvalues : ℕ) (id : UInt32)
  | observable (nvalues : ℕ) (id : UInt32)
  | mode (nvalues ntransitions : ℕ) (id : UInt32)
  | dependent (nvalues : ℕ) (id : UInt32)
  deriving Repr

def createVariable (d : Declaration) (s : TSystem σ) : Except L2Error (TSystem σ) :=
  let (r, s) := match d with
    | .command nvalues id =>
      let (r, s) := createCommand S nvalues now id s
      (r, assign S r (some 0) s)
    | .observable nvalues id => createObservable S nvalues now id s
    | .mode nvalues ntransitions id => newTransitioned S nvalues ntransitions now id s
    | .dependent nvalues id => createDependent S nvalues now id s
  registerNewVariable r s

/-- A literal of a constraint in the present. -/
def propNow (s : TSystem σ) (a : ProtoAssignment) : Except L2Error PropId :=
  match s.getPresentVariable a.first.id with
  | some r => s.getProp r a.second.toNat
  | none => .error .assertion

def createConstraint (pos neg : List ProtoAssignment) (stateConstraint : Bool) (s : TSystem σ) :
    Except L2Error (TSystem σ) := do
  let s := if stateConstraint then
      { s with stateConstraintPrototypes := (pos, neg) :: s.stateConstraintPrototypes }
    else s
  let positive ← pos.mapM s.propNow
  let negative ← neg.mapM s.propNow
  return (createClause S positive.reverse negative.reverse true s).2

def addTransitionCost (m : Ref) (cost : UInt32) (s : TSystem σ) : TSystem σ :=
  let v := s.modeCell m
  let h := s.cell v.horizonTransition
  (s.setMode m { v with transitionCosts := v.transitionCosts ++ [cost] }).setVariable
    v.horizonTransition { h with weights := h.weights.set v.transitionCosts.length cost }

def addPrototype (m : Ref) (p : Prototype) (s : TSystem σ) : TSystem σ :=
  let v := s.modeCell m
  s.setMode m { v with prototypes := v.prototypes.add p }

/-- `createInitialState`, for the initial values of modes and observables. -/
def createInitialState (initial : List (Ref × ℕ)) (s : TSystem σ) :
    Except L2Error (TSystem σ) := do
  let s ← createStateVar S 0 1 s
  let s ← initial.foldlM (fun s v =>
    if s.kindOf v.1 = .transitioned then do
      let (_, s) ← setInitialMode S 0 (some v.2) now true v.1 s
      return s
    else pure (observe S v.1 (some v.2) s)) s
  return (propagate S (nextTimestep (assign S s.stateVar (some 0) s))).2

def empty (t : σ) (historyLength maxTruncatedCandidates : UInt32) (progressUsesFull : Bool) :
    TSystem σ where
  solver := t
  cell := fun _ => { kind := .dependent, id := 0, timeStep := 0 }
  modeCell := fun _ => {
    zenithTransition := 0
    horizonTransition := 0
    ntransitions := 0
    transitionCosts := []
    prototypes := { id := 0 } }
  links := ⟨fun _ => none, fun _ => none⟩
  fresh := 0
  variableList := []
  insertBefore := none
  assumptions := []
  presentVariables := []
  stateConstraintPrototypes := []
  stateVar := 0
  candidates := []
  newClauses := []
  timestep := 0
  oldestTimestep := 0
  maxHistoryLength := historyLength
  maxTruncatedCandidates := maxTruncatedCandidates
  progressUsesFull := progressUsesFull

end TSystem

open TSystem

variable {σ : Type} (S : Solver σ)

/-- A system into which a model is being read. -/
inductive Built : TSystem σ → Prop
  | empty (t : σ) (historyLength maxTruncatedCandidates : UInt32) (progressUsesFull : Bool) :
    Built (empty t historyLength maxTruncatedCandidates progressUsesFull)
  | created {s s' : TSystem σ} (d : Declaration) : Built s → createVariable S d s = .ok s' →
    Built s'
  | constraint {s s' : TSystem σ} (pos neg : List ProtoAssignment) (stateConstraint : Bool) :
    Built s → createConstraint S pos neg stateConstraint s = .ok s' → Built s'
  | cost {s : TSystem σ} {m : Ref} (cost : UInt32) : Built s → m ∈ s.present →
    s.kindOf m = .transitioned → Built (addTransitionCost m cost s)
  | prototype {s : TSystem σ} {m : Ref} (p : Prototype) : Built s → m ∈ s.present →
    s.kindOf m = .transitioned → Built (addPrototype m p s)

/-- The states of the system from the initial one on. A search for diagnoses assigns assumptions,
propagates, and leaves candidates. -/
inductive Reachable : TSystem σ → Prop
  | start {s s' : TSystem σ} (initial : List (Ref × ℕ)) : Built S s →
    (∀ v ∈ initial, v.1 ∈ s.present ∧
      (s.kindOf v.1 = .transitioned ∨ s.kindOf v.1 = .observable)) →
    createInitialState S initial s = .ok s' → Reachable s'
  | observe {s : TSystem σ} {r : Ref} (value : Option ℕ) : Reachable s → r ∈ s.present →
    s.kindOf r = .observable → Reachable (observe S r value s)
  | progress {s s' : TSystem σ} (command : Option (Ref × ℕ)) : Reachable s →
    (∀ a, command = some a → a.1 ∈ s.present ∧ s.kindOf a.1 = .command) →
    TSystem.progress S command s = .ok s' → Reachable s'
  | truncate {s s' : TSystem σ} (horizon : UInt32) : Reachable s →
    truncate S horizon s = .ok s' → Reachable s'
  | assume {s : TSystem σ} {r : Ref} (value : Option ℕ) : Reachable s → r ∈ s.assumptions →
    Reachable (assign S r value s)
  | propagate {s : TSystem σ} : Reachable s → Reachable (propagate S s).2
  | candidates {s : TSystem σ} (cs : List Candidate) : Reachable s →
    (∀ c ∈ cs, ∀ a ∈ c, a.1 ∈ s.assumptions) → Reachable { s with candidates := cs }

end Transition
end Livingstone
