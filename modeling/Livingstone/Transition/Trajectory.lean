import Livingstone.ConflictDb.Candidate
import Livingstone.Opsat.Search

/-! What a truncation does to the candidates and to the state variable (`T_system.cpp`,
`trajectory.h`). A value of the state variable stands for a candidate, with its weight and the
trajectory of what was taken out of it. The clauses and conflicts that are summarized are left
out. -/

namespace Livingstone

def Assignment.isStateVariable (a : Assignment) : Bool := a.var.id = stateVarId

structure Parts where
  time : ℕ
  rank : Weight
  id : ℕ
  index : ℕ
  deriving DecidableEq, Repr

/-- The first one is at the front of the list. -/
abbrev Trajectory := List Parts

namespace Trajectory

def insert (trajectory : Trajectory) (parts : Parts) : Trajectory := parts :: trajectory

/-- Each of the parts in turn becomes the first one. -/
def prepend (trajectory old : Trajectory) : Trajectory := old.foldl insert trajectory

end Trajectory

/-- `get_value_index` of a variable while the candidate is installed, which is its last assignment
or else the default. -/
def Candidate.valueIndex (D : Assignables) (candidate : Candidate) (v : VarId) : ℕ :=
  match candidate.reverse.find? fun a => a.var = v with
  | some a => a.index
  | none => (D.defaultAssignment v).index

/-- The constructor of `Parts`, which is called while the candidate is installed. -/
def Parts.ofAssignment (D : Assignables) (candidate : Candidate) (a : Assignment) : Parts where
  time := a.var.timeStep
  rank := D.weight a
  id := a.var.id
  index := candidate.valueIndex D a.var

/-- `stateValues` are the assignments of `state_var`. -/
structure StateSummary where
  oldestTimestep : ℕ
  stateValues : List Assignment
  trajectories : List Trajectory
  oldTrajectories : List Trajectory
  deriving Repr

namespace StateSummary

def startNewTrajectoriesMap (size : ℕ) (s : StateSummary) : StateSummary :=
  { s with
    trajectories := List.replicate size []
    oldTrajectories := s.trajectories }

/-- The variable that `create_state_var` makes. -/
def stateVarAt (horizon : ℕ) : VarId := ⟨stateVarId, horizon⟩

def stateValuesAt (horizon nstates : ℕ) : List Assignment :=
  (List.range nstates).map fun i => ⟨stateVarAt horizon, i⟩

/-- The values have the weight zero at first. -/
def createStateVar (D : Assignables) (horizon nstates : ℕ) (s : StateSummary) :
    Except L2Error (Assignables × StateSummary) :=
  if nstates = 0 then .error .assertion
  else .ok ((stateValuesAt horizon nstates).foldl (fun D a => D.setWeight a 0) D,
    startNewTrajectoriesMap nstates { s with stateValues := stateValuesAt horizon nstates })

def setTrajectory (D : Assignables) (candidate : Candidate) (newi oldi : ℕ) (old : List Assignment)
    (s : StateSummary) : Except L2Error StateSummary :=
  match s.trajectories[newi]?, s.oldTrajectories[oldi]? with
  | some newTrajectory, some oldTrajectory =>
    let newTrajectory := old.foldl
      (fun trajectory a => trajectory.insert (Parts.ofAssignment D candidate a)) newTrajectory
    .ok { s with trajectories := s.trajectories.set newi (newTrajectory.prepend oldTrajectory) }
  | _, _ => .error .assertion

/-- One assignment of the candidate, in the loop of `put_candidate_in_trajectory`: the value of the
old state variable and the other assignments to be truncated. -/
def collectTruncated (horizon : ℕ) (r : ℕ × List Assignment) (a : Assignment) :
    Except L2Error (ℕ × List Assignment) :=
  if a.isOld horizon then
    if a.isStateVariable then
      if r.1 = 0 then .ok (a.index, r.2) else .error .assertion
    else .ok (r.1, a :: r.2)
  else .ok r

def putCandidateInTrajectory (D : Assignables) (horizon value : ℕ) (candidate : Candidate)
    (s : StateSummary) : Except L2Error StateSummary := do
  let (previousValue, existingAssignments) ← candidate.foldlM (collectTruncated horizon) (0, [])
  setTrajectory D candidate value previousValue existingAssignments s

/-- The loop over the candidates, with the number of those counted toward the limit. It returns
those that are kept. -/
def summarizeCandidates (consistent : Candidate → Bool) (horizon truncationLimit : ℕ) :
    ℕ → List Candidate → Assignables → StateSummary →
      Except L2Error (List Candidate × Assignables × StateSummary)
  | _, [], D, s => .ok ([], D, s)
  | i, candidate :: candidates, D, s =>
    if i < truncationLimit then
      if consistent candidate then do
        let s ← putCandidateInTrajectory D horizon i candidate s
        match s.stateValues[i]? with
        | none => .error .assertion
        | some stateEqSi => do
          let (kept, D, s) ← summarizeCandidates consistent horizon truncationLimit (i + 1)
            candidates (candidate.truncate D horizon stateEqSi).2 s
          return ((candidate.truncate D horizon stateEqSi).1 :: kept, D, s)
      else summarizeCandidates consistent horizon truncationLimit i candidates D s
    else .ok ([], D, s)

/-- The inner loop of `install_new_state`: the place of the last value that weighs `max_weight` at
least. Nothing changes `max_weight`. -/
def maxAssignment (D : Assignables) (maxWeight : Weight) (assignments : List Assignment) (n : ℕ) :
    ℕ :=
  (List.range n).foldl
    (fun max j => if (assignments[j]?.any fun a => maxWeight ≤ D.weight a) then j else max) 0

def sortByWeight (D : Assignables) : ℕ → List Assignment → List Assignment →
    Except L2Error (List Assignment)
  | 0, _, vals => .ok vals
  | i + 1, assignments, vals =>
    if assignments.length = i + 1 then
      let max := maxAssignment D 0 assignments (i + 1)
      match assignments[max]? with
      | none => .error .assertion
      | some a => sortByWeight D i (assignments.eraseIdx max) (a :: vals)
    else .error .assertion

/-- The part of `install_new_state` that sorts the values. -/
def installNewState (D : Assignables) (s : StateSummary) : Except L2Error StateSummary := do
  let vals ← sortByWeight D s.stateValues.length s.stateValues []
  return { s with stateValues := vals }

def truncationLimit (maxTruncatedCandidates initialSize : ℕ) : ℕ :=
  if maxTruncatedCandidates ≠ 0 ∧ maxTruncatedCandidates < initialSize then maxTruncatedCandidates
  else initialSize

/-- `truncate`. `consistent` is what `propagate` answers when the candidate is installed. -/
def truncate (consistent : Candidate → Bool) (maxTruncatedCandidates : ℕ) (D : Assignables)
    (horizon : ℕ) (candidates : List Candidate) (s : StateSummary) :
    Except L2Error (List Candidate × Assignables × StateSummary) :=
  if horizon ≤ s.oldestTimestep then .ok (candidates, D, s)
  else do
    let limit := if candidates.isEmpty then s.stateValues.length
      else truncationLimit maxTruncatedCandidates candidates.length
    let (D, s) ← createStateVar D horizon limit s
    let (kept, D, s) ← summarizeCandidates consistent horizon limit 0 candidates D s
    let s ← installNewState D { s with oldestTimestep := horizon }
    return (kept, D, s)

end StateSummary

end Livingstone
