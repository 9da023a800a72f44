import Livingstone.Transition.Trajectory

/-! The classes of the tracker's candidates (`CandidateEqClass.cpp`, `tracker.cpp`). A candidate is
named by its address. The comparison of two candidates without their trajectories, which nothing
calls, is left out. -/

namespace Livingstone

abbrev CandidateId := ℕ

/-- An assignment of a candidate or a part of its trajectory. -/
structure Triple where
  variableID : ℕ
  timeStep : ℕ
  valueIndex : ℕ
  deriving DecidableEq, Repr

def Triple.ofParts (parts : Parts) : Triple := ⟨parts.id, parts.time, parts.index⟩

def Triple.ofAssignment (a : Assignment) : Triple := ⟨a.var.id, a.var.timeStep, a.index⟩

/-- What `T_system` has for the tracker: the trajectories of the values of the state variable, and
the candidates. -/
structure Tracker where
  trajectories : List Trajectory
  candidate : CandidateId → Candidate

namespace Tracker

variable (T : Tracker)

def getTrajectory (i : ℕ) : Except L2Error Trajectory :=
  match T.trajectories[i]? with
  | some trajectory => .ok trajectory
  | none => .error .assertion

/-- One assignment, in the loop of `createTriples`. -/
def addTriples (triples : List Triple) (a : Assignment) : Except L2Error (List Triple) := do
  if a.isStateVariable then
    let trajectory ← T.getTrajectory a.index
    return triples ++ trajectory.map Triple.ofParts
  else return triples ++ [Triple.ofAssignment a]

def createTriples (c : CandidateId) : Except L2Error (List Triple) :=
  (T.candidate c).foldlM T.addTriples []

end Tracker

namespace CandidateEqClass

/-- Each triple of the first has one of its variable and value in the second. -/
def isEquivalent (ct1 ct2 : List Triple) : Bool :=
  ct1.length = ct2.length && ct1.all fun triple1 => ct2.any fun triple2 =>
    triple1.variableID = triple2.variableID && triple1.valueIndex = triple2.valueIndex

/-- The loop over the members of the class. -/
def belongsTo (T : Tracker) (ct1 : List Triple) : List CandidateId → Except L2Error Bool
  | [] => .ok true
  | c :: candidates => do
    let ct2 ← T.createTriples c
    if isEquivalent ct1 ct2 then belongsTo T ct1 candidates else return false

def belongs (T : Tracker) (candidates : List CandidateId) (c : CandidateId) :
    Except L2Error Bool := do
  let ct1 ← T.createTriples c
  belongsTo T ct1 candidates

def add (candidates : List CandidateId) (c : CandidateId) : List CandidateId :=
  if c ∈ candidates then candidates else candidates ++ [c]

end CandidateEqClass

namespace Tracker

variable (T : Tracker)

/-- The number of classes if the candidate belongs to none. -/
def equivalenceClassIndex (c : CandidateId) : List (List CandidateId) → Except L2Error ℕ
  | [] => .ok 0
  | eqClass :: candidatePartition => do
    if ← CandidateEqClass.belongs T eqClass c then return 0
    else return (← equivalenceClassIndex c candidatePartition) + 1

/-- One candidate, in the loop of `partition`. -/
def partitionCandidate (candidatePartition : List (List CandidateId)) (c : CandidateId) :
    Except L2Error (List (List CandidateId)) := do
  let classIndex ← T.equivalenceClassIndex c candidatePartition
  if classIndex < candidatePartition.length then
    return candidatePartition.modify classIndex fun eqClass => CandidateEqClass.add eqClass c
  else return candidatePartition ++ [CandidateEqClass.add [] c]

def partition (candidates : List CandidateId) : Except L2Error (List (List CandidateId)) :=
  candidates.foldlM T.partitionCandidate []

end Tracker

end Livingstone
