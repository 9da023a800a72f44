import Livingstone.Diagnosis.Engine
import Livingstone.Opsat.Search

/-! The tracker of the best-first search (`cbfs_tracker.cpp`, `tracker.h`, `tracker.cpp`), and the
search as it runs on the engine. -/

namespace Livingstone

/-- The settings of a `CBFS_tracker`. What the trajectories decide is a parameter. -/
structure CbfsTracker where
  stateVariable : VarId
  numberTracked : ℕ
  maxClassCount : ℕ
  limits : SearchLimits
  trajectorySubsumes : ℕ → ℕ → Bool
  belongs : List Candidate → Candidate → Bool

/-- A tracker with its engine. `termination` is `search_termination`. -/
structure Tracked where
  engine : Engine
  candidatePartition : List (List Candidate)
  termination : SearchTermination

/-- The assignables over which a search ranges. -/
def Engine.space (D : Assignables) (e : Engine) : Assignables :=
  { D with assignables := e.assumptions }

namespace CbfsTracker

variable (T : CbfsTracker) (D : Assignables) (timestep : ℕ)

/-- One candidate, in the loop of `Tracker::partition`. -/
def partitionCandidate (candidatePartition : List (List Candidate)) (candidate : Candidate) :
    List (List Candidate) :=
  let classIndex := candidatePartition.findIdx fun c => T.belongs c candidate
  if classIndex < candidatePartition.length then
    candidatePartition.modify classIndex (· ++ [candidate])
  else candidatePartition ++ [[candidate]]

def partition (candidates : List Candidate) : List (List Candidate) :=
  candidates.foldl T.partitionCandidate []

/-- An exception ends the search; here the engine is lost with it. -/
def searchSystem (space : Assignables) : SearchSystem (Except L2Error Engine) where
  assignables := space
  conflict r candidate :=
    match r with
    | .error x => (none, .error x)
    | .ok e =>
      match e.examine D timestep candidate with
      | .error x => (none, .error x)
      | .ok (c, e) => (c.map e.db.conflict, .ok e)
  trajectorySubsumes := T.trajectorySubsumes
  belongs := T.belongs

/-- The search of `extend_candidates`: the candidates are the seeds. There are classes only once the
system has its tracker. -/
def search (tracker : Option ℕ) (fuel : ℕ) (e : Engine) :
    Except L2Error (FindCall (T.searchSystem D timestep (e.space D))) :=
  FindCall.findConsistentCandidates T.limits tracker T.numberTracked fuel
    (Opsat.initializeSearch e.candidates
      ⟨.ok { e with candidates := [] }, CbfsAgenda.empty (e.space D) 0, 0, []⟩) [] []

def extendFrom (tracker : Option ℕ) (fuel : ℕ) (e : Engine) : Except L2Error Tracked := do
  let call ← T.search D timestep tracker fuel e
  let found ← call.opsat.system
  return { engine := { found with candidates := call.consistentCandidates }
           candidatePartition := call.candidatePartition
           termination := call.opsat.terminateSearch T.limits }

def extendCandidates (fuel : ℕ) (e : Engine) : Except L2Error Tracked :=
  T.extendFrom D timestep (some T.maxClassCount) fuel e

/-- The constructor of `CBFS_tracker`, for a system in which nothing has been created. -/
def new (fuel : ℕ) : Except L2Error Tracked := T.extendFrom D 0 none fuel {}

/-- A candidate for each value of the state variable, the last one first. -/
def stateCandidates : List Candidate :=
  (D.assignments T.stateVariable).foldl (fun candidates a => [a] :: candidates) []

def findFreshCandidates (fuel : ℕ) (e : Engine) : Except L2Error Tracked :=
  T.extendCandidates D timestep fuel { e with candidates := T.stateCandidates D }

def pruneAndSearch (fuel : ℕ) (t : Tracked) : Except L2Error Tracked := do
  let e ← t.engine.pruneInconsistentCandidates D timestep
  if e.candidates.isEmpty then T.findFreshCandidates D timestep fuel e
  else return { t with engine := e, candidatePartition := T.partition e.candidates }

end CbfsTracker

end Livingstone
