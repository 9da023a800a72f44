import Livingstone.Lib.Loop
import Livingstone.Opsat.Agenda
import Livingstone.Tms.Ptheory

/-! The search for consistent candidates (`opsat.cpp`). What the search asks of the
`T_system` and of the trajectories is a parameter. -/

namespace Livingstone

def stateVarId : ℕ := 2 ^ 32 - 1

/-- `conflict` restores the defaults, assigns the candidate and asks for a conflict.
`belongs` is `CandidateEqClass::belongs`. -/
structure SearchSystem (τ : Type) where
  assignables : Assignables
  conflict : τ → Candidate → Option Conflict × τ
  trajectorySubsumes : ℕ → ℕ → Bool
  belongs : List Candidate → Candidate → Bool

inductive SearchTermination where
  | searchContinue
  | emptyAgenda
  | weightCutoff
  | maxOverrun
  deriving DecidableEq, Repr

structure SearchLimits where
  cutoffWeight : Weight
  maxCandidates : UInt32

def getStateVariableAssignment (candidate : Candidate) : Option Assignment :=
  candidate.find? fun a => a.var.id = stateVarId

/-- `candidates_considered` counts in 32 bits. `examined` is not in the code: it records the
candidates popped in this call, the last one first. -/
structure Opsat {τ : Type} (S : SearchSystem τ) where
  system : τ
  agenda : CbfsAgenda S.assignables
  candidatesConsidered : UInt32
  examined : List Candidate

/-- The variables of one call of `find_consistent_candidates`. `classLimitReached` is set at
the return from the middle of the loop. -/
structure FindCall {τ : Type} (S : SearchSystem τ) where
  opsat : Opsat S
  consistentCandidates : List Candidate
  candidatePartition : List (List Candidate)
  classLimitReached : Bool

namespace Opsat

variable {τ : Type} {S : SearchSystem τ} (limits : SearchLimits)

def initializeSearch (seedCandidates : List Candidate) (s : Opsat S) : Opsat S :=
  { s with
    agenda := CbfsAgenda.initializeAgenda S.assignables s.agenda.emptyElementWeight seedCandidates }

def subsumes (S : SearchSystem τ) : Option Assignment → Option Assignment → Bool
  | none, _ => false
  | some _, none => false
  | some a, some b => a = b || S.trajectorySubsumes a.index b.index

def supersetWithState (S : SearchSystem τ) (sup sub : Candidate) : Bool :=
  sub.all fun a =>
    if a.var.id ≠ stateVarId then sup.contains a
    else subsumes S (getStateVariableAssignment sup) (some a)

def supersetCandidate (S : SearchSystem τ) (testCandidate : Candidate)
    (candidates : List Candidate) : Bool :=
  candidates.any (supersetWithState S testCandidate)

def terminateSearch (s : Opsat S) : SearchTermination :=
  match s.agenda.top with
  | none => .emptyAgenda
  | some top =>
    if limits.maxCandidates ≠ 0 ∧ limits.maxCandidates < s.candidatesConsidered then .maxOverrun
    else if limits.cutoffWeight ≠ 0 ∧ limits.cutoffWeight < top.weight then .weightCutoff
    else .searchContinue

/-- The body of the loop of `next_consistent_candidate` once `e` is popped. -/
def examineElement (s : Opsat S) (e : CbfsElement) (agenda : CbfsAgenda S.assignables) :
    Option Conflict × Opsat S :=
  let candidate := e.generateCandidate
  let (conflict, system) := S.conflict s.system candidate
  (conflict,
    { system := system
      agenda := agenda.expandElement e conflict
      candidatesConsidered := s.candidatesConsidered + 1
      examined := candidate :: s.examined })

def nextTurn (s : Opsat S) : Except L2Error (Opsat S ⊕ (Option Candidate × Opsat S)) :=
  if s.terminateSearch limits = .searchContinue then
    match s.agenda.pop with
    | none => .error .assertion
    | some (e, agenda) =>
      let (conflict, s) := s.examineElement e agenda
      if conflict.isNone then .ok (.inr (some e.generateCandidate, s)) else .ok (.inl s)
  else .ok (.inr (none, s))

def nextConsistentCandidate (fuel : ℕ) (s : Opsat S) :
    Except L2Error (Option Candidate × Opsat S) :=
  Loop.whileM .outOfFuel (nextTurn limits) fuel s

end Opsat

namespace FindCall

variable {τ : Type} {S : SearchSystem τ} (limits : SearchLimits)

/-- The part for a candidate that is in the list of candidates, when there is a tracker with
the given `max_candidate_classes`. -/
def classify (classLimit : ℕ) (candidate : Candidate) (call : FindCall S) : FindCall S :=
  let classIndex := call.candidatePartition.findIdx fun c => S.belongs c candidate
  if classIndex < call.candidatePartition.length then
    { call with
      candidatePartition := call.candidatePartition.modify classIndex (· ++ [candidate]) }
  else
    let candidatePartition := call.candidatePartition ++ [[candidate]]
    { call with
      candidatePartition := candidatePartition
      classLimitReached := 0 < classLimit && classLimit ≤ candidatePartition.length }

/-- A consistent candidate is rejected or appended. -/
def accept (tracker : Option ℕ) (candidate : Candidate) (call : FindCall S) : FindCall S :=
  if Opsat.supersetCandidate S candidate call.consistentCandidates then call
  else
    let call := { call with consistentCandidates := call.consistentCandidates ++ [candidate] }
    match tracker with
    | none => call
    | some classLimit => call.classify classLimit candidate

def findTurn (tracker : Option ℕ) (number fuel : ℕ) (call : FindCall S) :
    Except L2Error (FindCall S ⊕ FindCall S) :=
  if call.consistentCandidates.length < number then do
    let (candidate, s) ← call.opsat.nextConsistentCandidate limits fuel
    let call := { call with opsat := s }
    match candidate with
    | none => return .inr call
    | some candidate =>
      let call := call.accept tracker candidate
      if call.classLimitReached then return .inr call else return .inl call
  else return .inr call

def start (s : Opsat S) (consistentCandidates : List Candidate)
    (candidatePartition : List (List Candidate)) : FindCall S where
  opsat := { s with candidatesConsidered := 0, examined := [] }
  consistentCandidates := consistentCandidates
  candidatePartition := candidatePartition
  classLimitReached := false

def findConsistentCandidates (tracker : Option ℕ) (number fuel : ℕ) (s : Opsat S)
    (consistentCandidates : List Candidate) (candidatePartition : List (List Candidate)) :
    Except L2Error (FindCall S) :=
  Loop.whileM .outOfFuel (findTurn limits tracker number fuel) fuel
    (start s consistentCandidates candidatePartition)

end FindCall

end Livingstone
