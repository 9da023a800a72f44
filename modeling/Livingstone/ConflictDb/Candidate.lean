import Livingstone.Lib.SwapRemove
import Livingstone.Opsat.Agenda

/-! Candidates (`candidate.cpp`) and those of the database (`conflict_db.cpp`). The assignments of a
candidate are in an array; what erases one of them puts the last one in its place. -/

namespace Livingstone

def Assignment.isInconsistent (a b : Assignment) : Bool := b ≠ a ∧ b.var = a.var

def beforeHorizon : ℕ := 2 ^ 32 - 1

/-- What a truncation takes from a candidate. -/
def Assignment.isOld (horizon : ℕ) (a : Assignment) : Bool :=
  a.var.timeStep < horizon ∨ a.var.timeStep = beforeHorizon

def Assignables.setWeight (D : Assignables) (a : Assignment) (w : Weight) : Assignables :=
  { D with weight := Function.update D.weight a w }

namespace Candidate

def addConsistently (candidate : Candidate) (newAssignment : Assignment) : Candidate :=
  match candidate.findIdx? fun a => a.isInconsistent newAssignment with
  | some i => candidate.set i newAssignment
  | none => candidate ++ [newAssignment]

/-- The loop of `truncate`: what is left in the array, and what was taken out. The bound is the
number of assignments that the iterator has before it. -/
def truncateLoop (horizon : ℕ) : ℕ → List Assignment → ℕ → List Assignment →
    List Assignment × List Assignment
  | 0, assignments, _, removed => (assignments, removed)
  | n + 1, assignments, it, removed =>
    match assignments[it]? with
    | none => (assignments, removed)
    | some a =>
      if a.isOld horizon then
        truncateLoop horizon n (SwapRemove.swapRemove assignments it) it (removed ++ [a])
      else truncateLoop horizon n assignments (it + 1) removed

/-- `truncate`: the candidate, and the assignables with the weight of the state assignment. -/
def truncate (D : Assignables) (horizon : ℕ) (stateEqSi : Assignment) (candidate : Candidate) :
    Candidate × Assignables :=
  let (assignments, removed) := truncateLoop horizon candidate.length candidate 0 []
  (assignments ++ [stateEqSi], D.setWeight stateEqSi (sumAssignmentWeights D removed))

def bestWeightAssignment (D : Assignables) (v : VarId) : Option Assignment :=
  (D.assignments v).head?

def leavesUnresolved (D : Assignables) (candidate : Candidate) (a : Assignment) : Bool :=
  if candidate.contains a then bestWeightAssignment D a.var ≠ some a
  else bestWeightAssignment D a.var = some a

def conflictNotResolved (D : Assignables) (candidate : Candidate) (k : Conflict) : Bool :=
  k.assignments.all (leavesUnresolved D candidate)

/-- One assignment of the candidate, in the loop of `smallest_unresolved_conflict`. -/
def smallerConflict (D : Assignables) (db : ConflictDb) (candidate : Candidate)
    (current : Option ConflictId) (a : Assignment) : Option ConflictId :=
  match (db.conflictsOf a).head? with
  | none => current
  | some c =>
    match current with
    | none => some c
    | some d =>
      if conflictNotResolved D candidate (db.conflict c) ∧ db.conflictIsSmaller c d then some c
      else some d

def smallestUnresolvedConflict (D : Assignables) (db : ConflictDb) (candidate : Candidate) :
    Option ConflictId :=
  candidate.foldl (smallerConflict D db candidate) none

/-- `Slist::insert`, after the first assignment that is not lighter than the new one. -/
def insertByWeight (D : Assignables) (a : Assignment) : List Assignment → List Assignment
  | [] => [a]
  | b :: conflictList =>
    if D.weight b < D.weight a then b :: insertByWeight D a conflictList
    else b :: a :: conflictList

/-- `get_conflict_assignments`, which adds to the list it is given. -/
def getConflictAssignments (D : Assignables) (db : ConflictDb) (candidate : Candidate)
    (conflict : Option ConflictId) (conflictList : List Assignment) : List Assignment :=
  match conflict with
  | none => conflictList
  | some c =>
    candidate.foldl
      (fun conflictList a =>
        if c ∈ db.conflictsOf a then insertByWeight D a conflictList else conflictList)
      conflictList

end Candidate

def addAssumption (candidates : List Candidate) (a : Assignment) : List Candidate :=
  candidates.map fun candidate => candidate.addConsistently a

end Livingstone
