import Livingstone.ConflictDb.Conflict

/-! `rho_coverage` (`cover.cpp`): the candidates that cover the stored conflicts, found
by a recursion over the conflicts that are left with a budget. The recursion pops a
conflict each time, so as much fuel as there are conflicts is enough. -/

namespace Livingstone

/-- `none` when the variable was not inserted. -/
abbrev MarkTable := VarId → Option Bool

namespace MarkTable

def insert (mark : MarkTable) (v : VarId) : MarkTable := Function.update mark v (some false)

def set (mark : MarkTable) (v : VarId) : MarkTable := Function.update mark v (some true)

def unset (mark : MarkTable) (v : VarId) : MarkTable := Function.update mark v (some false)

def isSet (mark : MarkTable) (v : VarId) : Except L2Error Bool :=
  match mark v with
  | some b => .ok b
  | none => .error (.notFound s!"variable v{v.id} not found")

end MarkTable

abbrev ProtoCandidate := List Assignment

namespace ProtoCandidate

/-- By variable, then by value, then by time step. -/
def compare (a b : Assignment) : Ordering :=
  (Ord.compare a.var.id b.var.id).then <|
    (Ord.compare a.index b.index).then (Ord.compare a.var.timeStep b.var.timeStep)

/-- Insertion into a sorted array without repetitions. -/
def add (a : Assignment) : ProtoCandidate → ProtoCandidate
  | [] => [a]
  | b :: p =>
    match compare b a with
    | .eq => b :: p
    | .gt => a :: b :: p
    | .lt => b :: add a p

/-- A set of candidates that were allocated one by one. -/
def mapAdd (a : Assignment) (ps : List ProtoCandidate) : List ProtoCandidate := ps.map (add a)

/-- `make_candidates` pushes each on the front of the list. -/
def makeCandidates (ps : List ProtoCandidate) : List (List Assignment) := ps.reverse

end ProtoCandidate

namespace ConflictDb

/-- One assignment `a` of a variable of the conflict `c`, in the inner loop of
`rho_coverage_aux`. -/
def tryAssignment (D : Assignables) (db : ConflictDb)
    (aux : List ConflictId → Weight → MarkTable → Except L2Error (List ProtoCandidate × MarkTable))
    (c : ConflictId) (conflicts : List ConflictId) (rho : Weight)
    (st : List ProtoCandidate × MarkTable) (a : Assignment) :
    Except L2Error (List ProtoCandidate × MarkTable) :=
  let (candidates, mark) := st
  let nextRho := rho - D.weight a
  if c ∈ db.conflictsOf a then .ok (candidates, mark)
  -- the `break` of the source, which no unsigned weight takes
  else if nextRho < 0 then .ok (candidates, mark)
  else do
    let mark := mark.set a.var
    let activeConflicts := conflicts.filter fun d => d ∉ db.resolvedConflicts a
    if activeConflicts = [] then
      let protoCandidate := if D.isDefault a then [] else ProtoCandidate.add a []
      return (candidates ++ [protoCandidate], mark.unset a.var)
    else if nextRho < 1 then return (candidates, mark.unset a.var)
    else
      let (subcandidates, mark) ← aux activeConflicts nextRho mark
      let subcandidates :=
        if D.isDefault a then subcandidates else ProtoCandidate.mapAdd a subcandidates
      return (candidates ++ subcandidates, mark.unset a.var)

/-- One assignment `b` of the conflict `c`, in the outer loop: the variable of `b` is
given other values. -/
def tryVariable (D : Assignables) (db : ConflictDb)
    (aux : List ConflictId → Weight → MarkTable → Except L2Error (List ProtoCandidate × MarkTable))
    (c : ConflictId) (conflicts : List ConflictId) (rho : Weight)
    (st : List ProtoCandidate × MarkTable) (b : Assignment) :
    Except L2Error (List ProtoCandidate × MarkTable) := do
  if ← st.2.isSet b.var then return st
  (D.assignments b.var).foldlM (tryAssignment D db aux c conflicts rho) st

def rhoCoverageAux (D : Assignables) (db : ConflictDb) : ℕ → List ConflictId → Weight →
    MarkTable → Except L2Error (List ProtoCandidate × MarkTable)
  | 0, _, _, _ => .error .outOfFuel
  | _ + 1, [], _, _ => .error .assertion
  | fuel + 1, c :: conflicts, rho, mark =>
    (db.conflict c).assignments.foldlM
      (tryVariable D db (rhoCoverageAux D db fuel) c conflicts rho) ([], mark)

def protoCandidates (D : Assignables) (db : ConflictDb) (rho : Weight) :
    Except L2Error (List ProtoCandidate) := do
  let mark : MarkTable := D.assignables.foldl MarkTable.insert fun _ => none
  let (candidates, _) ← db.rhoCoverageAux D (db.conflicts.length + 1) db.conflicts rho mark
  return candidates

section
variable {σ : Type*}

/-- The last loop of `rho_coverage`. `conflict` restores the defaults, makes the
assignments of a candidate and asks whether there is a conflict. -/
def filterConsistent (conflict : σ → List Assignment → Bool × σ) :
    σ → List (List Assignment) → List (List Assignment)
  | _, [] => []
  | s, p :: ps =>
    match conflict s p with
    | (true, s) => filterConsistent conflict s ps
    | (false, s) => p :: filterConsistent conflict s ps

def rhoCoverage (D : Assignables) (db : ConflictDb) (rho : Weight)
    (conflict : σ → List Assignment → Bool × σ) (s : σ) :
    Except L2Error (List (List Assignment)) := do
  let candidates := ProtoCandidate.makeCandidates (← db.protoCandidates D rho)
  return filterConsistent conflict s candidates

end

end ConflictDb

end Livingstone
