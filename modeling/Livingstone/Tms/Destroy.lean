import Livingstone.Tms.Ltms

/-! Batch destruction: propositions and clauses are marked, and `finish_destroying`
sweeps them out of the tables (`proposition.cpp`, `ptheory.cpp`, `ltms.cpp`). A cell of
the heap that was freed is as if it had never been allocated. -/

namespace Livingstone.Ltms

open Loop

def setDestroyingClause (s : Ltms) (c : ClauseId) : Ltms :=
  s.setClause c { s.clause c with destroying := true }

/-- `Proposition::set_destroying`: the clauses of the proposition go with it. -/
def setDestroying (s : Ltms) (p : PropId) : Ltms :=
  let s := s.setProp p { s.prop p with destroying := true }
  let s := (s.prop p).positive.foldl setDestroyingClause s
  (s.prop p).negative.foldl setDestroyingClause s

/-- One turn of `Fringe::remove_destroying`, at index `i`. -/
def removeDestroyingTurn (v : Bool) (x : ℕ × Ltms) : Except L2Error ((ℕ × Ltms) ⊕ Ltms) :=
  let (i, s) := x
  match (s.fringeOf v)[i]? with
  | none => .ok (.inr s)
  | some c =>
    if (s.clause c).destroying then do
      let s ← s.fringeRemove v c
      return .inl (i, s)
    else .ok (.inl (i + 1, s))

/-- Each turn passes or removes a clause of the fringe. -/
def removeDestroying (s : Ltms) (v : Bool) : Except L2Error Ltms :=
  whileM .outOfFuel (removeDestroyingTurn v) ((s.fringeOf v).length + 1) (0, s)

/-- `remove_marked_from_array`, on the unsatisfied list. -/
def removeMarkedFromUnsat (s : Ltms) : Ltms :=
  { s with unsatisfied := SwapRemove.sweep (fun c => (s.clause c).destroying) s.unsatisfied }

/-- The body of the loop that collects the propositions to unassign. -/
def enqueueSupported (s : Ltms) (c : ClauseId) : Ltms :=
  if (s.clause c).destroying then
    match (s.clause c).getSupports with
    | some p => if (s.prop p).destroying then s else s.enqueueForUndo p
    | none => s
  else s

def freedClause : Clause := { numLits := 0, numPosLits := 0, literals := [] }

/-- The clause at index `i` of the theory is erased, taken from the propositions that
stay, and deleted. -/
def destroyClause (s : Ltms) (i : ℕ) (c : ClauseId) : Ltms :=
  let k := s.clause c
  let s := { s with clauses := SwapRemove.swapRemove s.clauses i }
  let s := k.lits.foldl
    (fun s l => if (s.prop l.1).destroying then s else s.removeOccurrence c l) s
  s.setClause c freedClause

/-- The loop over the clauses in `Ptheory::finish_destroying`. -/
def destroyClauses : ℕ → ℕ → Ltms → Ltms
  | 0, _, s => s
  | n + 1, i, s =>
    match s.clauses[i]? with
    | none => s
    | some c =>
      if (s.clause c).destroying then destroyClauses n i (s.destroyClause i c)
      else destroyClauses n (i + 1) s

def destroyProps (s : Ltms) : Ltms :=
  { s with
    prop := fun p => if p ∈ s.props ∧ (s.prop p).destroying = true then {} else s.prop p
    props := SwapRemove.sweep (fun p => (s.prop p).destroying) s.props }

def ptheoryFinishDestroying (s : Ltms) : Ltms :=
  (destroyClauses s.clauses.length 0 s).destroyProps

def finishDestroying (s : Ltms) : Except L2Error Ltms := do
  let s ← s.removeDestroying false
  let s ← s.removeDestroying true
  let s := s.removeMarkedFromUnsat
  let s := s.clauses.foldl enqueueSupported s
  let s := s.ptheoryFinishDestroying
  let s ← s.undoPropagations
  let (_, s) ← s.propagate
  return s

/-- Propositions and clauses are marked and then destroyed. -/
def destroy (s : Ltms) (ps : List PropId) (cs : List ClauseId) : Except L2Error Ltms :=
  (cs.foldl setDestroyingClause (ps.foldl setDestroying s)).finishDestroying

end Livingstone.Ltms
