import Livingstone.Lib.Loop
import Livingstone.Tms.Ptheory

/-! The operations of the LTMS (`ltms.cpp`): the two fringes, the unsatisfied
list, addition and removal of a clause, propagation, the support trace and the
transfer of clauses between propositions. -/

namespace Livingstone.Ltms

open Loop

def fringeOf (s : Ltms) (v : Bool) : List ClauseId := if v then s.volatileFringe else s.fringe

def setFringe (s : Ltms) (v : Bool) (cs : List ClauseId) : Ltms :=
  if v then { s with volatileFringe := cs } else { s with fringe := cs }

def fringePush (s : Ltms) (v : Bool) (c : ClauseId) : Ltms :=
  (s.setClause c { s.clause c with inFringe := true, fringeIndex := (s.fringeOf v).length }).setFringe
    v (s.fringeOf v ++ [c])

def takeFromFringe (s : Ltms) (c : ClauseId) : Ltms :=
  s.setClause c { s.clause c with inFringe := false }

/-- `Fringe::pop`, on a fringe that may be empty. -/
def fringePop (s : Ltms) (v : Bool) : Option (ClauseId × Ltms) :=
  (s.fringeOf v).getLast?.map fun c =>
    (c, (s.setFringe v (s.fringeOf v).dropLast).takeFromFringe c)

/-- `Fringe::remove`: the last clause of the fringe takes the place of `c`. -/
def fringeRemove (s : Ltms) (v : Bool) (c : ClauseId) : Except L2Error Ltms :=
  let i := (s.clause c).fringeIndex
  if i + 1 = (s.fringeOf v).length then
    match s.fringePop v with
    | some (_, s) => .ok s
    | none => .error .assertion
  else if i < (s.fringeOf v).length then
    let s := (s.setFringe v (SwapRemove.swapRemove (s.fringeOf v) i)).takeFromFringe c
    match (s.fringeOf v)[i]? with
    | some d => .ok (s.setClause d { s.clause d with inFringe := true, fringeIndex := i })
    | none => .error .assertion
  else .error .assertion

def insertIntoFringe (s : Ltms) (c : ClauseId) : Ltms :=
  if (s.clause c).inFringe then s else s.fringePush (s.clause c).isVolatile c

def removeFromFringe (s : Ltms) (c : ClauseId) : Except L2Error Ltms :=
  if (s.clause c).inFringe then s.fringeRemove (s.clause c).isVolatile c else .ok s

/-- A clause to propagate from, a non-volatile one if there is any. -/
def getFringeClause (s : Ltms) : Option (ClauseId × Ltms) :=
  if s.fringe ≠ [] then s.fringePop false else s.fringePop true

def insertIntoUnsat (s : Ltms) (c : ClauseId) : Ltms :=
  if (s.clause c).unsatisfied then s
  else { s.setClause c { s.clause c with unsatisfied := true } with
    unsatisfied := s.unsatisfied ++ [c] }

def removeFromUnsat (s : Ltms) (c : ClauseId) : Except L2Error Ltms :=
  if (s.clause c).unsatisfied then
    match s.unsatisfied.idxOf? c with
    | some i => .ok { s.setClause c { s.clause c with unsatisfied := false } with
        unsatisfied := SwapRemove.swapRemove s.unsatisfied i }
    | none => .error (.notFound "clause not found in unsat list")
  else .ok s

def setSatisfyingProp (s : Ltms) (c : ClauseId) (p : Option PropId) : Ltms :=
  s.setClause c { s.clause c with satisfyingProp := p }

def setSupports (s : Ltms) (c : ClauseId) (p : Option PropId) : Except L2Error Ltms := do
  let k ← (s.clause c).setSupports p
  return s.setClause c k

def incrNumUnassigned (s : Ltms) (c : ClauseId) : Except L2Error Ltms := do
  let k ← (s.clause c).incrNumUnassigned
  return s.setClause c k

def decrNumUnassigned (s : Ltms) (c : ClauseId) : Except L2Error Ltms := do
  let k ← (s.clause c).decrNumUnassigned
  return s.setClause c k

/-- The body of `assignUpdateSameSense`. -/
def assignSame (p : PropId) (s : Ltms) (c : ClauseId) : Except L2Error Ltms :=
  if (s.clause c).deleted then .ok s else do
    let s ← s.decrNumUnassigned c
    if (s.clause c).satisfyingProp = none then
      (s.setSatisfyingProp c (some p)).removeFromFringe c
    else .ok s

/-- The body of `assignUpdateOppositeSense`. -/
def assignOpposite (s : Ltms) (c : ClauseId) : Except L2Error Ltms :=
  if (s.clause c).deleted then .ok s else do
    let s ← s.decrNumUnassigned c
    if (s.clause c).satisfyingProp = none then
      if (s.clause c).inFringe then do
        let s ← s.removeFromFringe c
        return s.insertIntoUnsat c
      else if (s.clause c).numUnassigned = 1 then .ok (s.insertIntoFringe c)
      else .ok s
    else .ok s

def assignUpdateSameSense (s : Ltms) (p : PropId) (becomingTrue : Bool) : Except L2Error Ltms :=
  (s.occurrences p becomingTrue).foldlM (assignSame p) s

def assignUpdateOppositeSense (s : Ltms) (p : PropId) (becomingTrue : Bool) :
    Except L2Error Ltms :=
  (s.occurrences p !becomingTrue).foldlM assignOpposite s

def assign (s : Ltms) (p : PropId) (becomingTrue : Bool) (c : ClauseId) : Except L2Error Ltms := do
  let tv := if becomingTrue then .ptrue else .pfalse
  let s := s.setProp p { s.prop p with tv := tv, supportedBy := some c }
  let s ← s.assignUpdateSameSense p becomingTrue
  s.assignUpdateOppositeSense p becomingTrue

def enqueueForUndo (s : Ltms) (p : PropId) : Ltms := { s with undoList := p :: s.undoList }

/-- The body of `unassignUpdateSameSense`. -/
def unassignSame (p : PropId) (s : Ltms) (c : ClauseId) : Except L2Error Ltms :=
  if (s.clause c).deleted then .ok s else do
    let s ← s.incrNumUnassigned c
    if (s.clause c).satisfyingProp = some p then
      let s := s.setSatisfyingProp c (s.findSatisfyingProp (s.clause c))
      if (s.clause c).satisfyingProp = none ∧ (s.clause c).numUnassigned = 1 then
        .ok (s.insertIntoFringe c)
      else .ok s
    else .ok s

/-- The body of `unassignUpdateOppositeSense`. -/
def unassignOpposite (s : Ltms) (c : ClauseId) : Except L2Error Ltms :=
  if (s.clause c).deleted then .ok s else do
    let s ← s.incrNumUnassigned c
    if (s.clause c).unsatisfied then do
      let s ← s.removeFromUnsat c
      return s.insertIntoFringe c
    else if (s.clause c).inFringe then s.removeFromFringe c
    else
      match (s.clause c).getSupports with
      | some q => (s.enqueueForUndo q).setSupports c none
      | none => .ok s

def unassignUpdateSameSense (s : Ltms) (p : PropId) (wasTrue : Bool) : Except L2Error Ltms :=
  (s.occurrences p wasTrue).foldlM (unassignSame p) s

def unassignUpdateOppositeSense (s : Ltms) (p : PropId) (wasTrue : Bool) : Except L2Error Ltms :=
  (s.occurrences p !wasTrue).foldlM unassignOpposite s

def unassign (s : Ltms) (p : PropId) : Except L2Error Ltms :=
  if s.value p = .unknown then
    if (s.prop p).supportedBy = none then .ok s
    else .error (.fatal "prop has unknown value but is supported")
  else do
    let wasTrue := s.value p = .ptrue
    let s := s.setProp p (s.prop p).initializeProposition
    let s ← s.unassignUpdateSameSense p wasTrue
    s.unassignUpdateOppositeSense p wasTrue

/-- One turn of `undo_propagations`. -/
def undoTurn (s : Ltms) : Except L2Error (Ltms ⊕ Ltms) :=
  match s.undoList with
  | [] => .ok (.inr s)
  | p :: rest => do
    let s ← { s with undoList := rest }.unassign p
    return .inl s

/-- The bound covers every run of the loop: a proposition is enqueued only when a
clause loses its support link. -/
def undoPropagations (s : Ltms) : Except L2Error Ltms :=
  whileM .outOfFuel undoTurn (s.undoList.length + s.clauses.length + 1) s

def add (s : Ltms) (c : ClauseId) : Except L2Error Ltms :=
  if (s.clause c).deleted then do
    let s := s.ptheoryAdd c
    let s ← s.setSupports c none
    let s := s.setClause c { s.clause c with unsatisfied := false }
    if (s.clause c).inFringe then
      .error (.fatal "found deleted clause that was already in the fringe")
    else if (s.clause c).satisfyingProp = none then
      if (s.clause c).numUnassigned = 1 then .ok (s.insertIntoFringe c)
      else if (s.clause c).numUnassigned = 0 then .ok (s.insertIntoUnsat c)
      else .ok s
    else .ok s
  else .ok s

def remove (s : Ltms) (c : ClauseId) : Except L2Error Ltms :=
  if (s.clause c).deleted then .ok s
  else
    let s := s.ptheoryRemove c
    if (s.clause c).inFringe then s.removeFromFringe c
    else if (s.clause c).unsatisfied then s.removeFromUnsat c
    else
      match (s.clause c).getSupports with
      | some p => do
        let s ← (s.enqueueForUndo p).setSupports c none
        s.undoPropagations
      | none => .ok s

def createClause (s : Ltms) (datum : Option ℕ) (pos neg : List PropId)
    (isVolatile inTheory : Bool) : Except L2Error (ClauseId × Ltms) :=
  let (c, s) := s.newClause datum pos neg isVolatile
  if inTheory then do
    let s ← s.add c
    return (c, s)
  else .ok (c, s)

/-- One turn of `propagate`; the result says whether the theory is consistent. -/
def propagateTurn (s : Ltms) : Except L2Error (Ltms ⊕ (Bool × Ltms)) :=
  if s.unsatisfied ≠ [] then .ok (.inr (false, s))
  else
    match s.getFringeClause with
    | none => .ok (.inr (true, s))
    | some (c, s) => do
      let (p, isPositive) ← s.getUnassignedLiteral (s.clause c)
      let s ← s.assign p isPositive c
      let s ← s.setSupports c (some p)
      return .inl s

/-- Each turn assigns a proposition, so the bound covers every run of the loop. -/
def propagate (s : Ltms) : Except L2Error (Bool × Ltms) :=
  whileM .outOfFuel propagateTurn (s.props.length + 1) s

/-- `partial_propagate`: `none` when the iterations ran out before the end,
otherwise whether the theory is consistent. -/
def partialPropagate : ℕ → Ltms → Except L2Error (Option Bool × Ltms)
  | 0, s => if s.unsatisfied ≠ [] then .ok (some false, s) else .ok (none, s)
  | n + 1, s =>
    if s.unsatisfied ≠ [] then .ok (some false, s)
    else
      match s.getFringeClause with
      | none => .ok (some true, s)
      | some (c, s) => do
        let (p, isPositive) ← s.getUnassignedLiteral (s.clause c)
        let s ← s.assign p isPositive c
        partialPropagate n s

def maxTimeStamp : ℕ := 65535

structure Trace where
  ltms : Ltms
  stack : List ClauseId
  result : List ClauseId

/-- The body of the `for` loop of `get_clause_support`: the support of one
proposition of the current clause. -/
def traceProp (predicate : ClauseId → Bool) (current : ClauseId) (t : Trace) (p : PropId) :
    Except L2Error Trace :=
  match (t.ltms.prop p).supportedBy with
  | none => .error (.fatal "unsupported clause was supporting something")
  | some parent =>
    if parent ≠ current ∧ (t.ltms.clause parent).timeStamp ≠ t.ltms.timeStamp then
      let s := t.ltms.setClause parent
        { t.ltms.clause parent with timeStamp := t.ltms.timeStamp }
      if predicate parent then .ok { t with ltms := s, result := parent :: t.result }
      else .ok { t with ltms := s, stack := parent :: t.stack }
    else .ok t

def traceTurn (predicate : ClauseId → Bool) (t : Trace) : Except L2Error (Trace ⊕ Trace) :=
  match t.stack with
  | [] => .ok (.inr t)
  | current :: stack => do
    let k := t.ltms.clause current
    let t ← (k.literals.take k.numLits.toNat).foldlM (traceProp predicate current)
      { t with stack := stack }
    return .inl t

def getClauseSupport (s : Ltms) (c : ClauseId) (result : List ClauseId)
    (predicate : ClauseId → Bool) : Except L2Error (List ClauseId × Ltms) := do
  let s := if s.timeStamp = maxTimeStamp then s.initializeTimeStamps else s
  let s := { s with timeStamp := (s.timeStamp + 1) % (maxTimeStamp + 1) }
  let t ← whileM .outOfFuel (traceTurn predicate) (s.clauses.length + 2)
    { ltms := s, stack := [c], result := result }
  return (t.result, t.ltms)

def lastConflict (s : Ltms) (predicate : ClauseId → Bool) :
    Except L2Error (List ClauseId × Ltms) :=
  match s.unsatisfied with
  | [] => .ok ([], s)
  | c :: _ => s.getClauseSupport c (if predicate c then [c] else []) predicate

/-- The body of the loops of `transfer_clauses`, at index `i` of the literals. -/
def transferLiteral (old new : PropId) (losingAssignment sign : Bool) (c : ClauseId) (s : Ltms)
    (i : ℕ) : Except L2Error Ltms :=
  let k := s.clause c
  if k.literals[i]? = some old then
    let s := s.setClause c { k with literals := k.literals.set i new }
    let s := (s.addOccurrence c (new, sign)).removeOccurrence c (old, sign)
    if losingAssignment then s.incrNumUnassigned c else .ok s
  else .ok s

def transferClause (old new : PropId) (losingAssignment : Bool) (s : Ltms) (c : ClauseId) :
    Except L2Error Ltms := do
  let n := (s.clause c).numPosLits.toNat
  let m := (s.clause c).numLits.toNat
  let s ← (List.range n).foldlM (transferLiteral old new losingAssignment true c) s
  let s ← (List.range' n (m - n)).foldlM (transferLiteral old new losingAssignment false c) s
  if (s.clause c).satisfyingProp = some old then .ok (s.setSatisfyingProp c (some new))
  else .ok s

def transferClauses (s : Ltms) (old new : PropId) (transferred : List ClauseId)
    (losingAssignment : Bool) : Except L2Error Ltms :=
  transferred.foldlM (transferClause old new losingAssignment) s

def moveSupport (s : Ltms) (old : PropId) (transferred : List ClauseId) (new : PropId) :
    Except L2Error Ltms :=
  match (s.prop old).supportedBy with
  | none => s.transferClauses old new transferred false
  | some c =>
    if c ∉ transferred then s.transferClauses old new transferred true
    else do
      let s ← s.assign new (s.value old ≠ .pfalse) c
      let s ← s.transferClauses old new transferred false
      let s ← s.unassign old
      s.undoPropagations

end Livingstone.Ltms
