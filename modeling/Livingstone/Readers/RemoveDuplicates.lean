import Livingstone.Readers.Translator

/-! Removing tautologies and merging equal propositions and clauses
(`xlate_remove_duplicates.cpp`). The propositions of a clause are kept in the order of
their addresses, as far as `add_prop` does so. Two clauses are equal when their lists are:
the hash code, a sum over the list, is equal then. -/

namespace Livingstone

namespace RemoveDuplicates

variable (source : L2File)

/-- A proposition `v = v` or `v != v`. -/
def useless : L2rProposition → Bool
  | .varVar p => p.var = p.otherVar
  | .varValue _ => false

/-- The key of a proposition, which is also the copy that `create_prop` makes of it. The
message ends with an address. -/
def hashableProp (vars : Mapping) : L2rProposition → Except ReaderError L2rProposition
  | .varVar p => do
    let v ← Translation.getDest vars p.var
    let w ← Translation.getDest vars p.otherVar
    if v = w then .error (.fatal "creating var=var prop with only one var=")
    else return .varVar (.make v p.positive w)
  | .varValue p => do return .varValue { p with var := ← Translation.getDest vars p.var }

/-- One turn of `copy_all_props`, for the proposition `i`. -/
def copyPropTurn (t : Translation) (p : L2rProposition × ℕ) : Except ReaderError Translation :=
  if useless p.1 then .ok t
  else do
    let hp ← hashableProp t.vars p.1
    match t.dest.props.idxOf? hp with
    | some j => return { t with props := ← t.props.addMapping p.2 j }
    | none => return { t with
        dest := { t.dest with props := t.dest.props ++ [hp] }
        props := ← t.props.addMapping p.2 t.dest.props.length }

def copyAllProps (t : Translation) : Except ReaderError Translation :=
  source.props.zipIdx.foldlM copyPropTurn t

/-- The new proposition goes one place before the one it is to precede, or before the last
one where it is to precede none. -/
def addProp (address : ℕ → ℕ) (p : ℕ) (props : List ℕ) : List ℕ :=
  let k := props.findIdx fun q => p = q ∨ address p < address q
  if props[k]? = some p then props else props.insertIdx (k - 1) p

/-- The loop of the constructor of `Hashable_clause`. What it returns for a tautology has no
propositions. -/
def gather (address : ℕ → ℕ) (map : Mapping) :
    List ℕ → List ℕ → Option ℕ → Except ReaderError (List ℕ)
  | [], props, unsatisfiable =>
    match unsatisfiable with
    | none => .ok props
    | some v =>
      if props.length > 0 then .ok props
      else .error (.reader ("unsatisfiable clause asserting v" ++ Nat.repr v ++ "!=v" ++ Nat.repr v))
  | i :: rest, props, unsatisfiable => do
    let general := match map.getDestination i with
      | none => .error (.fatal ("failed to map prop " ++ Nat.repr i))
      | some j => gather address map rest (addProp address j props) unsatisfiable
    match ← source.getProp i with
    | .varValue _ => general
    | .varVar p =>
      if p.var = p.otherVar then
        if p.positive then .ok []
        else gather address map rest props (some p.var)
      else general

def hashableClause (address : ℕ → ℕ) (map : Mapping) (c : L2rClause) :
    Except ReaderError (List ℕ) :=
  gather source address map c.props [] none

/-- `add_mapping` of the clause `c`, numbered `i`, to the clause `j` of the destination. -/
def addClauseMapping (t : Translation) (c : L2rClause) (i j : ℕ) :
    Except ReaderError Translation := do
  let clauses := if c.isInBackground
    then t.dest.clauses.modify j fun d => { d with isInBackground := true }
    else t.dest.clauses
  return { t with
    dest := { t.dest with clauses := clauses }
    clauses := ← t.clauses.addMapping i j }

/-- One turn of `copy_all_clauses`. -/
def copyClauseTurn (address : ℕ → ℕ) (t : Translation) (c : L2rClause × ℕ) :
    Except ReaderError Translation := do
  let props ← hashableClause source address t.props c.1
  if props.length = 0 then return t
  else
    match t.dest.clauses.findIdx? fun d => d.props = props with
    | some j => addClauseMapping t c.1 c.2 j
    | none =>
      let dest := { t.dest with clauses := t.dest.clauses ++ [⟨props, false⟩] }
      addClauseMapping { t with dest := dest } c.1 c.2 t.dest.clauses.length

def copyAllClauses (address : ℕ → ℕ) (t : Translation) : Except ReaderError Translation :=
  source.clauses.zipIdx.foldlM (copyClauseTurn source address) t

def translate (address : ℕ → ℕ) : Except ReaderError Translation := do
  let t := Translation.copyAllEnums source {}
  let t ← Translation.copyAllVars source t
  let t ← copyAllProps source t
  let t ← copyAllClauses source address t
  Translation.copyAllTransitions source t

end RemoveDuplicates

end Livingstone
