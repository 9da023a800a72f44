import Livingstone.Readers.L2File

/-! Copying a model to another (`L2_file_translator.cpp`). Each kind of object is mapped
to the copy that stands for it, if one does. Enumerations are copied as they are. -/

namespace Livingstone

/-- From the objects of the source to those of the destination. -/
abbrev Mapping := List (ℕ × ℕ)

namespace Mapping

def getDestination (m : Mapping) (src : ℕ) : Option ℕ := m.lookup src

/-- `add_mapping`: an object is mapped once, or again to the same. -/
def addMapping (m : Mapping) (src dst : ℕ) : Except ReaderError Mapping :=
  match m.getDestination src with
  | some search =>
    if search = dst then .ok m
    else .error (.reader ("mapping " ++ Nat.repr src ++ " twice (" ++ Nat.repr search ++ ", " ++
      Nat.repr dst ++ ")"))
  | none => .ok ((src, dst) :: m)

/-- Each object is mapped to the copy of the same number. -/
def identity (n : ℕ) : Mapping := (List.range n).map fun i => (i, i)

end Mapping

def L2File.getVar (f : L2File) (v : ℕ) : Except ReaderError L2rVariable :=
  match f.vars[v]? with
  | some x => .ok x
  | none => .error (.bounds "variable array" v f.vars.length)

/-- The constructor puts the lesser identifier first. -/
def L2rPropVarVar.make (v : ℕ) (positive : Bool) (w : ℕ) : L2rPropVarVar :=
  if v < w then ⟨v, positive, w⟩ else ⟨w, positive, v⟩

structure Translation where
  dest : L2File := {}
  vars : Mapping := []
  props : Mapping := []
  clauses : Mapping := []

namespace Translation

variable (source : L2File)

/-- `add_mapping` of the variable `v`, with its kind and its initial value, to the copy
`x` numbered `id`. -/
def addVarMapping (m : Mapping) (x : L2rVariable) (id v : ℕ) :
    Except ReaderError (Mapping × L2rVariable) := do
  let src ← source.getVar v
  let x ← if src.kind ≠ .unknown then x.setKind id src.kind else .ok x
  let x ← match src.initial with
    | some i => x.setInitial id i
    | none => .ok x
  return (← m.addMapping v id, x)

def copyVar (m : Mapping) (v id : ℕ) : Except ReaderError (Mapping × L2rVariable) := do
  let src ← source.getVar v
  addVarMapping source m { type := src.type, kind := src.kind, initial := src.initial } id v

def copyAllEnums (t : Translation) : Translation :=
  { t with dest := { t.dest with enums := source.enums } }

def copyAllVars (t : Translation) : Except ReaderError Translation :=
  (List.range source.vars.length).foldlM (fun t v => do
    let (m, x) ← copyVar source t.vars v v
    return { t with vars := m, dest := { t.dest with vars := t.dest.vars ++ [x] } }) t

/-- The copy of an object that the code takes to have one. -/
def getDest (m : Mapping) (src : ℕ) : Except ReaderError ℕ :=
  match m.getDestination src with
  | some dst => .ok dst
  | none => .error .nullPointer

def copyProp (vars : Mapping) : L2rProposition → Except ReaderError L2rProposition
  | .varVar p => do
    return .varVar (.make (← getDest vars p.var) p.positive (← getDest vars p.otherVar))
  | .varValue p => do return .varValue { p with var := ← getDest vars p.var }

def copyAllProps (t : Translation) : Except ReaderError Translation := do
  let props ← source.props.mapM (copyProp t.vars)
  return { t with
    dest := { t.dest with props := props }
    props := .identity source.props.length }

def copyClause (props : Mapping) (c : L2rClause) : Except ReaderError L2rClause := do
  return { c with props := ← c.props.mapM (getDest props) }

def copyAllClauses (t : Translation) : Except ReaderError Translation := do
  let clauses ← source.clauses.mapM (copyClause t.props)
  return { t with
    dest := { t.dest with clauses := clauses }
    clauses := .identity source.clauses.length }

/-- A clause without a copy leaves a null pointer. -/
def copyTransition (vars clauses : Mapping) (x : L2rTransition) :
    Except ReaderError L2rTransition := do
  return { x with
    mode := ← getDest vars x.mode
    clauses := x.clauses.map fun c => c.bind clauses.getDestination }

/-- The transitions of the mode variable `v` are copied to those of `w`. -/
def copyTransitions (t : Translation) (x : L2rVariable) (v w : ℕ) :
    Except ReaderError Translation := do
  let y ← t.dest.getVar w
  if y.kind ≠ .mode then .error (.fatal "Reading L2rVariable::mode_ for non-mode variable")
  else if y.mode.failure ≠ [] then
    .error (.optimizer ("transitions for " ++ Nat.repr v ++ " already copied"))
  else do
    let dest ← (x.mode.nominal ++ x.mode.failure).foldlM (fun dest y => do
      dest.addTransition (← copyTransition t.vars t.clauses y)) t.dest
    return { t with dest := dest }

def copyAllTransitions (t : Translation) : Except ReaderError Translation :=
  (List.range source.vars.length).foldlM (fun t v => do
    let x ← source.getVar v
    if x.kind = .mode then copyTransitions t x v (← getDest t.vars v) else .ok t) t

end Translation

end Livingstone
