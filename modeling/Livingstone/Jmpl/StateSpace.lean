import Livingstone.Jmpl.Clauses

/-! The frame axioms of the JMPL compiler (`compiler/StateSpace`). A state is a vector of
indices, one for each variable of the state vector. -/

namespace Livingstone
namespace Jmpl

/-- A variable of a state vector with the values of its type, or `none` when its type is no
attribute type. -/
structure StateVariable where
  name : String
  values : Option (List String)

/-- `attributeTypeSize`; the error for another type is made and not thrown. -/
def StateVariable.dimension (stateVariable : StateVariable) : ℕ :=
  match stateVariable.values with
  | some values => values.length
  | none => 0

/-- A nominal transition that has been instantiated for the component. -/
structure NominalTransition (c : Component) where
  fromStates : List String
  expression : LogicExpression
  expandedAndInstantiatedExpression : LogicExpression
  instantiated : expression.expandAndInstantiate c = .ok expandedAndInstantiatedExpression

structure DefaultTransition where
  fromState : String
  toState : String
  clauses : List Clause

structure StateSpace where
  stateVector : List StateVariable
  constraints : List (Option (List LogicExpression))

namespace StateSpace

def dimensions (stateVector : List StateVariable) : List ℕ := stateVector.map StateVariable.dimension

/-- `Array.newInstance` with the dimensions, cast to an array of vectors; only with one dimension
is it one. -/
def initializeConstraints (dimensions : List ℕ) :
    Except String (List (Option (List LogicExpression))) :=
  match dimensions with
  | [] => .error "IllegalArgumentException"
  | [n] => .ok (List.replicate n (some []))
  | _ => if dimensions.length ≤ 255 then .error "ClassCastException"
    else .error "IllegalArgumentException"

def flatIndex (dimensions indices : List ℕ) : ℕ :=
  (dimensions.zip indices).foldr (fun p index => index * p.1 + p.2) 0

def getConstraints (space : StateSpace) (indices : List ℕ) :
    Except String (Option (List LogicExpression)) :=
  match space.constraints[flatIndex (dimensions space.stateVector) indices]? with
  | none => .error "ArrayIndexOutOfBoundsException"
  | some constraints => .ok constraints

def setConstraints (space : StateSpace) (indices : List ℕ) (value : Option (List LogicExpression)) :
    StateSpace :=
  { space with
    constraints := space.constraints.set (flatIndex (dimensions space.stateVector) indices) value }

/-- The number of a value; of two values with the same name the later one. -/
def valueNum (values : List String) (name : String) : Option ℕ :=
  (values.zipIdx.reverse.find? fun p => p.1 == name).map Prod.snd

/-- The index that each from-state stands for, `none` for a wildcard. A variable without a
from-state keeps the index 0. -/
def fromIndices : List StateVariable → List String → Except String (List (Option ℕ))
  | [], _ => .ok []
  | _ :: vs, [] => do
    let indices ← fromIndices vs []
    return some 0 :: indices
  | v :: vs, fromState :: fromStates =>
    if fromState = "*" then do
      let indices ← fromIndices vs fromStates
      return none :: indices
    else
      match v.values with
      | none => .error "NullPointerException"
      | some values =>
        match valueNum values fromState with
        | none => .error ("syntax error: value in from state is not a valid value for the " ++
            "variable in the state vector\n  value '" ++ fromState ++ "' is invalid")
        | some k => do
          let indices ← fromIndices vs fromStates
          return some k :: indices

def wildcards : List ℕ → List (Option ℕ) → List ℕ
  | d :: ds, none :: indices => d :: wildcards ds indices
  | _ :: ds, some _ :: indices => wildcards ds indices
  | _, _ => []

/-- The indices with those of the wildcards put in. -/
def fill : List (Option ℕ) → List ℕ → List ℕ
  | [], _ => []
  | some k :: indices, is => k :: fill indices is
  | none :: indices, i :: is => i :: fill indices is
  | none :: indices, [] => 0 :: fill indices []

/-- The body of the loop of `cacheTransition`. -/
def addConstraint (expression : LogicExpression) (space : StateSpace) (indices : List ℕ) :
    Except String StateSpace := do
  match ← space.getConstraints indices with
  | none => return space
  | some constraints =>
    match expression with
    | .trueExpression => return space.setConstraints indices none
    | expression => return space.setConstraints indices (some (constraints ++ [expression]))

variable {c : Component}

def cacheTransition (space : StateSpace) (transition : NominalTransition c) :
    Except String StateSpace := do
  let indices ← fromIndices space.stateVector transition.fromStates
  let radices := wildcards (dimensions space.stateVector) indices
  let visited := Odometer.visits (radices.prod + 1) radices (List.replicate radices.length 0)
  visited.foldlM (fun space is =>
    space.addConstraint transition.expandedAndInstantiatedExpression (fill indices is)) space

/-- The transitions of the component type and of each type that it extends. -/
def cacheTransitions (space : StateSpace) (levels : List (List (NominalTransition c))) :
    Except String StateSpace :=
  levels.foldlM (fun space transitions => transitions.foldlM cacheTransition space) space

def create (stateVector : List StateVariable) (levels : List (List (NominalTransition c))) :
    Except String StateSpace := do
  let constraints ← initializeConstraints (dimensions stateVector)
  cacheTransitions ⟨stateVector, constraints⟩ levels

def valueName (p : StateVariable × ℕ) : Except String String :=
  match p.1.values.bind (·[p.2]?) with
  | none => .error "ArrayIndexOutOfBoundsException"
  | some name => .ok name

def stateVectorString (stateVector : List StateVariable) (indices : List ℕ) :
    Except String String := do
  let names ← (stateVector.zip indices).mapM valueName
  return " ".intercalate names

/-- The body of the loop of `addFrameAxioms`. It pushes the negations of the guards in, in place,
so that a later call may find them pushed in already. -/
def frameAxiom (fuel : ℕ) (space : StateSpace) (indices : List ℕ) :
    Except String (Option DefaultTransition) := do
  match ← space.getConstraints indices with
  | none => return none
  | some constraints =>
    let stateVectorString ← stateVectorString space.stateVector indices
    let clauses ← LogicExpression.instantiateDefault fuel (.orExpression constraints)
    return some ⟨stateVectorString, stateVectorString, clauses⟩

/-- The default transitions that are added to the component. -/
def addFrameAxioms (fuel : ℕ) (space : StateSpace) : Except String (List DefaultTransition) := do
  let radices := dimensions space.stateVector
  let visited := Odometer.visits (radices.prod + 1) radices (List.replicate radices.length 0)
  let transitions ← visited.mapM (space.frameAxiom fuel)
  return transitions.reduceOption

end StateSpace

/-- `ComponentType.instantiateFrameAxioms` of a component type with a state vector. -/
def instantiateFrameAxioms {c : Component} (fuel : ℕ) (stateVector : List StateVariable)
    (levels : List (List (NominalTransition c))) : Except String (List DefaultTransition) := do
  let space ← StateSpace.create stateVector levels
  space.addFrameAxioms fuel

end Jmpl
end Livingstone
