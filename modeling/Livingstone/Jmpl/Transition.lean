import Livingstone.Jmpl.Relation

/-! Checking the states of a transition against the state vector (`AbstractTransition.java`). -/

namespace Livingstone
namespace Jmpl

structure AbstractAttributeType where
  name : String
  compiledFlag : Bool
  values : List String

/-- A transition as it is read. A name that is null or empty is `none`. -/
structure AbstractTransition where
  name : Option String
  fromStates : List String
  toStates : List String

/-- What an instantiated transition records: the states of each list with spaces in between. -/
structure Transition where
  name : Option String
  fromStates : String
  toStates : String
  deriving DecidableEq, Repr

namespace AbstractTransition

/-- An instantiated component: its attributes, with null for the type of one that is a component,
and the state vector of its type. -/
structure Component where
  attributes : List (String × Option AbstractAttributeType)
  stateVector : Option (List String)

def Component.findAttribute (c : Component) (name : String) :
    Option (Option AbstractAttributeType) := c.attributes.lookup name

/-- The state is to be one of the values of the state variable. -/
def checkState (c : Component) (kind state stateVar : String) : Except JmplException Unit :=
  match c.findAttribute stateVar with
  | none => .error (.compilerError "compiler error: state variable attribute not found in component")
  | some none => .error .nullPointer
  | some (some type) =>
    if state ∈ type.values then .ok ()
    else .error (.syntaxError ("syntax error: transition '" ++ kind ++
      "' state is not in the domain of the state variable" ++ "\n  the value '" ++ state ++ "'" ++
      "\n  for state variable '" ++ stateVar ++ "'" ++
      if type.compiledFlag then " of type '" ++ type.name ++ "'" else ""))

def recordState (recorded : Option String) (state : String) : String :=
  match recorded with
  | none => state
  | some recorded => recorded ++ " " ++ state

/-- One of the two loops, over the states and the variables that are left. A wildcard leaves the
variables as they are. -/
def checkStates (c : Component) (kind wildcard : String) :
    List String → List String → Option String → Except JmplException (Option String)
  | [], _, recorded => .ok recorded
  | _ :: _, [], _ => .error (.syntaxError ("syntax error: transition has more '" ++ kind ++
      "' states than the state vector"))
  | state :: states, stateVar :: stateVars, recorded =>
    let recorded := some (recordState recorded state)
    if state = wildcard then checkStates c kind wildcard states (stateVar :: stateVars) recorded
    else do
      checkState c kind state stateVar
      checkStates c kind wildcard states stateVars recorded

def checkFromStates (c : Component) (fromStates stateVector : List String) :
    Except JmplException (Option String) := checkStates c "from" "*" fromStates stateVector none

def checkToStates (c : Component) (toStates stateVector : List String) :
    Except JmplException (Option String) := checkStates c "to" "+" toStates stateVector none

/-- `DataObject.set`: the hash table of the attributes takes no null. -/
def set (value : Option String) : Except JmplException String :=
  match value with
  | some value => .ok value
  | none => .error .nullPointer

/-- `instantiateExpression` is what the instantiation of the expression does, which comes last; it
does nothing where there is no expression. -/
def instantiate (c : Component) (instantiateExpression : Transition → Except JmplException Unit)
    (t : AbstractTransition) : Except JmplException Transition :=
  match c.stateVector with
  | none => .error (.syntaxError
      "syntax error: transition found in a context without a state vector")
  | some stateVector => do
    let fromStates ← set (← checkFromStates c t.fromStates stateVector)
    let toStates ← set (← checkToStates c t.toStates stateVector)
    let transition : Transition := ⟨t.name, fromStates, toStates⟩
    instantiateExpression transition
    return transition

end AbstractTransition

end Jmpl
end Livingstone
