import Livingstone.Lib.Bucket

/-! The transition prototypes of the mode variables (`transitioned.cpp`) and the clauses that a
commanded progress instantiates from them (`T_system.cpp`). Diagnosis, not planning. -/

namespace Livingstone
namespace Transition

inductive Variable where
  | command (id : ℕ)
  | mode (id : ℕ)
  | other (id : ℕ)
  deriving DecidableEq, Repr

structure ProtoAssignment where
  first : Variable
  second : UInt32
  deriving DecidableEq, Repr

/-- The assignment of a value to a command. -/
structure Assignment where
  command : ℕ
  value : UInt32
  deriving DecidableEq, Repr

/-- `noCommand` is the first value of each command. -/
def noCommand : UInt32 := 0

/-- A proposition of the step: a variable strictly before the new time step, the transition of a
mode, or a mode on it. -/
inductive Proposition where
  | before (v : Variable) (value : UInt32)
  | transition (mode : ℕ) (value : UInt32)
  | after (mode : ℕ) (value : UInt32)
  deriving DecidableEq, Repr

structure Clause where
  positive : List Proposition
  negative : List Proposition
  deriving DecidableEq, Repr

structure ProtoTransition where
  positives : List ProtoAssignment := []
  negatives : List ProtoAssignment := []
  /-- The mode and its new value. -/
  consequent : ℕ × UInt32
  commandAssignment : Option Assignment := none
  transitionValue : UInt32
  deriving DecidableEq, Repr

/-- The assignment of a literal for a command. -/
def ProtoAssignment.command? (a : ProtoAssignment) : Option Assignment :=
  match a.first with
  | .command id => some ⟨id, a.second⟩
  | _ => none

/-- The first literal for a command, of the positive ones if there is one. -/
def findCommandAssignment (positives negatives : List ProtoAssignment) : Option Assignment :=
  match positives.findSome? ProtoAssignment.command? with
  | some a => some a
  | none => negatives.findSome? ProtoAssignment.command?

def ProtoTransition.autonomous (mode : ℕ) (transitionValue toValue : UInt32) : ProtoTransition where
  consequent := (mode, toValue)
  transitionValue := transitionValue

/-- The prototype of a nominal transition; it is from any mode if `fromValue` is negative. -/
def ProtoTransition.guarded (mode : ℕ) (transitionValue : UInt32) (fromValue : Int32)
    (toValue : UInt32) (pos neg : List ProtoAssignment) : ProtoTransition where
  positives := pos
  negatives := if 0 ≤ fromValue then ⟨.mode mode, fromValue.toUInt32⟩ :: neg else neg
  consequent := (mode, toValue)
  commandAssignment := findCommandAssignment pos neg
  transitionValue := transitionValue

def ProtoAssignment.proposition (a : ProtoAssignment) : Proposition := .before a.first a.second

/-- The clause between the last time step and the present; each literal is put in front. -/
def ProtoTransition.instantiate (p : ProtoTransition) : Clause where
  positive := .after p.consequent.1 p.consequent.2 ::
    (p.positives.map ProtoAssignment.proposition).reverse
  negative := .transition p.consequent.1 p.transitionValue ::
    (p.negatives.map ProtoAssignment.proposition).reverse

structure Transitioned where
  id : ℕ
  indexedTransitionTable : List (Assignment × List ProtoTransition) := []
  unindexedPrototypes : List ProtoTransition := []
  autonomousTransitions : List ProtoTransition := []
  deriving Repr

namespace Transitioned

def addFailurePrototype (t : Transitioned) (transitionValue toValue : UInt32) : Transitioned :=
  { t with autonomousTransitions :=
      .autonomous t.id transitionValue toValue :: t.autonomousTransitions }

def addTransitionPrototypeToTable (t : Transitioned) (commandAssignment : Assignment)
    (p : ProtoTransition) : Transitioned :=
  { t with indexedTransitionTable := Bucket.push t.indexedTransitionTable commandAssignment p }

def addCommandedPrototype (t : Transitioned) (transitionValue : UInt32) (fromValue : Int32)
    (toValue : UInt32) (pos neg : List ProtoAssignment) : Transitioned :=
  let p := ProtoTransition.guarded t.id transitionValue fromValue toValue pos neg
  match p.commandAssignment with
  | none => { t with unindexedPrototypes := p :: t.unindexedPrototypes }
  | some commandAssignment =>
    if fromValue.toUInt32 = toValue then
      { t with unindexedPrototypes := p :: t.unindexedPrototypes }
    else t.addTransitionPrototypeToTable commandAssignment p

def addIdlePrototype (t : Transitioned) (fromAndToValue : UInt32) : Transitioned :=
  t.addCommandedPrototype 0 fromAndToValue.toInt32 fromAndToValue [] []

def findTransitionPrototypes (t : Transitioned) (commandAssignment : Assignment) :
    Option (List ProtoTransition) :=
  Bucket.find t.indexedTransitionTable commandAssignment

def hasIndexedTransitions (t : Transitioned) (commandAssignment : Assignment) : Bool :=
  (t.findTransitionPrototypes commandAssignment).isSome

def instantiateIndexedClauses (t : Transitioned) (commandAssignment : Assignment) : List Clause :=
  match t.findTransitionPrototypes commandAssignment with
  | some prototypes => prototypes.map ProtoTransition.instantiate
  | none => []

def instantiateUnindexedClauses (t : Transitioned) : List Clause :=
  t.unindexedPrototypes.map ProtoTransition.instantiate

def instantiateAutonomousClauses (t : Transitioned) : List Clause :=
  t.autonomousTransitions.map ProtoTransition.instantiate

/-- What `transition` adds between the time steps. -/
def instantiateClauses (t : Transitioned) (commandAssignment : Assignment) : List Clause :=
  t.instantiateIndexedClauses commandAssignment ++ t.instantiateUnindexedClauses ++
    t.instantiateAutonomousClauses

end Transitioned

/-- The transition clauses; the modes are in the order of the present variables. -/
def minimalProgress (modes : List Transitioned) (commandAssignment : Assignment) : List Clause :=
  modes.flatMap fun t =>
    if t.hasIndexedTransitions commandAssignment then t.instantiateClauses commandAssignment
    else []

def fullProgress (modes : List Transitioned) (commandAssignment : Assignment) : List Clause :=
  modes.flatMap fun t => t.instantiateClauses commandAssignment

def progress (usesFull : Bool) (modes : List Transitioned) (commandAssignment : Assignment) :
    List Clause :=
  if usesFull then fullProgress modes commandAssignment
  else minimalProgress modes commandAssignment

inductive Prototype where
  | failure (transitionValue toValue : UInt32)
  | commanded (transitionValue : UInt32) (fromValue : Int32) (toValue : UInt32)
      (pos neg : List ProtoAssignment)
  deriving Repr

def Transitioned.add (t : Transitioned) : Prototype → Transitioned
  | .failure transitionValue toValue => t.addFailurePrototype transitionValue toValue
  | .commanded transitionValue fromValue toValue pos neg =>
    t.addCommandedPrototype transitionValue fromValue toValue pos neg

/-- A mode variable of a model and its prototypes in the order in which they are added. -/
structure Mode where
  id : ℕ
  prototypes : List Prototype
  deriving Repr

def Mode.transitioned (m : Mode) : Transitioned := m.prototypes.foldl Transitioned.add { id := m.id }

end Transition
end Livingstone
