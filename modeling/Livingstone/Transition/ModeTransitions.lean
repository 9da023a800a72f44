import Livingstone.Readers.L2File
import Livingstone.Transition.Transitioned

/-! The transitions of a mode variable as `to_t_system.cpp` creates them: the prototypes, and the
costs of the values of the transition variable (`transitioned.cpp`). Diagnosis, not planning. -/

namespace Livingstone
namespace Transition

/-- `horizonWeights` are the weights of the values of the first transition variable. -/
structure ModeVariable where
  prototypes : Transitioned
  ntransitions : ℕ
  transitionCosts : List ℕ
  horizonWeights : List ℕ
  deriving Repr

namespace ModeVariable

/-- The constructor of `Transitioned`. The nominal transition costs nothing. -/
def new (id transitionCount : ℕ) : ModeVariable where
  prototypes := { id := id }
  ntransitions := transitionCount
  transitionCosts := [0]
  horizonWeights := List.replicate transitionCount 0

def addTransitionCost (cost : ℕ) (t : ModeVariable) : Except ReaderError ModeVariable :=
  let idx := t.transitionCosts.length
  if idx < t.ntransitions then
    .ok { t with
      transitionCosts := t.transitionCosts ++ [cost]
      horizonWeights := t.horizonWeights.set idx cost }
  else .error (.fatal ("adding too many transition costs to v" ++ Nat.repr t.prototypes.id))

end ModeVariable

def findVar (f : L2File) (v : ℕ) : Except ReaderError Variable := do
  match (← boundsCheckAccess v f.vars "variable").kind with
  | .commanded => return .command v
  | .mode => return .mode v
  | _ => return .other v

def addGuardLiteral (f : L2File) (r : List ProtoAssignment × List ProtoAssignment) (prop : ℕ) :
    Except ReaderError (List ProtoAssignment × List ProtoAssignment) := do
  match ← f.getProp prop with
  | .varVar _ => .error (.reader "found equality as guard condition")
  | .varValue p =>
    let v ← findVar f p.var
    return if p.positive then (⟨v, UInt32.ofNat p.value⟩ :: r.1, r.2)
      else (r.1, ⟨v, UInt32.ofNat p.value⟩ :: r.2)

/-- `from`, which is negative for any mode. -/
def fromValue (x : L2rTransition) : Int32 :=
  match x.fromMode with
  | some i => Int32.ofNat i
  | none => -1

def addGuard (f : L2File) (x : L2rTransition) (transitionValue : ℕ) (t : ModeVariable)
    (clause : Option ℕ) : Except ReaderError ModeVariable :=
  match clause with
  | none => .error .nullPointer
  | some c => do
    let k ← f.getClause c
    let (pos, neg) ← k.props.foldlM (addGuardLiteral f) ([], [])
    return { t with
      prototypes := t.prototypes.addCommandedPrototype (UInt32.ofNat transitionValue) (fromValue x)
        (UInt32.ofNat x.toMode) pos neg }

def addPrototypes (f : L2File) (x : L2rTransition) (transitionValue : ℕ) (t : ModeVariable) :
    Except ReaderError ModeVariable :=
  if x.clauses = [] then
    if x.isNominal then
      if x.fromMode = some x.toMode then
        .ok { t with prototypes := t.prototypes.addIdlePrototype (UInt32.ofNat x.toMode) }
      else .error (.reader "non-idle non-failure uncommanded transition")
    else .ok { t with
      prototypes := t.prototypes.addFailurePrototype (UInt32.ofNat transitionValue)
        (UInt32.ofNat x.toMode) }
  else x.clauses.foldlM (addGuard f x transitionValue) t

/-- A rank of zero is taken for the default. -/
def addRank (x : L2rTransition) (t : ModeVariable) : Except ReaderError ModeVariable :=
  if x.rank ≠ 0 then t.addTransitionCost x.rank else .ok t

def createTransition (f : L2File) (t : ModeVariable) (x : L2rTransition × ℕ) :
    Except ReaderError ModeVariable := do
  let t ← addRank x.1 t
  addPrototypes f x.1 x.2 t

/-- `createTransitions`, for the mode variable that `createVariable` makes. -/
def createTransitions (f : L2File) (id : ℕ) (m : L2rMode) : Except ReaderError ModeVariable := do
  let t := ModeVariable.new id (1 + m.failure.length)
  let t ← (m.nominal.map fun x => (x, 0)).foldlM (createTransition f) t
  let t ← (m.failure.zipIdx 1).foldlM (createTransition f) t
  if 1 + m.failure.length = t.ntransitions then return t
  else .error (.writer ("Mode v" ++ Nat.repr id ++ " has the wrong number of transitions"))

end Transition
end Livingstone
