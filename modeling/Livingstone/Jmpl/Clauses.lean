import Livingstone.Jmpl.Logic
import Livingstone.Lib.Odometer

/-! The clauses that the JMPL compiler makes of a logic expression (`code/logic`).
`expandAndInstantiate` builds a new tree, so that the operations after it, which change
this tree in place, are functions on trees. -/

namespace Livingstone
namespace Jmpl

/-- The component for which an expression is instantiated. `equality` is
`EqualityExpression.expandAndInstantiate`: an equality is refused, or it is one of attributes or
values, or one of components and stands for the equalities of their attributes. -/
structure Component where
  equality : Equality → Except String (Option (List Equality))

namespace LogicExpression

mutual

def expandAndInstantiate (c : Component) : LogicExpression → Except String LogicExpression
  | .equality e =>
    match c.equality e with
    | .error message => .error message
    | .ok none => .ok (.equality e)
    | .ok (some []) => .ok .trueExpression
    | .ok (some es) => .ok (.andExpression (es.map .equality))
  | .trueExpression => .ok .trueExpression
  | .falseExpression => .ok .falseExpression
  | .andExpression xs => expandAnd c [] xs
  | .orExpression xs => expandOr c [] xs
  | .notExpression x => do
    let y ← expandAndInstantiate c x
    return .notExpression y

/-- The loop of `AndExpression.expandAndInstantiate`. -/
def expandAnd (c : Component) (members : List LogicExpression) :
    List LogicExpression → Except String LogicExpression
  | [] => .ok (if members.isEmpty then .trueExpression else .andExpression members)
  | x :: xs => do
    match ← expandAndInstantiate c x with
    | .falseExpression => return .falseExpression
    | .trueExpression => expandAnd c members xs
    | y => expandAnd c (members ++ [y]) xs

def expandOr (c : Component) (members : List LogicExpression) :
    List LogicExpression → Except String LogicExpression
  | [] => .ok (if members.isEmpty then .falseExpression else .orExpression members)
  | x :: xs => do
    match ← expandAndInstantiate c x with
    | .trueExpression => return .trueExpression
    | .falseExpression => expandOr c members xs
    | y => expandOr c (members ++ [y]) xs

end

/-- `pushNegationIn`, or `none` for a `NegationPushFailure`. A constant returns itself. -/
def pushNegationIn : LogicExpression → Option LogicExpression
  | .equality _ => none
  | .trueExpression => some .trueExpression
  | .falseExpression => some .falseExpression
  | .andExpression xs => some (.orExpression (xs.map negation))
  | .orExpression xs => some (.andExpression (xs.map negation))
  | .notExpression x => some x

mutual

def pushNegationsIn : LogicExpression → LogicExpression
  | .andExpression xs => .andExpression (pushAll xs)
  | .orExpression xs => .orExpression (pushAll xs)
  | .notExpression x => pushNot x
  | x => x

/-- `pushNegationsIn` of a `NotExpression` over the argument. -/
def pushNot : LogicExpression → LogicExpression
  | .equality e => .notExpression (.equality e)
  | .trueExpression => .trueExpression
  | .falseExpression => .falseExpression
  | .andExpression xs => .orExpression (pushNegated xs)
  | .orExpression xs => .andExpression (pushNegated xs)
  | .notExpression x => pushNegationsIn x

def pushAll : List LogicExpression → List LogicExpression
  | [] => []
  | x :: xs => pushNegationsIn x :: pushAll xs

/-- `pushNegationsIn` of the `negation` of each. -/
def pushNegated : List LogicExpression → List LogicExpression
  | [] => []
  | .trueExpression :: xs => .falseExpression :: pushNegated xs
  | .falseExpression :: xs => .trueExpression :: pushNegated xs
  | .notExpression x :: xs => pushNegationsIn x :: pushNegated xs
  | x :: xs => pushNot x :: pushNegated xs

end

theorem pushAll_eq (xs : List LogicExpression) : pushAll xs = xs.map pushNegationsIn := by
  induction xs with
  | nil => rfl
  | cons x xs ih => rw [pushAll, ih, List.map_cons]

theorem pushNegated_eq (xs : List LogicExpression) :
    pushNegated xs = xs.map fun x => x.negation.pushNegationsIn := by
  induction xs with
  | nil => rfl
  | cons x xs ih => cases x <;> simp [pushNegated, ih, negation, pushNegationsIn]

theorem pushNegationsIn_not (x : LogicExpression) :
    (notExpression x).pushNegationsIn =
      match x.pushNegationIn with
      | none => notExpression x
      | some y => y.pushNegationsIn := by
  cases x <;> simp [pushNegationsIn, pushNot, pushNegationIn, pushNegated_eq, pushAll_eq]

mutual

def flatten : LogicExpression → LogicExpression
  | .andExpression xs => .andExpression (flattenAnd xs)
  | .orExpression xs => .orExpression (flattenOr xs)
  | x => x

/-- `flatten(AndExpression)` of each. -/
def flattenAnd : List LogicExpression → List LogicExpression
  | [] => []
  | .andExpression ys :: xs => flattenAnd ys ++ flattenAnd xs
  | x :: xs => flatten x :: flattenAnd xs

/-- `flatten(OrExpression)` of each. -/
def flattenOr : List LogicExpression → List LogicExpression
  | [] => []
  | .orExpression ys :: xs => flattenOr ys ++ flattenOr xs
  | x :: xs => flatten x :: flattenOr xs

end

def isNary : LogicExpression → Bool
  | .andExpression _ => true
  | .orExpression _ => true
  | _ => false

/-- The sub-expressions of an n-ary expression; another expression stands for itself. -/
def row : LogicExpression → List LogicExpression
  | .andExpression xs => xs
  | .orExpression xs => xs
  | x => [x]

/-- The disjunction that `pushDisjunctionsIn` builds for the indices. -/
def pick (rows : List (List LogicExpression)) (indices : List ℕ) :
    Except String (List LogicExpression) :=
  (rows.zip indices).mapM fun p =>
    match p.1[p.2]? with
    | none => .error "ArrayIndexOutOfBoundsException"
    | some x => .ok x

/-- The loop of `OrExpression.pushDisjunctionsIn`; an index counts only where the
sub-expression is n-ary. -/
def distribute (rows : List (List LogicExpression)) : Except String (List LogicExpression) :=
  let lengths := rows.map List.length
  (Odometer.visits (lengths.prod + 1) lengths (List.replicate rows.length 0)).mapM fun indices => do
    let xs ← pick rows indices
    return .orExpression xs

/-- The loop of `AndExpression.pushDisjunctionsIn`. -/
def replaceAll (f : LogicExpression → Except String LogicExpression) (members : List LogicExpression) :
    List LogicExpression → Except String LogicExpression
  | [] => .ok (.andExpression members)
  | x :: xs => do
    match ← f x with
    | .falseExpression => return .falseExpression
    | y => replaceAll f (members ++ [y]) xs

/-- `pushDisjunctionsIn`; the first argument bounds the depth of the recursion. -/
def pushDisjunctionsIn : ℕ → LogicExpression → Except String LogicExpression
  | 0, _ => .error "StackOverflowError"
  | _ + 1, .trueExpression => .ok .trueExpression
  | _ + 1, .falseExpression => .ok .falseExpression
  | _ + 1, .equality e => .ok (.andExpression [.orExpression [.equality e]])
  | _ + 1, .notExpression x => .ok (.andExpression [.orExpression [.notExpression x]])
  | n + 1, .andExpression xs => replaceAll (pushDisjunctionsIn n) [] xs
  | n + 1, .orExpression xs =>
    let flat := flattenOr xs
    if flat.all (fun x => !x.isNary) then .ok (.andExpression [.orExpression flat])
    else do
      let ors ← distribute (flat.map row)
      pushDisjunctionsIn n (.andExpression ors)

end LogicExpression

structure EqualityTerm where
  argument1 : String
  argument2 : String
  sign : Bool
  deriving DecidableEq, Repr

abbrev Clause := List EqualityTerm

namespace LogicExpression

mutual

/-- `buildInstance(Clause)`: the terms that are added to the clause. -/
def buildTerms (clause : Clause) : LogicExpression → Except String Clause
  | .equality e => .ok (clause ++ [⟨e.argument1, e.argument2, true⟩])
  | .trueExpression => .ok clause
  | .falseExpression => .ok clause
  | .notExpression (.equality e) => .ok (clause ++ [⟨e.argument1, e.argument2, false⟩])
  | .notExpression _ => .error "ClassCastException"
  | .andExpression _ =>
    .error "instantiation error: AndExpression inside of OrExpression in buildInstance"
  | .orExpression xs => buildTermsAll clause xs

def buildTermsAll (clause : Clause) : List LogicExpression → Except String Clause
  | [] => .ok clause
  | x :: xs => do
    let clause ← buildTerms clause x
    buildTermsAll clause xs

end

mutual

/-- `buildInstance(Clauses)`: the clauses that are added. -/
def buildInstance (clauses : List Clause) : LogicExpression → Except String (List Clause)
  | .trueExpression => .ok clauses
  | .falseExpression => .ok clauses
  | .andExpression xs => buildAll clauses xs
  | .orExpression xs => do
    let clause ← buildTermsAll [] xs
    return clauses ++ [clause]
  | .equality e => do
    let clause ← buildTerms [] (.equality e)
    return clauses ++ [clause]
  | .notExpression x => do
    let clause ← buildTerms [] (.notExpression x)
    return clauses ++ [clause]

def buildAll (clauses : List Clause) : List LogicExpression → Except String (List Clause)
  | [] => .ok clauses
  | x :: xs => do
    let clauses ← buildInstance clauses x
    buildAll clauses xs

end

/-- `instantiate(DefaultTransition)` of an expression that is expanded already. -/
def instantiateDefault (fuel : ℕ) (x : LogicExpression) : Except String (List Clause) := do
  let y ← x.pushNegationsIn.pushDisjunctionsIn fuel
  buildInstance [] y

def instantiateComponent (c : Component) (fuel : ℕ) (x : LogicExpression) :
    Except String (List Clause) := do
  let y ← x.expandAndInstantiate c
  let z ← y.pushNegationsIn.pushDisjunctionsIn fuel
  buildInstance [] z

/-- `instantiate(Transition)`: the expression set for the transition, and its clauses. -/
def instantiateTransition (c : Component) (fuel : ℕ) (x : LogicExpression) :
    Except String (LogicExpression × List Clause) := do
  let y ← x.expandAndInstantiate c
  let z ← y.negation.pushNegationsIn.pushDisjunctionsIn fuel
  let clauses ← buildInstance [] z
  return (y, clauses)

end LogicExpression

end Jmpl
end Livingstone
