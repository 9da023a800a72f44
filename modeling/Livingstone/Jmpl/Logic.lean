import Mathlib.Tactic

/-! Logic expressions of the JMPL compiler (`code/logic`) as trees. -/

namespace Livingstone
namespace Jmpl

/-- The arguments of an `EqualityExpression`. -/
structure Equality where
  argument1 : String
  argument2 : String
  deriving DecidableEq, Repr

inductive LogicExpression where
  | equality (e : Equality)
  | trueExpression
  | falseExpression
  | andExpression (subExpressions : List LogicExpression)
  | orExpression (subExpressions : List LogicExpression)
  | notExpression (expression : LogicExpression)

namespace LogicExpression

/-- Induction over the tree, with the hypothesis for each member of a list of
sub-expressions. -/
@[elab_as_elim, induction_eliminator]
theorem inductionOn {motive : LogicExpression → Prop} (equality : ∀ e, motive (equality e))
    (trueExpression : motive trueExpression) (falseExpression : motive falseExpression)
    (andExpression : ∀ xs, (∀ x ∈ xs, motive x) → motive (andExpression xs))
    (orExpression : ∀ xs, (∀ x ∈ xs, motive x) → motive (orExpression xs))
    (notExpression : ∀ x, motive x → motive (notExpression x)) (x : LogicExpression) : motive x := by
  refine LogicExpression.rec (motive_1 := motive) (motive_2 := fun xs => ∀ x ∈ xs, motive x)
    equality trueExpression falseExpression andExpression orExpression notExpression
    (fun x hx => absurd hx List.not_mem_nil) (fun x xs hx hxs y hy => ?_) x
  rcases List.mem_cons.mp hy with rfl | hy
  · exact hx
  · exact hxs y hy

mutual

/-- The truth value of an expression under truth values of its equalities. -/
def eval (v : Equality → Bool) : LogicExpression → Bool
  | .equality e => v e
  | .trueExpression => true
  | .falseExpression => false
  | .andExpression xs => evalAll v xs
  | .orExpression xs => evalAny v xs
  | .notExpression x => !eval v x

def evalAll (v : Equality → Bool) : List LogicExpression → Bool
  | [] => true
  | x :: xs => eval v x && evalAll v xs

def evalAny (v : Equality → Bool) : List LogicExpression → Bool
  | [] => false
  | x :: xs => eval v x || evalAny v xs

end

variable {v : Equality → Bool}

@[simp]
theorem evalAll_eq (xs : List LogicExpression) : evalAll v xs = xs.all (eval v) := by
  induction xs with
  | nil => rfl
  | cons x xs ih => rw [evalAll, ih, List.all_cons]

@[simp]
theorem evalAny_eq (xs : List LogicExpression) : evalAny v xs = xs.any (eval v) := by
  induction xs with
  | nil => rfl
  | cons x xs ih => rw [evalAny, ih, List.any_cons]

/-- `negation` of each class. -/
def negation : LogicExpression → LogicExpression
  | .trueExpression => .falseExpression
  | .falseExpression => .trueExpression
  | .notExpression x => x
  | x => .notExpression x

@[simp]
theorem eval_negation (x : LogicExpression) : x.negation.eval v = !x.eval v := by
  cases x <;> simp [negation, eval]

end LogicExpression

end Jmpl
end Livingstone
