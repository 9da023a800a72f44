import Livingstone.Tms.Destroy
import Livingstone.Transition.TSystem

/-! The truth maintenance system as the solver of a transition system. An error of it is an
exception; the solver stays as it is then. -/

namespace Livingstone
namespace Transition

def valueOr {α : Type} (x : Except L2Error α) (d : α) : α :=
  match x with
  | .ok a => a
  | .error _ => d

theorem eq_valueOr {α : Type} {x : Except L2Error α} (d : α) (h : x.isOk = true) :
    x = .ok (valueOr x d) := by
  cases x with
  | error e => cases h
  | ok a => rfl

/-- The datum of a clause is the pair as one number. -/
def ltmsSolver : Solver Ltms where
  createProposition t := t.createProposition
  createClause t datum positive negative isVolatile inTheory :=
    valueOr (t.createClause (datum.map fun a => Nat.pair a.1 a.2) positive negative isVolatile
      inTheory) (t.nextClause, t)
  add t c := valueOr (t.add c) t
  remove t c := valueOr (t.remove c) t
  isTrue t p := t.value p = .ptrue
  propagate t := valueOr t.propagate (false, t)
  moveSupport t p cs q := valueOr (t.moveSupport p cs q) t
  setDestroying t p := t.setDestroying p
  isDestroying t c := (t.clause c).destroying
  finishDestroying t := valueOr t.finishDestroying t

end Transition
end Livingstone
