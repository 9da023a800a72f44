import Livingstone.Jmpl.NormalForm

/-! The chain from an expression to clauses, for each of the three ways to instantiate it. -/

namespace Livingstone
namespace Jmpl
namespace LogicExpression

variable {c : Component}

mutual

def equalities : LogicExpression → List Equality
  | .equality e => [e]
  | .trueExpression => []
  | .falseExpression => []
  | .andExpression xs => equalitiesAll xs
  | .orExpression xs => equalitiesAll xs
  | .notExpression x => equalities x

def equalitiesAll : List LogicExpression → List Equality
  | [] => []
  | x :: xs => equalities x ++ equalitiesAll xs

end

theorem equalitiesAll_eq (xs : List LogicExpression) : equalitiesAll xs = xs.flatMap equalities := by
  induction xs with
  | nil => rfl
  | cons x xs ih => rw [equalitiesAll, ih, List.flatMap_cons]

def isTrue : LogicExpression → Bool
  | .trueExpression => true
  | _ => false

def isFalse : LogicExpression → Bool
  | .falseExpression => true
  | _ => false

def conjoin (xs : List LogicExpression) : LogicExpression :=
  if xs.any isFalse then .falseExpression
  else if (xs.filter fun x => !x.isTrue).isEmpty then .trueExpression
  else .andExpression (xs.filter fun x => !x.isTrue)

def disjoin (xs : List LogicExpression) : LogicExpression :=
  if xs.any isTrue then .trueExpression
  else if (xs.filter fun x => !x.isFalse).isEmpty then .falseExpression
  else .orExpression (xs.filter fun x => !x.isFalse)

mutual

/-- The expression with each equality as the component has it, and with the constants taken
into the conjunctions and disjunctions they stand in. One under a negation stays. -/
def folded (c : Component) : LogicExpression → LogicExpression
  | .equality e =>
    match c.equality e with
    | .ok (some es) => conjoin (es.map .equality)
    | _ => .equality e
  | .trueExpression => .trueExpression
  | .falseExpression => .falseExpression
  | .andExpression xs => conjoin (foldedAll c xs)
  | .orExpression xs => disjoin (foldedAll c xs)
  | .notExpression x => .notExpression (folded c x)

def foldedAll (c : Component) : List LogicExpression → List LogicExpression
  | [] => []
  | x :: xs => folded c x :: foldedAll c xs

end

theorem foldedAll_eq (xs : List LogicExpression) : foldedAll c xs = xs.map (folded c) := by
  induction xs with
  | nil => rfl
  | cons x xs ih => rw [foldedAll, ih, List.map_cons]

theorem conjoin_eq {xs : List LogicExpression} (hxs : ∀ x ∈ xs, x.isConstant = false) :
    conjoin xs = if xs.isEmpty then .trueExpression else .andExpression xs := by
  have hnone : xs.any isFalse = false := by
    rw [List.any_eq_false]
    intro x hx
    have := hxs x hx
    cases x <;> simp_all [isConstant, isFalse]
  have hall : xs.filter (fun x => !x.isTrue) = xs := by
    rw [List.filter_eq_self]
    intro x hx
    have := hxs x hx
    cases x <;> simp_all [isConstant, isTrue]
  simp [conjoin, hnone, hall]

theorem disjoin_eq {xs : List LogicExpression} (hxs : ∀ x ∈ xs, x.isConstant = false) :
    disjoin xs = if xs.isEmpty then .falseExpression else .orExpression xs := by
  have hnone : xs.any isTrue = false := by
    rw [List.any_eq_false]
    intro x hx
    have := hxs x hx
    cases x <;> simp_all [isConstant, isTrue]
  have hall : xs.filter (fun x => !x.isFalse) = xs := by
    rw [List.filter_eq_self]
    intro x hx
    have := hxs x hx
    cases x <;> simp_all [isConstant, isFalse]
  simp [disjoin, hnone, hall]

/-- The loop of a conjunction returns the first `False`, and drops what is `True`. -/
theorem expandAnd_ok {members xs : List LogicExpression} {y : LogicExpression}
    (hmembers : ∀ x ∈ members, x.isConstant = false)
    (hxs : ∀ x ∈ xs, ∀ y, x.expandAndInstantiate c = .ok y → y = x.folded c)
    (h : expandAnd c members xs = .ok y) : y = conjoin (members ++ foldedAll c xs) := by
  induction xs generalizing members with
  | nil =>
    rw [expandAnd] at h
    rw [foldedAll, List.append_nil, conjoin_eq hmembers, Except.ok.inj h]
  | cons x xs ih =>
    rw [List.forall_mem_cons] at hxs
    rw [expandAnd] at h
    obtain ⟨z, hz, h⟩ := Loop.bind_eq_ok h
    obtain rfl := hxs.1 z hz
    rw [foldedAll]
    cases hx : x.folded c with
    | falseExpression =>
      rw [hx] at h
      obtain rfl := Except.ok.inj h
      simp [conjoin, isFalse]
    | trueExpression =>
      rw [hx] at h
      rw [ih hmembers hxs.2 h]
      simp [conjoin, isFalse, isTrue]
    | _ =>
      rw [hx] at h
      have hmembers' : ∀ z ∈ members ++ [x.folded c], z.isConstant = false :=
        List.forall_mem_append.mpr ⟨hmembers, by simp [hx, isConstant]⟩
      rw [hx] at hmembers'
      simpa using ih hmembers' hxs.2 h

theorem expandOr_ok {members xs : List LogicExpression} {y : LogicExpression}
    (hmembers : ∀ x ∈ members, x.isConstant = false)
    (hxs : ∀ x ∈ xs, ∀ y, x.expandAndInstantiate c = .ok y → y = x.folded c)
    (h : expandOr c members xs = .ok y) : y = disjoin (members ++ foldedAll c xs) := by
  induction xs generalizing members with
  | nil =>
    rw [expandOr] at h
    rw [foldedAll, List.append_nil, disjoin_eq hmembers, Except.ok.inj h]
  | cons x xs ih =>
    rw [List.forall_mem_cons] at hxs
    rw [expandOr] at h
    obtain ⟨z, hz, h⟩ := Loop.bind_eq_ok h
    obtain rfl := hxs.1 z hz
    rw [foldedAll]
    cases hx : x.folded c with
    | trueExpression =>
      rw [hx] at h
      obtain rfl := Except.ok.inj h
      simp [disjoin, isTrue]
    | falseExpression =>
      rw [hx] at h
      rw [ih hmembers hxs.2 h]
      simp [disjoin, isFalse, isTrue]
    | _ =>
      rw [hx] at h
      have hmembers' : ∀ z ∈ members ++ [x.folded c], z.isConstant = false :=
        List.forall_mem_append.mpr ⟨hmembers, by simp [hx, isConstant]⟩
      rw [hx] at hmembers'
      simpa using ih hmembers' hxs.2 h

theorem expandAndInstantiate_ok {x y : LogicExpression} (h : x.expandAndInstantiate c = .ok y) :
    y = x.folded c := by
  induction x generalizing y with
  | equality e =>
    rw [expandAndInstantiate] at h
    rw [folded]
    cases hr : c.equality e with
    | error message =>
      rw [hr] at h
      cases h
    | ok r =>
      rw [hr] at h
      cases r with
      | none => exact (Except.ok.inj h).symm
      | some es =>
        have hes : ∀ x ∈ es.map equality, x.isConstant = false := by
          rw [List.forall_mem_map]
          exact fun _ _ => rfl
        dsimp only
        rw [conjoin_eq hes]
        cases es <;> exact (Except.ok.inj h).symm
  | trueExpression => exact (Except.ok.inj h).symm
  | falseExpression => exact (Except.ok.inj h).symm
  | andExpression xs ih =>
    rw [expandAndInstantiate] at h
    exact expandAnd_ok (fun x hmem => absurd hmem List.not_mem_nil)
      (fun x hmem y => ih x hmem) h
  | orExpression xs ih =>
    rw [expandAndInstantiate] at h
    exact expandOr_ok (fun x hmem => absurd hmem List.not_mem_nil)
      (fun x hmem y => ih x hmem) h
  | notExpression x ih =>
    rw [expandAndInstantiate] at h
    obtain ⟨z, hz, h⟩ := Loop.bind_eq_ok h
    rw [folded, ← ih hz]
    exact (Except.ok.inj h).symm

theorem expandAnd_returns {members xs : List LogicExpression}
    (hxs : ∀ x ∈ xs, ∃ y, x.expandAndInstantiate c = .ok y) :
    ∃ y, expandAnd c members xs = .ok y := by
  induction xs generalizing members with
  | nil => exact ⟨_, rfl⟩
  | cons x xs ih =>
    rw [List.forall_mem_cons] at hxs
    obtain ⟨y, hy⟩ := hxs.1
    rw [expandAnd, hy]
    cases y with
    | falseExpression => exact ⟨_, rfl⟩
    | _ => exact ih hxs.2

theorem expandOr_returns {members xs : List LogicExpression}
    (hxs : ∀ x ∈ xs, ∃ y, x.expandAndInstantiate c = .ok y) :
    ∃ y, expandOr c members xs = .ok y := by
  induction xs generalizing members with
  | nil => exact ⟨_, rfl⟩
  | cons x xs ih =>
    rw [List.forall_mem_cons] at hxs
    obtain ⟨y, hy⟩ := hxs.1
    rw [expandOr, hy]
    cases y with
    | trueExpression => exact ⟨_, rfl⟩
    | _ => exact ih hxs.2

theorem expandAndInstantiate_eq (x : LogicExpression)
    (hx : ∀ e ∈ x.equalities, ∃ r, c.equality e = .ok r) :
    x.expandAndInstantiate c = .ok (x.folded c) := by
  have hreturns : ∃ y, x.expandAndInstantiate c = .ok y := by
    induction x with
    | equality e =>
      obtain ⟨r, hr⟩ := hx e (by simp [equalities])
      rw [expandAndInstantiate, hr]
      split <;> first | exact ⟨_, rfl⟩ | contradiction
    | trueExpression => exact ⟨_, rfl⟩
    | falseExpression => exact ⟨_, rfl⟩
    | andExpression xs ih =>
      rw [equalities, equalitiesAll_eq] at hx
      exact expandAnd_returns fun x hmem =>
        ih x hmem fun e he => hx e (List.mem_flatMap.mpr ⟨x, hmem, he⟩)
    | orExpression xs ih =>
      rw [equalities, equalitiesAll_eq] at hx
      exact expandOr_returns fun x hmem =>
        ih x hmem fun e he => hx e (List.mem_flatMap.mpr ⟨x, hmem, he⟩)
    | notExpression x ih =>
      obtain ⟨y, hy⟩ := ih hx
      exact ⟨.notExpression y, by rw [expandAndInstantiate, hy]; rfl⟩
  obtain ⟨y, hy⟩ := hreturns
  rw [hy, expandAndInstantiate_ok hy]

end LogicExpression

/-- The truth of an equality of the component; one of two components is that of all their
attributes. -/
def Component.value (c : Component) (v : Equality → Bool) (e : Equality) : Bool :=
  match c.equality e with
  | .ok (some es) => es.all v
  | _ => v e

namespace LogicExpression

variable {v : Equality → Bool}

@[simp]
theorem eval_conjoin (xs : List LogicExpression) : (conjoin xs).eval v = xs.all (eval v) := by
  unfold conjoin
  split_ifs with hfalse hall
  · obtain ⟨x, hx, hxf⟩ := List.any_eq_true.mp hfalse
    symm
    rw [eval, List.all_eq_false]
    refine ⟨x, hx, ?_⟩
    cases x <;> simp_all [isFalse, eval]
  · symm
    rw [eval, List.all_eq_true]
    intro x hx
    have hnot := List.filter_eq_nil_iff.mp (List.isEmpty_iff.mp hall) x hx
    cases x <;> simp_all [isTrue, eval]
  · rw [eval, evalAll_eq, List.all_filter]
    apply all_congr_mem
    intro x _
    cases x <;> simp [isTrue, eval]

@[simp]
theorem eval_disjoin (xs : List LogicExpression) : (disjoin xs).eval v = xs.any (eval v) := by
  unfold disjoin
  split_ifs with htrue hall
  · obtain ⟨x, hx, hxt⟩ := List.any_eq_true.mp htrue
    symm
    rw [eval, List.any_eq_true]
    refine ⟨x, hx, ?_⟩
    cases x <;> simp_all [isTrue, eval]
  · symm
    rw [eval, List.any_eq_false]
    intro x hx
    have hnot := List.filter_eq_nil_iff.mp (List.isEmpty_iff.mp hall) x hx
    cases x <;> simp_all [isFalse, eval]
  · rw [eval, evalAny_eq, List.any_filter]
    apply any_congr_mem
    intro x _
    cases x <;> simp [isFalse, eval]

theorem eval_folded (x : LogicExpression) : (x.folded c).eval v = x.eval (c.value v) := by
  induction x with
  | equality e =>
    rw [folded, eval, Component.value]
    split
    · rw [eval_conjoin, List.all_map]
      rfl
    · rfl
  | trueExpression => rfl
  | falseExpression => rfl
  | andExpression xs ih =>
    rw [folded, eval_conjoin, foldedAll_eq, List.all_map, eval, evalAll_eq]
    exact all_congr_mem ih
  | orExpression xs ih =>
    rw [folded, eval_disjoin, foldedAll_eq, List.any_map, eval, evalAny_eq]
    exact any_congr_mem ih
  | notExpression x ih => rw [folded, eval, eval, ih]

theorem expanded_conjoin {xs : List LogicExpression} (hxs : ∀ x ∈ xs, Expanded x) :
    Expanded (conjoin xs) := by
  unfold conjoin
  split_ifs with hfalse hall
  · trivial
  · trivial
  · refine ⟨fun hnil => hall (List.isEmpty_iff.mpr hnil), expandedAll_iff.mpr fun x hx => ?_⟩
    rw [List.mem_filter] at hx
    refine ⟨?_, hxs x hx.1⟩
    have hnone := List.any_eq_false.mp (Bool.not_eq_true _ ▸ hfalse) x hx.1
    cases x <;> simp_all [isConstant, isFalse, isTrue]

theorem expanded_disjoin {xs : List LogicExpression} (hxs : ∀ x ∈ xs, Expanded x) :
    Expanded (disjoin xs) := by
  unfold disjoin
  split_ifs with htrue hall
  · trivial
  · trivial
  · refine ⟨fun hnil => hall (List.isEmpty_iff.mpr hnil), expandedAll_iff.mpr fun x hx => ?_⟩
    rw [List.mem_filter] at hx
    refine ⟨?_, hxs x hx.1⟩
    have hnone := List.any_eq_false.mp (Bool.not_eq_true _ ▸ htrue) x hx.1
    cases x <;> simp_all [isConstant, isFalse, isTrue]

theorem expanded_folded (x : LogicExpression) : Expanded (x.folded c) := by
  induction x with
  | equality e =>
    rw [folded]
    split
    · apply expanded_conjoin
      rw [List.forall_mem_map]
      exact fun _ _ => trivial
    · trivial
  | trueExpression => trivial
  | falseExpression => trivial
  | andExpression xs ih =>
    rw [folded, foldedAll_eq]
    apply expanded_conjoin
    rw [List.forall_mem_map]
    exact ih
  | orExpression xs ih =>
    rw [folded, foldedAll_eq]
    apply expanded_disjoin
    rw [List.forall_mem_map]
    exact ih
  | notExpression x ih => exact ih

theorem Expanded.negation {x : LogicExpression} (hx : Expanded x) : Expanded x.negation := by
  cases x with
  | trueExpression => trivial
  | falseExpression => trivial
  | _ => exact hx

theorem pushNegationsIn_negation {x : LogicExpression} (hx : x.isConstant = false) :
    x.negation.pushNegationsIn = x.pushNot := by
  cases x with
  | trueExpression => cases hx
  | falseExpression => cases hx
  | _ => rfl

theorem nnf_push {x : LogicExpression} (hx : Expanded x) :
    Nnf x.pushNegationsIn ∧ Nnf x.pushNot := by
  induction x with
  | equality e => exact ⟨trivial, trivial⟩
  | trueExpression => exact ⟨trivial, trivial⟩
  | falseExpression => exact ⟨trivial, trivial⟩
  | andExpression xs ih =>
    obtain ⟨hne, hxs⟩ := hx
    rw [expandedAll_iff] at hxs
    rw [pushNegationsIn, pushAll_eq, pushNot, pushNegated_eq, Nnf, nnfAll_iff, Nnf, nnfAll_iff,
      List.forall_mem_map, List.forall_mem_map]
    refine ⟨⟨by simpa using hne, fun x hmem => (ih x hmem (hxs x hmem).2).1⟩, fun x hmem => ?_⟩
    rw [pushNegationsIn_negation (hxs x hmem).1]
    exact (ih x hmem (hxs x hmem).2).2
  | orExpression xs ih =>
    obtain ⟨hne, hxs⟩ := hx
    rw [expandedAll_iff] at hxs
    rw [pushNegationsIn, pushAll_eq, pushNot, pushNegated_eq, Nnf, nnfAll_iff, Nnf, nnfAll_iff,
      List.forall_mem_map, List.forall_mem_map]
    refine ⟨fun x hmem => (ih x hmem (hxs x hmem).2).1, by simpa using hne, fun x hmem => ?_⟩
    rw [pushNegationsIn_negation (hxs x hmem).1]
    exact (ih x hmem (hxs x hmem).2).2
  | notExpression x ih => exact (ih hx).symm

/-- An expression with its negations pushed in reads as before, and the pushed negation as the
negation. -/
theorem reading_push {b : Bool → Bool} {x : LogicExpression} (hx : Expanded x) :
    reading b v true x.pushNegationsIn = reading b v true x ∧
      reading b v true x.pushNot = reading b v false x := by
  induction x with
  | equality e => simp [pushNegationsIn, pushNot, reading]
  | trueExpression => exact ⟨rfl, rfl⟩
  | falseExpression => exact ⟨rfl, rfl⟩
  | andExpression xs ih =>
    have hxs := expandedAll_iff.mp hx.2
    simp only [pushNegationsIn, pushAll_eq, pushNot, pushNegated_eq, reading, readingAll_eq,
      readingAny_eq, List.all_map, List.any_map]
    refine ⟨all_congr_mem fun x hmem => (ih x hmem (hxs x hmem).2).1,
      any_congr_mem fun x hmem => ?_⟩
    rw [Function.comp_apply, pushNegationsIn_negation (hxs x hmem).1]
    exact (ih x hmem (hxs x hmem).2).2
  | orExpression xs ih =>
    have hxs := expandedAll_iff.mp hx.2
    simp only [pushNegationsIn, pushAll_eq, pushNot, pushNegated_eq, reading, readingAll_eq,
      readingAny_eq, List.all_map, List.any_map]
    refine ⟨any_congr_mem fun x hmem => (ih x hmem (hxs x hmem).2).1,
      all_congr_mem fun x hmem => ?_⟩
    rw [Function.comp_apply, pushNegationsIn_negation (hxs x hmem).1]
    exact (ih x hmem (hxs x hmem).2).2
  | notExpression x ih => exact (ih hx).symm

theorem collapses_push {x : LogicExpression} (hx : Expanded x) :
    collapses true x.pushNegationsIn = collapses true x ∧
      collapses true x.pushNot = collapses false x := by
  induction x with
  | equality e => exact ⟨rfl, rfl⟩
  | trueExpression => exact ⟨rfl, rfl⟩
  | falseExpression => exact ⟨rfl, rfl⟩
  | andExpression xs ih =>
    have hxs := expandedAll_iff.mp hx.2
    simp only [pushNegationsIn, pushAll_eq, pushNot, collapses, collapsesAny_eq, List.any_map]
    exact ⟨any_congr_mem fun x hmem => (ih x hmem (hxs x hmem).2).1, trivial⟩
  | orExpression xs ih =>
    have hxs := expandedAll_iff.mp hx.2
    simp only [pushNegationsIn, pushNot, pushNegated_eq, collapses, collapsesAny_eq, List.any_map]
    refine ⟨trivial, any_congr_mem fun x hmem => ?_⟩
    rw [Function.comp_apply, pushNegationsIn_negation (hxs x hmem).1]
    exact (ih x hmem (hxs x hmem).2).2
  | notExpression x ih => exact (ih hx).symm

theorem conjuncts_push {x : LogicExpression} (hx : Expanded x) :
    conjuncts v true x.pushNegationsIn = conjuncts v true x ∧
      conjuncts v true x.pushNot = conjuncts v false x := by
  induction x with
  | equality e => simp [pushNegationsIn, pushNot, conjuncts]
  | trueExpression => exact ⟨rfl, rfl⟩
  | falseExpression => exact ⟨rfl, rfl⟩
  | andExpression xs ih =>
    have hxs := expandedAll_iff.mp hx.2
    refine ⟨?_, (reading_push hx).2⟩
    simp only [pushNegationsIn, pushAll_eq, conjuncts, conjunctsAll_eq, List.all_map]
    exact all_congr_mem fun x hmem => (ih x hmem (hxs x hmem).2).1
  | orExpression xs ih =>
    have hxs := expandedAll_iff.mp hx.2
    refine ⟨(reading_push hx).1, ?_⟩
    simp only [pushNot, pushNegated_eq, conjuncts, conjunctsAll_eq, List.all_map]
    apply all_congr_mem
    intro x hmem
    rw [Function.comp_apply, pushNegationsIn_negation (hxs x hmem).1]
    exact (ih x hmem (hxs x hmem).2).2
  | notExpression x ih => exact (ih hx).symm

theorem emitted_push {x : LogicExpression} (hx : Expanded x) :
    emitted v true x.pushNegationsIn = emitted v true x := by
  rw [emitted, emitted, (collapses_push hx).1, (conjuncts_push hx).1]

/-- Some depth of recursion is enough for the chain to return a conjunctive normal form of the
expression, and for the clauses of a component, of a default transition and of a transition to
say the expression, the expression and its negation. -/
def InstantiatesRight (c : Component) (x : LogicExpression) : Prop :=
  ∃ n, ∀ fuel ≥ n, ∃ y z component default transition,
    (x.expandAndInstantiate c = .ok y ∧ y.pushNegationsIn.pushDisjunctionsIn fuel = .ok z ∧
      Cnf z ∧ ∀ v, z.eval v = x.eval (c.value v)) ∧
    (instantiateComponent c fuel x = .ok component ∧
      ∀ v, clausesHold v component = x.eval (c.value v)) ∧
    (instantiateDefault fuel y = .ok default ∧
      ∀ v, clausesHold v default = x.eval (c.value v)) ∧
    instantiateTransition c fuel x = .ok (y, transition) ∧
      ∀ v, clausesHold v transition = !x.eval (c.value v)

mutual

def ConstantFree : LogicExpression → Prop
  | .equality _ => True
  | .trueExpression => False
  | .falseExpression => False
  | .andExpression xs => ConstantFreeAll xs
  | .orExpression xs => ConstantFreeAll xs
  | .notExpression x => ConstantFree x

def ConstantFreeAll : List LogicExpression → Prop
  | [] => True
  | x :: xs => ConstantFree x ∧ ConstantFreeAll xs

end

theorem constantFreeAll_iff {xs : List LogicExpression} :
    ConstantFreeAll xs ↔ ∀ x ∈ xs, ConstantFree x := by
  induction xs with
  | nil => simp [ConstantFreeAll]
  | cons x xs ih => rw [ConstantFreeAll, ih, List.forall_mem_cons]

/-- It makes no difference that the constants lose their negations and are dropped. -/
def ConstantsHarmless (x : LogicExpression) : Prop :=
  ∀ v, reading id v true x = x.eval v ∧ emitted v true x = x.eval v ∧
    emitted v true x.negation = x.negation.eval v

theorem ConstantFree.reading {b : Bool → Bool} {s : Bool} {x : LogicExpression}
    (hx : ConstantFree x) : x.reading b v s = (x.eval v == s) := by
  induction x generalizing s with
  | equality e => cases s <;> simp [LogicExpression.reading, eval]
  | trueExpression => exact hx.elim
  | falseExpression => exact hx.elim
  | andExpression xs ih =>
    have hxs := constantFreeAll_iff.mp hx
    cases s with
    | true =>
      simp only [LogicExpression.reading, readingAll_eq, eval, evalAll_eq, beq_true]
      exact all_congr_mem fun x hmem => by rw [ih x hmem (hxs x hmem), beq_true]
    | false =>
      simp only [LogicExpression.reading, readingAny_eq, eval, evalAll_eq, beq_false,
        List.not_all_eq_any_not]
      exact any_congr_mem fun x hmem => by rw [ih x hmem (hxs x hmem), beq_false]
  | orExpression xs ih =>
    have hxs := constantFreeAll_iff.mp hx
    cases s with
    | true =>
      simp only [LogicExpression.reading, readingAny_eq, eval, evalAny_eq, beq_true]
      exact any_congr_mem fun x hmem => by rw [ih x hmem (hxs x hmem), beq_true]
    | false =>
      simp only [LogicExpression.reading, readingAll_eq, eval, evalAny_eq, beq_false,
        List.not_any_eq_all_not]
      exact all_congr_mem fun x hmem => by rw [ih x hmem (hxs x hmem), beq_false]
  | notExpression x ih =>
    have hnot : x.reading b v (!s) = (x.eval v == !s) := ih hx
    rw [LogicExpression.reading, eval, hnot]
    cases x.eval v <;> cases s <;> rfl

theorem ConstantFree.collapses {s : Bool} {x : LogicExpression} (hx : ConstantFree x) :
    x.collapses s = false := by
  induction x generalizing s with
  | equality e => cases s <;> rfl
  | trueExpression => exact hx.elim
  | falseExpression => exact hx.elim
  | andExpression xs ih =>
    have hxs := constantFreeAll_iff.mp hx
    cases s with
    | true =>
      rw [LogicExpression.collapses, collapsesAny_eq, List.any_eq_false]
      exact fun x hmem => by simp [ih x hmem (hxs x hmem)]
    | false => rfl
  | orExpression xs ih =>
    have hxs := constantFreeAll_iff.mp hx
    cases s with
    | true => rfl
    | false =>
      rw [LogicExpression.collapses, collapsesAny_eq, List.any_eq_false]
      exact fun x hmem => by simp [ih x hmem (hxs x hmem)]
  | notExpression x ih => exact ih hx

theorem ConstantFree.conjuncts {b : Bool → Bool} {s : Bool} {x : LogicExpression}
    (hx : ConstantFree x) : x.conjuncts v s = x.reading b v s := by
  induction x generalizing s with
  | equality e => rfl
  | trueExpression => exact hx.elim
  | falseExpression => exact hx.elim
  | andExpression xs ih =>
    have hxs := constantFreeAll_iff.mp hx
    cases s with
    | true =>
      simp only [LogicExpression.conjuncts, conjunctsAll_eq, LogicExpression.reading, readingAll_eq]
      exact all_congr_mem fun x hmem => ih x hmem (hxs x hmem)
    | false =>
      simp only [LogicExpression.conjuncts, LogicExpression.reading, readingAny_eq]
      exact any_congr_mem fun x hmem => by rw [(hxs x hmem).reading, (hxs x hmem).reading]
  | orExpression xs ih =>
    have hxs := constantFreeAll_iff.mp hx
    cases s with
    | true =>
      simp only [LogicExpression.conjuncts, LogicExpression.reading, readingAny_eq]
      exact any_congr_mem fun x hmem => by rw [(hxs x hmem).reading, (hxs x hmem).reading]
    | false =>
      simp only [LogicExpression.conjuncts, conjunctsAll_eq, LogicExpression.reading, readingAll_eq]
      exact all_congr_mem fun x hmem => ih x hmem (hxs x hmem)
  | notExpression x ih => exact ih hx

theorem ConstantFree.negation {x : LogicExpression} (hx : ConstantFree x) :
    ConstantFree x.negation := by
  cases x with
  | trueExpression => exact hx.elim
  | falseExpression => exact hx.elim
  | _ => exact hx

theorem ConstantFree.emitted {x : LogicExpression} (hx : ConstantFree x) :
    x.emitted v true = x.eval v := by
  rw [LogicExpression.emitted, hx.collapses, hx.conjuncts, hx.reading, Bool.false_or, beq_true]
  exact id

theorem ConstantFree.harmless {x : LogicExpression} (hx : ConstantFree x) : ConstantsHarmless x :=
  fun v => ⟨by rw [hx.reading, beq_true], hx.emitted, hx.negation.emitted⟩

theorem push_compiled {x : LogicExpression} (hx : Expanded x) :
    ∃ n, ∀ fuel ≥ n, ∃ z clauses, x.pushNegationsIn.pushDisjunctionsIn fuel = .ok z ∧ Cnf z ∧
      (∀ v, z.eval v = reading id v true x) ∧ buildInstance [] z = .ok clauses ∧
      ∀ v, clausesHold v clauses = emitted v true x := by
  refine ⟨x.pushNegationsIn.need, fun fuel hfuel => ?_⟩
  obtain ⟨z, hz, hcompiled⟩ := pushDisjunctionsIn_compiled (nnf_push hx).1 hfuel
  obtain ⟨clauses, hrun, hclauses⟩ := hcompiled.builds []
  exact ⟨z, clauses, hz, hcompiled.cnf, fun v => (hcompiled.reads v).trans (reading_push hx).1,
    hrun, fun v => (hclauses v).trans (emitted_push hx)⟩

/-- When the component has every equality of the expression, the chain does right if and only if
expansion leaves no constant or the constants left make no difference. -/
theorem instantiatesRight_iff (c : Component) (x : LogicExpression)
    (hx : ∀ e ∈ x.equalities, ∃ r, c.equality e = .ok r) :
    InstantiatesRight c x ↔ ConstantFree (x.folded c) ∨ ConstantsHarmless (x.folded c) := by
  have hexpand := expandAndInstantiate_eq x hx
  have hexpanded := expanded_folded (c := c) x
  obtain ⟨n, hpush⟩ := push_compiled hexpanded
  obtain ⟨m, hpushNot⟩ := push_compiled hexpanded.negation
  constructor
  · intro ⟨k, hright⟩
    right
    intro v
    let fuel := max k (max n m)
    obtain ⟨z, clauses, hz, -, hreads, hrun, hclauses⟩ := hpush fuel (by omega)
    obtain ⟨z', clauses', hz', -, -, hrun', hclauses'⟩ := hpushNot fuel (by omega)
    obtain ⟨y, z₁, component, default, transition, ⟨hy, hz₁, -, heval⟩, -, ⟨hdefault, hsays⟩,
      htransition, hsaysNot⟩ := hright fuel (by omega)
    obtain rfl := Except.ok.inj (hexpand.symm.trans hy)
    obtain rfl := Except.ok.inj (hz.symm.trans hz₁)
    have hdefault' : instantiateDefault fuel (x.folded c) = .ok clauses := by
      rw [instantiateDefault, hz]
      exact hrun
    have htransition' : instantiateTransition c fuel x = .ok (x.folded c, clauses') := by
      simp [instantiateTransition, hexpand, hz', hrun', bind, Except.bind, pure, Except.pure]
    obtain rfl := Except.ok.inj (hdefault'.symm.trans hdefault)
    obtain rfl := (Prod.mk.inj (Except.ok.inj (htransition'.symm.trans htransition))).2
    rw [eval_negation, eval_folded, ← hreads, ← hclauses, ← hclauses']
    exact ⟨heval v, hsays v, hsaysNot v⟩
  · intro h
    have hharmless : ConstantsHarmless (x.folded c) := h.elim ConstantFree.harmless id
    refine ⟨max n m, fun fuel hfuel => ?_⟩
    obtain ⟨z, clauses, hz, hcnf, hreads, hrun, hclauses⟩ := hpush fuel (by omega)
    obtain ⟨z', clauses', hz', -, -, hrun', hclauses'⟩ := hpushNot fuel (by omega)
    have hsays : ∀ v, clausesHold v clauses = x.eval (c.value v) := fun v => by
      rw [hclauses v, (hharmless v).2.1, eval_folded]
    refine ⟨x.folded c, z, clauses, clauses, clauses', ⟨hexpand, hz, hcnf, fun v => ?_⟩,
      ⟨?_, hsays⟩, ⟨?_, hsays⟩, ?_, fun v => ?_⟩
    · rw [hreads v, (hharmless v).1, eval_folded]
    · simp [instantiateComponent, hexpand, hz, hrun, bind, Except.bind]
    · rw [instantiateDefault, hz]
      exact hrun
    · simp [instantiateTransition, hexpand, hz', hrun', bind, Except.bind, pure, Except.pure]
    · rw [hclauses' v, (hharmless v).2.2, eval_negation, eval_folded]

/-- A conjunction of an equality and of `not true` is compiled as the equality. -/
theorem not_instantiatesRight :
    ¬ InstantiatesRight ⟨fun _ => .ok none⟩
      (.andExpression [.equality ⟨"mode", "open"⟩, .notExpression .trueExpression]) := by
  intro ⟨n, hright⟩
  obtain ⟨y, z, -, -, -, ⟨hy, hz, -, heval⟩, -⟩ := hright (n + 2) (by omega)
  obtain rfl := Except.ok.inj hy
  obtain rfl := Except.ok.inj hz
  have hopen := heval fun _ => true
  simp [eval, evalAll, evalAny] at hopen

def twoValves : Component where
  equality e :=
    if e.argument1 = "valve1" then
      .ok (some [⟨"valve1.in", "valve2.in"⟩, ⟨"valve1.out", "valve2.out"⟩])
    else .ok none

/-- The valves differ or the mode is open; the `False` is folded away. -/
theorem instantiatesRight_twoValves :
    InstantiatesRight twoValves (.orExpression [.notExpression (.equality ⟨"valve1", "valve2"⟩),
      .falseExpression, .equality ⟨"mode", "open"⟩]) := by
  refine (instantiatesRight_iff twoValves _ fun e _ => ?_).mpr (Or.inl ?_)
  · dsimp only [twoValves]
    split_ifs <;> exact ⟨_, rfl⟩
  · exact ⟨⟨trivial, trivial, trivial⟩, trivial, trivial⟩

end LogicExpression
end Jmpl
end Livingstone
