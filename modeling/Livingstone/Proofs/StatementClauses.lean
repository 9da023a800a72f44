import Livingstone.Proofs.ClauseGeneration
import Livingstone.Proofs.StatementMeaning

/-! From statements to clauses. When nothing in a statement is empty no constant is left for the
normal form, and the clauses that are made of the statement hold exactly where it does. -/

namespace Livingstone
namespace Jmpl

namespace LogicExpression

variable {c : Component} {v w : Equality → Bool} {x : LogicExpression}
  {xs : List LogicExpression}

-- expressions without constants and without an empty conjunction or disjunction
mutual

def Solid : LogicExpression → Prop
  | .equality _ => True
  | .trueExpression => False
  | .falseExpression => False
  | .andExpression xs => xs ≠ [] ∧ SolidAll xs
  | .orExpression xs => xs ≠ [] ∧ SolidAll xs
  | .notExpression x => Solid x

def SolidAll : List LogicExpression → Prop
  | [] => True
  | x :: xs => Solid x ∧ SolidAll xs

end

theorem solidAll_iff : SolidAll xs ↔ ∀ x ∈ xs, Solid x := by
  induction xs with
  | nil => simp [SolidAll]
  | cons x xs ih => rw [SolidAll, ih, List.forall_mem_cons]

theorem Solid.negation (hx : Solid x) : Solid x.negation := by
  cases x with
  | trueExpression => exact hx.elim
  | falseExpression => exact hx.elim
  | _ => exact hx

theorem solid_pair {y : LogicExpression} (hx : Solid x) (hy : Solid y) : SolidAll [x, y] :=
  ⟨hx, hy, trivial⟩

theorem Solid.folded (hc : ∀ e es, c.equality e = .ok (some es) → es ≠ []) (hx : Solid x) :
    (x.folded c).isConstant = false ∧ ConstantFree (x.folded c) := by
  -- the members of a conjunction or a disjunction, once each of them is known to be no constant
  have hall {xs : List LogicExpression} (h : ∀ x ∈ xs, (x.folded c).isConstant = false ∧
      ConstantFree (x.folded c)) : (∀ y ∈ foldedAll c xs, y.isConstant = false) ∧
        ConstantFreeAll (foldedAll c xs) := by
    rw [constantFreeAll_iff, foldedAll_eq, List.forall_mem_map, List.forall_mem_map]
    exact ⟨fun x hx => (h x hx).1, fun x hx => (h x hx).2⟩
  have hne {xs : List LogicExpression} (h : xs ≠ []) : (foldedAll c xs).isEmpty = false := by
    rw [foldedAll_eq, List.isEmpty_map, List.isEmpty_eq_false_iff]
    exact h
  induction x with
  | equality e =>
    rw [LogicExpression.folded]
    split
    · next es he =>
      have hes : ∀ y ∈ es.map LogicExpression.equality, y.isConstant = false := by
        rw [List.forall_mem_map]
        exact fun _ _ => rfl
      have hempty : (es.map LogicExpression.equality).isEmpty = false := by
        rw [List.isEmpty_map, List.isEmpty_eq_false_iff]
        exact hc e es he
      rw [conjoin_eq hes, hempty]
      refine ⟨rfl, constantFreeAll_iff.mpr ?_⟩
      rw [List.forall_mem_map]
      exact fun _ _ => trivial
    · exact ⟨rfl, trivial⟩
  | trueExpression => exact hx.elim
  | falseExpression => exact hx.elim
  | andExpression xs ih =>
    obtain ⟨hxs, hsolid⟩ := hx
    obtain ⟨hconst, hfree⟩ := hall fun x hmem => ih x hmem (solidAll_iff.mp hsolid x hmem)
    rw [LogicExpression.folded, conjoin_eq hconst, hne hxs]
    exact ⟨rfl, hfree⟩
  | orExpression xs ih =>
    obtain ⟨hxs, hsolid⟩ := hx
    obtain ⟨hconst, hfree⟩ := hall fun x hmem => ih x hmem (solidAll_iff.mp hsolid x hmem)
    rw [LogicExpression.folded, disjoin_eq hconst, hne hxs]
    exact ⟨rfl, hfree⟩
  | notExpression x ih => exact ⟨rfl, (ih hx).2⟩

/-- The clauses of an expression without constants, and those of its negation. -/
theorem Solid.instantiates (hx : Solid x)
    (haccepts : ∀ e ∈ x.equalities, ∃ r, c.equality e = .ok r)
    (hc : ∀ e es, c.equality e = .ok (some es) → es ≠ []) :
    ∃ n, ∀ fuel ≥ n, ∃ component y transition,
      instantiateComponent c fuel x = .ok component ∧
        instantiateTransition c fuel x = .ok (y, transition) ∧
        ∀ v, clausesHold v component = x.eval (c.value v) ∧
          clausesHold v transition = !x.eval (c.value v) := by
  have hexpand := expandAndInstantiate_eq x haccepts
  have hexpanded := expanded_folded (c := c) x
  have hfree := (hx.folded hc).2
  obtain ⟨n, hpush⟩ := push_compiled hexpanded
  obtain ⟨m, hpushNot⟩ := push_compiled hexpanded.negation
  refine ⟨max n m, fun fuel hfuel => ?_⟩
  obtain ⟨z, component, hz, -, -, hrun, hholds⟩ := hpush fuel (le_trans (le_max_left n m) hfuel)
  obtain ⟨z', transition, hz', -, -, hrun', hholds'⟩ :=
    hpushNot fuel (le_trans (le_max_right n m) hfuel)
  refine ⟨component, x.folded c, transition, ?_, ?_, fun v => ⟨?_, ?_⟩⟩
  · simp [instantiateComponent, hexpand, hz, hrun, bind, Except.bind]
  · simp [instantiateTransition, hexpand, hz', hrun', bind, Except.bind, pure, Except.pure]
  · rw [hholds, hfree.emitted, eval_folded]
  · rw [hholds', hfree.negation.emitted, eval_negation, eval_folded]

end LogicExpression

open LogicExpression

namespace Expression

mutual

/-- There are always members, and an equality or an inequality has two arguments. -/
def Full : Expression → Prop
  | .andExpression es => es ≠ [] ∧ FullAll es
  | .orExpression es => es ≠ [] ∧ FullAll es
  | .negationExpression e => Full e
  | .equalityExpression arguments => 2 ≤ arguments.length
  | .inequalityExpression arguments => 2 ≤ arguments.length

def FullAll : List Expression → Prop
  | [] => True
  | e :: es => Full e ∧ FullAll es

end

theorem cacheArguments_of_le {arguments : List String} (h : 2 ≤ arguments.length) :
    cacheArguments arguments = .ok () := by
  match arguments, h with
  | _ :: _ :: _, _ => rfl

mutual

theorem cache_of_full : ∀ e : Expression, e.Full → e.cache = .ok ()
  | .andExpression es, h => cacheAll_of_full es h.2
  | .orExpression es, h => cacheAll_of_full es h.2
  | .negationExpression e, h => cache_of_full e h
  | .equalityExpression _, h => cacheArguments_of_le h
  | .inequalityExpression _, h => cacheArguments_of_le h

theorem cacheAll_of_full : ∀ es : List Expression, FullAll es → cacheAll es = .ok ()
  | [], _ => rfl
  | e :: es, h => by
    rw [cacheAll, cache_of_full e h.1]
    exact cacheAll_of_full es h.2

end

theorem logicAll_ne_nil {es : List Expression} (h : es ≠ []) : logicAll es ≠ [] := by
  cases es with
  | nil => exact absurd rfl h
  | cons e es => exact List.cons_ne_nil _ _

mutual

theorem solid_logic : ∀ e : Expression, e.Full → e.logic.Solid
  | .andExpression es, h => ⟨logicAll_ne_nil h.1, solid_logicAll es h.2⟩
  | .orExpression es, h => ⟨logicAll_ne_nil h.1, solid_logicAll es h.2⟩
  | .negationExpression e, h => solid_logic e h
  | .equalityExpression (left :: argument :: rest), _ => by
    refine ⟨List.cons_ne_nil _ _, solidAll_iff.mpr ?_⟩
    rw [List.forall_mem_map]
    exact fun _ _ => trivial
  | .inequalityExpression (left :: right :: rest), _ => by
    refine ⟨?_, solidAll_iff.mpr ?_⟩
    · simp [argumentPairs]
    · rw [List.forall_mem_map]
      exact fun _ _ => trivial

theorem solid_logicAll : ∀ es : List Expression, FullAll es → SolidAll (logicAll es)
  | [], _ => trivial
  | e :: es, h => ⟨solid_logic e h.1, solid_logicAll es h.2⟩

end

end Expression

namespace Statement

mutual

/-- No group and no case is empty, and a case has a name. -/
def Full : Statement → Prop
  | .expression e => e.Full
  | .statementGroup ss => ss ≠ [] ∧ FullAll ss
  | .ifStatement test thenS none => test.Full ∧ Full thenS
  | .ifStatement test thenS (some elseS) => test.Full ∧ Full thenS ∧ Full elseS
  | .iffStatement test thenS => test.Full ∧ Full thenS
  | .switchStatement _ cs => cs ≠ [] ∧ FullCases cs

def FullAll : List Statement → Prop
  | [] => True
  | s :: ss => Full s ∧ FullAll ss

def FullCases : List CaseGroup → Prop
  | [] => True
  | .mk names ss :: cs => (names ≠ [] ∧ ss ≠ [] ∧ FullAll ss) ∧ FullCases cs

end

mutual

theorem cache_of_full : ∀ s : Statement, s.Full → s.cache = .ok ()
  | .expression e, h => e.cache_of_full h
  | .statementGroup ss, h => cacheAll_of_full ss h.2
  | .ifStatement test thenS none, h => by
    rw [cache, test.cache_of_full h.1]
    exact cache_of_full thenS h.2
  | .ifStatement test thenS (some elseS), h => by
    rw [cache, test.cache_of_full h.1, cache_of_full thenS h.2.1]
    exact cache_of_full elseS h.2.2
  | .iffStatement test thenS, h => by
    rw [cache, test.cache_of_full h.1]
    exact cache_of_full thenS h.2
  | .switchStatement _ cs, h => cacheCases_of_full cs h.2

theorem cacheAll_of_full : ∀ ss : List Statement, FullAll ss → cacheAll ss = .ok ()
  | [], _ => rfl
  | s :: ss, h => by
    rw [cacheAll, cache_of_full s h.1]
    exact cacheAll_of_full ss h.2

theorem cacheCases_of_full : ∀ cs : List CaseGroup, FullCases cs → cacheCases cs = .ok ()
  | [], _ => rfl
  | .mk _ ss :: cs, h => by
    rw [cacheCases, cacheAll_of_full ss h.1.2.2]
    exact cacheCases_of_full cs h.2

end

theorem solid_caseLogic {key : String} {names : List String} {xs : List LogicExpression}
    (hnames : names ≠ []) (hne : xs ≠ []) (hxs : SolidAll xs) :
    (LogicExpression.andExpression (xs.flatMap (caseLogic key names))).Solid := by
  refine ⟨?_, solidAll_iff.mpr fun y hy => ?_⟩
  · obtain ⟨x, hx⟩ := List.exists_mem_of_ne_nil xs hne
    obtain ⟨name, hname⟩ := List.exists_mem_of_ne_nil names hnames
    exact List.ne_nil_of_mem (List.mem_flatMap.mpr ⟨x, hx, List.mem_map_of_mem hname⟩)
  · obtain ⟨x, hx, hy⟩ := List.mem_flatMap.mp hy
    obtain ⟨name, -, rfl⟩ := List.mem_map.mp hy
    exact ⟨List.cons_ne_nil _ _, solid_pair trivial (solidAll_iff.mp hxs x hx)⟩

theorem logicAll_ne_nil {ss : List Statement} (h : ss ≠ []) : logicAll ss ≠ [] := by
  cases ss with
  | nil => exact absurd rfl h
  | cons s ss => exact List.cons_ne_nil _ _

theorem logicCases_ne_nil {key : String} {cs : List CaseGroup} (h : cs ≠ []) :
    logicCases key cs ≠ [] := by
  cases cs with
  | nil => exact absurd rfl h
  | cons c cs =>
    cases c
    exact List.cons_ne_nil _ _

mutual

theorem solid_logic : ∀ s : Statement, s.Full → s.logic.Solid
  | .expression e, h => e.solid_logic h
  | .statementGroup ss, h => ⟨logicAll_ne_nil h.1, solid_logicAll ss h.2⟩
  | .ifStatement test thenS none, h =>
    ⟨List.cons_ne_nil _ _, solid_pair (test.solid_logic h.1).negation (solid_logic thenS h.2)⟩
  | .ifStatement test thenS (some elseS), h => by
    have htest := test.solid_logic h.1
    exact ⟨List.cons_ne_nil _ _, solid_pair
      ⟨List.cons_ne_nil _ _, solid_pair htest.negation (solid_logic thenS h.2.1)⟩
      ⟨List.cons_ne_nil _ _, solid_pair htest (solid_logic elseS h.2.2)⟩⟩
  | .iffStatement test thenS, h => by
    have htest := test.solid_logic h.1
    have hthen := solid_logic thenS h.2
    exact ⟨List.cons_ne_nil _ _, solid_pair ⟨List.cons_ne_nil _ _, solid_pair htest.negation hthen⟩
      ⟨List.cons_ne_nil _ _, solid_pair hthen.negation htest⟩⟩
  | .switchStatement _ cs, h => ⟨logicCases_ne_nil h.1, solid_logicCases cs h.2⟩

theorem solid_logicAll : ∀ ss : List Statement, FullAll ss → SolidAll (logicAll ss)
  | [], _ => trivial
  | s :: ss, h => ⟨solid_logic s h.1, solid_logicAll ss h.2⟩

theorem solid_logicCases {key : String} : ∀ cs : List CaseGroup,
    FullCases cs → SolidAll (logicCases key cs)
  | [], _ => trivial
  | .mk _ ss :: cs, h => ⟨solid_caseLogic h.1.1 (logicAll_ne_nil h.1.2.1)
      (solid_logicAll ss h.1.2.2), solid_logicCases cs h.2⟩

end

end Statement

/-- Two components are equal when their attributes are. -/
def Component.Respects {V : Type*} (c : Component) (ρ : String → V) : Prop :=
  ∀ e es, c.equality e = .ok (some es) →
    (ρ e.argument1 = ρ e.argument2 ↔ ∀ d ∈ es, ρ d.argument1 = ρ d.argument2)

theorem Component.Respects.value {V : Type*} [DecidableEq V] {c : Component} {ρ : String → V}
    (h : c.Respects ρ) : c.value (truth ρ) = truth ρ := by
  funext e
  unfold Component.value
  split
  · next es he =>
    rw [Bool.eq_iff_iff, List.all_eq_true]
    unfold truth
    simp only [decide_eq_true_eq]
    exact (h e es he).symm
  · rfl

section
variable {V : Type*} [DecidableEq V]

/-- From the text of a statement to clauses: `compile` returns and makes objects of which the clauses
of a component hold in exactly the assignments of values to names in which the statement does, and
those of a transition in exactly the others. -/
theorem statement_clauses (s : Statement) (hs : s.Full) (c : Component)
    (haccepts : ∀ e ∈ s.logic.equalities, ∃ r, c.equality e = .ok r)
    (hc : ∀ e es, c.equality e = .ok (some es) → es ≠ []) :
    ∃ depth, ∀ fuel > depth, ∀ h, ∃ r h' x component y transition,
      s.compile fuel h = .ok (r, h') ∧ h <+: h' ∧ Unfolds h' (Set.Ici h.length) x r ∧
        instantiateComponent c fuel x = .ok component ∧
        instantiateTransition c fuel x = .ok (y, transition) ∧
        ∀ ρ : String → V, c.Respects ρ →
          (clausesHold (truth ρ) component = true ↔ s.Means ρ) ∧
            (clausesHold (truth ρ) transition = true ↔ ¬ s.Means ρ) := by
  obtain ⟨n, hn⟩ := (s.solid_logic hs).instantiates haccepts hc
  refine ⟨max s.copyDepth n, fun fuel hfuel h => ?_⟩
  obtain ⟨hdepth, hn'⟩ := max_lt_iff.mp hfuel
  obtain ⟨r, h', hrun, hp, hx⟩ := s.builds fuel hdepth h
  obtain ⟨component, y, transition, hcomponent, htransition, hholds⟩ := hn fuel hn'.le
  refine ⟨r, h', s.logic, component, y, transition, ?_, hp, hx, hcomponent, htransition,
    fun ρ hρ => ?_⟩
  · unfold Statement.compile
    rw [s.cache_of_full hs]
    exact hrun
  · obtain ⟨hin, hout⟩ := hholds (truth ρ)
    rw [hin, hout, hρ.value, Bool.not_eq_true', ← Bool.not_eq_true, s.eval_logic ρ]
    exact ⟨Iff.rfl, Iff.rfl⟩

end

/-- Two valves are connected, unless the mode is closed and the first one does not leak. -/
def connected : Statement :=
  .ifStatement (.inequalityExpression ["mode", "closed"])
    (.expression (.equalityExpression ["valve1", "valve2"]))
    (some (.switchStatement "leak" [.mk ["small", "large"]
      [.iffStatement (.equalityExpression ["valve1", "valve2"])
        (.expression (.equalityExpression ["flow", "yes"]))]]))

theorem statement_clauses_connected :
    ∃ depth, ∀ fuel > depth, ∀ h, ∃ r h' x component y transition,
      connected.compile fuel h = .ok (r, h') ∧ h <+: h' ∧ Unfolds h' (Set.Ici h.length) x r ∧
        instantiateComponent twoValves fuel x = .ok component ∧
        instantiateTransition twoValves fuel x = .ok (y, transition) ∧
        ∀ ρ : String → ℕ, twoValves.Respects ρ →
          (clausesHold (truth ρ) component = true ↔ connected.Means ρ) ∧
            (clausesHold (truth ρ) transition = true ↔ ¬ connected.Means ρ) := by
  refine statement_clauses connected ?_ twoValves (fun e _ => ?_) fun e es he => ?_
  · simp [connected, Statement.Full, Statement.FullAll, Statement.FullCases, Expression.Full]
  · dsimp only [twoValves]
    split_ifs <;> exact ⟨_, rfl⟩
  · dsimp only [twoValves] at he
    split_ifs at he
    · obtain rfl := Option.some.inj (Except.ok.inj he)
      exact List.cons_ne_nil _ _
    · cases Except.ok.inj he

end Jmpl
end Livingstone
