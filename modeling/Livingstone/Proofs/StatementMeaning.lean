import Livingstone.Jmpl.Unfold

/-! The logic expression that `compile` builds for a statement is true exactly where the
statement is. -/

namespace Livingstone
namespace Jmpl

section
variable {V : Type*} (ρ : String → V)

mutual

def Expression.Means : Expression → Prop
  | .andExpression es => Expression.MeansAll es
  | .orExpression es => Expression.MeansAny es
  | .negationExpression e => ¬ Expression.Means e
  | .equalityExpression arguments => arguments.Pairwise fun a b => ρ a = ρ b
  | .inequalityExpression arguments => arguments.Pairwise fun a b => ρ a ≠ ρ b

def Expression.MeansAll : List Expression → Prop
  | [] => True
  | e :: es => Expression.Means e ∧ Expression.MeansAll es

def Expression.MeansAny : List Expression → Prop
  | [] => False
  | e :: es => Expression.Means e ∨ Expression.MeansAny es

end

mutual

def Statement.Means : Statement → Prop
  | .expression e => e.Means ρ
  | .statementGroup ss => Statement.MeansAll ss
  | .ifStatement test thenS none => test.Means ρ → Statement.Means thenS
  | .ifStatement test thenS (some elseS) =>
    (test.Means ρ → Statement.Means thenS) ∧ (¬ test.Means ρ → Statement.Means elseS)
  | .iffStatement test thenS => test.Means ρ ↔ Statement.Means thenS
  | .switchStatement key cs => Statement.MeansCases key cs

def Statement.MeansAll : List Statement → Prop
  | [] => True
  | s :: ss => Statement.Means s ∧ Statement.MeansAll ss

/-- The statements of each case hold when the key has one of the values named. -/
def Statement.MeansCases (key : String) : List CaseGroup → Prop
  | [] => True
  | .mk names ss :: cs =>
    ((∃ name ∈ names, ρ key = ρ name) → Statement.MeansAll ss) ∧ Statement.MeansCases key cs

end

end

open LogicExpression Build

namespace Expression

mutual

def logic : Expression → LogicExpression
  | .andExpression es => .andExpression (logicAll es)
  | .orExpression es => .orExpression (logicAll es)
  | .negationExpression e => .notExpression (logic e)
  | .equalityExpression arguments =>
    match arguments with
    | [] => .andExpression []
    | left :: rest => .andExpression (rest.map fun argument => .equality ⟨left, argument⟩)
  | .inequalityExpression arguments =>
    .andExpression ((argumentPairs arguments).map fun p => .notExpression (.equality ⟨p.1, p.2⟩))

def logicAll : List Expression → List LogicExpression
  | [] => []
  | e :: es => logic e :: logicAll es

end

theorem forall₂_map {α : Type} {m : α → Build Ref} {x : α → LogicExpression}
    (h : ∀ a, Builds (m a) (x a)) (l : List α) : List.Forall₂ Builds (l.map m) (l.map x) := by
  rw [List.forall₂_map_left_iff, List.forall₂_map_right_iff, List.forall₂_same]
  exact fun a _ => h a

mutual

theorem builds : ∀ e : Expression, Builds e.refreshExpression e.logic
  | .andExpression es => builds_collect adds_conjunction (buildsAll es)
  | .orExpression es => builds_collect adds_disjunction (buildsAll es)
  | .negationExpression e => (builds e).not
  | .equalityExpression [] => builds_collect adds_conjunction List.Forall₂.nil
  | .equalityExpression (_ :: rest) =>
    builds_collect adds_conjunction (forall₂_map (fun _ => builds_new_equality _) rest)
  | .inequalityExpression _ =>
    builds_collect adds_conjunction (forall₂_map (fun _ => (builds_new_equality _).not) _)

theorem buildsAll : ∀ es : List Expression, List.Forall₂ Builds (refreshAll es) (logicAll es)
  | [] => List.Forall₂.nil
  | e :: es => List.Forall₂.cons (builds e) (buildsAll es)

end

end Expression

namespace Statement

/-- What a case group makes of one of its statements. -/
def caseLogic (key : String) (names : List String) (x : LogicExpression) : List LogicExpression :=
  names.map fun name => .orExpression [.notExpression (.equality ⟨key, name⟩), x]

mutual

def logic : Statement → LogicExpression
  | .expression e => e.logic
  | .statementGroup ss => .andExpression (logicAll ss)
  | .ifStatement test thenS none => .orExpression [test.logic.negation, logic thenS]
  | .ifStatement test thenS (some elseS) =>
    .andExpression [.orExpression [test.logic.negation, logic thenS],
      .orExpression [test.logic, logic elseS]]
  | .iffStatement test thenS =>
    .andExpression [.orExpression [test.logic.negation, logic thenS],
      .orExpression [(logic thenS).negation, test.logic]]
  | .switchStatement key cs => .andExpression (logicCases key cs)

def logicAll : List Statement → List LogicExpression
  | [] => []
  | s :: ss => logic s :: logicAll ss

def logicCases (key : String) : List CaseGroup → List LogicExpression
  | [] => []
  | .mk names ss :: cs =>
    .andExpression ((logicAll ss).flatMap (caseLogic key names)) :: logicCases key cs

end

section
variable {h₀ h : Heap} {r : ℕ} {fuel : ℕ} {x y z w : LogicExpression}

/-- The objects of an if: the implication `r`, and the test and the `then` part under it. -/
theorem abstractIf_unfolds {test thenS : Build Ref} (htest : Builds test x) (hthen : Builds thenS y)
    (hfuel : x.negation.height < fuel) (h : Heap) :
    ∃ r t s h', abstractIf fuel test thenS h = .ok ((r, t, s), h') ∧
      Own h .orExpression r [x.negation, y] h' ∧ Unfolds h' (others h r) x t ∧
      Unfolds h' (others h r) y s := by
  have ho := own_new (List.prefix_refl h) .orExpression
  obtain ⟨t, h₁, hrun₁, hp₁, ht⟩ := htest.in (ho.later (List.prefix_refl _))
  have ho₁ := ho.mono hp₁
  obtain ⟨n, h₂, hrun₂, hp₂, hn⟩ := negation_unfolds hfuel (ho.later hp₁) ht
  obtain ⟨k, hk, ho₂⟩ := (ho₁.mono hp₂).add adds_disjunction hn
  obtain ⟨s, h₃, hrun₃, hp₃, hs⟩ := hthen.in (ho₂.later (List.prefix_refl _))
  obtain ⟨l, hl, ho₃⟩ := (ho₂.mono hp₃).add adds_disjunction hs
  have hnot : h.length ∉ others h h.length := fun hmem => hmem.2 rfl
  refine ⟨h.length, t, s, _, ?_, ho₃, ?_, hs.set hnot l⟩
  · unfold abstractIf
    rw [bind_run (show new (.orExpression []) h = .ok (h.length, h ++ [.orExpression []]) from rfl),
      bind_run hrun₁, bind_run hrun₂, bind_run hk, bind_run hrun₃, bind_run hl]
    rfl
  · exact (((ht.grow hp₂).set hnot k).grow hp₃).set hnot l

theorem otherImplication_unfolds {left : Build Ref} {right : Ref}
    (ho : Own h₀ .orExpression r [x, y] h)
    (hleft : ∀ o, h.length = o → BuildsIn (others h₀ o) left z (h ++ [.orExpression []]))
    (hright : Unfolds h (others h₀ r) w right) :
    BuildsIn (Set.Ici h₀.length)
      (otherImplication r left right) (.andExpression [.orExpression [x, y], .orExpression [z, w]])
      h := by
  have hlen := ho.grow.length_le
  have ho₁ := own_new ho.grow .orExpression
  obtain ⟨q, h₁, hrun₁, hp₁, hq⟩ := hleft h.length rfl
  obtain ⟨k, hk, ho₂⟩ := (ho₁.mono hp₁).add adds_disjunction hq
  have hp : h <+: h₁.set h.length k :=
    prefix_set ((List.prefix_append h _).trans hp₁) le_rfl k
  have hright' := Unfolds.others hright (le_refl h.length)
  obtain ⟨l, hl, ho₃⟩ := ho₂.add adds_disjunction (hright'.grow hp)
  have hp' := prefix_set hp le_rfl l
  have hfirst := (ho.unfolds adds_disjunction).grow hp'
  have hsecond := ho₃.unfolds adds_disjunction
  obtain ⟨rs, hr, -⟩ := ho.members
  generalize hfinal : (h₁.set h.length k).set h.length l = h' at hl ho₃ hp' hfirst hsecond
  refine ⟨h'.length, h' ++ [.andExpression [r, h.length]], ?_,
    hp'.trans (List.prefix_append h' _), (ho₃.grow.length_le), [r, h.length], by simp, ?_⟩
  · unfold otherImplication
    rw [bind_run (show new (.orExpression []) h = .ok (h.length, h ++ [.orExpression []]) from rfl),
      bind_run hrun₁, bind_run hk, bind_run hl]
    exact destructiveConjunction_or (getElem?_of_grow hp' hr)
  · exact unfoldsAll_iff.mpr (List.Forall₂.cons (hfirst.grow (List.prefix_append h' _))
      (List.Forall₂.cons (hsecond.grow (List.prefix_append h' _)) List.Forall₂.nil))

theorem caseOf_run (key name : String) (s : Ref) (h : Heap) :
    caseOf key s name h = .ok (h.length + 2, h ++ [.equality ⟨key, name⟩, .notExpression h.length,
      .orExpression [h.length + 1, s]]) := by
  have hnew : ∀ (n : Node) (g : Heap), new n g = .ok (g.length, g ++ [n]) := fun _ _ => rfl
  have hadd : ∀ rs x, destructiveDisjunction (h.length + 2) x (h ++ [.equality ⟨key, name⟩,
      .notExpression h.length, .orExpression rs]) = .ok (h.length + 2, h ++ [.equality ⟨key, name⟩,
        .notExpression h.length, .orExpression (rs ++ [x])]) := by
    intro rs x
    have hrun := adds_disjunction.run (h ++ [.equality ⟨key, name⟩, .notExpression h.length,
      .orExpression rs]) (h.length + 2) rs x (by simp)
    simpa using hrun
  rw [caseOf, bind_run (hnew _ h), bind_run (hnew _ _), bind_run (hnew _ _)]
  simp only [List.append_assoc, List.length_append, List.length_cons, List.length_nil,
    List.cons_append, List.nil_append]
  rw [bind_run (hadd [] (h.length + 1))]
  exact hadd [h.length + 1] s

theorem caseOf_unfolds {S : Set ℕ} {key name : String} {s : Ref} (hs : Unfolds h S x s)
    (hS : Set.Ici h.length ⊆ S) :
    BuildsIn S (caseOf key s name) (.orExpression [.notExpression (.equality ⟨key, name⟩), x])
      h := by
  have hmem : ∀ i, h.length + i ∈ S := fun i => hS (Nat.le_add_right h.length i)
  refine ⟨_, _, caseOf_run key name s h, List.prefix_append h _, hmem 2, [h.length + 1, s], ?_, ?_⟩
  · simp
  · refine unfoldsAll_iff.mpr (List.Forall₂.cons ⟨hmem 1, h.length, ?_, hmem 0, ?_⟩
      (List.Forall₂.cons (hs.grow (List.prefix_append h _)) List.Forall₂.nil))
    · simp
    · simp

theorem compileStatement_unfolds (key : String) (names : List String) {statement : Build Ref}
    {xs : List LogicExpression} (hbuilds : Builds statement x)
    (ho : Own h₀ .andExpression r xs h) :
    ∃ h', compileStatement key names r statement h = .ok (r, h') ∧
      Own h₀ .andExpression r (xs ++ caseLogic key names x) h' := by
  obtain ⟨s, h₁, hrun, hp, hs⟩ := hbuilds.in (ho.later (List.prefix_refl h))
  have ho₁ := ho.mono hp
  have hnot : r ∉ others h₀ r := fun hmem => hmem.2 rfl
  have hmembers : List.Forall₂ (fun m y => ∀ h₂, Set.Ici h₂.length ⊆ others h₀ r →
      Unfolds h₂ (others h₀ r) x s → BuildsIn (others h₀ r) m y h₂)
      (names.map (caseOf key s)) (caseLogic key names x) := by
    unfold caseLogic
    rw [List.forall₂_map_left_iff, List.forall₂_map_right_iff, List.forall₂_same]
    exact fun name _ h₂ hlater hP => caseOf_unfolds hP hlater
  obtain ⟨h', hrun', ho'⟩ := ho₁.addAll adds_conjunction (fun h₂ k hP => hP.set hnot k)
    (fun h₂ h₃ hp₂ hP => hP.grow hp₂) hmembers hs
  refine ⟨h', ?_, ho'⟩
  unfold compileStatement
  rw [bind_run hrun]
  exact hrun'

theorem builds_compileCaseGroup {key : String} {names : List String} {ms : List (Build Ref)}
    {ys : List LogicExpression} (hms : List.Forall₂ Builds ms ys) :
    Builds (compileCaseGroup key names ms)
      (.andExpression (ys.flatMap (caseLogic key names))) := by
  intro h
  have hloop : ∀ {xs h₁}, Own h .andExpression h.length xs h₁ →
      ∃ h', ms.foldlM (compileStatement key names) h.length h₁ = .ok (h.length, h') ∧
        Own h .andExpression h.length (xs ++ ys.flatMap (caseLogic key names)) h' := by
    induction hms with
    | nil => exact fun {xs h₁} ho => ⟨h₁, rfl, by simpa using ho⟩
    | @cons m y ms ys hm _ ih =>
      intro xs h₁ ho
      obtain ⟨h₂, hrun₂, ho₂⟩ := compileStatement_unfolds key names hm ho
      obtain ⟨h', hrun', ho'⟩ := ih ho₂
      refine ⟨h', ?_, by simpa using ho'⟩
      rw [List.foldlM_cons, bind_run hrun₂]
      exact hrun'
  obtain ⟨h', hrun, ho⟩ := hloop (own_new (List.prefix_refl h) .andExpression)
  refine ⟨h.length, h', ?_, ho.grow, ho.unfolds adds_conjunction⟩
  unfold compileCaseGroup
  rw [bind_run (show new (.andExpression []) h = .ok (h.length, h ++ [.andExpression []]) from rfl)]
  exact hrun

mutual

/-- A bound on the depth of the copies that the negations make. -/
def copyDepth : Statement → ℕ
  | .expression _ => 0
  | .statementGroup ss => copyDepthAll ss
  | .ifStatement test thenS none => max test.logic.negation.height (copyDepth thenS)
  | .ifStatement test thenS (some elseS) =>
    max test.logic.negation.height (max (copyDepth thenS) (copyDepth elseS))
  | .iffStatement test thenS =>
    max test.logic.negation.height (max thenS.logic.negation.height (copyDepth thenS))
  | .switchStatement _ cs => copyDepthCases cs

def copyDepthAll : List Statement → ℕ
  | [] => 0
  | s :: ss => max (copyDepth s) (copyDepthAll ss)

def copyDepthCases : List CaseGroup → ℕ
  | [] => 0
  | .mk _ ss :: cs => max (copyDepthAll ss) (copyDepthCases cs)

end

mutual

theorem builds (fuel : ℕ) : ∀ s : Statement, s.copyDepth < fuel →
    Builds (s.refreshExpression fuel) s.logic
  | .expression e, _ => e.builds
  | .statementGroup ss, hfuel => by
    rw [copyDepth] at hfuel
    exact builds_collect adds_conjunction (buildsAll ss (by omega))
  | .ifStatement test thenS none, hfuel => by
    rw [copyDepth] at hfuel
    intro h
    obtain ⟨r, t, s, h', hrun, ho, -, -⟩ := abstractIf_unfolds test.builds
      (builds fuel thenS (by omega)) (show test.logic.negation.height < fuel by omega) h
    refine ⟨r, h', ?_, ho.grow, ho.unfolds adds_disjunction⟩
    rw [refreshExpression, bind_run hrun]
    rfl
  | .ifStatement test thenS (some elseS), hfuel => by
    rw [copyDepth] at hfuel
    intro h
    obtain ⟨r, t, s, h', hrun, ho, ht, -⟩ := abstractIf_unfolds test.builds
      (builds fuel thenS (by omega)) (show test.logic.negation.height < fuel by omega) h
    obtain ⟨e, h₁, hrun₁, hp₁, he⟩ :=
      (builds fuel elseS (by omega)).in (ho.later (List.prefix_refl h'))
    have hleft : ∀ o, h₁.length = o →
        BuildsIn (others h o) (return t) test.logic (h₁ ++ [.orExpression []]) := by
      intro o ho'
      exact ⟨t, _, rfl, List.prefix_refl _,
        (Unfolds.others (ht.grow hp₁) ho'.le).grow (List.prefix_append h₁ _)⟩
    obtain ⟨q, h₂, hrun₂, hp₂, hq⟩ := otherImplication_unfolds (ho.mono hp₁) hleft he
    refine ⟨q, h₂, ?_, (ho.grow.trans hp₁).trans hp₂, hq⟩
    rw [refreshExpression, bind_run hrun]
    exact (bind_run hrun₁).trans hrun₂
  | .iffStatement test thenS, hfuel => by
    rw [copyDepth] at hfuel
    intro h
    obtain ⟨r, t, s, h', hrun, ho, ht, hs⟩ := abstractIf_unfolds test.builds
      (builds fuel thenS (by omega)) (show test.logic.negation.height < fuel by omega) h
    have hleft : ∀ o, h'.length = o → BuildsIn (others h o) (Build.negation fuel s)
        thenS.logic.negation (h' ++ [.orExpression []]) := by
      intro o ho'
      apply negation_unfolds (by omega)
      · intro i hi
        have hle := ho.grow.length_le
        have hi' : (h' ++ [Node.orExpression []]).length ≤ i := hi
        rw [List.length_append, List.length_singleton] at hi'
        exact ⟨show h.length ≤ i by omega,
          fun heq => absurd (Set.mem_singleton_iff.mp heq) (by omega)⟩
      · exact (Unfolds.others hs ho'.le).grow (List.prefix_append h' _)
    obtain ⟨q, h₂, hrun₂, hp₂, hq⟩ := otherImplication_unfolds ho hleft ht
    refine ⟨q, h₂, ?_, ho.grow.trans hp₂, hq⟩
    rw [refreshExpression, bind_run hrun]
    exact hrun₂
  | .switchStatement key cs, hfuel => by
    rw [copyDepth] at hfuel
    exact builds_collect adds_conjunction (buildsCases key cs (by omega))

theorem buildsAll {fuel : ℕ} : ∀ ss : List Statement, copyDepthAll ss < fuel →
    List.Forall₂ Builds (refreshAll fuel ss) (logicAll ss)
  | [], _ => List.Forall₂.nil
  | s :: ss, hfuel => by
    rw [copyDepthAll] at hfuel
    exact List.Forall₂.cons (builds fuel s (by omega)) (buildsAll ss (by omega))

theorem buildsCases {fuel : ℕ} (key : String) : ∀ cs : List CaseGroup,
    copyDepthCases cs < fuel →
      List.Forall₂ Builds (refreshCases fuel key cs) (logicCases key cs)
  | [], _ => List.Forall₂.nil
  | .mk names ss :: cs, hfuel => by
    rw [copyDepthCases] at hfuel
    exact List.Forall₂.cons (builds_compileCaseGroup (buildsAll ss (by omega)))
      (buildsCases key cs (by omega))

end

end

end Statement

/-- The equalities that hold for an assignment of values to names. -/
def truth {V : Type*} [DecidableEq V] (ρ : String → V) (e : Equality) : Bool :=
  ρ e.argument1 = ρ e.argument2

section
variable {V : Type*} [DecidableEq V] (ρ : String → V)

theorem Expression.pairs_iff (arguments : List String) :
    (∀ p ∈ argumentPairs arguments,
      (LogicExpression.notExpression (.equality ⟨p.1, p.2⟩)).eval (truth ρ) = true) ↔
      arguments.Pairwise fun a b => ρ a ≠ ρ b := by
  induction arguments with
  | nil => simp [argumentPairs]
  | cons left rest ih =>
    simp only [argumentPairs, List.forall_mem_append, List.forall_mem_map, List.pairwise_cons, ih]
    simp [eval, truth]

omit [DecidableEq V] in
theorem Expression.firsts_iff (left : String) (rest : List String) :
    (∀ argument ∈ rest, ρ left = ρ argument) ↔
      (left :: rest).Pairwise fun a b => ρ a = ρ b := by
  rw [List.pairwise_cons]
  constructor
  · intro h
    -- each of the others equals the first argument, so two of them are equal
    refine ⟨h, List.pairwise_iff_forall_sublist.mpr fun {a b} hab => ?_⟩
    have ha := h a (hab.subset (by simp))
    have hb := h b (hab.subset (by simp))
    exact ha.symm.trans hb
  · exact fun h => h.1

mutual

theorem Expression.eval_logic : ∀ e : Expression, e.logic.eval (truth ρ) = true ↔ e.Means ρ
  | .andExpression es => by
    rw [Expression.logic, eval, Expression.Means]
    exact Expression.eval_logicAll es
  | .orExpression es => by
    rw [Expression.logic, eval, Expression.Means]
    exact Expression.eval_logicAny es
  | .negationExpression e => by
    rw [Expression.logic, eval, Expression.Means, ← Expression.eval_logic e, Bool.not_eq_true',
      Bool.not_eq_true]
  | .equalityExpression [] => by simp [Expression.logic, eval, Expression.Means]
  | .equalityExpression (left :: rest) => by
    rw [Expression.Means, ← Expression.firsts_iff]
    simp [Expression.logic, eval, truth]
  | .inequalityExpression arguments => by
    rw [Expression.Means, ← Expression.pairs_iff]
    simp [Expression.logic, eval]

theorem Expression.eval_logicAll : ∀ es : List Expression,
    evalAll (truth ρ) (Expression.logicAll es) = true ↔ Expression.MeansAll ρ es
  | [] => by simp [Expression.logicAll, Expression.MeansAll]
  | e :: es => by
    rw [Expression.logicAll, evalAll, Expression.MeansAll, Bool.and_eq_true,
      Expression.eval_logic e, Expression.eval_logicAll es]

theorem Expression.eval_logicAny : ∀ es : List Expression,
    evalAny (truth ρ) (Expression.logicAll es) = true ↔ Expression.MeansAny ρ es
  | [] => by simp [Expression.logicAll, Expression.MeansAny]
  | e :: es => by
    rw [Expression.logicAll, evalAny, Expression.MeansAny, Bool.or_eq_true,
      Expression.eval_logic e, Expression.eval_logicAny es]

end

theorem eval_implication {x y : LogicExpression} {v : Equality → Bool} :
    (LogicExpression.orExpression [x.negation, y]).eval v = true ↔
      (x.eval v = true → y.eval v = true) := by
  simp only [eval, evalAny, eval_negation, Bool.or_false, Bool.or_eq_true, Bool.not_eq_true']
  cases x.eval v <;> simp

theorem eval_or {x y : LogicExpression} {v : Equality → Bool} :
    (LogicExpression.orExpression [x, y]).eval v = true ↔
      (¬ x.eval v = true → y.eval v = true) := by
  simp only [eval, evalAny, Bool.or_false, Bool.or_eq_true]
  exact or_iff_not_imp_left

theorem eval_pair {x y : LogicExpression} {v : Equality → Bool} :
    (LogicExpression.andExpression [x, y]).eval v = true ↔
      x.eval v = true ∧ y.eval v = true := by
  simp [eval]

theorem eval_caseLogic (key : String) (names : List String) (x : LogicExpression) :
    (∀ y ∈ Statement.caseLogic key names x, y.eval (truth ρ) = true) ↔
      ((∃ name ∈ names, ρ key = ρ name) → x.eval (truth ρ) = true) := by
  unfold Statement.caseLogic
  rw [List.forall_mem_map]
  constructor
  · intro h ⟨name, hname, heq⟩
    refine eval_or.mp (h name hname) ?_
    simp [eval, truth, heq]
  · intro h name hname
    refine eval_or.mpr fun hnot => h ⟨name, hname, ?_⟩
    simpa [eval, truth] using hnot

mutual

theorem Statement.eval_logic : ∀ s : Statement, s.logic.eval (truth ρ) = true ↔ s.Means ρ
  | .expression e => by
    rw [Statement.logic, Statement.Means]
    exact e.eval_logic ρ
  | .statementGroup ss => by
    rw [Statement.logic, eval, evalAll_eq, List.all_eq_true, Statement.Means]
    exact Statement.eval_logicAll ss
  | .ifStatement test thenS none => by
    rw [Statement.logic, eval_implication, Statement.Means, test.eval_logic ρ,
      Statement.eval_logic thenS]
  | .ifStatement test thenS (some elseS) => by
    rw [Statement.logic, eval_pair, eval_implication, eval_or, Statement.Means, test.eval_logic ρ,
      Statement.eval_logic thenS, Statement.eval_logic elseS]
  | .iffStatement test thenS => by
    rw [Statement.logic, eval_pair, eval_implication, eval_implication, Statement.Means,
      test.eval_logic ρ, Statement.eval_logic thenS]
    exact iff_iff_implies_and_implies.symm
  | .switchStatement key cs => by
    rw [Statement.logic, eval, evalAll_eq, List.all_eq_true, Statement.Means]
    exact Statement.eval_logicCases key cs

theorem Statement.eval_logicAll : ∀ ss : List Statement,
    (∀ x ∈ Statement.logicAll ss, x.eval (truth ρ) = true) ↔ Statement.MeansAll ρ ss
  | [] => by simp [Statement.logicAll, Statement.MeansAll]
  | s :: ss => by
    rw [Statement.logicAll, List.forall_mem_cons, Statement.MeansAll, Statement.eval_logic s,
      Statement.eval_logicAll ss]

theorem Statement.eval_logicCases (key : String) : ∀ cs : List CaseGroup,
    (∀ x ∈ Statement.logicCases key cs, x.eval (truth ρ) = true) ↔ Statement.MeansCases ρ key cs
  | [] => by simp [Statement.logicCases, Statement.MeansCases]
  | .mk names ss :: cs => by
    rw [Statement.logicCases, List.forall_mem_cons, Statement.MeansCases,
      Statement.eval_logicCases key cs, ← Statement.eval_logicAll ss, eval, evalAll_eq,
      List.all_eq_true, List.forall_mem_flatMap]
    simp only [eval_caseLogic]
    exact and_congr_left fun _ => ⟨fun h hkey x hx => h x hx hkey, fun h x hx hkey => h hkey x hx⟩

end

/-- For each statement that the cache accepts, `compile` returns, leaves all objects as they
are, and makes objects that stand for an expression true in exactly the assignments of values to
names in which the statement holds. -/
theorem compile_means (s : Statement) (hcache : s.cache = .ok ()) :
    ∃ depth, ∀ fuel > depth, ∀ h, ∃ r h' x,
      s.compile fuel h = .ok (r, h') ∧ h <+: h' ∧ Unfolds h' (Set.Ici h.length) x r ∧
        ∀ ρ : String → V, x.eval (truth ρ) = true ↔ s.Means ρ := by
  refine ⟨s.copyDepth, fun fuel hfuel h => ?_⟩
  obtain ⟨r, h', hrun, hp, hx⟩ := s.builds fuel hfuel h
  refine ⟨r, h', s.logic, ?_, hp, hx, fun ρ => s.eval_logic ρ⟩
  unfold Statement.compile
  rw [hcache]
  exact hrun

end

/-- The switch names two values in its first case. -/
theorem compile_means_switch :
    ∃ depth, ∀ fuel > depth, ∀ h, ∃ r h' x,
      (Statement.switchStatement "valve"
          [.mk ["open", "stuckOpen"] [.expression (.equalityExpression ["flow", "high"])],
            .mk ["closed"] [.iffStatement (.inequalityExpression ["flow", "high"])
              (.expression (.equalityExpression ["leak", "no"]))]]).compile fuel h = .ok (r, h') ∧
        h <+: h' ∧ Unfolds h' (Set.Ici h.length) x r ∧
        ∀ ρ : String → ℕ, x.eval (truth ρ) = true ↔
          (Statement.switchStatement "valve"
            [.mk ["open", "stuckOpen"] [.expression (.equalityExpression ["flow", "high"])],
              .mk ["closed"] [.iffStatement (.inequalityExpression ["flow", "high"])
                (.expression (.equalityExpression ["leak", "no"]))]]).Means ρ :=
  compile_means _ rfl

end Jmpl
end Livingstone
