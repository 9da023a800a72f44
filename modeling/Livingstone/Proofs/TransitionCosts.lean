import Livingstone.Lib.Backlinks
import Livingstone.Lib.Loop
import Livingstone.Transition.ModeTransitions

/-! The costs of the transitions of a mode. A transition of rank zero adds none, and the costs after
it are those of the wrong transitions. -/

namespace Livingstone
namespace Transition

variable {f : L2File} {id : ℕ} {m : L2rMode} {x : L2rTransition} {t t' : ModeVariable}

/-- The transitions of a mode in the order in which they are read. -/
def modeOf (transitions : List L2rTransition) : L2rMode :=
  transitions.foldl L2rMode.addTransition {}

theorem insertFailure_eq (x : L2rTransition) (xs : List L2rTransition) :
    insertFailure x xs = SortedList.insertSorted (fun x y => x.rank < y.rank) x xs := by
  induction xs with
  | nil => rfl
  | cons y xs ih =>
    simp only [insertFailure, SortedList.insertSorted, ih, decide_eq_true_eq]

theorem sorted_failure (transitions : List L2rTransition) :
    (modeOf transitions).failure.Pairwise fun x y => x.rank ≤ y.rank := by
  have hfold (m : L2rMode) (h : m.failure.Pairwise fun x y => x.rank ≤ y.rank) :
      (transitions.foldl L2rMode.addTransition m).failure.Pairwise fun x y => x.rank ≤ y.rank := by
    induction transitions generalizing m with
    | nil => exact h
    | cons x transitions ih =>
      apply ih
      unfold L2rMode.addTransition
      split_ifs
      · exact h
      · dsimp only
        rw [insertFailure_eq]
        exact SortedList.pairwise_insertSorted _ _ (fun _ _ => rfl) h
  exact hfold {} List.Pairwise.nil

/-- What the assertions on the guard of a transition ask for: the idle transition stays in its mode,
and the clauses are there and speak of variables and values only. -/
structure Translatable (f : L2File) (x : L2rTransition) : Prop where
  idle : x.clauses = [] → x.isNominal = true → x.fromMode = some x.toMode
  guards : ∀ clause ∈ x.clauses, ∃ c k, clause = some c ∧ f.clauses[c]? = some k ∧
    ∀ prop ∈ k.props, ∃ p, f.props[prop]? = some (.varValue p) ∧ p.var < f.vars.length

def SameCosts (t t' : ModeVariable) : Prop :=
  t'.transitionCosts = t.transitionCosts ∧ t'.ntransitions = t.ntransitions

theorem addGuardLiteral_ok {r : List ProtoAssignment × List ProtoAssignment} {prop : ℕ}
    {p : L2rPropVarValue} (hp : f.props[prop]? = some (.varValue p)) (hv : p.var < f.vars.length) :
    ∃ r', addGuardLiteral f r prop = .ok r' := by
  have hvar : ∃ v, findVar f p.var = .ok v := by
    unfold findVar
    rw [boundsCheckAccess_eq_ok.mpr (List.getElem?_eq_getElem hv)]
    simp only [bind, Except.bind]
    cases f.vars[p.var].kind with
    | commanded => exact ⟨_, rfl⟩
    | mode => exact ⟨_, rfl⟩
    | unknown => exact ⟨_, rfl⟩
    | observed => exact ⟨_, rfl⟩
  obtain ⟨v, hv⟩ := hvar
  unfold addGuardLiteral L2File.getProp
  rw [boundsCheckAccess_eq_ok.mpr hp]
  simp only [bind, Except.bind, hv]
  exact ⟨_, rfl⟩

theorem addGuard_ok {clause : Option ℕ} {c : ℕ} {k : L2rClause} (hc : clause = some c)
    (hk : f.clauses[c]? = some k)
    (hprops : ∀ prop ∈ k.props, ∃ p, f.props[prop]? = some (.varValue p) ∧ p.var < f.vars.length)
    (value : ℕ) (t : ModeVariable) :
    ∃ t', addGuard f x value t clause = .ok t' ∧ SameCosts t t' := by
  have hguard : ∃ r, k.props.foldlM (addGuardLiteral f) ([], []) = .ok r := by
    obtain ⟨r, hr, -⟩ := Loop.foldlM_rest (f := addGuardLiteral f)
      (fun rest _ => ∀ prop ∈ rest, prop ∈ k.props)
      (fun prop rest r hmem => by
        obtain ⟨p, hp, hv⟩ := hprops prop (hmem prop List.mem_cons_self)
        obtain ⟨r', hr'⟩ := addGuardLiteral_ok (r := r) hp hv
        exact ⟨r', hr', fun q hq => hmem q (List.mem_cons_of_mem _ hq)⟩)
      k.props ([], []) (fun _ h => h)
    exact ⟨r, hr⟩
  obtain ⟨r, hr⟩ := hguard
  subst hc
  unfold addGuard L2File.getClause
  dsimp only
  rw [boundsCheckAccess_eq_ok.mpr hk]
  simp only [bind, Except.bind, hr]
  exact ⟨_, rfl, rfl, rfl⟩

theorem addPrototypes_ok (h : Translatable f x) (value : ℕ) (t : ModeVariable) :
    ∃ t', addPrototypes f x value t = .ok t' ∧ SameCosts t t' := by
  unfold addPrototypes
  split_ifs with hc hn hm
  · exact ⟨_, rfl, rfl, rfl⟩
  · exact absurd (h.idle hc hn) hm
  · exact ⟨_, rfl, rfl, rfl⟩
  · obtain ⟨t', ht', -, hsame⟩ := Loop.foldlM_rest
      (fun rest t' => (∀ clause ∈ rest, clause ∈ x.clauses) ∧ SameCosts t t')
      (fun clause rest t₁ ⟨hmem, hsame⟩ => by
        obtain ⟨c, k, hclause, hk, hprops⟩ := h.guards clause (hmem clause List.mem_cons_self)
        obtain ⟨t₂, ht₂, hsame₂⟩ := addGuard_ok (x := x) hclause hk hprops value t₁
        exact ⟨t₂, ht₂, fun q hq => hmem q (List.mem_cons_of_mem _ hq),
          hsame₂.1.trans hsame.1, hsame₂.2.trans hsame.2⟩)
      x.clauses t ⟨fun _ h => h, rfl, rfl⟩
    exact ⟨t', ht', hsame⟩

/-- The cost that the transition adds, if any. -/
def addedCost (x : L2rTransition) : List ℕ := if x.rank ≠ 0 then [x.rank] else []

theorem addRank_costs (h : addRank x t = .ok t') :
    t'.transitionCosts = t.transitionCosts ++ addedCost x ∧ t'.ntransitions = t.ntransitions := by
  unfold addRank at h
  unfold addedCost
  split_ifs at h ⊢ with hrank
  · unfold ModeVariable.addTransitionCost at h
    dsimp only at h
    split_ifs at h
    obtain rfl := Except.ok.inj h
    exact ⟨rfl, rfl⟩
  · obtain rfl := Except.ok.inj h
    exact ⟨(List.append_nil _).symm, rfl⟩

theorem addRank_ok (hroom : t.transitionCosts.length + (addedCost x).length ≤ t.ntransitions) :
    ∃ t', addRank x t = .ok t' := by
  unfold addedCost at hroom
  unfold addRank
  split_ifs at hroom ⊢ with hrank
  · rw [List.length_singleton] at hroom
    unfold ModeVariable.addTransitionCost
    dsimp only
    rw [if_pos (by omega)]
    exact ⟨_, rfl⟩
  · exact ⟨t, rfl⟩

theorem createTransition_costs {value : ℕ} (hx : Translatable f x)
    (h : createTransition f t (x, value) = .ok t') :
    t'.transitionCosts = t.transitionCosts ++ addedCost x ∧ t'.ntransitions = t.ntransitions := by
  obtain ⟨t₁, ht₁, h⟩ := Loop.bind_eq_ok h
  obtain ⟨t₂, ht₂, hsame⟩ := addPrototypes_ok hx value t₁
  obtain rfl := Except.ok.inj (ht₂.symm.trans h)
  rw [hsame.1, hsame.2]
  exact addRank_costs ht₁

theorem createTransition_ok (hx : Translatable f x) (value : ℕ)
    (hroom : t.transitionCosts.length + (addedCost x).length ≤ t.ntransitions) :
    ∃ t', createTransition f t (x, value) = .ok t' := by
  obtain ⟨t₁, ht₁⟩ := addRank_ok hroom
  obtain ⟨t₂, ht₂, -⟩ := addPrototypes_ok hx value t₁
  refine ⟨t₂, ?_⟩
  unfold createTransition
  simp only [ht₁, bind, Except.bind]
  exact ht₂

variable {xs : List (L2rTransition × ℕ)}

def addedCosts (xs : List (L2rTransition × ℕ)) : List ℕ := xs.flatMap fun x => addedCost x.1

theorem createAll_costs (hx : ∀ x ∈ xs, Translatable f x.1)
    (h : xs.foldlM (createTransition f) t = .ok t') :
    t'.transitionCosts = t.transitionCosts ++ addedCosts xs ∧ t'.ntransitions = t.ntransitions := by
  induction xs generalizing t with
  | nil =>
    obtain rfl := Except.ok.inj h
    exact ⟨(List.append_nil _).symm, rfl⟩
  | cons x xs ih =>
    rw [List.forall_mem_cons] at hx
    rw [List.foldlM_cons] at h
    obtain ⟨t₁, ht₁, h⟩ := Loop.bind_eq_ok h
    obtain ⟨hcosts, hn⟩ := createTransition_costs hx.1 ht₁
    obtain ⟨hrest, hn'⟩ := ih hx.2 h
    rw [hrest, hcosts, hn', hn, List.append_assoc]
    exact ⟨rfl, rfl⟩

theorem createAll_ok (hx : ∀ x ∈ xs, Translatable f x.1)
    (hroom : t.transitionCosts.length + (addedCosts xs).length ≤ t.ntransitions) :
    ∃ t', xs.foldlM (createTransition f) t = .ok t' := by
  induction xs generalizing t with
  | nil => exact ⟨t, rfl⟩
  | cons x xs ih =>
    rw [List.forall_mem_cons] at hx
    rw [addedCosts, List.flatMap_cons, List.length_append] at hroom
    obtain ⟨t₁, ht₁⟩ := createTransition_ok (t := t) hx.1 x.2 (by omega)
    obtain ⟨hcosts, hn⟩ := createTransition_costs hx.1 ht₁
    obtain ⟨t', ht'⟩ := ih (t := t₁) hx.2 (by
      rw [hcosts, hn, List.length_append, addedCosts]
      omega)
    refine ⟨t', ?_⟩
    rw [List.foldlM_cons, ht₁]
    exact ht'

/-- As many costs as the transition variable has values, that of the nominal one and then the rank of
each failure, in increasing order. -/
structure CostsMatch (t : ModeVariable) (failure : List L2rTransition) : Prop where
  length : t.transitionCosts.length = t.ntransitions
  nominal : t.transitionCosts.head? = some 0
  failures : t.transitionCosts.tail = failure.map (·.rank)
  sorted : t.transitionCosts.tail.Pairwise (· ≤ ·)

theorem addedCost_ne_zero {n : ℕ} (h : n ∈ addedCost x) : n ≠ 0 := by
  unfold addedCost at h
  split_ifs at h with hrank
  · rw [List.mem_singleton.mp h]
    exact hrank
  · exact absurd h List.not_mem_nil

theorem flatMap_addedCost {ys : List L2rTransition} (h : ∀ y ∈ ys, y.rank ≠ 0) :
    ys.flatMap addedCost = ys.map (·.rank) := by
  induction ys with
  | nil => rfl
  | cons y ys ih =>
    rw [List.forall_mem_cons] at h
    rw [List.flatMap_cons, addedCost, if_pos h.1, ih h.2, List.singleton_append, List.map_cons]

theorem flatMap_addedCost_nil {ys : List L2rTransition} :
    ys.flatMap addedCost = [] ↔ ∀ y ∈ ys, y.rank = 0 := by
  simp [List.flatMap_eq_nil_iff, addedCost]

theorem length_addedCosts_le (ys : List L2rTransition) :
    (ys.flatMap addedCost).length ≤ ys.length := by
  induction ys with
  | nil => exact le_rfl
  | cons y ys ih =>
    have hle : (addedCost y).length ≤ 1 := by
      unfold addedCost
      split_ifs
      · exact le_rfl
      · exact Nat.zero_le 1
    rw [List.flatMap_cons, List.length_append, List.length_cons]
    omega

theorem addedCosts_nominal (ys : List L2rTransition) (value : ℕ) :
    addedCosts (ys.map fun y => (y, value)) = ys.flatMap addedCost := by
  rw [addedCosts, List.flatMap_map]

theorem addedCosts_failure (ys : List L2rTransition) (n : ℕ) :
    addedCosts (ys.zipIdx n) = ys.flatMap addedCost := by
  induction ys generalizing n with
  | nil => rfl
  | cons y ys ih =>
    rw [addedCosts, List.zipIdx_cons, List.flatMap_cons, List.flatMap_cons]
    exact congrArg _ (ih (n + 1))

theorem createTransitions_costs (hn : ∀ x ∈ m.nominal, Translatable f x)
    (hf : ∀ x ∈ m.failure, Translatable f x) (h : createTransitions f id m = .ok t) :
    t.transitionCosts = 0 :: (m.nominal.flatMap addedCost ++ m.failure.flatMap addedCost) ∧
      t.ntransitions = 1 + m.failure.length := by
  obtain ⟨t₁, ht₁, h⟩ := Loop.bind_eq_ok h
  obtain ⟨t₂, ht₂, h⟩ := Loop.bind_eq_ok h
  split_ifs at h
  obtain rfl := Except.ok.inj h
  obtain ⟨hcosts₁, hn₁⟩ := createAll_costs (by simpa using hn) ht₁
  obtain ⟨hcosts₂, hn₂⟩ := createAll_costs (fun x hx => hf x.1 (List.fst_mem_of_mem_zipIdx hx)) ht₂
  rw [hcosts₂, hcosts₁, hn₂, hn₁, addedCosts_nominal, addedCosts_failure, List.append_assoc]
  exact ⟨rfl, rfl⟩

theorem createTransitions_ok (id : ℕ) (hn : ∀ x ∈ m.nominal, Translatable f x)
    (hf : ∀ x ∈ m.failure, Translatable f x)
    (hroom : (m.nominal.flatMap addedCost ++ m.failure.flatMap addedCost).length ≤
      m.failure.length) :
    ∃ t, createTransitions f id m = .ok t := by
  rw [List.length_append] at hroom
  have hnominal : ∀ x ∈ m.nominal.map fun x => (x, 0), Translatable f x.1 := by simpa using hn
  have hfailure : ∀ x ∈ m.failure.zipIdx 1, Translatable f x.1 := fun x hx =>
    hf x.1 (List.fst_mem_of_mem_zipIdx hx)
  obtain ⟨t₁, ht₁⟩ := createAll_ok (t := ModeVariable.new id (1 + m.failure.length)) hnominal (by
    rw [addedCosts_nominal]
    simp only [ModeVariable.new, List.length_singleton]
    omega)
  obtain ⟨hcosts₁, hn₁⟩ := createAll_costs hnominal ht₁
  obtain ⟨t₂, ht₂⟩ := createAll_ok (t := t₁) hfailure (by
    rw [hcosts₁, hn₁, addedCosts_nominal, addedCosts_failure, List.length_append]
    simp only [ModeVariable.new, List.length_singleton]
    omega)
  obtain ⟨-, hn₂⟩ := createAll_costs hfailure ht₂
  refine ⟨t₂, ?_⟩
  unfold createTransitions
  simp only [ht₁, ht₂, bind, Except.bind]
  rw [if_pos (by rw [hn₂, hn₁]; rfl)]
  rfl

/-- The costs are those of the transitions if and only if all failures have a rank other than zero,
and the nominal transitions have none. -/
theorem createTransitions_iff (f : L2File) (id : ℕ) (transitions : List L2rTransition)
    (hx : ∀ x ∈ (modeOf transitions).nominal ++ (modeOf transitions).failure, Translatable f x) :
    (∃ t, createTransitions f id (modeOf transitions) = .ok t ∧
      CostsMatch t (modeOf transitions).failure) ↔
    (∀ x ∈ (modeOf transitions).nominal, x.rank = 0) ∧
      ∀ x ∈ (modeOf transitions).failure, x.rank ≠ 0 := by
  have hsorted := sorted_failure transitions
  generalize modeOf transitions = m at hx hsorted ⊢
  rw [List.forall_mem_append] at hx
  constructor
  · intro ⟨t, ht, hmatch⟩
    obtain ⟨hcosts, -⟩ := createTransitions_costs hx.1 hx.2 ht
    have htail := hmatch.failures
    rw [hcosts, List.tail_cons] at htail
    have hrank : ∀ x ∈ m.failure, x.rank ≠ 0 := by
      intro x hxf
      have hmem : x.rank ∈ m.nominal.flatMap addedCost ++ m.failure.flatMap addedCost := by
        rw [htail]
        exact List.mem_map_of_mem hxf
      rw [← List.flatMap_append] at hmem
      obtain ⟨y, -, hy⟩ := List.mem_flatMap.mp hmem
      exact addedCost_ne_zero hy
    refine ⟨flatMap_addedCost_nil.mp ?_, hrank⟩
    rw [flatMap_addedCost hrank] at htail
    exact List.append_left_eq_self.mp htail
  · intro ⟨hnominal, hrank⟩
    have hnil := flatMap_addedCost_nil.mpr hnominal
    have hfailure := flatMap_addedCost hrank
    obtain ⟨t, ht⟩ := createTransitions_ok id hx.1 hx.2 (by
      rw [hnil, hfailure, List.nil_append, List.length_map])
    obtain ⟨hcosts, hn⟩ := createTransitions_costs hx.1 hx.2 ht
    rw [hnil, hfailure, List.nil_append] at hcosts
    refine ⟨t, ht, ?_, ?_, ?_, ?_⟩
    · rw [hcosts, hn, List.length_cons, List.length_map, Nat.add_comm]
    · rw [hcosts, List.head?_cons]
    · rw [hcosts, List.tail_cons]
    · rw [hcosts, List.tail_cons, List.pairwise_map]
      exact hsorted

def failureTo (toMode rank : ℕ) : L2rTransition := ⟨0, none, toMode, [], false, rank⟩

def idleIn (mode : ℕ) : L2rTransition := ⟨0, some mode, mode, [], true, 0⟩

theorem translatable_failureTo (toMode rank : ℕ) : Translatable {} (failureTo toMode rank) :=
  ⟨by simp [failureTo], by simp [failureTo]⟩

theorem translatable_idleIn (mode : ℕ) : Translatable {} (idleIn mode) :=
  ⟨by simp [idleIn], by simp [idleIn]⟩

/-- The rarer failure is read first. -/
theorem createTransitions_iff_failures : ∃ t,
    createTransitions {} 0 (modeOf [idleIn 0, failureTo 2 5, failureTo 1 3]) = .ok t ∧
      CostsMatch t (modeOf [idleIn 0, failureTo 2 5, failureTo 1 3]).failure := by
  apply (createTransitions_iff {} 0 _ ?_).mpr
  · exact ⟨by decide, by decide⟩
  · intro x hx
    have hcases : x = idleIn 0 ∨ x = failureTo 1 3 ∨ x = failureTo 2 5 := by
      simpa [modeOf, L2rMode.addTransition, insertFailure, idleIn, failureTo] using hx
    rcases hcases with rfl | rfl | rfl
    · exact translatable_idleIn 0
    · exact translatable_failureTo 1 3
    · exact translatable_failureTo 2 5

/-- The likely failure has the rank zero: its cost is that of the other one. -/
theorem not_costsMatch : ¬ ∃ t,
    createTransitions {} 0 (modeOf [idleIn 0, failureTo 2 3, failureTo 1 0]) = .ok t ∧
      CostsMatch t (modeOf [idleIn 0, failureTo 2 3, failureTo 1 0]).failure := by
  intro ⟨t, ht, hmatch⟩
  have hcreated : createTransitions {} 0 (modeOf [idleIn 0, failureTo 2 3, failureTo 1 0]) =
      .ok _ := rfl
  obtain rfl := Except.ok.inj (ht.symm.trans hcreated)
  exact absurd hmatch.failures (by decide)

end Transition
end Livingstone
