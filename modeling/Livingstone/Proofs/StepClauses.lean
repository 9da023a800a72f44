import Livingstone.Proofs.Observations
import Livingstone.Transition.Present

/-! The clauses that a progress on a command creates between the time steps. They are instances of
the clauses that the prototypes of the modes give, in the same order. What a proposition of a clause
stands for depends on the variables that there are when its turn comes. -/

namespace Livingstone
namespace Transition

variable {σ : Type} {S : Solver σ} {s s₁ s' : TSystem σ} {m : Ref} {fromTimeStep toTimeStep : UInt32}

/-- What a proposition stands for when a prototype of the mode `m` is instantiated. -/
def TSystem.propositionAt (s : TSystem σ) (m : Ref) (fromTimeStep toTimeStep : UInt32) :
    Proposition → Except L2Error PropId
  | .before v value => s.propClosestBefore ⟨v, value⟩ toTimeStep
  | .transition _ value => do
    let t ← s.transitionAt m fromTimeStep toTimeStep
    s.getProp t value.toNat
  | .after mode value => s.propClosestAfter ⟨.mode mode, value⟩ toTimeStep

/-- The positive and the negative literals of an instance of the clause. -/
def IsInstance (s : TSystem σ) (m : Ref) (fromTimeStep toTimeStep : UInt32) (k : Clause)
    (literals : List PropId × List PropId) : Prop :=
  List.Forall₂ (fun a p => s.propositionAt m fromTimeStep toTimeStep a = .ok p) k.positive
      literals.1 ∧
    List.Forall₂ (fun a p => s.propositionAt m fromTimeStep toTimeStep a = .ok p) k.negative
      literals.2

/-- A clause of the step, which is kept with the mode. -/
def TSystem.createTransitionClause (S : Solver σ) (m : Ref) (s : TSystem σ)
    (literals : List PropId × List PropId) : TSystem σ :=
  let (c, s) := createClause S literals.1 literals.2 true s
  addTransitionClause m c s

theorem constrains_createTransitionClause (literals : List PropId × List PropId) :
    Constrains s (s.createTransitionClause S m literals) :=
  (constrains_createClause _ _ _).trans (constrains_addTransitionClause _ _)

theorem Constrains.propositionAt (h : Constrains s s') :
    s'.propositionAt m fromTimeStep toTimeStep = s.propositionAt m fromTimeStep toTimeStep := by
  obtain ⟨hzenith, hhorizon⟩ := h.modes m
  obtain ⟨u, g, cs, rfl⟩ := h.rest
  funext a
  cases a with
  | before v value => rfl
  | after mode value => rfl
  | transition mode value =>
    unfold TSystem.propositionAt TSystem.transitionAt
    dsimp only at hzenith hhorizon ⊢
    rw [hzenith, hhorizon]
    rfl

theorem Constrains.isInstance (h : Constrains s s') {k : Clause}
    {literals : List PropId × List PropId}
    (hk : IsInstance s' m fromTimeStep toTimeStep k literals) :
    IsInstance s m fromTimeStep toTimeStep k literals := by
  unfold IsInstance at hk ⊢
  rwa [h.propositionAt] at hk

theorem forall₂_before {l : List ProtoAssignment} {ps : List PropId}
    (h : l.mapM (fun a => s.propClosestBefore a toTimeStep) = .ok ps) :
    List.Forall₂ (fun a p => s.propositionAt m fromTimeStep toTimeStep a = .ok p)
      (l.map ProtoAssignment.proposition).reverse ps.reverse := by
  rw [List.forall₂_reverse_iff, List.forall₂_map_left_iff]
  exact Loop.mapM_forall₂ h

theorem instantiate_isInstance {p : ProtoTransition} {c : ClauseId}
    (h : s.instantiate S p m fromTimeStep toTimeStep = .ok (c, s')) : ∃ literals,
      IsInstance s m fromTimeStep toTimeStep p.instantiate literals ∧
        s.createClause S literals.1 literals.2 true = (c, s') := by
  obtain ⟨positive, hpositive, h⟩ := Loop.bind_eq_ok h
  obtain ⟨negative, hnegative, h⟩ := Loop.bind_eq_ok h
  obtain ⟨t, ht, h⟩ := Loop.bind_eq_ok h
  obtain ⟨transition, htransition, h⟩ := Loop.bind_eq_ok h
  obtain ⟨consequent, hconsequent, h⟩ := Loop.bind_eq_ok h
  refine ⟨(consequent :: positive.reverse, transition :: negative.reverse), ⟨?_, ?_⟩,
    Except.ok.inj h⟩
  · exact .cons hconsequent (forall₂_before hpositive)
  · refine .cons ?_ (forall₂_before hnegative)
    unfold TSystem.propositionAt
    rw [ht]
    exact htransition

/-- What is created for the mode are instances of the clauses `cs`, one after the other. -/
def Instantiates (S : Solver σ) (m : Ref) (fromTimeStep toTimeStep : UInt32) (s : TSystem σ)
    (cs : List Clause) (s' : TSystem σ) : Prop :=
  ∃ ks, List.Forall₂ (IsInstance s m fromTimeStep toTimeStep) cs ks ∧
    s' = ks.foldl (TSystem.createTransitionClause S m) s

def SamePrototypes (s s' : TSystem σ) : Prop :=
  ∀ q, (s'.modeCell q).prototypes = (s.modeCell q).prototypes

theorem SamePrototypes.trans (h : SamePrototypes s s₁) (h' : SamePrototypes s₁ s') :
    SamePrototypes s s' := fun q => (h' q).trans (h q)

theorem samePrototypes_setMode {x : ModeCell} (h : x.prototypes = (s.modeCell m).prototypes) :
    SamePrototypes s (s.setMode m x) := by
  intro q
  unfold TSystem.setMode
  dsimp only
  by_cases hq : q = m
  · subst hq
    rw [Function.update_self, h]
  · rw [Function.update_of_ne hq]

theorem constrains_createTransitionClauses (ks : List (List PropId × List PropId)) :
    Constrains s (ks.foldl (TSystem.createTransitionClause S m) s) :=
  Loop.foldl_left (fun _ => Constrains s)
    (fun k _ _ h => h.trans (constrains_createTransitionClause k)) (Constrains.refl s)

theorem samePrototypes_createTransitionClauses (ks : List (List PropId × List PropId)) :
    SamePrototypes s (ks.foldl (TSystem.createTransitionClause S m) s) := by
  have hclause (s₁ : TSystem σ) (k : List PropId × List PropId) :
      SamePrototypes s₁ (s₁.createTransitionClause S m k) :=
    samePrototypes_setMode (s := (s₁.createClause S k.1 k.2 true).2) rfl
  exact Loop.foldl_left (fun _ => SamePrototypes s) (fun k _ s₁ h => h.trans (hclause s₁ k))
    fun _ => rfl

namespace Instantiates

variable {cs cs' : List Clause}

theorem nil : Instantiates S m fromTimeStep toTimeStep s [] s := ⟨[], .nil, rfl⟩

theorem constrains (h : Instantiates S m fromTimeStep toTimeStep s cs s') : Constrains s s' := by
  obtain ⟨ks, -, rfl⟩ := h
  exact constrains_createTransitionClauses ks

theorem samePrototypes (h : Instantiates S m fromTimeStep toTimeStep s cs s') :
    SamePrototypes s s' := by
  obtain ⟨ks, -, rfl⟩ := h
  exact samePrototypes_createTransitionClauses ks

theorem append (h : Instantiates S m fromTimeStep toTimeStep s cs s₁)
    (h' : Instantiates S m fromTimeStep toTimeStep s₁ cs' s') :
    Instantiates S m fromTimeStep toTimeStep s (cs ++ cs') s' := by
  have hconstrains := h.constrains
  obtain ⟨ks, hks, rfl⟩ := h
  obtain ⟨ks', hks', rfl⟩ := h'
  refine ⟨ks ++ ks', List.rel_append hks (hks'.imp fun k l hl => hconstrains.isInstance hl), ?_⟩
  rw [List.foldl_append]

end Instantiates

theorem instantiates_prototype {p : ProtoTransition} {c : ClauseId}
    (h : s.instantiate S p m fromTimeStep toTimeStep = .ok (c, s')) :
    Instantiates S m fromTimeStep toTimeStep s [p.instantiate] (s'.addTransitionClause m c) := by
  obtain ⟨literals, hliterals, hclause⟩ := instantiate_isInstance h
  refine ⟨[literals], .cons hliterals .nil, ?_⟩
  rw [List.foldl_cons, List.foldl_nil, TSystem.createTransitionClause, hclause]

theorem instantiates_all {ps : List ProtoTransition}
    (h : s.instantiateAll S ps m fromTimeStep toTimeStep = .ok s') :
    Instantiates S m fromTimeStep toTimeStep s (ps.map ProtoTransition.instantiate) s' := by
  induction ps generalizing s with
  | nil =>
    obtain rfl := Except.ok.inj h
    exact .nil
  | cons p ps ih =>
    unfold TSystem.instantiateAll at h
    rw [List.foldlM_cons] at h
    obtain ⟨s₁, hp, hrest⟩ := Loop.bind_eq_ok h
    obtain ⟨⟨c, s₂⟩, hc, hp⟩ := Loop.bind_eq_ok hp
    obtain rfl := Except.ok.inj hp
    exact (instantiates_prototype hc).append (ih hrest)

theorem instantiates_indexed {a : Assignment}
    (h : s.instantiateIndexedClauses S a m fromTimeStep toTimeStep = .ok s') :
    Instantiates S m fromTimeStep toTimeStep s
      ((s.modeCell m).prototypes.instantiateIndexedClauses a) s' := by
  unfold TSystem.instantiateIndexedClauses at h
  unfold Transitioned.instantiateIndexedClauses
  cases hfind : (s.modeCell m).prototypes.findTransitionPrototypes a with
  | some ps =>
    rw [hfind] at h
    exact instantiates_all h
  | none =>
    rw [hfind] at h
    obtain rfl := Except.ok.inj h
    exact .nil

/-- The failures of the mode are there, if nothing of it is in the past. -/
def TSystem.noteFailures (m : Ref) (s : TSystem σ) : TSystem σ :=
  if (s.links.previous m).isNone then
    s.setMode m { s.modeCell m with nowHasFailureFromHorizon := true }
  else s

theorem samePrototypes_noteFailures : SamePrototypes s (s.noteFailures m) := by
  unfold TSystem.noteFailures
  split
  · exact samePrototypes_setMode rfl
  · exact fun _ => rfl

theorem constrains_noteFailures : Constrains s (s.noteFailures m) := by
  unfold TSystem.noteFailures
  split
  · exact constrains_setMode rfl rfl
  · exact Constrains.refl s

/-- What is created for the mode are instances of the clauses of its prototypes. -/
theorem instantiates_clauses {a : Assignment}
    (h : s.instantiateClauses S a m toTimeStep = .ok s') : ∃ s₁,
      Instantiates S m (s.timeOf m) toTimeStep s ((s.modeCell m).prototypes.instantiateClauses a)
        s₁ ∧ s' = s₁.noteFailures m := by
  obtain ⟨s₁, h₁, h⟩ := Loop.bind_eq_ok h
  obtain ⟨s₂, h₂, h⟩ := Loop.bind_eq_ok h
  obtain ⟨s₃, h₃, h⟩ := Loop.bind_eq_ok h
  have hindexed := instantiates_indexed h₁
  have htime₁ : s₁.timeOf m = s.timeOf m := congrArg VariableCell.timeStep
    (congrFun hindexed.constrains.cell m)
  have hunindexed := instantiates_all h₂
  have htime₂ : s₂.timeOf m = s₁.timeOf m := congrArg VariableCell.timeStep
    (congrFun hunindexed.constrains.cell m)
  have hautonomous := instantiates_all h₃
  rw [hunindexed.samePrototypes m, hindexed.samePrototypes m, htime₂, htime₁] at hautonomous
  rw [hindexed.samePrototypes m, htime₁] at hunindexed
  exact ⟨s₃, (hindexed.append hunindexed).append hautonomous, (Except.ok.inj h).symm⟩

theorem modeCell_copyInPast (kind : Kind) (v : Ref) (s : TSystem σ) :
    (s.copyInPast S kind v).2.modeCell = s.modeCell := by
  obtain ⟨s₁, hc, heq⟩ := copyInPast_created S kind v s
  rw [heq]
  exact hc.modes

theorem modeCell_createModeTransition (costs : List UInt32) (timeStep id : UInt32)
    (s : TSystem σ) : (s.createModeTransition S costs timeStep id).2.modeCell = s.modeCell := by
  have hc := newAssignable_created (S := S) .transition costs timeStep id s
  unfold TSystem.createModeTransition TSystem.restoreDefault
  dsimp only
  obtain ⟨u, hu⟩ := assign_eq (S := S) (s := (s.createTransition S costs timeStep id).2)
    (s.createTransition S costs timeStep id).1 (some 0)
  rw [hu]
  exact hc.modes

theorem samePrototypes_createTransitionVariable :
    SamePrototypes s (s.createTransitionVariable S m) := by
  have hcopy := modeCell_copyInPast (S := S) .dependent m s
  unfold TSystem.createTransitionVariable
  dsimp only
  generalize s.copyInPast S .dependent m = x at hcopy ⊢
  have htransition := modeCell_createModeTransition (S := S) (x.2.modeCell m).transitionCosts
    x.2.timestep (x.2.cell m).id x.2
  generalize x.2.createModeTransition S _ _ _ = y at htransition ⊢
  have hstart : SamePrototypes s y.2 := by
    intro q
    rw [htransition, hcopy]
  have hvariable : SamePrototypes y.2
      (y.2.setMode m { x.2.modeCell m with zenithTransition := y.1 }) :=
    samePrototypes_setMode (by rw [htransition])
  refine (hstart.trans hvariable).trans (SamePrototypes.trans ?_ (samePrototypes_setMode rfl))
  exact samePrototypes_setMode (s := y.2.setMode m { x.2.modeCell m with zenithTransition := y.1 })
    rfl

/-- The prototypes of the modes among the variables. -/
def TSystem.modesOf (s : TSystem σ) (l : List Ref) : List Transitioned :=
  (l.filter fun m => s.kindOf m = .transitioned).map fun m => (s.modeCell m).prototypes

theorem modesOf_congr {l : List Ref} (hkind : ∀ m ∈ l, s'.kindOf m = s.kindOf m)
    (h : SamePrototypes s s') : s'.modesOf l = s.modesOf l := by
  have hfilter : (l.filter fun m => s'.kindOf m = .transitioned) =
      l.filter fun m => s.kindOf m = .transitioned :=
    List.filter_congr fun m hm => by rw [hkind m hm]
  unfold TSystem.modesOf
  rw [hfilter]
  exact List.map_congr_left fun m _ => h m

/-- One mode after the other is copied, and instances of clauses are created for it. -/
inductive Creates (S : Solver σ) : TSystem σ → List Clause → TSystem σ → Prop
  | nil (s : TSystem σ) : Creates S s [] s
  | mode {s s₁ s' : TSystem σ} {m : Ref} {cs cs' : List Clause} :
    Instantiates S m ((s.createTransitionVariable S m).timeOf m) now
      (s.createTransitionVariable S m) cs s₁ →
    Creates S (s₁.noteFailures m) cs' s' → Creates S s (cs ++ cs') s'

theorem creates_foldlM {g : TSystem σ → Ref → Except L2Error (TSystem σ)} {a : Assignment}
    {l : List Ref} (take : Transitioned → Bool) (hl : ∀ m ∈ l, m < s.fresh)
    (hg : ∀ s₁, Adds s s₁ → ∀ m, g s₁ m =
      if s₁.kindOf m = .transitioned ∧ take (s₁.modeCell m).prototypes = true then
        s₁.transition S m a
      else .ok s₁)
    (h : l.foldlM g s = .ok s') :
    Creates S s ((s.modesOf l).flatMap fun t => if take t then t.instantiateClauses a else []) s' := by
  induction l generalizing s with
  | nil =>
    obtain rfl := Except.ok.inj h
    exact .nil s
  | cons m l ih =>
    rw [List.foldlM_cons] at h
    obtain ⟨s₁, hm, hrest⟩ := Loop.bind_eq_ok h
    rw [hg s (Adds.refl s)] at hm
    have hlater := List.forall_mem_cons.mp hl
    split at hm
    case isTrue htaken =>
      obtain ⟨s₂, hclauses, rfl⟩ := instantiates_clauses hm
      have hadds : Adds s (s₂.noteFailures m) := (adds_createTransitionVariable m s).trans
        (hclauses.constrains.trans constrains_noteFailures).adds
      have hprototypes : SamePrototypes s (s₂.noteFailures m) :=
        (samePrototypes_createTransitionVariable.trans hclauses.samePrototypes).trans
          samePrototypes_noteFailures
      rw [samePrototypes_createTransitionVariable m] at hclauses
      have hloop := ih (fun q hq => (hlater.2 q hq).trans_le hadds.fresh)
        (fun s₃ h₃ => hg s₃ (hadds.trans h₃)) hrest
      rw [modesOf_congr (fun q hq => hadds.kindOf (hlater.2 q hq)) hprototypes] at hloop
      have hmodes : s.modesOf (m :: l) = (s.modeCell m).prototypes :: s.modesOf l := by
        unfold TSystem.modesOf
        rw [List.filter_cons_of_pos (by simpa using htaken.1), List.map_cons]
      rw [hmodes, List.flatMap_cons, if_pos htaken.2]
      exact .mode hclauses hloop
    case isFalse hnot =>
      obtain rfl := Except.ok.inj hm
      have hloop := ih hlater.2 hg hrest
      by_cases hkind : s.kindOf m = .transitioned
      · have hmodes : s.modesOf (m :: l) = (s.modeCell m).prototypes :: s.modesOf l := by
          unfold TSystem.modesOf
          rw [List.filter_cons_of_pos (by simpa using hkind), List.map_cons]
        rw [hmodes, List.flatMap_cons, if_neg fun htake => hnot ⟨hkind, htake⟩]
        exact hloop
      · have hmodes : s.modesOf (m :: l) = s.modesOf l := by
          unfold TSystem.modesOf
          rw [List.filter_cons_of_neg (by simpa using hkind)]
        rw [hmodes]
        exact hloop

theorem samePrototypes_fullProgressCopies (l : List Ref) :
    SamePrototypes s (l.foldl (TSystem.fullProgressCopy S) s) := by
  have hcopy (s₁ : TSystem σ) (v : Ref) : SamePrototypes s₁ (s₁.fullProgressCopy S v) := by
    intro q
    unfold TSystem.fullProgressCopy
    dsimp only
    split_ifs
    · exact congrArg (fun f => (f q).prototypes) (modeCell_copyInPast .assignable v s₁)
    · rw [modeCell_copyInPast]
    · rfl
  exact Loop.foldl_left (fun _ => SamePrototypes s) (fun v _ s₁ h => h.trans (hcopy s₁ v))
    fun _ => rfl

theorem commandAssignment_adds {a : Ref × ℕ} (ha : a.1 < s.fresh) (h : Adds s s') :
    s'.commandAssignment a = s.commandAssignment a := by
  unfold TSystem.commandAssignment
  rw [h.cell a.1 ha]

theorem fullProgress_creates {a : Ref × ℕ} (hlt : ∀ v ∈ s.present, v < s.fresh)
    (ha : a.1 ∈ s.present) (hs : s.fullProgressCopyVariables S (some a) = .ok s') :
    ∃ s₁, Adds s s₁ ∧
      Creates S s₁ (fullProgress (s.modesOf s.present) (s.commandAssignment a)) s' := by
  rw [fullProgressCopyVariables_eq] at hs
  have hcopied : Adds s (s.present.foldl (TSystem.fullProgressCopy S) s) :=
    Adds.foldl (fun s v => adds_fullProgressCopy v s) s.present s
  have hcreates := creates_foldlM (S := S) (a := s.commandAssignment a) (fun _ => true)
    (fun m hm => (hlt m hm).trans_le hcopied.fresh) (fun s₁ h₁ m => ?_) hs
  · rw [modesOf_congr (fun m hm => hcopied.kindOf (hlt m hm))
      (samePrototypes_fullProgressCopies s.present)] at hcreates
    exact ⟨_, hcopied, by simpa [fullProgress] using hcreates⟩
  · rw [← commandAssignment_adds (hlt a.1 ha) (hcopied.trans h₁)]
    simp [TSystem.fullProgressMode, pure, Except.pure]

theorem minimalProgress_creates {a : Ref × ℕ} {index : Assignment}
    (hlt : ∀ v ∈ s.present, v < s.fresh)
    (hs : (s.copyInPast S .command a.1).2.present.foldlM (TSystem.minimalProgressMode S index)
      (s.copyInPast S .command a.1).2 = .ok s') :
    Creates S (s.copyInPast S .command a.1).2 (minimalProgress (s.modesOf s.present) index) s' := by
  have hcopied := adds_copyInPast (S := S) .command a.1 s
  rw [hcopied.present_eq] at hs
  have hcreates := creates_foldlM (S := S) (a := index) (·.hasIndexedTransitions index)
    (fun m hm => (hlt m hm).trans_le hcopied.fresh) (fun _ _ _ => rfl) hs
  rwa [modesOf_congr (fun m hm => hcopied.kindOf (hlt m hm))
    fun q => by rw [modeCell_copyInPast]] at hcreates

/-- A progress on a command creates instances of the clauses that the prototypes give. -/
theorem progress_creates {K : Set Ref} {a : Ref × ℕ} (h : Tidy K s) (ha : a.1 ∈ s.present)
    (hs : s.progress S (some a) = .ok s') : ∃ s₀ s₁ s₂ s₃,
      s.truncateIfNeeded S = .ok s₀ ∧ Adds s₀ s₁ ∧
        Creates S s₁ (progress s.progressUsesFull (s₀.modesOf s₀.present) (s₀.commandAssignment a))
          s₂ ∧
        Same s₂ s₃ ∧ s' = s₃.nextTimestep := by
  unfold TSystem.progress at hs
  unfold progress
  split at hs
  case isTrue hfull =>
    obtain ⟨s₀, h₀, hs⟩ := Loop.bind_eq_ok hs
    obtain ⟨s₂, h₂, hs⟩ := Loop.bind_eq_ok hs
    obtain ⟨s₃, h₃, hs⟩ := Loop.bind_eq_ok hs
    obtain ⟨s₄, h₄, hs⟩ := Loop.bind_eq_ok hs
    have hpresent := (h.truncateIfNeeded h₀).present
    obtain ⟨K₀, hK₀, -⟩ := h.truncateIfNeeded h₀
    obtain ⟨s₁, hadds, hcreates⟩ := fullProgress_creates
      (fun v hv => hK₀.lt (hK₀.present v hv).1) (hpresent.symm ▸ ha) h₂
    have hassigned : Same s₃ s₄ := same_foldlM (fun _ _ _ hs => same_fullProgressAssign hs) h₄
    simp only [if_pos hfull]
    exact ⟨s₀, s₁, s₂, _, h₀, hadds, hcreates,
      ((constrains_fullProgressCreateConstraints h₃).same.trans hassigned).trans same_propagate,
      (Except.ok.inj hs).symm⟩
  case isFalse hminimal =>
    rw [minimalProgress_eq] at hs
    obtain ⟨s₀, h₀, hs⟩ := Loop.bind_eq_ok hs
    dsimp only at hs
    obtain ⟨s₂, h₂, hs⟩ := Loop.bind_eq_ok hs
    have hpresent := (h.truncateIfNeeded h₀).present
    obtain ⟨K₀, hK₀, -⟩ := h.truncateIfNeeded h₀
    have hlt (v : Ref) (hv : v ∈ s₀.present) : v < s₀.fresh := hK₀.lt (hK₀.present v hv).1
    have ha₀ : a.1 ∈ s₀.present := hpresent.symm ▸ ha
    have hcopied := adds_copyInPast (S := S) .command a.1 s₀
    rw [commandAssignment_adds (hlt a.1 ha₀) hcopied] at h₂
    simp only [if_neg hminimal]
    exact ⟨s₀, _, s₂, _, h₀, hcopied, minimalProgress_creates hlt h₂,
      ((same_assign _ _).trans (same_setExogenouslyAssigned _ _)).trans same_propagate,
      (Except.ok.inj hs).symm⟩

end Transition
end Livingstone
