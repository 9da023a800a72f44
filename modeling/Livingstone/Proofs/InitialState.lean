import Livingstone.Proofs.Autonomous
import Livingstone.Proofs.Loading

/-! The initial state. Once it has been created, the selections of assumptions that explain what is
observed are those that some state of the model allows: where nothing has failed a mode has its
initial value, and where something has, the value that the failure leads to. -/

namespace Livingstone

namespace ToTSystem

open Function (update update_self update_of_ne)
open Engine (Grows Acquires)
open Ltms (Says)
open OneHot (Shows ExactlyOne exactlyOne_iff)

variable {M : Session} {f : L2File} {e e₁ e' : Engine} {t₀ : Tracked} {n v fuel : ℕ}
  {y : L2rVariable} {w : Entered} {entered : List Entered} {t : Transition.ModeVariable}
  {modes : List (Option Transition.ModeVariable)} {state : PropId} {a b : ℕ → ℕ} {τ : PropId → Bool}

/-- The session has a state variable, of one value. -/
structure HasState (M : Session) : Prop where
  assignments : M.assignables.assignments stateVar = [⟨stateVar, 0⟩]
  isAssumption : M.assignables.isAssumption stateVar = true
  default : M.assignables.defaultAssignment stateVar = ⟨stateVar, 0⟩

theorem assignable_ne_stateVar (v : ℕ) : assignable v ≠ stateVar := fun h => by
  cases congrArg VarId.timeStep h

theorem forall_autonomous {P : ℕ → ℕ → Prop} (hf : Loadable f) (hy : f.vars[v]? = some y)
    (hk : y.kind = .mode) (ht : Transition.createTransitions f v y.mode = .ok t) :
    (∀ p ∈ t.prototypes.autonomousTransitions, P p.transitionValue.toNat p.consequent.2.toNat) ↔
      ∀ n x, y.mode.failure[n]? = some x → x.clauses = [] → P (n + 1) x.toMode := by
  have hvalues {n : ℕ} {x : L2rTransition} (hx : y.mode.failure[n]? = some x) :
      (UInt32.ofNat (n + 1)).toNat = n + 1 ∧ (UInt32.ofNat x.toMode).toNat = x.toMode := by
    obtain ⟨hmembers, hdomain⟩ := hf.small v y hy
    have hdomain := hdomain hk
    have hn := (List.getElem?_eq_some_iff.mp hx).1
    have hto := (hf.wellFormed.failure v y hy x (List.mem_of_getElem? hx)).2.2.to_lt
    unfold L2rMode.domainSize at hdomain
    have hsize : UInt32.size = 4294967296 := rfl
    exact ⟨UInt32.toNat_ofNat_of_lt' (by omega), UInt32.toNat_ofNat_of_lt' (by omega)⟩
  have hmem {p : Transition.ProtoTransition} := Transition.mem_autonomousTransitions
    (fun x hx => (hf.wellFormed.nominal v y hy x hx).2.1)
    (fun x hx => (hf.wellFormed.failure v y hy x hx).2.1) ht (p := p)
  constructor
  · intro hall n x hx hclauses
    have hp := hall _ (hmem.mpr ⟨n, x, hx, hclauses, rfl⟩)
    obtain ⟨hvalue, hto⟩ := hvalues hx
    simp only [Transition.ProtoTransition.autonomous, hvalue, hto] at hp
    exact hp
  · intro hall p hp
    obtain ⟨n, x, hx, hclauses, rfl⟩ := hmem.mp hp
    obtain ⟨hvalue, hto⟩ := hvalues hx
    simp only [Transition.ProtoTransition.autonomous, hvalue, hto]
    exact hall n x hx hclauses

theorem valueProp_eq {ps : List PropId} {i : ℕ} (h : i < ps.length) :
    valueProp ps i = .ok (ps.getD i 0) ∧ ps[i]? = some (ps.getD i 0) := by
  have hget : ps[i]? = some (ps.getD i 0) := by
    rw [List.getD_eq_getElem?_getD, List.getElem?_eq_getElem h, Option.getD_some]
  exact ⟨by simp only [valueProp, hget], hget⟩

theorem createClause_adds {pos neg : List PropId} (hinv : e.Inv M.assignables)
    (hlen : pos.length + neg.length ≤ 127) (hp : ∀ p ∈ pos ++ neg, p ∈ e.solver.props) :
    ∃ e', e.createClause pos neg false true = .ok e' ∧ Adds M (Says pos neg) e e' := by
  have hfit : Fits pos neg := by
    rw [fits_iff]
    exact (Nat.add_le_add pos.toFinset_card_le neg.toFinset_card_le).trans hlen
  obtain ⟨s, hs, hinv', hgrows, hprops, hsat⟩ := Engine.createClause_adds hinv hfit hp false
  exact ⟨_, hs, hinv', hgrows, rfl, hprops, hsat⟩

/-- What the clause of a failure says that leads to the value `value` with its transition. -/
def FailureSays (w : Entered) (transition value : ℕ) (τ : PropId → Bool) : Prop :=
  Says [w.propositions.getD value 0] [w.transition.getD transition 0] τ

/-- What the clauses of a mode say that has the value `i` at first. -/
def ModeSays (w : Entered) (t : Transition.ModeVariable) (state : PropId) (i : ℕ)
    (τ : PropId → Bool) : Prop :=
  Says [w.propositions.getD i 0] [w.transition.getD 0 0, state] τ ∧
    ∀ p ∈ t.prototypes.autonomousTransitions,
      FailureSays w p.transitionValue.toNat p.consequent.2.toNat τ

theorem instantiateAutonomousClauses_adds {xs : List Transition.ProtoTransition}
    (hinv : e.Inv M.assignables) (hw : ∀ p ∈ w.all, p ∈ e.solver.props)
    (hxs : ∀ x ∈ xs, x.transitionValue.toNat < w.transition.length ∧
      x.consequent.2.toNat < w.propositions.length) :
    ∃ e', instantiateAutonomousClauses w xs e = .ok e' ∧
      Adds M (fun τ => ∀ x ∈ xs, FailureSays w x.transitionValue.toNat x.consequent.2.toNat τ) e e' := by
  induction xs generalizing e with
  | nil => exact ⟨e, rfl, Adds.refl hinv fun τ => by simp⟩
  | cons x xs ih =>
    obtain ⟨⟨hx₁, hx₂⟩, hrest⟩ := List.forall_mem_cons.mp hxs
    obtain ⟨htransition, hq⟩ := valueProp_eq hx₁
    obtain ⟨hconsequent, hp⟩ := valueProp_eq hx₂
    have hprops : ∀ p ∈ [w.propositions.getD x.consequent.2.toNat 0] ++
        [w.transition.getD x.transitionValue.toNat 0], p ∈ e.solver.props := by
      intro p hmem
      rcases List.mem_pair.mp hmem with rfl | rfl
      · exact hw _ (List.mem_append_left _ (List.mem_of_getElem? hp))
      · exact hw _ (List.mem_append_right _ (List.mem_of_getElem? hq))
    obtain ⟨e₁, he₁, hadds⟩ := createClause_adds hinv (by simp) hprops
    obtain ⟨e₂, he₂, hadds'⟩ := ih hadds.inv (fun p hp => hadds.props.symm ▸ hw p hp) hrest
    refine ⟨e₂, ?_, ?_⟩
    · unfold instantiateAutonomousClauses at he₂ ⊢
      rw [List.foldlM_cons]
      simp only [htransition, hconsequent, mapError_ok he₁, bind, Except.bind]
      exact he₂
    · simpa only [List.forall_mem_cons, FailureSays] using hadds.trans hadds'

theorem setInitialMode_adds {i : ℕ} (hinv : e.Inv M.assignables)
    (hw : ∀ p ∈ w.all, p ∈ e.solver.props) (hstate : state ∈ e.solver.props)
    (hi : i < w.propositions.length) (hpos : 0 < w.transition.length)
    (hrange : ∀ p ∈ t.prototypes.autonomousTransitions,
      p.transitionValue.toNat < w.transition.length ∧
        p.consequent.2.toNat < w.propositions.length) :
    ∃ e', setInitialMode w t state i e = .ok e' ∧ Adds M (ModeSays w t state i) e e' := by
  obtain ⟨hnominal, hq⟩ := valueProp_eq hpos
  obtain ⟨hvalue, hp⟩ := valueProp_eq hi
  have hprops : ∀ p ∈ [w.propositions.getD i 0] ++ [w.transition.getD 0 0, state],
      p ∈ e.solver.props := by
    intro p hmem
    simp only [List.singleton_append, List.mem_cons, List.not_mem_nil, or_false] at hmem
    rcases hmem with rfl | rfl | rfl
    · exact hw _ (List.mem_append_left _ (List.mem_of_getElem? hp))
    · exact hw _ (List.mem_append_right _ (List.mem_of_getElem? hq))
    · exact hstate
  obtain ⟨e₁, he₁, hadds⟩ := createClause_adds hinv (by simp) hprops
  obtain ⟨e₂, he₂, hadds'⟩ := instantiateAutonomousClauses_adds hadds.inv
    (fun p hp => hadds.props.symm ▸ hw p hp) hrange
  refine ⟨e₂, ?_, hadds.trans hadds'⟩
  unfold setInitialMode
  simp only [hnominal, hvalue, mapError_ok he₁, bind, Except.bind]
  exact he₂

/-- The variables below `n` have their initial values. -/
structure Starting (M : Session) (f : L2File) (entered : List Entered)
    (modes : List (Option Transition.ModeVariable)) (state : PropId) (e₁ : Engine) (n : ℕ)
    (e : Engine) : Prop where
  inv : e.Inv M.assignables
  grows : Grows M.assignables e₁ e
  memory : e.memory = e₁.memory
  assignables : e.assignables = e₁.assignables
  props : e.solver.props = e₁.solver.props
  others : ∀ u, (∀ v < n, ∀ y, f.vars[v]? = some y → y.kind = .observed → u ≠ assignable v) →
    e.current u = e₁.current u
  observed : ∀ v < n, ∀ y, f.vars[v]? = some y → y.kind = .observed →
    e.current (assignable v) = y.initial.map (Assignment.mk (assignable v))
  satisfies : ∀ β, e.solver.Satisfies β ↔ e₁.solver.Satisfies β ∧
    ∀ v < n, ∀ (y : L2rVariable) (w : Entered) (t : Transition.ModeVariable) (i : ℕ),
      f.vars[v]? = some y → entered[v]? = some w → modes[v]? = some (some t) → y.kind = .mode →
        y.initial = some i → ModeSays w t state i β

theorem Starting.refl (hinv : e₁.Inv M.assignables) : Starting M f entered modes state e₁ 0 e₁ :=
  ⟨hinv, Grows.refl _ _, rfl, rfl, rfl, fun _ _ => rfl, fun v hv => absurd hv (Nat.not_lt_zero v),
    fun _ => (and_iff_left fun v hv => absurd hv (Nat.not_lt_zero v)).symm⟩

/-- The variable `y` has its initial value, if any. -/
structure Sets (M : Session) (entered : List Entered)
    (modes : List (Option Transition.ModeVariable)) (state : PropId) (v : ℕ) (y : L2rVariable)
    (e e' : Engine) : Prop where
  inv : e'.Inv M.assignables
  grows : Grows M.assignables e e'
  memory : e'.memory = e.memory
  assignables : e'.assignables = e.assignables
  props : e'.solver.props = e.solver.props
  others : ∀ u, (y.kind = .observed → u ≠ assignable v) → e'.current u = e.current u
  observed : y.kind = .observed →
    e'.current (assignable v) = y.initial.map (Assignment.mk (assignable v))
  satisfies : ∀ β, e'.solver.Satisfies β ↔ e.solver.Satisfies β ∧
    ∀ (w : Entered) (t : Transition.ModeVariable) (i : ℕ), entered[v]? = some w →
      modes[v]? = some (some t) → y.kind = .mode → y.initial = some i → ModeSays w t state i β

theorem setInitial_sets (hM : Describes M f) (hf : Loadable f) (hinv : e.Inv M.assignables)
    (hy : f.vars[v]? = some y) (hw : entered[v]? = some w) (hin : EnteredAs f e v y w)
    (hmode : y.kind = .mode →
      ∃ t, modes[v]? = some (some t) ∧ Transition.createTransitions f v y.mode = .ok t)
    (hstate : state ∈ e.solver.props)
    (hinit : ∀ i, y.initial = some i → y.kind = .mode ∨ y.kind = .observed) :
    ∃ e', setInitial M f entered modes state e v = .ok e' ∧
      Sets M entered modes state v y e e' := by
  have hvar : (boundsCheckAccess v f.vars "variable").mapError WriteError.reader = .ok y :=
    mapError_ok (boundsCheckAccess_eq_ok.mpr hy)
  have hnone (hk : y.kind = .observed) : e.current (assignable v) = none := by
    rw [hin.current]
    simp [initially, hk]
  cases hi : y.initial with
  | none =>
    refine ⟨e, ?_, hinv, Grows.refl _ _, rfl, rfl, rfl, fun _ _ => rfl, fun hk => ?_, fun β => ?_⟩
    · simp only [setInitial, hvar, hi, bind, Except.bind]
      rfl
    · rw [hnone hk, hi]
      rfl
    · simp [hi]
  | some i =>
    have hlt : i < f.nmembers v := hf.wellFormed.initial v y i hy hi
    rcases hinit i hi with hk | hk
    · obtain ⟨t, hget, ht⟩ := hmode hk
      have hpos : 0 < w.transition.length := by
        rw [hin.transition hk]
        exact Nat.lt_of_lt_of_le Nat.zero_lt_one (Nat.le_add_right 1 _)
      have hrange : ∀ p ∈ t.prototypes.autonomousTransitions,
          p.transitionValue.toNat < w.transition.length ∧
            p.consequent.2.toNat < w.propositions.length := by
        refine (forall_autonomous (P := fun j x => j < w.transition.length ∧ x < w.propositions.length)
          hf hy hk ht).mpr fun n x hx _ => ?_
        have hn := (List.getElem?_eq_some_iff.mp hx).1
        have hto := (hf.wellFormed.failure v y hy x (List.mem_of_getElem? hx)).2.2.to_lt
        rw [hin.transition hk, hin.length, L2rMode.domainSize, Nat.add_comm 1]
        exact ⟨Nat.succ_lt_succ hn, hto⟩
      obtain ⟨e', he', hadds⟩ := setInitialMode_adds hinv hin.props hstate
        (hin.length.symm ▸ hlt) hpos hrange
      refine ⟨e', ?_, hadds.inv, hadds.grows, ?_, ?_, hadds.props, fun u _ => ?_,
        fun hobserved => ?_, fun β => ?_⟩
      · simp only [setInitial, hvar, hi, hk, hw, hget, Option.join_some, bind, Except.bind]
        exact he'
      · exact (congrArg (·.memory) hadds.rest : e'.memory = e.memory)
      · exact (congrArg (·.assignables) hadds.rest : e'.assignables = e.assignables)
      · exact (congrArg (fun e => e.current u) hadds.rest : e'.current u = e.current u)
      · cases hk.symm.trans hobserved
      · rw [hadds.satisfies]
        simp [hi, hk, hw, hget]
    · have hunknown : y.kind ≠ .unknown := by simp [hk]
      have hvalue : (M.assignables.assignments (assignable v))[i]? = some ⟨assignable v, i⟩ := by
        rw [hM.assignments v y hy hunknown]
        refine getElem?_valuesOf ?_
        rw [nvalues, if_neg (by simp [hk])]
        exact hlt
      obtain ⟨e', he', hinv', hre, hgrows, hmemory, hcur, hprops⟩ :=
        Engine.assign_first (a := ⟨assignable v, i⟩) hinv
          ⟨hin.registered hunknown, List.mem_of_getElem? hvalue⟩ (hnone hk)
      have hobserve : e.observe M.assignables (assignable v) i = .ok e' := by
        unfold Engine.observe Engine.assignIndex
        rw [if_neg (by omega), Int.toNat_natCast, hvalue]
        exact he'
      refine ⟨e', ?_, hinv', hgrows, hmemory, hre.assignables, hprops, fun u hu => ?_, fun _ => ?_,
        fun β => ?_⟩
      · simp only [setInitial, hvar, hi, hk, mapError_ok hobserve, bind, Except.bind]
      · rw [hcur, update_of_ne (hu hk)]
      · rw [hcur, update_self, hi]
        rfl
      · rw [hre.satisfies]
        simp [hk]

theorem Starting.step (h : Starting M f entered modes state e₁ n e) (hy : f.vars[n]? = some y)
    (hs : Sets M entered modes state n y e e') : Starting M f entered modes state e₁ (n + 1) e' := by
  refine ⟨hs.inv, h.grows.trans hs.grows, hs.memory.trans h.memory,
    hs.assignables.trans h.assignables, hs.props.trans h.props, fun u hu => ?_,
    fun v hv y' hy' hk => ?_, fun β => ?_⟩
  · rw [hs.others u fun hk => hu n (Nat.lt_succ_self n) y hy hk]
    exact h.others u fun v hv => hu v (Nat.lt_succ_of_lt hv)
  · rcases Nat.lt_succ_iff_lt_or_eq.mp hv with hv | rfl
    · rw [hs.others _ fun _ heq => hv.ne (assignable_inj heq)]
      exact h.observed v hv y' hy' hk
    · obtain rfl := Option.some.inj (hy.symm.trans hy')
      exact hs.observed hk
  · rw [hs.satisfies, h.satisfies, Nat.forall_lt_succ_right, and_assoc]
    refine and_congr_right fun _ => and_congr_right fun _ => ?_
    exact ⟨fun hall y' w t i hy' => Option.some.inj (hy.symm.trans hy') ▸ hall w t i,
      fun hall w t i => hall y w t i hy⟩

/-- The initial values are those of modes and of observed variables. -/
def Startable (f : L2File) : Prop :=
  ∀ (v : ℕ) (y : L2rVariable) (i : ℕ), f.vars[v]? = some y → y.initial = some i →
    y.kind = .mode ∨ y.kind = .observed

theorem setInitials_starting (hM : Describes M f) (hf : Loadable f) (hinit : Startable f)
    (hinv : e₁.Inv M.assignables) (hstate : state ∈ e₁.solver.props)
    (hlen : entered.length = f.vars.length)
    (hmodes : ∀ v y, f.vars[v]? = some y → y.kind = .mode →
      ∃ t, modes[v]? = some (some t) ∧ Transition.createTransitions f v y.mode = .ok t)
    (hentries : ∀ v w y, entered[v]? = some w → f.vars[v]? = some y → EnteredAs f e₁ v y w) :
    ∃ e, (List.range f.vars.length).foldlM (setInitial M f entered modes state) e₁ = .ok e ∧
      Starting M f entered modes state e₁ f.vars.length e := by
  refine Loop.foldlM_range (Starting M f entered modes state e₁) (fun v hv e he => ?_)
    (Starting.refl hinv)
  have hy := List.getElem?_eq_getElem hv
  have hw := List.getElem?_eq_getElem (hlen.symm ▸ hv)
  have hcur : e.current (assignable v) = e₁.current (assignable v) :=
    he.others _ fun u hu _ _ _ heq => hu.ne (assignable_inj heq).symm
  have hin : EnteredAs f e v _ _ :=
    (hentries v _ _ hw hy).mono hM hy he.grows (fun p hp => he.props.symm ▸ hp) hcur
  obtain ⟨e', he', hs⟩ := setInitial_sets hM hf he.inv hy hw hin (hmodes v _ hy)
    (he.props.symm ▸ hstate) fun i => hinit v _ i hy
  exact ⟨e', he', he.step hy hs⟩

/-- What the assignable variable with the identifier of `y` has in the initial state. -/
def atFirst (v : ℕ) (y : L2rVariable) : Option Assignment :=
  if y.kind = .observed then y.initial.map (Assignment.mk (assignable v)) else initially v y

/-- The engine `e'` has the initial state of the model that is in `e`. -/
structure Begun (M : Session) (f : L2File) (entered : List Entered)
    (modes : List (Option Transition.ModeVariable)) (state : PropId) (e e' : Engine) : Prop where
  inv : e'.Inv M.assignables
  memory : e'.memory = ({}, M.tracker.firstCandidates)
  grows : Grows M.assignables e e'
  assignables : e'.assignables = stateVar :: e.assignables
  new : state ∉ e.solver.props
  unit : e'.unit ⟨stateVar, 0⟩ = {(state, true)}
  current : ∀ v y, f.vars[v]? = some y → e'.current (assignable v) = atFirst v y
  satisfies : ∀ β, e'.solver.Satisfies β ↔ e.solver.Satisfies β ∧ β state = true ∧
    ∀ (v : ℕ) (y : L2rVariable) (w : Entered) (t : Transition.ModeVariable) (i : ℕ),
      f.vars[v]? = some y → entered[v]? = some w → modes[v]? = some (some t) → y.kind = .mode →
        y.initial = some i → ModeSays w t state i β

theorem createInitialState_begun (hM : Describes M f) (hstate : HasState M) (hf : Loadable f)
    (hinit : Startable f) (h : Loaded M f entered modes e) :
    ∃ state e', createInitialState M f entered modes e = .ok e' ∧ Begun M f entered modes state e e' := by
  have hvalues : (M.assignables.assignments stateVar).length = 1 := by
    rw [hstate.assignments]
    rfl
  have hfresh : stateVar ∉ e.assignables := fun hmem => by
    obtain ⟨v, -, hv, -⟩ := h.fresh _ hmem
    exact assignable_ne_stateVar v hv.symm
  obtain ⟨e₁, he₁, h₁⟩ := Engine.createAssignable_acquires h.inv hfresh (M.nodup stateVar)
    (by rw [hvalues]; decide) (M.assignmentOf_datum stateVar)
  rw [hvalues] at h₁
  have hlen : (e.solver.createPropositions 1).1.length = 1 := Ltms.createPropositions_length _ _
  obtain ⟨state, hstates⟩ := List.length_eq_one_iff.mp hlen
  rw [hstates] at h₁
  have hfirst : (M.assignables.assignments stateVar)[0]? = some ⟨stateVar, 0⟩ := by
    rw [hstate.assignments]
    rfl
  have hnew : state ∉ e.solver.props := h₁.gains.new _ (List.mem_singleton_self _)
  have hmem : state ∈ e₁.solver.props := (h₁.gains.props _).mpr (Or.inr (List.mem_singleton_self _))
  have hcur₁ (v : ℕ) : e₁.current (assignable v) = e.current (assignable v) := by
    rw [h₁.current, update_of_ne (assignable_ne_stateVar v)]
  have hentries : ∀ v w y, entered[v]? = some w → f.vars[v]? = some y → EnteredAs f e₁ v y w :=
    fun v w y hw hy => (h.entries v w y hw hy).mono hM hy h₁.grows
      (fun p hp => (h₁.gains.props p).mpr (Or.inl hp)) (hcur₁ v)
  obtain ⟨e₂, he₂, h₂⟩ := setInitials_starting hM hf hinit h₁.inv hmem h.length
    h.transitions hentries
  have hknown : e₂.Known M.assignables ⟨stateVar, 0⟩ := by
    refine ⟨?_, List.mem_of_getElem? hfirst⟩
    rw [h₂.assignables, h₁.assignables]
    exact List.mem_cons_self
  have hnone : e₂.current stateVar = none := by
    rw [h₂.others _ fun v _ _ _ _ => (assignable_ne_stateVar v).symm, h₁.current, update_self]
  obtain ⟨e₃, he₃, hinv₃, hre, hgrows₃, hmemory₃, hcur₃, -⟩ :=
    Engine.assign_first (a := ⟨stateVar, 0⟩) h₂.inv hknown hnone
  obtain ⟨b, s, hs, hinvs, ho, -⟩ := hinv₃.solver.propagate
  obtain ⟨hinv', hground⟩ := hinv₃.outline hinvs ho
  have hgrows : Grows M.assignables e₁ { e₃ with solver := s } :=
    (h₂.grows.trans hgrows₃).trans (Grows.of_sameGround hground)
  refine ⟨state, _, ?_, hinv', ?_, h₁.grows.trans hgrows, ?_, hnew, ?_, fun v y hy => ?_, fun β => ?_⟩
  · have hindex : e₂.assignIndex M.assignables stateVar 0 = .ok e₃ := by
      unfold Engine.assignIndex
      rw [hfirst]
      exact he₃
    unfold createInitialState
    rw [hstates]
    simp only [valueProp, List.getElem?_cons_zero, mapError_ok he₁, he₂, mapError_ok hindex,
      mapError_ok hs, bind, Except.bind]
    rfl
  · exact hmemory₃.trans (h₂.memory.trans (h₁.memory.trans h.memory))
  · exact hre.assignables.trans (h₂.assignables.trans h₁.assignables)
  · have hk : e₁.Known M.assignables ⟨stateVar, 0⟩ := by
      refine ⟨?_, List.mem_of_getElem? hfirst⟩
      rw [h₁.assignables]
      exact List.mem_cons_self
    rw [hgrows.unit _ hk]
    exact h₁.unit 0 _ _ hfirst rfl
  · change e₃.current (assignable v) = atFirst v y
    rw [hcur₃, update_of_ne (assignable_ne_stateVar v)]
    have hv := (List.getElem?_eq_some_iff.mp hy).1
    unfold atFirst
    split_ifs with hk
    · exact h₂.observed v hv y hy hk
    · have hw := List.getElem?_eq_getElem (h.length.symm ▸ hv : v < entered.length)
      rw [h₂.others _ fun u _ y' hy' hk' heq => ?_, hcur₁]
      · exact (h.entries v _ y hw hy).current
      · obtain rfl := assignable_inj heq
        obtain rfl := Option.some.inj (hy.symm.trans hy')
        exact hk hk'
  · rw [hground.reassigned.satisfies, hre.satisfies, h₂.satisfies, h₁.gains.satisfies, and_assoc]
    refine and_congr_right fun _ => and_congr (by simp [exactlyOne_iff]) ?_
    refine ⟨fun hall v y w t i hy => ?_, fun hall v _ y w t i hy => hall v y w t i hy⟩
    exact hall v (List.getElem?_eq_some_iff.mp hy).1 y w t i hy

/-- The value `x` of a mode follows from its initial value `i` when its transition has the value
`j`. -/
def Follows (m : L2rMode) (i x j : ℕ) : Prop :=
  (j = 0 → x = i) ∧ ∀ (n : ℕ) (t : L2rTransition), m.failure[n]? = some t → t.clauses = [] →
    j = n + 1 → x = t.toMode

/-- The state follows from the initial values of the modes. -/
def Starts (f : L2File) (a b : ℕ → ℕ) : Prop :=
  ∀ (v : ℕ) (y : L2rVariable) (i : ℕ), f.vars[v]? = some y → y.kind = .mode →
    y.initial = some i → Follows y.mode i (a v) (b v)

theorem says_iff {pos neg : List PropId} :
    Says pos neg τ ↔ ((∀ q ∈ neg, τ q = true) → ∃ p ∈ pos, τ p = true) := by
  constructor
  · rintro (hpos | ⟨q, hq, hfalse⟩) hall
    · exact hpos
    · cases (hall q hq).symm.trans hfalse
  · intro himp
    by_cases hall : ∀ q ∈ neg, τ q = true
    · exact Or.inl (himp hall)
    · push Not at hall
      exact Or.inr (by simpa using hall)

theorem modeSays_iff {i : ℕ} (hf : Loadable f) (hp : Pictures f entered τ a b)
    (hy : f.vars[v]? = some y) (hw : entered[v]? = some w) (hin : EnteredAs f e v y w)
    (hk : y.kind = .mode) (ht : Transition.createTransitions f v y.mode = .ok t)
    (hi : y.initial = some i) (htrue : τ state = true) :
    ModeSays w t state i τ ↔ Follows y.mode i (a v) (b v) := by
  have hvalue {x : ℕ} (hx : x < f.nmembers v) :
      τ (w.propositions.getD x 0) = true ↔ a v = x :=
    hp.shows v w hw x _ (valueProp_eq (hin.length.symm ▸ hx)).2
  have htransition {j : ℕ} (hj : j < y.mode.domainSize) :
      τ (w.transition.getD j 0) = true ↔ b v = j :=
    hp.showsTransition v w y hw hy hk j _ (valueProp_eq ((hin.transition hk).symm ▸ hj)).2
  have hnominal : 0 < y.mode.domainSize := by
    unfold L2rMode.domainSize
    omega
  unfold ModeSays Follows
  rw [forall_autonomous (P := fun j x => FailureSays w j x τ) hf hy hk ht]
  refine and_congr ?_ (forall_congr' fun n => forall_congr' fun x => forall_congr' fun hx =>
    forall_congr' fun _ => ?_)
  · rw [says_iff]
    simp only [List.mem_cons, List.not_mem_nil, or_false, forall_eq_or_imp, forall_eq, exists_eq_left,
      htrue, and_true, htransition hnominal, hvalue (hf.wellFormed.initial v y i hy hi)]
  · have hn : n + 1 < y.mode.domainSize := by
      have hlt := (List.getElem?_eq_some_iff.mp hx).1
      unfold L2rMode.domainSize
      omega
    have hto := (hf.wellFormed.failure v y hy x (List.mem_of_getElem? hx)).2.2.to_lt
    unfold FailureSays
    rw [says_iff]
    simp only [List.mem_singleton, forall_eq, exists_eq_left, htransition hn, hvalue hto]

/-- The clauses of the initial state are those of the states that follow from it. -/
theorem Begun.satisfies_iff (hb : Begun M f entered modes state e e') (hf : Loadable f)
    (h : Loaded M f entered modes e) : e'.solver.Satisfies τ ↔
      τ state = true ∧ ∃ a b, Pictures f entered τ a b ∧ Starts f a b := by
  have hmodes {a b : ℕ → ℕ} (hp : Pictures f entered τ a b) (htrue : τ state = true) :
      (∀ (v : ℕ) (y : L2rVariable) (w : Entered) (t : Transition.ModeVariable) (i : ℕ),
        f.vars[v]? = some y → entered[v]? = some w → modes[v]? = some (some t) → y.kind = .mode →
          y.initial = some i → ModeSays w t state i τ) ↔ Starts f a b := by
    refine ⟨fun hall v y i hy hk hi => ?_, fun hall v y w t i hy hw hget hk hi => ?_⟩
    · have hw := List.getElem?_eq_getElem
        (h.length.symm ▸ (List.getElem?_eq_some_iff.mp hy).1 : v < entered.length)
      obtain ⟨t, hget, ht⟩ := h.transitions v y hy hk
      exact (modeSays_iff hf hp hy hw (h.entries v _ y hw hy) hk ht hi htrue).mp
        (hall v y _ t i hy hw hget hk hi)
    · obtain ⟨t', hget', ht⟩ := h.transitions v y hy hk
      obtain rfl := Option.some.inj (Option.some.inj (hget'.symm.trans hget))
      exact (modeSays_iff hf hp hy hw (h.entries v w y hw hy) hk ht hi htrue).mpr
        (hall v y i hy hk hi)
  rw [hb.satisfies, h.satisfies]
  constructor
  · rintro ⟨⟨a, b, hp⟩, htrue, hall⟩
    exact ⟨htrue, a, b, hp, (hmodes hp htrue).mp hall⟩
  · rintro ⟨htrue, a, b, hp, hall⟩
    exact ⟨⟨a, b, hp⟩, htrue, (hmodes hp htrue).mpr hall⟩

/-- What has the value of the state variable, or a value of a variable of the file. -/
theorem Begun.unit_iff (hb : Begun M f entered modes state e e') (hM : Describes M f)
    (hstate : HasState M) (h : Loaded M f entered modes e) (hp : Pictures f entered τ a b)
    (htrue : τ state = true) {x : Assignment} (hx : e'.Known M.assignables x) :
    (∃ l ∈ e'.unit x, τ l.1 = l.2) ↔ Agrees f a b x := by
  obtain ⟨hmem, hvalue⟩ := hx
  rw [hb.assignables] at hmem
  rcases List.mem_cons.mp hmem with hvar | hmem
  · rw [hvar, hstate.assignments] at hvalue
    obtain rfl := List.mem_singleton.mp hvalue
    rw [hb.unit]
    refine iff_of_true ⟨_, rfl, htrue⟩ fun v _ _ heq => absurd heq.symm (assignable_ne_stateVar v)
  · rw [hb.grows.unit x ⟨hmem, hvalue⟩]
    exact h.unit_iff hM hp ⟨hmem, hvalue⟩

theorem Loaded.pictures_update (h : Loaded M f entered modes e) (hnew : state ∉ e.solver.props)
    (hp : Pictures f entered τ a b) (value : Bool) :
    Pictures f entered (update τ state value) a b := by
  have hother {v : ℕ} {w : Entered} (hw : entered[v]? = some w) {p : PropId} (hmem : p ∈ w.all) :
      update τ state value p = τ p := by
    have hv := (List.getElem?_eq_some_iff.mp hw).1
    rw [h.length] at hv
    have hprops := (h.entries v w _ hw (List.getElem?_eq_getElem hv)).props p hmem
    exact update_of_ne (fun heq : p = state => hnew (heq ▸ hprops)) _ _
  refine ⟨hp.toIsState, fun v w hw j p hj => ?_, fun v w y hw hy hk j p hj => ?_⟩
  · rw [hother hw (List.mem_append_left _ (List.mem_of_getElem? hj))]
    exact hp.shows v w hw j p hj
  · rw [hother hw (List.mem_append_right _ (List.mem_of_getElem? hj))]
    exact hp.showsTransition v w y hw hy hk j p hj

/-- An assignment of the state variable agrees with every state of the model. -/
theorem Begun.known_cases (hb : Begun M f entered modes state e e') {x : Assignment}
    (hx : e'.Known M.assignables x) :
    x.var = stateVar ∧ (∀ a b, Agrees f a b x) ∨ e.Known M.assignables x := by
  obtain ⟨hmem, hvalue⟩ := hx
  rw [hb.assignables] at hmem
  rcases List.mem_cons.mp hmem with hvar | hmem
  · exact Or.inl ⟨hvar, fun a b v y _ heq =>
      absurd (heq.symm.trans hvar) (assignable_ne_stateVar v)⟩
  · exact Or.inr ⟨hmem, hvalue⟩

theorem Begun.explains_iff {t : Engine} (hb : Begun M f entered modes state e e') (hM : Describes M f)
    (hstate : HasState M) (hf : Loadable f) (h : Loaded M f entered modes e)
    (hinv : t.Inv M.assignables) (hre : e'.Reassigned t) {Δ : Finset Assignment}
    (hΔ : ∀ x ∈ Δ, x ∈ M.assignables.assignments x.var) :
    t.Explains M.assignables Δ τ ↔ τ state = true ∧
      ∃ a b, Pictures f entered τ a b ∧ Starts f a b ∧ Explained M f e t Δ a b := by
  unfold Engine.Explains
  rw [hinv.satisfies_under_iff, hre.satisfies, hb.satisfies_iff hf h]
  simp only [hre.unit]
  constructor
  · rintro ⟨⟨htrue, a, b, hp, hstarts⟩, hcurrent, hunits⟩
    refine ⟨htrue, a, b, hp, hstarts, fun x hx hassumption hcur => ?_, fun x hx hassumption hholds => ?_⟩
    · exact (hb.unit_iff hM hstate h hp htrue (hb.grows.known hx)).mp (hcurrent x hcur hassumption)
    · have hmem : x.var ∈ t.assumptions := by
        rw [hre.assumptions, hb.inv.assumptions]
        exact ⟨(hb.grows.known hx).1, hassumption⟩
      exact (hb.unit_iff hM hstate h hp htrue (hb.grows.known hx)).mp (hunits x ⟨hmem, hholds⟩)
  · rintro ⟨htrue, a, b, hp, hstarts, hexplained⟩
    refine ⟨⟨htrue, a, b, hp, hstarts⟩, fun x hcur hassumption => ?_, fun x hx => ?_⟩
    · have hknown := (hre.known x).mp (hinv.current _ x hcur).2
      rw [hb.unit_iff hM hstate h hp htrue hknown]
      rcases hb.known_cases hknown with ⟨-, hagrees⟩ | hx
      · exact hagrees a b
      · exact hexplained.current x hx hassumption hcur
    · obtain ⟨hmem, hholds⟩ := hx
      rw [hre.assumptions] at hmem
      obtain ⟨hassignable, hassumption⟩ := (hb.inv.assumptions _).mp hmem
      have hvalue : x ∈ M.assignables.assignments x.var := by
        rcases hholds with hx | ⟨hdefault, -⟩
        · exact hΔ x hx
        · have hdefmem := M.assignables.default_mem x.var hassumption
          rwa [← Assignables.isDefault_eq hdefault] at hdefmem
      rw [hb.unit_iff hM hstate h hp htrue ⟨hassignable, hvalue⟩]
      rcases hb.known_cases ⟨hassignable, hvalue⟩ with ⟨-, hagrees⟩ | hx
      · exact hagrees a b
      · exact hexplained.held x hx hassumption hholds

theorem Begun.good (hb : Begun M f entered modes state e e') (t₀ : Tracked) :
    M.Good { t₀ with engine := e' } :=
  Session.good_of_memory hb.inv hb.memory _ _

/-- After the initial state has been created, whatever is observed, searched and installed, the
assumptions that explain what is observed are those of some state of the model that follows from the
initial values, with the observed values. -/
theorem started_explained (hM : Describes M f) (hstate : HasState M) (hf : Loadable f)
    (hinit : Startable f) (h₀ : M.tracker.new M.assignables fuel = .ok t₀)
    (hw : write M f t₀.engine = .ok (entered, modes, e)) :
    ∃ e', createInitialState M f entered modes e = .ok e' ∧
      ∀ (kind : Call → Bool) (t : Tracked), (∀ call, kind call = true → call.asks = true) →
        M.Leads kind { t₀ with engine := e' } t →
        ∀ Δ : Finset Assignment, (∀ x ∈ Δ, x ∈ M.assignables.assignments x.var) →
          ((∃ β, t.engine.Explains M.assignables Δ β) ↔
            ∃ a b, IsState f a b ∧ Starts f a b ∧ Explained M f e t.engine Δ a b) := by
  have h := write_eq_loaded hM hf h₀ hw
  obtain ⟨state, e', he', hb⟩ := createInitialState_begun hM hstate hf hinit h
  have hstart := hb.good t₀
  refine ⟨e', he', fun kind t hasks hl Δ hΔ => ?_⟩
  have hgood := (hstart.leads hl).1
  have hre := hstart.leads_reassigned hasks hl
  constructor
  · rintro ⟨β, hβ⟩
    obtain ⟨-, a, b, hp, hrest⟩ :=
      (hb.explains_iff hM hstate hf h hgood.inv hre hΔ).mp hβ
    exact ⟨a, b, hp.toIsState, hrest⟩
  · rintro ⟨a, b, hs, hrest⟩
    obtain ⟨τ, hp⟩ := h.exists_pictures hs
    refine ⟨update τ state true, ?_⟩
    exact (hb.explains_iff hM hstate hf h hgood.inv hre hΔ).mpr
      ⟨update_self _ _ _, a, b, h.pictures_update hb.new hp true, hrest⟩

/-- The transitions of the state that are not nominal, with the value of the state variable. -/
def failuresOf (f : L2File) (b : ℕ → ℕ) : Finset Assignment :=
  insert ⟨stateVar, 0⟩ (((Finset.range f.vars.length).filter fun v =>
    (f.vars[v]?).any (·.kind = .mode) ∧ b v ≠ 0).image fun v => ⟨assignable v, b v⟩)

theorem mem_failuresOf {x : Assignment} : x ∈ failuresOf f b ↔ x = ⟨stateVar, 0⟩ ∨
    ∃ v y, f.vars[v]? = some y ∧ y.kind = .mode ∧ b v ≠ 0 ∧ x = ⟨assignable v, b v⟩ := by
  unfold failuresOf
  simp only [Finset.mem_insert, Finset.mem_image, Finset.mem_filter, Finset.mem_range,
    Option.any_eq_true, decide_eq_true_eq]
  refine or_congr_right ⟨?_, ?_⟩
  · rintro ⟨v, ⟨-, ⟨y, hy, hk⟩, hb⟩, rfl⟩
    exact ⟨v, y, hy, hk, hb, rfl⟩
  · rintro ⟨v, y, hy, hk, hb, rfl⟩
    exact ⟨v, ⟨(List.getElem?_eq_some_iff.mp hy).1, ⟨y, hy, hk⟩, hb⟩, rfl⟩

theorem holds_failuresOf_iff (hM : Describes M f) (hy : f.vars[v]? = some y) (hk : y.kind = .mode)
    {x : Assignment} (hx : x.var = assignable v) :
    M.assignables.Holds (failuresOf f b) x ↔ b v = x.index := by
  obtain ⟨u, j⟩ := x
  obtain rfl : u = assignable v := hx
  have hmem : (⟨assignable v, b v⟩ : Assignment) ∈ failuresOf f b ↔ b v ≠ 0 := by
    rw [mem_failuresOf]
    constructor
    · rintro (heq | ⟨v', y', -, -, hb, heq⟩)
      · exact absurd (congrArg Assignment.var heq) (assignable_ne_stateVar v)
      · rwa [assignable_inj (congrArg Assignment.var heq)]
    · exact fun hb => Or.inr ⟨v, y, hy, hk, hb, rfl⟩
  have hvar : ∀ c ∈ failuresOf f b, c.var = assignable v → c = ⟨assignable v, b v⟩ := by
    intro c hc heq
    rcases mem_failuresOf.mp hc with rfl | ⟨v', y', -, -, -, rfl⟩
    · exact absurd heq.symm (assignable_ne_stateVar v)
    · rw [assignable_inj heq]
  have hdefault : M.assignables.defaultAssignment (assignable v) = ⟨assignable v, 0⟩ :=
    hM.default v y hy hk
  constructor
  · rintro (hΔ | ⟨hd, hnone⟩)
    · exact (congrArg Assignment.index (hvar _ hΔ rfl)).symm
    · have hj := congrArg Assignment.index ((Assignables.isDefault_eq hd).trans hdefault)
      by_contra hne
      refine hnone _ (hmem.mpr fun hb => hne (hb.trans hj.symm)) rfl
  · rintro rfl
    by_cases hb : b v = 0
    · refine Or.inr ⟨?_, fun c hc heq => ?_⟩
      · unfold Assignables.isDefault
        rw [(hM.isAssumption v y hy).mpr hk, hdefault]
        simpa using hb
      · exact hmem.mp (hvar c hc heq ▸ hc) hb
    · exact Or.inl (hmem.mpr hb)

theorem Begun.isSelection (hb : Begun M f entered modes state e e') (hM : Describes M f)
    (hstate : HasState M) (h : Loaded M f entered modes e) (hs : IsState f a b) :
    (e'.space M.assignables).IsSelection (failuresOf f b) := by
  refine ⟨fun x hx => ?_, fun x hx z hz heq => ?_⟩
  · rcases mem_failuresOf.mp hx with rfl | ⟨v, y, hy, hk, -, rfl⟩
    · refine ⟨(hb.inv.assumptions _).mpr ⟨?_, hstate.isAssumption⟩, ?_⟩
      · rw [hb.assignables]
        exact List.mem_cons_self
      · change _ ∈ M.assignables.assignments stateVar
        rw [hstate.assignments]
        exact List.mem_singleton_self _
    · have hv := (List.getElem?_eq_some_iff.mp hy).1
      have hw := List.getElem?_eq_getElem (h.length.symm ▸ hv : v < entered.length)
      have hunknown : y.kind ≠ .unknown := by simp [hk]
      refine ⟨(hb.inv.assumptions _).mpr ⟨?_, (hM.isAssumption v y hy).mpr hk⟩, ?_⟩
      · exact hb.grows.assignables _ ((h.entries v _ y hw hy).registered hunknown)
      · change _ ∈ M.assignables.assignments (assignable v)
        rw [hM.assignments v y hy hunknown]
        refine List.mem_of_getElem? (i := b v) (getElem?_valuesOf ?_)
        rw [nvalues, if_pos hk]
        exact hs.transition v y hy hk
  · rcases mem_failuresOf.mp hx with rfl | ⟨v, y, -, -, -, rfl⟩ <;>
      rcases mem_failuresOf.mp hz with rfl | ⟨v', y', -, -, -, rfl⟩
    · rfl
    · exact absurd heq.symm (assignable_ne_stateVar v')
    · exact absurd heq (assignable_ne_stateVar v)
    · rw [assignable_inj heq]

theorem Begun.holds_of_agrees (hb : Begun M f entered modes state e e') (hM : Describes M f)
    (hstate : HasState M) (h : Loaded M f entered modes e) {x : Assignment}
    (hx : e'.Known M.assignables x) (hassumption : M.assignables.isAssumption x.var = true)
    (hagrees : Agrees f a b x) : M.assignables.Holds (failuresOf f b) x := by
  rcases hb.known_cases (f := f) hx with ⟨hvar, -⟩ | hold
  · refine Or.inl (mem_failuresOf.mpr (Or.inl ?_))
    have hvalue := hx.2
    rw [hvar, hstate.assignments] at hvalue
    exact List.mem_singleton.mp hvalue
  · obtain ⟨v, -, hvar, y, hy, -⟩ := h.fresh _ hold.1
    have hk : y.kind = .mode := (hM.isAssumption v y hy).mp (hvar ▸ hassumption)
    refine (holds_failuresOf_iff hM hy hk hvar).mpr ?_
    simpa [hk] using hagrees v y hy hvar

/-- No state of the model is ruled out. When it follows from the initial values and has the values
that have been observed, each stored conflict blames an assumption that it does not make; and while
its failures cost no more than the cutoff, a search that is not cut short leaves a candidate. -/
theorem started_diagnosed (hM : Describes M f) (hstate : HasState M) (hf : Loadable f)
    (hinit : Startable f) (h₀ : M.tracker.new M.assignables fuel = .ok t₀)
    (hw : write M f t₀.engine = .ok (entered, modes, e)) :
    ∃ e', createInitialState M f entered modes e = .ok e' ∧
      ∀ (kind : Call → Bool) (t : Tracked), (∀ call, kind call = true → call.asks = true) →
        M.Leads kind { t₀ with engine := e' } t →
        ∀ a b, IsState f a b → Starts f a b →
          (∀ x, e.Known M.assignables x → M.assignables.isAssumption x.var = false →
            t.engine.current x.var = some x → Agrees f a b x) →
          (∀ c ∈ t.engine.db.conflicts,
            ∃ x ∈ (t.engine.db.conflict c).assignments, ¬ Agrees f a b x) ∧
          ((t.engine.space M.assignables).RanksFit 0 → M.tracker.stateVariable = stateVar →
            0 < M.tracker.numberTracked →
            M.tracker.limits.Admits (M.assignables.rank (failuresOf f b)) →
            ∀ timestep fuel t', M.apply timestep fuel t (.diagnose .pruneAndSearch) = .ok t' →
              t'.termination ≠ .maxOverrun → t'.engine.candidates ≠ []) := by
  have h := write_eq_loaded hM hf h₀ hw
  obtain ⟨state, e', he', hb⟩ := createInitialState_begun hM hstate hf hinit h
  have hstart := hb.good t₀
  refine ⟨e', he', fun kind t hasks hl a b hs hstarts hcurrent => ?_⟩
  have hgood := (hstart.leads hl).1
  have hre := hstart.leads_reassigned hasks hl
  have hselection := hb.isSelection hM hstate h hs
  have hspace : t.engine.space M.assignables = e'.space M.assignables :=
    Engine.space_eq hre.assumptions
  have hexplained : Explained M f e t.engine (failuresOf f b) a b := by
    refine ⟨hcurrent, fun x hx hassumption hholds v y hy hvar => ?_⟩
    have hk : y.kind = .mode := (hM.isAssumption v y hy).mp (hvar ▸ hassumption)
    simpa [hk] using (holds_failuresOf_iff hM hy hk hvar).mp hholds
  obtain ⟨τ, hp⟩ := h.exists_pictures hs
  have hβ : t.engine.Explains M.assignables (failuresOf f b) (update τ state true) :=
    (hb.explains_iff hM hstate hf h hgood.inv hre fun x hx => (hselection.known x hx).2).mpr
      ⟨update_self _ _ _, a, b, h.pictures_update hb.new hp true, hstarts, hexplained⟩
  refine ⟨fun c hc => ?_, fun hfit hvar hnumber hadmits timestep fuel t' ht' hmax hnil => ?_⟩
  · obtain ⟨x, hx, hnot⟩ := hβ.resolves (hgood.justified c hc)
    obtain ⟨hmem, hvalue⟩ := hgood.justified c hc |>.1 x hx
    have hmem' : x.var ∈ e'.assumptions := hre.assumptions ▸ hmem
    obtain ⟨hassignable, hassumption⟩ := (hb.inv.assumptions _).mp hmem'
    exact ⟨x, hx, fun hagrees =>
      hnot (hb.holds_of_agrees hM hstate h ⟨hassignable, hvalue⟩ hassumption hagrees)⟩
  · have hfirst : (⟨stateVar, 0⟩ : Assignment) ∈ failuresOf f b := mem_failuresOf.mpr (Or.inl rfl)
    have hmem : M.tracker.stateVariable ∈ t.engine.assumptions := by
      rw [hvar, hre.assumptions]
      exact (hselection.known _ hfirst).1
    obtain ⟨-, hnone⟩ := M.tracker.pruneAndSearch_explains hgood.inv hgood.justified hfit hgood.legal
      hmem hnumber ht'
    exact hnone hnil hmax _ (hspace ▸ hselection) ⟨_, hfirst, hvar.symm⟩ hadmits hβ.consistent

theorem hasState_lamp : HasState lampModel := ⟨rfl, rfl, rfl⟩

theorem startable_lamp : Startable lampFile := by
  intro v y i hy hi
  have hv : v < 3 := (List.getElem?_eq_some_iff.mp hy).1
  interval_cases v <;> obtain rfl := Option.some.inj hy <;> cases hi
  exact Or.inl rfl

theorem isState_lamp : IsState lampFile (fun _ => 0) fun _ => 0 where
  valid v hv := by
    have hv : v < 3 := hv
    interval_cases v <;> decide
  background c hc _ := by
    obtain rfl := List.mem_singleton.mp hc
    exact ⟨.varValue ⟨0, false, 1⟩, by decide, by decide⟩
  transition v y hy hk := by
    unfold L2rMode.domainSize
    omega

theorem starts_lamp : Starts lampFile (fun _ => 0) fun _ => 0 := by
  intro v y i hy hk hi
  have hv : v < 3 := (List.getElem?_eq_some_iff.mp hy).1
  refine ⟨fun _ => ?_, fun n t _ _ hn => by cases hn⟩
  interval_cases v <;> obtain rfl := Option.some.inj hy <;> cases hi
  rfl

theorem explained_lamp (hb : Begun lampModel lampFile entered modes state e e') :
    Explained lampModel lampFile e e' ∅ (fun _ => 0) fun _ => 0 := by
  refine ⟨fun x _ _ hcur v y hy hvar => ?_, fun x _ _ hholds v y _ _ => ?_⟩
  · rw [hvar, hb.current v y hy] at hcur
    have hv : v < 3 := (List.getElem?_eq_some_iff.mp hy).1
    interval_cases v <;> obtain rfl := Option.some.inj hy <;> cases hcur <;> rfl
  · rcases hholds with hmem | ⟨hdefault, -⟩
    · exact absurd hmem (Finset.notMem_empty x)
    · have hx := congrArg Assignment.index (Assignables.isDefault_eq hdefault)
      split_ifs
      · exact hx.symm
      · exact hx.symm

theorem ranksFit_lamp (hinv : e.Inv lampModel.assignables) :
    (e.space lampModel.assignables).RanksFit 0 := by
  intro Δ hΔ
  have hsub : Δ ⊆ {⟨stateVar, 0⟩, ⟨assignable 0, 0⟩, ⟨assignable 0, 1⟩} := by
    intro x hx
    obtain ⟨hmem, hvalue⟩ := hΔ.known x hx
    obtain ⟨-, hassumption⟩ := (hinv.assumptions _).mp hmem
    obtain ⟨u, j⟩ := x
    rcases of_decide_eq_true hassumption with hu | hu
    · obtain rfl : u = assignable 0 := hu
      rcases List.mem_pair.mp hvalue with hx | hx
      · simp [hx]
      · simp [hx]
    · obtain rfl : u = stateVar := hu
      simp [List.mem_singleton.mp hvalue]
  have hlt : UInt32.toNat 0 + lampModel.assignables.rank
      {⟨stateVar, 0⟩, ⟨assignable 0, 0⟩, ⟨assignable 0, 1⟩} < 2 ^ 32 := by decide
  exact (Nat.add_le_add_left (Assignables.rank_mono hsub) _).trans_lt hlt

theorem started_explained_lamp : ∃ (t₀ : Tracked) (entered : List Entered) (modes : _)
    (e e' : Engine), write lampModel lampFile t₀.engine = .ok (entered, modes, e) ∧
      createInitialState lampModel lampFile entered modes e = .ok e' ∧
        ∃ β, e'.Explains lampModel.assignables ∅ β := by
  obtain ⟨fuel, t₀, h₀⟩ := new_lamp
  obtain ⟨entered, modes, e, hw, h⟩ := write_loaded describes_lamp loadable_lamp h₀
  obtain ⟨state, e', he', hb⟩ :=
    createInitialState_begun describes_lamp hasState_lamp loadable_lamp startable_lamp h
  obtain ⟨e'', he'', hall⟩ :=
    started_explained describes_lamp hasState_lamp loadable_lamp startable_lamp h₀ hw
  obtain rfl := Except.ok.inj (he'.symm.trans he'')
  refine ⟨t₀, entered, modes, e, e', hw, he', ?_⟩
  refine (hall Call.asks _ (fun _ h => h) Relation.ReflTransGen.refl ∅ (by simp)).mpr ?_
  exact ⟨_, _, isState_lamp, starts_lamp, explained_lamp hb⟩

/-- A search in the initial state finds something. -/
theorem started_diagnosed_lamp : ∃ (t₀ : Tracked) (entered : List Entered) (modes : _)
    (e e' : Engine) (fuel : ℕ) (t' : Tracked),
    write lampModel lampFile t₀.engine = .ok (entered, modes, e) ∧
      createInitialState lampModel lampFile entered modes e = .ok e' ∧
        lampModel.apply 0 fuel { t₀ with engine := e' } (.diagnose .pruneAndSearch) = .ok t' ∧
          (t'.termination ≠ .maxOverrun → t'.engine.candidates ≠ []) := by
  obtain ⟨fuel, t₀, h₀⟩ := new_lamp
  obtain ⟨entered, modes, e, hw, h⟩ := write_loaded describes_lamp loadable_lamp h₀
  obtain ⟨state, e', he', hb⟩ :=
    createInitialState_begun describes_lamp hasState_lamp loadable_lamp startable_lamp h
  obtain ⟨e'', he'', hall⟩ :=
    started_diagnosed describes_lamp hasState_lamp loadable_lamp startable_lamp h₀ hw
  obtain rfl := Except.ok.inj (he'.symm.trans he'')
  have hfit := ranksFit_lamp hb.inv
  have hvalid : lampModel.Valid { t₀ with engine := e' } (.diagnose .pruneAndSearch) := by
    refine ⟨by decide, hfit, fun _ => (hb.inv.assumptions _).mpr ⟨?_, rfl⟩⟩
    rw [hb.assignables]
    exact List.mem_cons_self
  obtain ⟨K, htotal⟩ := ((hb.good t₀).returns hvalid 0).1
  obtain ⟨t', ht'⟩ := htotal (K + 1) (Nat.lt_succ_self K)
  refine ⟨t₀, entered, modes, e, e', K + 1, t', hw, he', ht', fun hmax => ?_⟩
  obtain ⟨-, hsearch⟩ := hall Call.asks _ (fun _ h => h) Relation.ReflTransGen.refl _ _ isState_lamp
    starts_lamp (explained_lamp hb).current
  exact hsearch hfit rfl (by decide) (Or.inl rfl) 0 (K + 1) t' ht' hmax

end ToTSystem

end Livingstone
