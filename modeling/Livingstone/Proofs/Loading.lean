import Livingstone.Diagnosis.Meaning
import Livingstone.Proofs.DiagnosisRuns
import Livingstone.Proofs.Expansion
import Livingstone.Proofs.TransitionCosts
import Livingstone.Readers.ToTSystem

/-! A model that is put into the engine. The valuations that satisfy the clauses of the engine are
those that show a state of the model: every variable has one of its values, and so has the transition
of every mode, and the background of the model holds. -/

namespace Livingstone

open OneHot (Shows ExactlyOne)

def Call.asks : Call → Bool
  | .observe _ _ => true
  | .install _ => true
  | .diagnose _ => true
  | _ => false

namespace Session

variable {M : Session} {t t' : Tracked} {kind : Call → Bool}

theorem Good.observe_reassigned (h : M.Good t) {v : VarId} {value : ℤ} {timestep fuel : ℕ}
    (ht' : M.apply timestep fuel t (.observe v value) = .ok t') :
    t.engine.Reassigned t'.engine := by
  simp only [apply, observe] at ht'
  split_ifs at ht' with haccepts
  · unfold accepts at haccepts
    simp only [Bool.and_eq_true, decide_eq_true_eq, Bool.not_eq_true', Bool.and_eq_false_iff,
      decide_eq_false_iff_not] at haccepts
    obtain ⟨⟨hmem, -⟩, hrange⟩ := haccepts
    obtain ⟨e', he', -, hre, -⟩ := Engine.observe_spec h.inv hmem
      fun hle : 0 ≤ value => not_le.mp (hrange.resolve_left (not_not_intro hle))
    rw [he'] at ht'
    obtain rfl := Except.ok.inj ht'
    exact hre
  · obtain rfl := Except.ok.inj ht'
    exact Engine.Reassigned.refl _

theorem Good.leads_reassigned (h : M.Good t) (hasks : ∀ call, kind call = true → call.asks = true)
    (hl : M.Leads kind t t') : t.engine.Reassigned t'.engine := by
  induction hl with
  | refl => exact Engine.Reassigned.refl _
  | @tail t₁ t₂ hl hn ih =>
    have hgood := (h.leads hl).1
    obtain ⟨call, timestep, fuel, hkind, hv, ht₂⟩ := hn
    refine ih.trans ?_
    cases call with
    | observe v value => exact hgood.observe_reassigned ht₂
    | install candIdx =>
      exact (((hgood.returns hv timestep).2 fuel t₂ ht₂).searched rfl).1.reassigned
    | diagnose style =>
      exact (((hgood.returns hv timestep).2 fuel t₂ ht₂).searched rfl).1.reassigned
    | createAssignable v => cases hasks _ hkind
    | createDependent n => cases hasks _ hkind
    | createClause positive negative isVolatile inTheory => cases hasks _ hkind

end Session

namespace ToTSystem

open Function (update update_self update_of_ne)
open Engine (Grows Acquires)

variable {M : Session} {f : L2File} {e e' : Engine} {t₀ : Tracked} {i v fuel : ℕ} {y : L2rVariable}
  {w : Entered} {entered : List Entered} {modes : List (Option Transition.ModeVariable)} {x : List Entered × Engine} {τ : PropId → Bool}

theorem assignable_inj {v w : ℕ} (h : assignable v = assignable w) : v = w :=
  congrArg VarId.id h

/-- The number of values of the assignable variable with the identifier of `y`. -/
def nvalues (f : L2File) (v : ℕ) (y : L2rVariable) : ℕ :=
  if y.kind = .mode then y.mode.domainSize else f.nmembers v

/-- The values of that variable, if it is there. -/
def valuesOf (f : L2File) (v : ℕ) (y : L2rVariable) : List Assignment :=
  (List.range (nvalues f v y)).map (Assignment.mk (assignable v))

/-- The session has the assignable variables that the file asks for. -/
structure Describes (M : Session) (f : L2File) : Prop where
  assignments : ∀ v y, f.vars[v]? = some y → y.kind ≠ .unknown →
    M.assignables.assignments (assignable v) = valuesOf f v y
  isAssumption : ∀ v y, f.vars[v]? = some y →
    (M.assignables.isAssumption (assignable v) = true ↔ y.kind = .mode)
  default : ∀ v y, f.vars[v]? = some y → y.kind = .mode →
    M.assignables.defaultAssignment (assignable v) = ⟨assignable v, 0⟩

/-- A file that can be put into an engine: its clauses are short enough, they say no more than their
first comparison and their other literals, and the transitions are as the assertions ask. -/
structure Loadable (f : L2File) : Prop where
  wellFormed : f.WellFormed
  vars : f.vars ≠ []
  clauses : f.clauses ≠ []
  small : ∀ v y, f.vars[v]? = some y →
    f.nmembers v ≤ 127 ∧ (y.kind = .mode → y.mode.domainSize ≤ 127)
  commanded : ∀ v y, f.vars[v]? = some y → y.kind = .commanded → 0 < f.nmembers v
  background : ∀ c ∈ f.clauses, c.isInBackground = true → Room f c ∧ Redundant f c
  transitions : ∀ (v : ℕ) (y : L2rVariable), f.vars[v]? = some y → y.kind = .mode →
    ∀ x ∈ y.mode.nominal ++ y.mode.failure, Transition.Translatable f x

/-- Commands and transitions have their first value from the start. -/
def initially (v : ℕ) (y : L2rVariable) : Option Assignment :=
  if y.kind = .commanded ∨ y.kind = .mode then some ⟨assignable v, 0⟩ else none

/-- The propositions of the assignable variable with the identifier of `y`. -/
def Entered.assigned (w : Entered) (y : L2rVariable) : List PropId :=
  if y.kind = .mode then w.transition else w.propositions

/-- What the engine has of a variable of the file. -/
structure EnteredAs (f : L2File) (e : Engine) (v : ℕ) (y : L2rVariable) (w : Entered) : Prop where
  length : w.propositions.length = f.nmembers v
  transition : y.kind = .mode → w.transition.length = y.mode.domainSize
  nodup : w.all.Nodup
  props : ∀ p ∈ w.all, p ∈ e.solver.props
  registered : y.kind ≠ .unknown → assignable v ∈ e.assignables
  unit : y.kind ≠ .unknown → ∀ (j : ℕ) (p : PropId), (w.assigned y)[j]? = some p →
    e.unit ⟨assignable v, j⟩ = {(p, true)}
  current : e.current (assignable v) = initially v y

structure Enters (M : Session) (f : L2File) (v : ℕ) (y : L2rVariable) (w : Entered)
    (e e' : Engine) : Prop where
  inv : e'.Inv M.assignables
  grows : Grows M.assignables e e'
  memory : e'.memory = e.memory
  props : ∀ p ∈ e.solver.props, p ∈ e'.solver.props
  new : ∀ p ∈ w.all, p ∉ e.solver.props
  assignables : ∀ u ∈ e'.assignables, u ∈ e.assignables ∨ u = assignable v ∧ y.kind ≠ .unknown
  others : ∀ u, u ≠ assignable v → e'.current u = e.current u
  entered : EnteredAs f e' v y w
  satisfies : ∀ τ, e'.solver.Satisfies τ ↔ e.solver.Satisfies τ ∧
    ExactlyOne τ w.propositions ∧ (y.kind = .mode → ExactlyOne τ w.transition)

theorem EnteredAs.length_assigned (h : EnteredAs f e v y w) :
    (w.assigned y).length = nvalues f v y := by
  unfold Entered.assigned nvalues
  split_ifs with hk
  · exact h.transition hk
  · exact h.length

theorem getElem?_valuesOf {j : ℕ} (hj : j < nvalues f v y) :
    (valuesOf f v y)[j]? = some ⟨assignable v, j⟩ := by
  unfold valuesOf
  rw [List.getElem?_map, List.getElem?_range hj]
  rfl

theorem length_valuesOf : (valuesOf f v y).length = nvalues f v y := by
  simp [valuesOf]

@[simp] theorem all_mk_nil (ps : List PropId) : (⟨ps, []⟩ : Entered).all = ps :=
  List.append_nil ps

theorem Enters.of_assignable {ps : List PropId} (hM : Describes M f) (hy : f.vars[v]? = some y)
    (hkind : y.kind = .commanded ∨ y.kind = .observed) (hlen : ps.length = f.nmembers v)
    (h : Acquires M.assignables (assignable v) ps (initially v y) e e') :
    Enters M f v y ⟨ps, []⟩ e e' := by
  have hmode : y.kind ≠ .mode := by rcases hkind with hk | hk <;> simp [hk]
  have hunknown : y.kind ≠ .unknown := by rcases hkind with hk | hk <;> simp [hk]
  have hn : nvalues f v y = f.nmembers v := if_neg hmode
  refine ⟨h.inv, h.grows, h.memory, fun p hp => (h.gains.props p).mpr (Or.inl hp), ?_,
    fun u hu => ?_, fun u hu => ?_, ⟨hlen, fun hk => absurd hk hmode, ?_, fun p hp => ?_, fun _ => ?_,
      fun _ j p hp => ?_, ?_⟩, fun τ => ?_⟩
  · simpa using h.gains.new
  · rw [h.assignables, List.mem_cons] at hu
    exact hu.symm.imp_right fun hu => ⟨hu, hunknown⟩
  · rw [h.current, update_of_ne hu]
  · simpa using h.gains.nodup
  · exact (h.gains.props p).mpr (Or.inr (by simpa using hp))
  · rw [h.assignables]
    exact List.mem_cons_self
  · rw [Entered.assigned, if_neg hmode] at hp
    refine h.unit j _ p ?_ hp
    rw [hM.assignments v y hy hunknown]
    exact getElem?_valuesOf (hn.symm ▸ hlen ▸ (List.getElem?_eq_some_iff.mp hp).1)
  · rw [h.current, update_self]
  · rw [h.gains.satisfies]
    simp [hmode]

theorem Enters.of_dependent {s : Ltms} (hinv : e.Inv M.assignables)
    (hinv' : ({ e with solver := s } : Engine).Inv M.assignables)
    (hgrows : Grows M.assignables e { e with solver := s })
    (hkind : y.kind = .unknown) (hfresh : assignable v ∉ e.assignables)
    (h : Ltms.Gains (e.solver.createPropositions (f.nmembers v)).1 e.solver s) :
    Enters M f v y ⟨(e.solver.createPropositions (f.nmembers v)).1, []⟩ e { e with solver := s } := by
  have hmode : y.kind ≠ .mode := by simp [hkind]
  refine ⟨hinv', hgrows, rfl, fun p hp => (h.props p).mpr (Or.inl hp), ?_,
    fun u hu => Or.inl hu, fun u hu => rfl, ⟨Ltms.createPropositions_length _ _,
      fun hk => absurd hk hmode, ?_, fun p hp => ?_, fun hk => absurd hkind hk,
      fun hk => absurd hkind hk, ?_⟩, fun τ => ?_⟩
  · simpa using h.new
  · simpa using h.nodup
  · exact (h.props p).mpr (Or.inr (by simpa using hp))
  · unfold initially
    simp only [hkind, reduceCtorEq, or_self, if_false]
    by_contra hsome
    obtain ⟨a, ha⟩ := Option.ne_none_iff_exists'.mp hsome
    obtain ⟨hvar, hknown⟩ := hinv.current _ a ha
    exact hfresh (hvar ▸ hknown.1)
  · rw [h.satisfies]
    simp [hmode]

theorem Enters.of_mode {s : Ltms} {qs : List PropId} (hM : Describes M f)
    (hy : f.vars[v]? = some y) (hgrows : Grows M.assignables e { e with solver := s })
    (hkind : y.kind = .mode)
    (h : Ltms.Gains (e.solver.createPropositions (f.nmembers v)).1 e.solver s)
    (hlen : qs.length = y.mode.domainSize)
    (h' : Acquires M.assignables (assignable v) qs (some ⟨assignable v, 0⟩) { e with solver := s } e') :
    Enters M f v y ⟨(e.solver.createPropositions (f.nmembers v)).1, qs⟩ e e' := by
  have hunknown : y.kind ≠ .unknown := by simp [hkind]
  have hn : nvalues f v y = y.mode.domainSize := if_pos hkind
  have hprops (p : PropId) : p ∈ e'.solver.props ↔
      p ∈ e.solver.props ∨ p ∈ (e.solver.createPropositions (f.nmembers v)).1 ++ qs := by
    rw [h'.gains.props, h.props, List.mem_append, or_assoc]
  refine ⟨h'.inv, hgrows.trans h'.grows, h'.memory, fun p hp => (hprops p).mpr (Or.inl hp),
    fun p hp hold => ?_, fun u hu => ?_, fun u hu => ?_,
    ⟨Ltms.createPropositions_length _ _, fun _ => hlen, ?_, fun p hp => (hprops p).mpr (Or.inr hp),
      fun _ => ?_, fun _ j p hp => ?_, ?_⟩, fun τ => ?_⟩
  · rcases List.mem_append.mp hp with hp | hp
    · exact h.new p hp hold
    · exact h'.gains.new p hp ((h.props p).mpr (Or.inl hold))
  · rw [h'.assignables, List.mem_cons] at hu
    exact hu.symm.imp_right fun hu => ⟨hu, hunknown⟩
  · rw [h'.current, update_of_ne hu]
  · refine List.nodup_append.mpr ⟨h.nodup, h'.gains.nodup, fun p hp q hq hpq => ?_⟩
    exact h'.gains.new q hq ((h.props q).mpr (Or.inr (hpq ▸ hp)))
  · rw [h'.assignables]
    exact List.mem_cons_self
  · rw [Entered.assigned, if_pos hkind] at hp
    refine h'.unit j _ p ?_ hp
    rw [hM.assignments v y hy hunknown]
    exact getElem?_valuesOf (hn.symm ▸ hlen ▸ (List.getElem?_eq_some_iff.mp hp).1)
  · rw [h'.current, update_self]
    simp [initially, hkind]
  · rw [h'.gains.satisfies, h.satisfies, and_assoc]
    simp [hkind]

theorem mapError_ok {ε ε' α : Type} {g : ε → ε'} {r : Except ε α} {a : α} (h : r = .ok a) :
    r.mapError g = .ok a := by
  rw [h]
  rfl

theorem createVariable_enters (entered : List Entered) (hM : Describes M f) (hf : Loadable f)
    (hinv : e.Inv M.assignables) (hy : f.vars[v]? = some y) (hfresh : assignable v ∉ e.assignables) :
    ∃ w e', createVariable M f (entered, e) v = .ok (entered ++ [w], e') ∧ Enters M f v y w e e' := by
  have hget : (boundsCheckAccess v f.vars "variable").mapError WriteError.reader = .ok y :=
    mapError_ok (boundsCheckAccess_eq_ok.mpr hy)
  obtain ⟨hsmall, hdomain⟩ := hf.small v y hy
  have hlen : (e.solver.createPropositions (f.nmembers v)).1.length = f.nmembers v :=
    Ltms.createPropositions_length _ _
  -- an assignable variable has as many values as the file says
  have hvalues (hk : y.kind ≠ .unknown) :
      (M.assignables.assignments (assignable v)).length = nvalues f v y := by
    rw [hM.assignments v y hy hk, length_valuesOf]
  have hacquires (hk : y.kind ≠ .unknown) (hle : nvalues f v y ≤ 127) {e₁ : Engine}
      (h₁ : e₁.Inv M.assignables) (hfresh₁ : assignable v ∉ e₁.assignables) :
      ∃ e', e₁.createAssignable M.assignables M.datum (assignable v) = .ok e' ∧
        Acquires M.assignables (assignable v) (e₁.solver.createPropositions (nvalues f v y)).1 none
          e₁ e' := by
    rw [← hvalues hk]
    exact Engine.createAssignable_acquires h₁ hfresh₁ (M.nodup _) (by rw [hvalues hk]; exact hle)
      (M.assignmentOf_datum _)
  have hdependent (n : ℕ) (hle : n ≤ 127) := Engine.createDependent_gains hinv hle
  cases hk : y.kind with
  | commanded =>
    have hunknown : y.kind ≠ .unknown := by simp [hk]
    have hn : nvalues f v y = f.nmembers v := if_neg (by simp [hk])
    obtain ⟨e₁, he₁, h₁⟩ := hacquires hunknown (hn ▸ hsmall) hinv hfresh
    have hfirst : (M.assignables.assignments (assignable v))[0]? = some ⟨assignable v, 0⟩ := by
      rw [hM.assignments v y hy hunknown]
      exact getElem?_valuesOf (hn.symm ▸ hf.commanded v y hy hk)
    obtain ⟨e₂, he₂, h₂⟩ := h₁.assign (List.mem_of_getElem? hfirst)
    have hindex : e₁.assignIndex M.assignables (assignable v) 0 = .ok e₂ := by
      unfold Engine.assignIndex
      rw [hfirst]
      exact he₂
    have hinit : initially v y = some ⟨assignable v, 0⟩ := by simp [initially, hk]
    refine ⟨_, e₂, ?_, Enters.of_assignable hM hy (Or.inl hk) hlen (hinit ▸ hn ▸ h₂)⟩
    simp only [createVariable, hget, hk, mapError_ok he₁, mapError_ok hindex, bind, Except.bind]
    rfl
  | observed =>
    have hunknown : y.kind ≠ .unknown := by simp [hk]
    have hn : nvalues f v y = f.nmembers v := if_neg (by simp [hk])
    obtain ⟨e₁, he₁, h₁⟩ := hacquires hunknown (hn ▸ hsmall) hinv hfresh
    have hinit : initially v y = none := by simp [initially, hk]
    refine ⟨_, e₁, ?_, Enters.of_assignable hM hy (Or.inr hk) hlen (hinit ▸ hn ▸ h₁)⟩
    simp only [createVariable, hget, hk, mapError_ok he₁, bind, Except.bind]
    rfl
  | mode =>
    have hunknown : y.kind ≠ .unknown := by simp [hk]
    have hn : nvalues f v y = y.mode.domainSize := if_pos hk
    obtain ⟨s, hs, hinv₁, hgrows, hgains⟩ := hdependent (f.nmembers v) hsmall
    obtain ⟨e₁, he₁, h₁⟩ := hacquires hunknown (hn ▸ hdomain hk) hinv₁ hfresh
    have hdefault : M.assignables.defaultAssignment (assignable v) = ⟨assignable v, 0⟩ :=
      hM.default v y hy hk
    have hmem : (⟨assignable v, 0⟩ : Assignment) ∈ M.assignables.assignments (assignable v) := by
      rw [← hdefault]
      exact M.assignables.default_mem _ ((hM.isAssumption v y hy).mpr hk)
    obtain ⟨e₂, he₂, h₂⟩ := h₁.assign hmem
    have hrestore : e₁.restoreDefault M.assignables (assignable v) = .ok e₂ := by
      unfold Engine.restoreDefault
      rw [hdefault]
      exact he₂
    refine ⟨_, e₂, ?_, Enters.of_mode hM hy hgrows hk hgains
      (Ltms.createPropositions_length s y.mode.domainSize) (hn ▸ h₂)⟩
    simp only [createVariable, hget, hk, mapError_ok hs, mapError_ok he₁, mapError_ok hrestore,
      bind, Except.bind]
    rfl
  | unknown =>
    obtain ⟨s, hs, hinv₁, hgrows, hgains⟩ := hdependent (f.nmembers v) hsmall
    refine ⟨_, _, ?_, Enters.of_dependent hinv hinv₁ hgrows hk hfresh hgains⟩
    simp only [createVariable, hget, hk, mapError_ok hs, bind, Except.bind]
    rfl

theorem EnteredAs.mono (h : EnteredAs f e v y w) (hM : Describes M f) (hy : f.vars[v]? = some y)
    (hgrows : Grows M.assignables e e') (hprops : ∀ p ∈ e.solver.props, p ∈ e'.solver.props)
    (hcur : e'.current (assignable v) = e.current (assignable v)) : EnteredAs f e' v y w where
  length := h.length
  transition := h.transition
  nodup := h.nodup
  props p hp := hprops p (h.props p hp)
  registered hk := hgrows.assignables _ (h.registered hk)
  unit hk j p hp := by
    have hknown : e.Known M.assignables ⟨assignable v, j⟩ := by
      refine ⟨h.registered hk, ?_⟩
      dsimp only
      rw [hM.assignments v y hy hk]
      refine List.mem_of_getElem? (i := j) (getElem?_valuesOf ?_)
      rw [← h.length_assigned]
      exact (List.getElem?_eq_some_iff.mp hp).1
    rw [hgrows.unit _ hknown]
    exact h.unit hk j p hp
  current := hcur.trans h.current

/-- The variables below `n` have been created. -/
structure Entering (M : Session) (f : L2File) (n : ℕ) (x : List Entered × Engine) : Prop where
  inv : x.2.Inv M.assignables
  memory : x.2.memory = ({}, M.tracker.firstCandidates)
  length : x.1.length = n
  fresh : ∀ u ∈ x.2.assignables, ∃ v < n, u = assignable v ∧
    ∃ y, f.vars[v]? = some y ∧ y.kind ≠ .unknown
  entries : ∀ v w y, x.1[v]? = some w → f.vars[v]? = some y → EnteredAs f x.2 v y w
  nodup : (x.1.flatMap (·.all)).Nodup
  satisfies : ∀ τ, x.2.solver.Satisfies τ ↔ ∀ (v : ℕ) (w : Entered) (y : L2rVariable),
    x.1[v]? = some w → f.vars[v]? = some y →
      ExactlyOne τ w.propositions ∧ (y.kind = .mode → ExactlyOne τ w.transition)

theorem entering_empty :
    Entering M f 0 ([], { candidates := M.tracker.firstCandidates }) where
  inv := Session.inv_empty _
  memory := rfl
  length := rfl
  fresh u hu := absurd hu List.not_mem_nil
  entries v w y hw := by simp at hw
  nodup := List.nodup_nil
  satisfies τ := by
    refine iff_of_true (fun c hact => absurd hact.1 List.not_mem_nil) fun v w y hw => ?_
    simp at hw

theorem Entering.step (h : Entering M f i x) (hM : Describes M f) (hy : f.vars[i]? = some y)
    (hs : Enters M f i y w x.2 e') : Entering M f (i + 1) (x.1 ++ [w], e') := by
  -- a variable is one of those before or the new one
  have hcases {v : ℕ} {w' : Entered} (hw : (x.1 ++ [w])[v]? = some w') :
      v < i ∧ x.1[v]? = some w' ∨ v = i ∧ w' = w := by
    rcases lt_trichotomy v i with hlt | rfl | hlt
    · rw [List.getElem?_append_left (by rw [h.length]; exact hlt)] at hw
      exact Or.inl ⟨hlt, hw⟩
    · rw [List.getElem?_append_right h.length.le, h.length, Nat.sub_self] at hw
      exact Or.inr ⟨rfl, (Option.some.inj hw).symm⟩
    · rw [List.getElem?_eq_none (by rw [List.length_append, h.length]; exact hlt)] at hw
      cases hw
  have hold {v : ℕ} {w' : Entered} (hw : x.1[v]? = some w') :
      (x.1 ++ [w])[v]? = some w' := by
    rw [List.getElem?_append_left (List.getElem?_eq_some_iff.mp hw).1, hw]
  have hnew : (x.1 ++ [w])[i]? = some w := by
    rw [List.getElem?_append_right h.length.le, h.length, Nat.sub_self]
    rfl
  refine ⟨hs.inv, hs.memory.trans h.memory, by simp [h.length], fun u hu => ?_,
    fun v w' y' hw hy' => ?_, ?_, fun τ => ?_⟩
  · rcases hs.assignables u hu with hu | ⟨rfl, hk⟩
    · obtain ⟨v, hv, rfl, hkind⟩ := h.fresh u hu
      exact ⟨v, Nat.lt_succ_of_lt hv, rfl, hkind⟩
    · exact ⟨i, Nat.lt_succ_self i, rfl, y, hy, hk⟩
  · rcases hcases hw with ⟨hv, hw⟩ | ⟨rfl, rfl⟩
    · refine (h.entries v w' y' hw hy').mono hM hy' hs.grows hs.props (hs.others _ fun heq => ?_)
      exact hv.ne (assignable_inj heq)
    · obtain rfl := Option.some.inj (hy'.symm.trans hy)
      exact hs.entered
  · rw [List.flatMap_append, List.nodup_append]
    refine ⟨h.nodup, by simpa using hs.entered.nodup, fun p hp q hq => ?_⟩
    obtain ⟨w', hw', hp⟩ := List.mem_flatMap.mp hp
    obtain ⟨v, hv⟩ := List.mem_iff_getElem?.mp hw'
    have hlt : v < f.vars.length := by
      have hvi := (List.getElem?_eq_some_iff.mp hv).1
      rw [h.length] at hvi
      exact hvi.trans (List.getElem?_eq_some_iff.mp hy).1
    have hprops := (h.entries v w' _ hv (List.getElem?_eq_getElem hlt)).props p hp
    rintro rfl
    exact hs.new p (by simpa using hq) hprops
  · rw [hs.satisfies, h.satisfies]
    constructor
    · rintro ⟨hall, hone⟩ v w' y' hw hy'
      rcases hcases hw with ⟨-, hw⟩ | ⟨rfl, rfl⟩
      · exact hall v w' y' hw hy'
      · obtain rfl := Option.some.inj (hy'.symm.trans hy)
        exact hone
    · exact fun hall => ⟨fun v w' y' hw hy' => hall v w' y' (hold hw) hy', hall i w y hnew hy⟩

theorem createVariables_entering (hM : Describes M f) (hf : Loadable f) :
    ∃ x, createVariables M f { candidates := M.tracker.firstCandidates } = .ok x ∧ Entering M f f.vars.length x := by
  refine Loop.foldlM_range (Entering M f) (fun v hv x hx => ?_) entering_empty
  have hy := List.getElem?_eq_getElem hv
  have hfresh : assignable v ∉ x.2.assignables := fun hmem => by
    obtain ⟨w, hw, heq, -⟩ := hx.fresh _ hmem
    exact hw.ne (assignable_inj heq).symm
  obtain ⟨w, e', he', hs⟩ := createVariable_enters x.1 hM hf hx.inv hy hfresh
  exact ⟨_, he', hx.step hM hy hs⟩

theorem Entering.variablesOf (h : Entering M f f.vars.length x) :
    ∃ V, variablesOf f x.1 = some V ∧ V.propositions = findVar x.1 := by
  have hlen : x.1.map (·.propositions.length) = (List.range f.vars.length).map f.nmembers := by
    refine List.ext_getElem? fun v => ?_
    rw [List.getElem?_map, List.getElem?_map]
    by_cases hv : v < f.vars.length
    · have hw := List.getElem?_eq_getElem (h.length.symm ▸ hv : v < x.1.length)
      rw [List.getElem?_range hv, hw]
      exact congrArg some (h.entries v _ _ hw (List.getElem?_eq_getElem hv)).length
    · rw [List.getElem?_eq_none (by rw [h.length]; exact not_lt.mp hv),
        List.getElem?_eq_none (by simpa using hv)]
      rfl
  unfold ToTSystem.variablesOf
  rw [dif_pos ⟨hlen, h.nodup⟩]
  exact ⟨_, rfl, rfl⟩

section

-- the wrap of a counter is never computed here
attribute [local irreducible] lengthT

variable {V : Variables f} {c : L2rClause} {k : Clause} {ks : List Clause} {a : ℕ → ℕ}
  {pos neg : List PropId}

theorem props_construct (hfit : Fits pos neg) :
    (Clause.construct none pos neg false).positiveProps = pos.eraseDups ∧
      (Clause.construct none pos neg false).negativeProps = neg.eraseDups := by
  obtain ⟨hp, hn⟩ := construct_counts none false hfit
  have hl : (Clause.construct none pos neg false).literals = pos.eraseDups ++ neg.eraseDups := rfl
  simp only [Clause.positiveProps, Clause.negativeProps, hp, hn, hl, Int.toNat_natCast,
    List.take_left, List.take_length, List.drop_left, and_self]

/-- A clause that the engine can be given: it is short enough, and its propositions are those of
variables. -/
structure Enterable (V : Variables f) (k : Clause) : Prop where
  fits : Fits k.positiveProps k.negativeProps
  props : ∀ p ∈ k.positiveProps ++ k.negativeProps, ∃ v, p ∈ V.propositions v

theorem enterable_of_createConstraint {singles : Singles} (hs : InRange f singles)
    (hk : createConstraint V singles.1 singles.2 = .ok k) : Enterable V k := by
  rw [createConstraint_eq hs] at hk
  split_ifs at hk with hsmall
  obtain rfl := Except.ok.inj hk
  have h₁ : ∀ x ∈ singles.1, x.2 < f.nmembers x.1 := fun x hx => hs x (List.mem_append_left _ hx)
  have h₂ : ∀ x ∈ singles.2, x.2 < f.nmembers x.1 := fun x hx => hs x (List.mem_append_right _ hx)
  have hfit : Fits (singles.1.map (prop V)).reverse (singles.2.map (prop V)).reverse := by
    rw [Fits, List.length_append, card_props h₁, card_props h₂]
    exact hsmall
  obtain ⟨hp, hn⟩ := props_construct hfit
  have hmem {xs : List ProtoAssignment} (hxs : ∀ x ∈ xs, x.2 < f.nmembers x.1) {p : PropId}
      (hp : p ∈ (xs.map (prop V)).reverse.eraseDups) : ∃ v, p ∈ V.propositions v := by
    rw [List.mem_eraseDups, List.mem_reverse] at hp
    obtain ⟨x, hx, rfl⟩ := List.mem_map.mp hp
    exact ⟨x.1, List.mem_of_getElem? (getElem?_prop (hxs x hx))⟩
  refine ⟨?_, fun p hmem' => ?_⟩
  · have hset (ps : List PropId) : ps.eraseDups.toFinset = ps.toFinset := by
      ext p
      simp [List.mem_eraseDups]
    rw [fits_iff] at hfit ⊢
    rw [hp, hn, hset, hset]
    exact hfit
  · rw [hp, hn] at hmem'
    rcases List.mem_append.mp hmem' with hm | hm
    · exact hmem h₁ hm
    · exact hmem h₂ hm

theorem expandClause_means (ht : ∀ p ∈ f.clauseProps c, f.Typed p) (hroom : Room f c)
    (hred : Redundant f c) :
    ∃ ks, expandClause V c = .ok ks ∧ (∀ k ∈ ks, Enterable V k) ∧
      ∀ a, f.Valid a → ∀ τ, Represents V a τ → ((∀ k ∈ ks, HoldsIn τ k) ↔ f.ClauseHolds a c) := by
  have hrange : ∀ s ∈ outcomes f (values f c) (comparisons f c).reverse (values f c),
      InRange f s := fun s hs => inRange_outcomes ht hs
  obtain ⟨hcreated, hholds⟩ := mapM_createConstraint (V := V) hrange
  rw [room_iff] at hcreated
  obtain ⟨ks, hks⟩ := hcreated.mpr hroom
  have hexpand := expandClause_eq V fun d hd => (typed_comparison (c := c) ht hd).2.2
  refine ⟨ks, hexpand.trans hks, fun k hk => ?_, fun a ha τ hτ => ?_⟩
  · obtain ⟨s, hs, hsk⟩ := (Loop.mem_mapM hks k).mp hk
    exact enterable_of_createConstraint (hrange s hs) hsk
  · rw [hholds ks hks a τ hτ, holdsFor_outcomes ht ha, clauseHolds_iff]
    constructor
    · exact Or.imp_right fun ⟨d, hd, hh⟩ => ⟨d, List.mem_of_mem_head? hd, hh⟩
    · rintro (h | ⟨d, hd, hh⟩)
      · exact Or.inl h
      · cases hc : comparisons f c with
        | nil => simp [hc] at hd
        | cons d' tail =>
          rw [hc] at hd
          rcases List.mem_cons.mp hd with rfl | hd
          · exact Or.inr ⟨d, rfl, hh⟩
          · have hfirst := hred a ha d (by rw [hc]; exact hd) hh
            rwa [hc] at hfirst

theorem holdsIn_iff : HoldsIn τ k ↔ Ltms.Says k.positiveProps k.negativeProps τ := by
  simp only [HoldsIn, Clause.lits, Ltms.Says, List.mem_append, List.mem_map, or_and_right, exists_or]
  constructor
  · rintro (⟨l, ⟨p, hp, rfl⟩, hb⟩ | ⟨l, ⟨p, hp, rfl⟩, hb⟩)
    · exact Or.inl ⟨p, hp, hb⟩
    · exact Or.inr ⟨p, hp, hb⟩
  · rintro (⟨p, hp, hb⟩ | ⟨p, hp, hb⟩)
    · exact Or.inl ⟨_, ⟨p, hp, rfl⟩, hb⟩
    · exact Or.inr ⟨_, ⟨p, hp, rfl⟩, hb⟩

/-- Clauses have been added to the engine, which say `P`. -/
structure Adds (M : Session) (P : (PropId → Bool) → Prop) (e e' : Engine) : Prop where
  inv : e'.Inv M.assignables
  grows : Grows M.assignables e e'
  rest : { e' with solver := e.solver } = e
  props : e'.solver.props = e.solver.props
  satisfies : ∀ τ, e'.solver.Satisfies τ ↔ e.solver.Satisfies τ ∧ P τ

theorem Adds.refl {P : (PropId → Bool) → Prop} (hinv : e.Inv M.assignables) (hP : ∀ τ, P τ) :
    Adds M P e e :=
  ⟨hinv, Grows.refl _ _, rfl, rfl, fun τ => (and_iff_left (hP τ)).symm⟩

theorem Adds.trans {P Q : (PropId → Bool) → Prop} {e'' : Engine} (h : Adds M P e e')
    (h' : Adds M Q e' e'') : Adds M (fun τ => P τ ∧ Q τ) e e'' where
  inv := h'.inv
  grows := h.grows.trans h'.grows
  rest := by rw [← h.rest, ← h'.rest]
  props := h'.props.trans h.props
  satisfies τ := by rw [h'.satisfies, h.satisfies, and_assoc]

theorem enterClauses_adds (hinv : e.Inv M.assignables) (hk : ∀ k ∈ ks, Enterable V k)
    (hV : ∀ v, ∀ p ∈ V.propositions v, p ∈ e.solver.props) :
    ∃ e', enterClauses ks e = .ok e' ∧ Adds M (fun τ => ∀ k ∈ ks, HoldsIn τ k) e e' := by
  induction ks generalizing e with
  | nil => exact ⟨e, rfl, Adds.refl hinv fun τ => by simp⟩
  | cons k ks ih =>
    obtain ⟨hone, hrest⟩ := List.forall_mem_cons.mp hk
    obtain ⟨s, hs, hinv₁, hgrows, hprops, hsat⟩ := Engine.createClause_adds hinv hone.fits
      (fun p hp => by
        obtain ⟨v, hv⟩ := hone.props p hp
        exact hV v p hv) false
    have hadds : Adds M (fun τ => HoldsIn τ k) e { e with solver := s } :=
      ⟨hinv₁, hgrows, rfl, hprops, fun τ => by rw [hsat, holdsIn_iff]⟩
    obtain ⟨e', he', hadds'⟩ := ih hinv₁ hrest fun v p hp => hprops.symm ▸ hV v p hp
    refine ⟨e', ?_, ?_⟩
    · unfold enterClauses at he' ⊢
      rw [List.foldlM_cons, hs]
      exact he'
    · simpa only [List.forall_mem_cons] using hadds.trans hadds'

theorem createBackground_adds (hinv : e.Inv M.assignables)
    (hV : ∀ v, ∀ p ∈ V.propositions v, p ∈ e.solver.props)
    (ht : ∀ p ∈ f.clauseProps c, f.Typed p)
    (hback : c.isInBackground = true → Room f c ∧ Redundant f c) :
    ∃ e' P, createBackground V e c = .ok e' ∧ Adds M P e e' ∧
      ∀ a, f.Valid a → ∀ τ, Represents V a τ →
        (P τ ↔ (c.isInBackground = true → f.ClauseHolds a c)) := by
  unfold createBackground
  split_ifs with hc
  · obtain ⟨hroom, hred⟩ := hback hc
    obtain ⟨ks, hks, henterable, hmeans⟩ := expandClause_means (V := V) ht hroom hred
    obtain ⟨e', he', hadds⟩ := enterClauses_adds hinv henterable hV
    refine ⟨e', _, ?_, hadds, fun a ha τ hτ => ?_⟩
    · simp only [mapError_ok hks, mapError_ok he', bind, Except.bind]
    · rw [hmeans a ha τ hτ]
      exact ⟨fun h _ => h, fun h => h hc⟩
  · refine ⟨e, fun _ => True, rfl, Adds.refl hinv fun _ => trivial, fun a _ τ _ => ?_⟩
    exact ⟨fun _ h => absurd h hc, fun _ => trivial⟩

theorem createBackgrounds_adds {cs : List L2rClause} (hinv : e.Inv M.assignables)
    (hV : ∀ v, ∀ p ∈ V.propositions v, p ∈ e.solver.props)
    (ht : ∀ c ∈ cs, ∀ p ∈ f.clauseProps c, f.Typed p)
    (hback : ∀ c ∈ cs, c.isInBackground = true → Room f c ∧ Redundant f c) :
    ∃ e' P, cs.foldlM (createBackground V) e = .ok e' ∧ Adds M P e e' ∧
      ∀ a, f.Valid a → ∀ τ, Represents V a τ →
        (P τ ↔ ∀ c ∈ cs, c.isInBackground = true → f.ClauseHolds a c) := by
  induction cs generalizing e with
  | nil => exact ⟨e, fun _ => True, rfl, Adds.refl hinv fun _ => trivial, fun a _ τ _ => by simp⟩
  | cons c cs ih =>
    obtain ⟨ht₁, ht⟩ := List.forall_mem_cons.mp ht
    obtain ⟨hback₁, hback⟩ := List.forall_mem_cons.mp hback
    obtain ⟨e₁, P, he₁, hadds, hP⟩ := createBackground_adds hinv hV ht₁ hback₁
    obtain ⟨e₂, Q, he₂, hadds', hQ⟩ :=
      ih hadds.inv (fun v p hp => hadds.props.symm ▸ hV v p hp) ht hback
    refine ⟨e₂, _, ?_, hadds.trans hadds', fun a ha τ hτ => ?_⟩
    · rw [List.foldlM_cons, he₁]
      exact he₂
    · rw [hP a ha τ hτ, hQ a ha τ hτ, List.forall_mem_cons]

end

/-- A state of the model: the values `a` of its variables, with which the background holds, and the
values `b` of the transitions of its modes. -/
structure IsState (f : L2File) (a b : ℕ → ℕ) : Prop where
  valid : f.Valid a
  background : ∀ c ∈ f.clauses, c.isInBackground = true → f.ClauseHolds a c
  transition : ∀ v y, f.vars[v]? = some y → y.kind = .mode → b v < y.mode.domainSize

structure Pictures (f : L2File) (entered : List Entered) (τ : PropId → Bool) (a b : ℕ → ℕ) : Prop
    extends IsState f a b where
  shows : ∀ v w, entered[v]? = some w → Shows τ w.propositions (a v)
  showsTransition : ∀ v w y, entered[v]? = some w → f.vars[v]? = some y → y.kind = .mode →
    Shows τ w.transition (b v)

structure Loaded (M : Session) (f : L2File) (entered : List Entered)
    (modes : List (Option Transition.ModeVariable)) (e : Engine) : Prop where
  inv : e.Inv M.assignables
  memory : e.memory = ({}, M.tracker.firstCandidates)
  length : entered.length = f.vars.length
  nodup : (entered.flatMap (·.all)).Nodup
  fresh : ∀ u ∈ e.assignables, ∃ v < f.vars.length, u = assignable v ∧
    ∃ y, f.vars[v]? = some y ∧ y.kind ≠ .unknown
  entries : ∀ v w y, entered[v]? = some w → f.vars[v]? = some y → EnteredAs f e v y w
  transitions : ∀ (v : ℕ) (y : L2rVariable), f.vars[v]? = some y → y.kind = .mode →
    ∃ t, modes[v]? = some (some t) ∧ Transition.createTransitions f v y.mode = .ok t
  satisfies : ∀ τ, e.solver.Satisfies τ ↔ ∃ a b, Pictures f entered τ a b

theorem represents_iff {V : Variables f} (hV : V.propositions = findVar entered) {a : ℕ → ℕ} :
    Represents V a τ ↔ ∀ v w, entered[v]? = some w → Shows τ w.propositions (a v) := by
  constructor
  · intro h v w hw j p hp
    refine h v j p ?_
    rw [hV, findVar_eq hw]
    exact hp
  · intro h v j p hp
    rw [hV] at hp
    cases hw : entered[v]? with
    | none => simp [findVar, hw] at hp
    | some w =>
      rw [findVar_eq hw] at hp
      exact h v w hw j p hp

theorem Entering.exists_values (h : Entering M f f.vars.length x) :
    x.2.solver.Satisfies τ ↔ ∃ a b : ℕ → ℕ, f.Valid a ∧
      (∀ (v : ℕ) (y : L2rVariable), f.vars[v]? = some y → y.kind = .mode →
        b v < y.mode.domainSize) ∧
      (∀ (v : ℕ) (w : Entered), x.1[v]? = some w → Shows τ w.propositions (a v)) ∧
      ∀ (v : ℕ) (w : Entered) (y : L2rVariable), x.1[v]? = some w → f.vars[v]? = some y → y.kind = .mode →
        Shows τ w.transition (b v) := by
  have hvar {v : ℕ} {w : Entered} (hw : x.1[v]? = some w) : ∃ y, f.vars[v]? = some y :=
    ⟨_, List.getElem?_eq_getElem (h.length ▸ (List.getElem?_eq_some_iff.mp hw).1)⟩
  have hentry {v : ℕ} {y : L2rVariable} (hy : f.vars[v]? = some y) : ∃ w, x.1[v]? = some w :=
    ⟨_, List.getElem?_eq_getElem (h.length.symm ▸ (List.getElem?_eq_some_iff.mp hy).1)⟩
  rw [h.satisfies]
  constructor
  · intro hall
    have ha : ∀ v : ℕ, ∃ n, ∀ w : Entered, x.1[v]? = some w →
        n < w.propositions.length ∧ Shows τ w.propositions n := by
      intro v
      cases hw : x.1[v]? with
      | none => exact ⟨0, fun w hw' => by cases hw'⟩
      | some w =>
        obtain ⟨y, hy⟩ := hvar hw
        obtain ⟨n, hn, hshows⟩ := (hall v w y hw hy).1
        exact ⟨n, fun w' hw' => Option.some.inj hw' ▸ ⟨hn, hshows⟩⟩
    have hb : ∀ v : ℕ, ∃ n, ∀ (w : Entered) (y : L2rVariable), x.1[v]? = some w → f.vars[v]? = some y → y.kind = .mode →
        n < w.transition.length ∧ Shows τ w.transition n := by
      intro v
      by_cases hmode : ∃ w y, x.1[v]? = some w ∧ f.vars[v]? = some y ∧ y.kind = .mode
      · obtain ⟨w, y, hw, hy, hk⟩ := hmode
        obtain ⟨n, hn, hshows⟩ := (hall v w y hw hy).2 hk
        exact ⟨n, fun w' y' hw' _ _ => Option.some.inj (hw.symm.trans hw') ▸ ⟨hn, hshows⟩⟩
      · exact ⟨0, fun w y hw hy hk => absurd ⟨w, y, hw, hy, hk⟩ hmode⟩
    choose a ha using ha
    choose b hb using hb
    refine ⟨a, b, fun v hv => ?_, fun v y hy hk => ?_, fun v w hw => (ha v w hw).2,
      fun v w y hw hy hk => (hb v w y hw hy hk).2⟩
    · obtain ⟨w, hw⟩ := hentry (List.getElem?_eq_getElem hv)
      rw [← (h.entries v w _ hw (List.getElem?_eq_getElem hv)).length]
      exact (ha v w hw).1
    · obtain ⟨w, hw⟩ := hentry hy
      rw [← (h.entries v w y hw hy).transition hk]
      exact (hb v w y hw hy hk).1
  · rintro ⟨a, b, hvalid, hrange, hshows, htransition⟩ v w y hw hy
    have hin := h.entries v w y hw hy
    refine ⟨⟨a v, ?_, hshows v w hw⟩, fun hk => ⟨b v, ?_, htransition v w y hw hy hk⟩⟩
    · rw [hin.length]
      exact hvalid v (List.getElem?_eq_some_iff.mp hy).1
    · rw [hin.transition hk]
      exact hrange v y hy hk

theorem createTransitions_loadable (hf : Loadable f) (hy : f.vars[v]? = some y)
    (hk : y.kind = .mode) : ∃ t, Transition.createTransitions f v y.mode = .ok t := by
  obtain ⟨hnominal, hfailure⟩ := List.forall_mem_append.mp (hf.transitions v y hy hk)
  refine Transition.createTransitions_ok v hnominal hfailure ?_
  -- only the failures have a cost, and one each
  have hnil : y.mode.nominal.flatMap Transition.addedCost = [] :=
    Transition.flatMap_addedCost_nil.mpr fun x hx => (hf.wellFormed.nominal v y hy x hx).2.2.1
  rw [hnil, List.nil_append]
  exact Transition.length_addedCosts_le y.mode.failure

theorem mapM_createTransitions (hf : Loadable f) :
    ∃ modes, (List.range f.vars.length).mapM (createTransitions f) = .ok modes ∧
      ∀ (v : ℕ) (y : L2rVariable), f.vars[v]? = some y → y.kind = .mode →
        ∃ t, modes[v]? = some (some t) ∧ Transition.createTransitions f v y.mode = .ok t := by
  have hone {v : ℕ} {y : L2rVariable} (hy : f.vars[v]? = some y) :
      ∃ t, createTransitions f v = .ok t ∧
        (y.kind = .mode → ∃ t', t = some t' ∧ Transition.createTransitions f v y.mode = .ok t') := by
    have hget : (boundsCheckAccess v f.vars "variable").mapError WriteError.reader = .ok y :=
      mapError_ok (boundsCheckAccess_eq_ok.mpr hy)
    by_cases hk : y.kind = .mode
    · obtain ⟨t, ht⟩ := createTransitions_loadable hf hy hk
      refine ⟨some t, ?_, fun _ => ⟨t, rfl, ht⟩⟩
      simp only [createTransitions, hget, hk, mapError_ok ht, bind, Except.bind, if_true]
      rfl
    · refine ⟨none, ?_, fun hk' => absurd hk' hk⟩
      simp only [createTransitions, hget, bind, Except.bind, if_neg hk]
      rfl
  obtain ⟨modes, hmodes⟩ := Loop.mapM_total (g := createTransitions f)
    (l := List.range f.vars.length) fun v hv => by
      obtain ⟨t, ht, -⟩ := hone (List.getElem?_eq_getElem (List.mem_range.mp hv))
      exact ⟨t, ht⟩
  refine ⟨modes, hmodes, fun v y hy hk => ?_⟩
  obtain ⟨t, ht, hmode⟩ := hone hy
  obtain ⟨t', rfl, ht'⟩ := hmode hk
  have hv : v < f.vars.length := (List.getElem?_eq_some_iff.mp hy).1
  have hall := Loop.mapM_forall₂ hmodes
  have hlen : v < modes.length := by
    rw [← hall.length_eq, List.length_range]
    exact hv
  have hget := hall.get (i := v) (by rwa [List.length_range]) hlen
  simp only [List.get_eq_getElem, List.getElem_range] at hget
  refine ⟨t', ?_, ht'⟩
  rw [List.getElem?_eq_getElem hlen]
  exact congrArg some (Except.ok.inj (hget.symm.trans ht))

/-- A model is put into the engine without an error, and the engine says what the model says. -/
theorem write_loaded (hM : Describes M f) (hf : Loadable f)
    (h₀ : M.tracker.new M.assignables fuel = .ok t₀) :
    ∃ entered modes e, write M f t₀.engine = .ok (entered, modes, e) ∧
      Loaded M f entered modes e := by
  obtain ⟨hengine, -⟩ := (M.tracker.new_returns M.assignables).2 fuel t₀ h₀
  obtain ⟨x, hx, hentering⟩ := createVariables_entering hM hf
  obtain ⟨modes, hmodes, htransitions⟩ := mapM_createTransitions hf
  obtain ⟨V, hV, hprops⟩ := hentering.variablesOf
  have htyped : ∀ c ∈ f.clauses, ∀ p ∈ f.clauseProps c, f.Typed p := by
    intro c _ p hp
    obtain ⟨j, -, hj⟩ := List.mem_filterMap.mp hp
    exact hf.wellFormed.props p (List.mem_of_getElem? hj)
  have hin : ∀ v, ∀ p ∈ V.propositions v, p ∈ x.2.solver.props := by
    intro v p hp
    rw [hprops] at hp
    cases hw : x.1[v]? with
    | none => simp [findVar, hw] at hp
    | some w =>
      rw [findVar_eq hw] at hp
      have hlt := (List.getElem?_eq_some_iff.mp hw).1
      rw [hentering.length] at hlt
      exact (hentering.entries v w _ hw (List.getElem?_eq_getElem hlt)).props p
        (List.mem_append_left _ hp)
  obtain ⟨e, P, he, hadds, hP⟩ :=
    createBackgrounds_adds hentering.inv hin htyped hf.background
  have henums : f.enums ≠ [] := by
    obtain ⟨y, hy⟩ := List.exists_mem_of_ne_nil _ hf.vars
    exact List.ne_nil_of_length_pos (Nat.zero_lt_of_lt (hf.wellFormed.types y hy))
  refine ⟨x.1, modes, e, ?_, hadds.inv, ?_, hentering.length, hentering.nodup, fun u hu => ?_,
    fun v w y hw hy => ?_, htransitions, fun τ => ?_⟩
  · unfold write
    rw [if_neg henums, if_neg hf.vars, if_neg hf.clauses, hengine, hx]
    simp only [bind, Except.bind, hV, he, hmodes]
    rfl
  · exact (congrArg (·.memory) hadds.rest : e.memory = x.2.memory).trans hentering.memory
  · refine hentering.fresh u ?_
    rwa [← (congrArg (·.assignables) hadds.rest : e.assignables = x.2.assignables)]
  · refine (hentering.entries v w y hw hy).mono hM hy hadds.grows
      (fun p hp => hadds.props.symm ▸ hp) ?_
    rw [← (congrArg (·.current) hadds.rest : e.current = x.2.current)]
  · rw [hadds.satisfies, hentering.exists_values]
    constructor
    · rintro ⟨⟨a, b, hvalid, hrange, hshows, htransition⟩, hholds⟩
      have hback := (hP a hvalid τ ((represents_iff hprops).mpr hshows)).mp hholds
      exact ⟨a, b, ⟨hvalid, hback, hrange⟩, hshows, htransition⟩
    · rintro ⟨a, b, h⟩
      exact ⟨⟨a, b, h.valid, h.transition, h.shows, h.showsTransition⟩,
        (hP a h.valid τ ((represents_iff hprops).mpr h.shows)).mpr h.background⟩

theorem write_eq_loaded (hM : Describes M f) (hf : Loadable f)
    (h₀ : M.tracker.new M.assignables fuel = .ok t₀)
    (hw : write M f t₀.engine = .ok (entered, modes, e)) : Loaded M f entered modes e := by
  obtain ⟨entered', modes', e₁, hw', h⟩ := write_loaded hM hf h₀
  cases hw.symm.trans hw'
  exact h

theorem Loaded.exists_pictures (h : Loaded M f entered modes e) {a b : ℕ → ℕ} (hs : IsState f a b) :
    ∃ τ, Pictures f entered τ a b := by
  obtain ⟨τ, hτ⟩ := (distinct_blockOf h.nodup).exists_shows fun i => if i.2 then b i.1 else a i.1
  refine ⟨τ, hs, fun v w hw => ?_, fun v w y hw _ _ => ?_⟩
  · have hshows := hτ (v, false)
    rwa [← findVar_eq_blockOf, findVar_eq hw] at hshows
  · have hshows := hτ (v, true)
    unfold blockOf at hshows
    simpa only [hw, if_true] using hshows

/-- The state gives the variable of the assignment its value. -/
def Agrees (f : L2File) (a b : ℕ → ℕ) (x : Assignment) : Prop :=
  ∀ v y, f.vars[v]? = some y → x.var = assignable v →
    (if y.kind = .mode then b v else a v) = x.index

theorem Loaded.unit_iff (h : Loaded M f entered modes e) (hM : Describes M f) {a b : ℕ → ℕ}
    (hp : Pictures f entered τ a b) {x : Assignment} (hx : e.Known M.assignables x) :
    (∃ l ∈ e.unit x, τ l.1 = l.2) ↔ Agrees f a b x := by
  obtain ⟨v, hv, hvar, y, hy, hk⟩ := h.fresh _ hx.1
  obtain ⟨w, hw⟩ : ∃ w, entered[v]? = some w :=
    ⟨_, List.getElem?_eq_getElem (h.length.symm ▸ hv)⟩
  have hin := h.entries v w y hw hy
  have hmem := hx.2
  rw [hvar, hM.assignments v y hy hk] at hmem
  obtain ⟨j, hj, rfl⟩ := List.mem_map.mp hmem
  obtain ⟨p, hp'⟩ : ∃ p, (w.assigned y)[j]? = some p :=
    ⟨_, List.getElem?_eq_getElem (hin.length_assigned.symm ▸ List.mem_range.mp hj)⟩
  have hshows : τ p = true ↔ (if y.kind = .mode then b v else a v) = j := by
    unfold Entered.assigned at hp'
    split_ifs at hp' ⊢ with hmode
    · exact hp.showsTransition v w y hw hy hmode j p hp'
    · exact hp.shows v w hw j p hp'
  rw [hin.unit hk j p hp']
  simp only [Set.mem_singleton_iff, exists_eq_left, hshows]
  refine ⟨fun heq v' y' hy' hvv => ?_, fun hagrees => hagrees v y hy rfl⟩
  obtain rfl := assignable_inj hvv
  obtain rfl := Option.some.inj (hy.symm.trans hy')
  exact heq

/-- What the commands and the transitions are at first. -/
structure Initial (f : L2File) (a b : ℕ → ℕ) : Prop where
  commanded : ∀ v y, f.vars[v]? = some y → y.kind = .commanded → a v = 0
  mode : ∀ v y, f.vars[v]? = some y → y.kind = .mode → b v = 0

theorem Loaded.agrees_current_iff (h : Loaded M f entered modes e) {a b : ℕ → ℕ} :
    (∀ x, e.current x.var = some x → Agrees f a b x) ↔ Initial f a b := by
  have hentry {v : ℕ} {y : L2rVariable} (hy : f.vars[v]? = some y) :
      e.current (assignable v) = initially v y := by
    obtain ⟨w, hw⟩ : ∃ w, entered[v]? = some w :=
      ⟨_, List.getElem?_eq_getElem (h.length.symm ▸ (List.getElem?_eq_some_iff.mp hy).1)⟩
    exact (h.entries v w y hw hy).current
  constructor
  · intro hall
    have hfirst {v : ℕ} {y : L2rVariable} (hy : f.vars[v]? = some y)
        (hk : y.kind = .commanded ∨ y.kind = .mode) :
        (if y.kind = .mode then b v else a v) = 0 := by
      refine hall ⟨assignable v, 0⟩ ?_ v y hy rfl
      rw [hentry hy, initially, if_pos hk]
    refine ⟨fun v y hy hk => ?_, fun v y hy hk => ?_⟩
    · simpa [hk] using hfirst hy (Or.inl hk)
    · simpa [hk] using hfirst hy (Or.inr hk)
  · intro hinitial x hx v y hy hvar
    rw [hvar, hentry hy] at hx
    unfold initially at hx
    split_ifs at hx with hk
    obtain rfl := Option.some.inj hx
    rcases hk with hk | hk
    · simpa [hk] using hinitial.commanded v y hy hk
    · simpa [hk] using hinitial.mode v y hy hk

/-- A model that is put into the engine. There is no error, and the valuations that satisfy the
theory are those that show a state of the model in which each command has its first value and each
mode goes on nominally; every such state is shown. -/
theorem write_means (hM : Describes M f) (hf : Loadable f)
    (h₀ : M.tracker.new M.assignables fuel = .ok t₀) :
    ∃ entered modes e, write M f t₀.engine = .ok (entered, modes, e) ∧ e.Inv M.assignables ∧
      (∀ τ, (∀ C ∈ e.solver.theory, ∃ l ∈ C, τ l.1 = l.2) ↔
        ∃ a b, Pictures f entered τ a b ∧ Initial f a b) ∧
      ∀ a b, IsState f a b → ∃ τ, Pictures f entered τ a b := by
  obtain ⟨entered, modes, e, hw, h⟩ := write_loaded hM hf h₀
  refine ⟨entered, modes, e, hw, h.inv, fun τ => ?_, fun a b hs => h.exists_pictures hs⟩
  rw [h.inv.satisfies_theory_iff, h.satisfies]
  constructor
  · rintro ⟨⟨a, b, hp⟩, hunits⟩
    refine ⟨a, b, hp, h.agrees_current_iff.mp fun x hx => ?_⟩
    exact (h.unit_iff hM hp (h.inv.current _ x hx).2).mp (hunits x hx)
  · rintro ⟨a, b, hp, hinitial⟩
    refine ⟨⟨a, b, hp⟩, fun x hx => (h.unit_iff hM hp (h.inv.current _ x hx).2).mpr ?_⟩
    exact h.agrees_current_iff.mpr hinitial x hx

theorem Loaded.good (h : Loaded M f entered modes e) (t₀ : Tracked) :
    M.Good { t₀ with engine := e } :=
  Session.good_of_memory h.inv h.memory _ _

/-- The state has the values that the variables of the engine `e` have in `e'`, but for the
assumptions those of the selection. -/
structure Explained (M : Session) (f : L2File) (e e' : Engine) (Δ : Finset Assignment)
    (a b : ℕ → ℕ) : Prop where
  current : ∀ x, e.Known M.assignables x → M.assignables.isAssumption x.var = false →
    e'.current x.var = some x → Agrees f a b x
  held : ∀ x, e.Known M.assignables x → M.assignables.isAssumption x.var = true →
    M.assignables.Holds Δ x → Agrees f a b x

/-- A model stays in force. Whatever is created, observed, searched and installed after it has been
put into the engine, a valuation that explains what is observed shows a state of the model with the
observed values, and no stored conflict blames the assumptions of this state alone. As long as
nothing is created, every valuation that shows such a state explains what is observed. -/
theorem loaded_runs (hM : Describes M f) (hf : Loadable f)
    (h₀ : M.tracker.new M.assignables fuel = .ok t₀)
    (hw : write M f t₀.engine = .ok (entered, modes, e))
    {kind : Call → Bool} {t : Tracked} (hl : M.Leads kind { t₀ with engine := e } t)
    {Δ : Finset Assignment} (hΔ : ∀ x ∈ Δ, x ∈ M.assignables.assignments x.var)
    {β : PropId → Bool} :
    (t.engine.Explains M.assignables Δ β →
      (∃ a b, Pictures f entered β a b ∧ Explained M f e t.engine Δ a b) ∧
      ∀ c ∈ t.engine.db.conflicts,
        ∃ x ∈ (t.engine.db.conflict c).assignments, ¬ M.assignables.Holds Δ x) ∧
    ((∀ call, kind call = true → call.asks = true) →
      (∃ a b, Pictures f entered β a b ∧ Explained M f e t.engine Δ a b) →
        t.engine.Explains M.assignables Δ β) := by
  have h := write_eq_loaded hM hf h₀ hw
  have hstart := h.good t₀
  obtain ⟨hgood, hgrows⟩ := hstart.leads hl
  constructor
  · intro hβ
    have hsat : e.solver.Satisfies β := by
      intro c hact hd
      refine hβ _ (Or.inl (hgrows.background ⟨c, hact, ?_, rfl⟩))
      unfold ConflictDb.isAssumptionClause
      rw [hd]
    obtain ⟨-, hcurrent, hunits⟩ := hgood.inv.satisfies_under_iff.mp hβ
    obtain ⟨a, b, hp⟩ := (h.satisfies β).mp hsat
    refine ⟨⟨a, b, hp, fun x hx hassumption hcur => ?_, fun x hx hassumption hholds => ?_⟩,
      fun c hc => hβ.resolves (hgood.justified c hc)⟩
    · have hunit := hcurrent x hcur hassumption
      rw [hgrows.unit x hx] at hunit
      exact (h.unit_iff hM hp hx).mp hunit
    · have hmem := hgrows.assumptions _ ((h.inv.assumptions _).mpr ⟨hx.1, hassumption⟩)
      have hunit := hunits x ⟨hmem, hholds⟩
      rw [hgrows.unit x hx] at hunit
      exact (h.unit_iff hM hp hx).mp hunit
  · intro hasks hex
    obtain ⟨a, b, hp, hstate⟩ := hex
    have hre := hstart.leads_reassigned hasks hl
    refine hgood.inv.satisfies_under_iff.mpr ⟨?_, fun x hx hassumption => ?_, fun x hx => ?_⟩
    · rw [hre.satisfies, h.satisfies]
      exact ⟨a, b, hp⟩
    · have hknown := (hre.known x).mp (hgood.inv.current _ x hx).2
      rw [hre.unit]
      exact (h.unit_iff hM hp hknown).mpr (hstate.current x hknown hassumption hx)
    · obtain ⟨hmem, hholds⟩ := hx
      rw [hre.assumptions] at hmem
      obtain ⟨hassignable, hassumption⟩ := (h.inv.assumptions _).mp hmem
      have hvalue : x ∈ M.assignables.assignments x.var := by
        rcases hholds with hx | ⟨hdefault, -⟩
        · exact hΔ x hx
        · have hdefmem := M.assignables.default_mem x.var hassumption
          rwa [← Assignables.isDefault_eq hdefault] at hdefmem
      rw [hre.unit]
      exact (h.unit_iff hM hp ⟨hassignable, hvalue⟩).mpr
        (hstate.held x ⟨hassignable, hvalue⟩ hassumption hholds)

/-- The lamp is a mode that works at first, the light is observed, and the switch is a command. -/
def lampFile : L2File where
  enums := [2]
  vars := [⟨0, .mode, some 0, ⟨[], [⟨0, none, 1, [], false, 1⟩]⟩⟩, ⟨0, .observed, none, {}⟩,
    ⟨0, .commanded, none, {}⟩]
  props := [.varValue ⟨0, false, 1⟩, .varValue ⟨1, true, 1⟩]
  clauses := [⟨[0, 1], true⟩]

def lampAssignables : Assignables where
  assignables := []
  assignments v := if v = stateVar then [⟨v, 0⟩]
    else if v ∈ [assignable 0, assignable 1, assignable 2] then [⟨v, 0⟩, ⟨v, 1⟩] else []
  weight a := UInt32.ofNat a.index
  isAssumption v := v = assignable 0 ∨ v = stateVar
  defaultAssignment v := ⟨v, 0⟩
  assignmentOf d := if d = 6 then ⟨stateVar, 0⟩ else ⟨assignable (d / 2), d % 2⟩
  var_eq v a ha := by
    split_ifs at ha
    · obtain rfl := List.mem_singleton.mp ha
      rfl
    · rcases List.mem_pair.mp ha with rfl | rfl
      · rfl
      · rfl
    · cases ha
  default_mem v hv := by
    rcases of_decide_eq_true hv with rfl | rfl
    · rw [if_neg (by decide), if_pos (by decide)]
      exact List.mem_cons_self
    · exact List.mem_singleton_self _

def lampModel : Session where
  assignables := lampAssignables
  datum a := if a.var = stateVar then 6 else 2 * a.var.id + a.index
  isObservable v := v = assignable 1
  tracker := ⟨stateVar, 2, 0, ⟨0, 0⟩, fun _ _ => false, fun _ _ => false⟩
  nodup v := by
    dsimp only [lampAssignables]
    split_ifs
    · exact List.nodup_singleton _
    · simp
    · exact List.nodup_nil
  assignmentOf_datum v a ha := by
    dsimp only [lampAssignables] at ha ⊢
    split_ifs at ha with hstate hv
    · obtain rfl := List.mem_singleton.mp ha
      subst hstate
      rfl
    · simp only [List.mem_cons, List.not_mem_nil, or_false] at hv ha
      rcases hv with rfl | rfl | rfl <;> rcases ha with rfl | rfl <;> rfl
    · cases ha
  not_isAssumption v hv := by
    obtain rfl := of_decide_eq_true hv
    rfl

theorem describes_lamp : Describes lampModel lampFile where
  assignments v y hy hk := by
    have hv : v < 3 := (List.getElem?_eq_some_iff.mp hy).1
    interval_cases v <;> obtain rfl := Option.some.inj hy <;> decide
  isAssumption v y hy := by
    have hv : v < 3 := (List.getElem?_eq_some_iff.mp hy).1
    interval_cases v <;> obtain rfl := Option.some.inj hy <;> decide
  default v y hy hk := rfl

theorem loadable_lamp : Loadable lampFile where
  wellFormed := by decide
  vars := by decide
  clauses := by decide
  small v y hy := by
    have hv : v < 3 := (List.getElem?_eq_some_iff.mp hy).1
    interval_cases v <;> obtain rfl := Option.some.inj hy <;> decide
  commanded v y hy hk := by
    have hv : v < 3 := (List.getElem?_eq_some_iff.mp hy).1
    interval_cases v <;> decide
  background c hc _ := by
    obtain rfl := List.mem_singleton.mp hc
    exact ⟨(by decide : Small (values lampFile ⟨[0, 1], true⟩)), fun a _ d hd => by cases hd⟩
  transitions v y hy _ x hx := by
    have hv : v < 3 := (List.getElem?_eq_some_iff.mp hy).1
    interval_cases v <;> obtain rfl := Option.some.inj hy
    · obtain rfl := List.mem_singleton.mp hx
      exact ⟨fun _ hn => absurd hn (by decide), fun clause hclause => absurd hclause (by simp)⟩
    · cases hx
    · cases hx

theorem new_lamp : ∃ fuel t₀, lampModel.tracker.new lampModel.assignables fuel = .ok t₀ := by
  obtain ⟨⟨K, h⟩, -⟩ := lampModel.tracker.new_returns lampModel.assignables
  obtain ⟨t₀, h₀⟩ := h (K + 1) (Nat.lt_succ_self K)
  exact ⟨K + 1, t₀, h₀⟩

theorem write_means_lamp : ∃ (t₀ : Tracked) (entered : List Entered) (modes : _) (e : Engine),
    write lampModel lampFile t₀.engine = .ok (entered, modes, e) ∧
      ∃ τ, Pictures lampFile entered τ (fun v => if v = 2 then 0 else 1) fun _ => 0 := by
  obtain ⟨fuel, t₀, h₀⟩ := new_lamp
  obtain ⟨entered, modes, e, hw, -, -, hshown⟩ := write_means describes_lamp loadable_lamp h₀
  refine ⟨t₀, entered, modes, e, hw, hshown _ _ ⟨?_, ?_, ?_⟩⟩
  · intro v hv
    have hv : v < 3 := hv
    interval_cases v <;> decide
  · intro c hc _
    obtain rfl := List.mem_singleton.mp hc
    exact ⟨.varValue ⟨1, true, 1⟩, by decide, by decide⟩
  · intro v y hy hk
    have hv : v < 3 := (List.getElem?_eq_some_iff.mp hy).1
    interval_cases v <;> obtain rfl := Option.some.inj hy <;> decide

/-- There is no light: so it is in every state that explains what is observed. -/
theorem loaded_runs_lamp : ∃ (t₀ t : Tracked) (entered : List Entered) (modes : _) (e : Engine),
    write lampModel lampFile t₀.engine = .ok (entered, modes, e) ∧
    lampModel.Leads (fun _ => true) { t₀ with engine := e } t ∧
    t.engine.current (assignable 1) = some ⟨assignable 1, 1⟩ ∧
    ∀ β, t.engine.Explains lampModel.assignables ∅ β → ∃ a b,
      Pictures lampFile entered β a b ∧ a 1 = 1 := by
  obtain ⟨fuel, t₀, h₀⟩ := new_lamp
  obtain ⟨entered, modes, e, hw, h⟩ := write_loaded describes_lamp loadable_lamp h₀
  obtain ⟨w, hlight⟩ : ∃ w, entered[1]? = some w :=
    ⟨_, List.getElem?_eq_getElem (h.length.symm ▸ (by decide : 1 < lampFile.vars.length))⟩
  have hin := h.entries 1 w _ hlight rfl
  have hregistered : assignable 1 ∈ e.assignables := hin.registered (by decide)
  have hknown : e.Known lampModel.assignables ⟨assignable 1, 1⟩ := ⟨hregistered, by decide⟩
  have haccepts : lampModel.accepts e (assignable 1) 1 = true := by
    unfold Session.accepts
    rw [decide_eq_true hregistered]
    decide
  have hv : lampModel.Valid { t₀ with engine := e } (.observe (assignable 1) 1) := by
    intro _ b hb
    cases hin.current.symm.trans hb
  obtain ⟨e', he', -, -, -, hcur⟩ := Engine.observe_spec h.inv hregistered
    fun _ : 0 ≤ (1 : ℤ) => (by decide : (1 : ℤ).toNat < (lampModel.assignables.assignments (assignable 1)).length)
  have happly : lampModel.apply 0 0 { t₀ with engine := e } (.observe (assignable 1) 1) =
      .ok { t₀ with engine := e' } := by
    simp only [Session.apply, Session.observe, haccepts, if_true, he']
    rfl
  have hl : lampModel.Leads (fun _ => true) { t₀ with engine := e } { t₀ with engine := e' } :=
    Relation.ReflTransGen.single ⟨_, 0, 0, rfl, hv, happly⟩
  have hlit : e'.current (assignable 1) = some ⟨assignable 1, 1⟩ := by
    rw [hcur, update_self]
    rfl
  refine ⟨t₀, _, entered, modes, e, hw, hl, hlit, fun β hβ => ?_⟩
  obtain ⟨⟨a, b, hp, hstate⟩, -⟩ :=
    (loaded_runs describes_lamp loadable_lamp h₀ hw hl (by simp)).1 hβ
  exact ⟨a, b, hp, hstate.current _ hknown rfl hlit 1 _ rfl rfl⟩

end ToTSystem

end Livingstone
