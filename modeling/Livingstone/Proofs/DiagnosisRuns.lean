import Livingstone.Diagnosis.Creating
import Livingstone.Diagnosis.Session
import Livingstone.Proofs.Diagnosis

/-! Sessions. Over every run of the calls the stored conflicts are nogoods, the candidates are made of
the assumptions that there are, and every valid call returns. What has become inconsistent remains
so, and the searches leave no trace in what the engine infers. -/

namespace Livingstone

open Engine (Reassigned Grows Searched SameGround)
open Function (update update_self update_of_ne)

/-- A value is known once it is known whether it is true and whether it is false. -/
theorem TruthValue.eq_of_iff {x y : TruthValue} (htrue : x = .ptrue ↔ y = .ptrue)
    (hfalse : x = .pfalse ↔ y = .pfalse) : x = y := by
  cases x with
  | ptrue => exact (htrue.mp rfl).symm
  | pfalse => exact (hfalse.mp rfl).symm
  | unknown =>
    cases y with
    | ptrue => exact htrue.mpr rfl
    | pfalse => exact hfalse.mpr rfl
    | unknown => rfl

namespace Engine

variable {D : Assignables} {e e' : Engine} {v : VarId}

theorem Grows.consistent (h : Grows D e e') (hinv : e.Inv D) {Δ : Finset Assignment}
    (hΔ : ∀ a ∈ Δ, a ∈ D.assignments a.var) (hcons : e'.Consistent D Δ) : e.Consistent D Δ := by
  refine fun hcon => hcons (UnitProp.Contradicts.mono ?_ hcon)
  rintro C (hC | ⟨a, ⟨hmem, hholds⟩, rfl⟩)
  · exact Or.inl (h.background hC)
  · have hknown : e.Known D a := by
      obtain ⟨hassignable, hassumption⟩ := (hinv.assumptions _).mp hmem
      refine ⟨hassignable, ?_⟩
      rcases hholds with ha | ⟨hdefault, -⟩
      · exact hΔ a ha
      · have hmem := D.default_mem a.var hassumption
        rwa [← Assignables.isDefault_eq hdefault] at hmem
    exact Or.inr ⟨a, ⟨h.assumptions _ hmem, hholds⟩, (h.unit a hknown).symm⟩

/-- The valuation satisfies the clauses when the assumptions have the values of the selection. -/
def Explains (D : Assignables) (e : Engine) (Δ : Finset Assignment) (β : PropId → Bool) : Prop :=
  ∀ C ∈ e.under D (e.holding D Δ), ∃ l ∈ C, β l.1 = l.2

theorem Explains.consistent {Δ : Finset Assignment} {β : PropId → Bool} (h : e.Explains D Δ β) :
    e.Consistent D Δ := UnitProp.not_contradicts_of_satisfies h

theorem Explains.resolves {Δ : Finset Assignment} {β : PropId → Bool} (h : e.Explains D Δ β)
    {assignments : List Assignment} (hn : e.Nogood D assignments) :
    ∃ a ∈ assignments, ¬ D.Holds Δ a := by
  by_contra hall
  push Not at hall
  refine h.consistent (UnitProp.Contradicts.mono (under_mono fun a ha => ?_) hn.2)
  exact ⟨(hn.1 a ha).1, hall a ha⟩

theorem observe_spec (h : e.Inv D) (hv : v ∈ e.assignables) {value : ℤ}
    (hrange : 0 ≤ value → value.toNat < (D.assignments v).length) :
    ∃ e', e.observe D v value = .ok e' ∧ e'.Inv D ∧ e.Reassigned e' ∧ e'.memory = e.memory ∧
      e'.current = update e.current v
        (if 0 ≤ value then (D.assignments v)[value.toNat]? else none) := by
  unfold observe
  by_cases hneg : value < 0
  · rw [if_pos hneg, if_neg (not_le.mpr hneg)]
    exact unassign_spec h v
  · have hle := not_lt.mp hneg
    rw [if_neg hneg, if_pos hle]
    have hlt := hrange hle
    obtain ⟨a, hget⟩ : ∃ a, (D.assignments v)[value.toNat]? = some a :=
      ⟨_, List.getElem?_eq_getElem hlt⟩
    have hmem := List.mem_of_getElem? hget
    have hvar := D.var_eq v a hmem
    obtain ⟨e', he', hinv, hre, hmemory, hcur⟩ :=
      assign_spec h ⟨hvar.symm ▸ hv, hvar.symm ▸ hmem⟩
    refine ⟨e', ?_, hinv, hre, hmemory, ?_⟩
    · unfold assignIndex
      rw [hget]
      exact he'
    · rw [hget, hcur, hvar]

end Engine

namespace Session

variable {M : Session} {t t' t'' : Tracked} {calls : List Call} {call : Call} {e' : Engine}
  {timestep fuel : ℕ}

structure Good (M : Session) (t : Tracked) : Prop where
  inv : t.engine.Inv M.assignables
  justified : t.engine.Justified M.assignables
  legal : ∀ c ∈ t.engine.candidates, c.Legal (t.engine.space M.assignables)

structure Step (M : Session) (call : Call) (t t' : Tracked) : Prop where
  good : M.Good t'
  grows : Grows M.assignables t.engine t'.engine
  searched : call.searches = true → SameGround M.assignables t.engine t'.engine ∧
    ∀ v, v ∉ t.engine.assumptions → t'.engine.current v = t.engine.current v
  classes : t'.candidatePartition = M.tracker.partition t'.engine.candidates ∨
    call.diagnoses = false ∧ t'.candidatePartition = t.candidatePartition ∧
      t'.engine.candidates = t.engine.candidates

theorem Good.step_of_grows (h : M.Good t) (hinv : e'.Inv M.assignables)
    (hgrows : Grows M.assignables t.engine e') (hmemory : e'.memory = t.engine.memory)
    (hcall : call.searches = false) : M.Step call t { t with engine := e' } := by
  obtain ⟨hdb, hcandidates⟩ := Prod.mk.inj hmemory
  refine ⟨⟨hinv, hgrows.justified h.inv hdb h.justified, fun c hc => ?_⟩, hgrows, fun hs => ?_,
    Or.inr ⟨?_, rfl, hcandidates⟩⟩
  · exact hgrows.legal (h.legal c (hcandidates ▸ hc))
  · cases hcall.symm.trans hs
  · cases call <;> first | rfl | cases hcall

theorem Good.step_of_searched (h : M.Good t) (hs : Searched M.assignables t.engine e')
    (hcall : call.diagnoses = false) : M.Step call t { t with engine := e' } := by
  refine ⟨⟨hs.inv, hs.justified h.justified, fun c hc => ?_⟩, Grows.of_sameGround hs.ground,
    fun _ => ⟨hs.ground, hs.others⟩, Or.inr ⟨hcall, rfl, hs.candidates⟩⟩
  exact hs.legal (h.legal c (hs.candidates ▸ hc))

theorem step_of_tracks (h : M.tracker.Tracks M.assignables t.engine t') : M.Step call t t' := by
  refine ⟨⟨h.inv, h.justified, fun c hc => ?_⟩, Grows.of_sameGround h.ground,
    fun _ => ⟨h.ground, h.others⟩, Or.inl h.partition⟩
  rw [h.ground.space]
  exact (h.sound c hc).1

/-- A call that returns, and steps whenever it does. -/
def Returns (M : Session) (timestep : ℕ) (t : Tracked) (call : Call) : Prop :=
  (∃ K, ∀ fuel, K < fuel → ∃ t', M.apply timestep fuel t call = .ok t') ∧
    ∀ fuel t', M.apply timestep fuel t call = .ok t' → M.Step call t t'

theorem returns_of_eq (ht' : ∀ fuel, M.apply timestep fuel t call = .ok t')
    (hstep : M.Step call t t') : M.Returns timestep t call := by
  refine ⟨⟨0, fun fuel _ => ⟨t', ht' fuel⟩⟩, fun fuel t'' ht'' => ?_⟩
  obtain rfl := Except.ok.inj ((ht' fuel).symm.trans ht'')
  exact hstep

theorem Good.observe_returns (h : M.Good t) {v : VarId} {value : ℤ}
    (hv : M.Valid t (.observe v value)) : M.Returns timestep t (.observe v value) := by
  cases haccepts : M.accepts t.engine v value with
  | false =>
    have heq (fuel : ℕ) : M.apply timestep fuel t (.observe v value) = .ok t := by
      simp only [apply, observe, haccepts, Bool.false_eq_true, if_false]
      rfl
    exact returns_of_eq heq (h.step_of_grows h.inv (Grows.refl M.assignables t.engine) rfl rfl)
  | true =>
    have hkeeps := hv haccepts
    have haccepts' := haccepts
    unfold accepts at haccepts'
    simp only [Bool.and_eq_true, decide_eq_true_eq, Bool.not_eq_true', Bool.and_eq_false_iff,
      decide_eq_false_iff_not] at haccepts'
    obtain ⟨⟨hmem, hobservable⟩, hrange⟩ := haccepts'
    obtain ⟨e', he', hinv, hre, hmemory, hcur⟩ := Engine.observe_spec h.inv hmem
      fun hle : 0 ≤ value => not_le.mp (hrange.resolve_left (not_not_intro hle))
    have hgrows : Grows M.assignables t.engine e' := by
      refine hre.grows h.inv hinv fun w _ b hb => ?_
      rw [hcur]
      by_cases hwv : w = v
      · subst hwv
        obtain ⟨hle, hget⟩ := hkeeps b hb
        rw [update_self, if_pos hle, hget]
      · rw [update_of_ne hwv, hb]
    refine returns_of_eq (fun _ => ?_) (h.step_of_grows hinv hgrows hmemory rfl)
    simp only [apply, observe, haccepts, if_true, he']
    rfl

theorem Good.install_returns (h : M.Good t) (candIdx : ℕ) :
    M.Returns timestep t (.install candIdx) := by
  cases hget : t.engine.candidates[candIdx]? with
  | none =>
    have heq (fuel : ℕ) : M.apply timestep fuel t (.install candIdx) = .ok t := by
      simp only [apply, install, hget]
      rfl
    exact returns_of_eq heq (h.step_of_searched (Searched.refl h.inv) rfl)
  | some candidate =>
    obtain ⟨e', he', hs, -⟩ :=
      Engine.install_spec h.inv (h.legal candidate (List.mem_of_getElem? hget)) true
    refine returns_of_eq (fun _ => ?_) (h.step_of_searched hs rfl)
    simp only [apply, install, hget, he']
    rfl

theorem Good.diagnose_spec (h : M.Good t) {style : FcStyle} (hv : M.Valid t (.diagnose style))
    (timestep : ℕ) :
    (∃ K, ∀ fuel, K < fuel → ∃ t', M.apply timestep fuel t (.diagnose style) = .ok t') ∧
      ∀ fuel t', M.apply timestep fuel t (.diagnose style) = .ok t' →
        M.tracker.Tracks M.assignables t.engine t' := by
  obtain ⟨hstyle, hfit, hstate⟩ := hv
  have hextend := M.tracker.extendCandidates_diagnosed h.inv h.justified hfit h.legal timestep
  cases style with
  | invalid => exact absurd rfl hstyle
  | trackerDefault => exact ⟨hextend.1, fun fuel t' ht' => (hextend.2 fuel t' ht').toTracks⟩
  | extend => exact ⟨hextend.1, fun fuel t' ht' => (hextend.2 fuel t' ht').toTracks⟩
  | findFresh =>
    obtain ⟨htotal, hright⟩ := M.tracker.extendCandidates_seeds h.inv h.justified hfit
      (CbfsTracker.stateCandidates_legal (hstate (Or.inl rfl))) timestep
    exact ⟨htotal, fun fuel t' ht' => (hright fuel t' ht').toTracks⟩
  | pruneAndSearch =>
    obtain ⟨htotal, hright⟩ := M.tracker.pruneAndSearch_pruned h.inv h.justified hfit h.legal
      (hstate (Or.inr rfl)) timestep
    exact ⟨htotal, fun fuel t' ht' => (hright fuel t' ht').toTracks⟩

/-- Every valid call returns, once the bound of a search is large enough, and steps. -/
theorem Good.returns (h : M.Good t) (hv : M.Valid t call) (timestep : ℕ) :
    M.Returns timestep t call := by
  cases call with
  | createAssignable v =>
    obtain ⟨e', he', hinv, hgrows, hmemory⟩ := Engine.createAssignable_spec h.inv hv.1 (M.nodup v)
      hv.2 (M.assignmentOf_datum v)
    refine returns_of_eq (fun _ => ?_) (h.step_of_grows hinv hgrows hmemory rfl)
    simp only [apply, he']
    rfl
  | createDependent n =>
    obtain ⟨e', he', hinv, hgrows, hmemory⟩ := Engine.createDependent_spec h.inv hv
    refine returns_of_eq (fun _ => ?_) (h.step_of_grows hinv hgrows hmemory rfl)
    simp only [apply, he']
    rfl
  | createClause positive negative isVolatile inTheory =>
    obtain ⟨e', he', hinv, hgrows, hmemory⟩ :=
      Engine.createClause_spec h.inv hv.1 hv.2 isVolatile inTheory
    refine returns_of_eq (fun _ => ?_) (h.step_of_grows hinv hgrows hmemory rfl)
    simp only [apply, he']
    rfl
  | observe v value => exact h.observe_returns hv
  | install candIdx => exact h.install_returns candIdx
  | diagnose style =>
    obtain ⟨htotal, hright⟩ := h.diagnose_spec hv timestep
    exact ⟨htotal, fun fuel t' ht' => step_of_tracks (hright fuel t' ht')⟩

theorem inv_empty (cs : List Candidate) : ({ candidates := cs } : Engine).Inv M.assignables := by
  refine ⟨Ltms.inv_empty, ConflictDb.linked_empty _, ?_, ?_, ?_, ?_, ?_⟩
  · exact fun a ha => absurd ha.1 List.not_mem_nil
  · exact fun c hc => absurd hc List.not_mem_nil
  · exact fun a ha => absurd ha.1 List.not_mem_nil
  · exact fun v a ha => by cases ha
  · exact fun v => ⟨fun hv => absurd hv List.not_mem_nil, fun hv => absurd hv.1 List.not_mem_nil⟩

/-- As long as the tracker has not looked for candidates, there are none but the empty one. -/
theorem good_of_memory {e : Engine} (hinv : e.Inv M.assignables)
    (h : e.memory = ({}, M.tracker.firstCandidates)) (candidatePartition : List (List Candidate))
    (termination : SearchTermination) : M.Good ⟨e, candidatePartition, termination⟩ := by
  obtain ⟨hdb, hcandidates⟩ := Prod.mk.inj h
  refine ⟨hinv, fun c hc => ?_, fun c hc => ?_⟩
  · rw [hdb] at hc
    cases hc
  · rw [hcandidates, CbfsTracker.firstCandidates] at hc
    split_ifs at hc
    · cases hc
    · obtain rfl := List.mem_singleton.mp hc
      exact ⟨List.nodup_nil, fun a ha => absurd ha List.not_mem_nil⟩

theorem good_new (h : M.tracker.new M.assignables fuel = .ok t) : M.Good t := by
  obtain ⟨engine, candidatePartition, termination⟩ := t
  obtain ⟨rfl, -⟩ := (M.tracker.new_returns M.assignables).2 fuel _ h
  exact good_of_memory (inv_empty _) rfl candidatePartition termination

variable {kind : Call → Bool}

theorem Good.next (h : M.Good t) (hn : M.Next kind t t') :
    ∃ call, kind call = true ∧ M.Step call t t' := by
  obtain ⟨call, timestep, fuel, hkind, hv, ht'⟩ := hn
  exact ⟨call, hkind, (h.returns hv timestep).2 fuel t' ht'⟩

theorem Good.leads (h : M.Good t) (hl : M.Leads kind t t') :
    M.Good t' ∧ Grows M.assignables t.engine t'.engine := by
  induction hl with
  | refl => exact ⟨h, Grows.refl _ _⟩
  | tail _ hn ih =>
    obtain ⟨hgood, hgrows⟩ := ih
    obtain ⟨call, -, hstep⟩ := hgood.next hn
    exact ⟨hstep.good, hgrows.trans hstep.grows⟩

theorem Good.leads_searches (h : M.Good t) (hl : M.Leads Call.searches t t') :
    SameGround M.assignables t.engine t'.engine ∧
      ∀ v, v ∉ t.engine.assumptions → t'.engine.current v = t.engine.current v := by
  induction hl with
  | refl => exact ⟨SameGround.refl _ _, fun _ _ => rfl⟩
  | tail hl hn ih =>
    obtain ⟨hground, hothers⟩ := ih
    obtain ⟨call, hkind, hstep⟩ := (h.leads hl).1.next hn
    obtain ⟨hground', hothers'⟩ := hstep.searched hkind
    refine ⟨hground.trans hground', fun v hv => ?_⟩
    exact (hothers' v (hground.reassigned.assumptions.symm ▸ hv)).trans (hothers v hv)

theorem Good.leads_classes (h : M.Good t) (hl : M.Leads kind t t') :
    t'.candidatePartition = M.tracker.partition t'.engine.candidates ∨
      M.Leads (fun call => !call.diagnoses) t t' := by
  induction hl with
  | refl => exact Or.inr Relation.ReflTransGen.refl
  | tail hl hn ih =>
    obtain ⟨call, timestep, fuel, -, hv, ht'⟩ := hn
    have hstep := ((h.leads hl).1.returns hv timestep).2 fuel _ ht'
    rcases hstep.classes with hclasses | ⟨hcall, hpartition, hcandidates⟩
    · exact Or.inl hclasses
    · refine ih.imp (fun hclasses => ?_) fun hunsearched => ?_
      · rw [hpartition, hcandidates]
        exact hclasses
      · exact hunsearched.tail ⟨call, timestep, fuel, congrArg (!·) hcall, hv, ht'⟩

theorem Reachable.good (h : M.Reachable t) : M.Good t := by
  obtain ⟨fuel, t₀, h₀, hl⟩ := h
  exact ((good_new h₀).leads hl).1

theorem Reachable.classes (h : M.Reachable t) :
    t.candidatePartition = M.tracker.partition t.engine.candidates ∨
      M.ReachableBy (fun call => !call.diagnoses) t := by
  obtain ⟨fuel, t₀, h₀, hl⟩ := h
  exact ((good_new h₀).leads_classes hl).imp_right fun hunsearched => ⟨fuel, t₀, h₀, hunsearched⟩

theorem Reachable.applied (h : M.Reachable t) (hv : M.Valid t call)
    (ht' : M.apply timestep fuel t call = .ok t') : M.Reachable t' := by
  obtain ⟨fuel₀, t₀, h₀, hl⟩ := h
  exact ⟨fuel₀, t₀, h₀, hl.tail ⟨call, timestep, fuel, rfl, hv, ht'⟩⟩

theorem Reachable.leads (h : M.Reachable t) (hn : M.Next kind t t') : M.Reachable t' := by
  obtain ⟨call, timestep, fuel, -, hv, ht'⟩ := hn
  exact h.applied hv ht'

def lamp : VarId := ⟨0, 0⟩
def light : VarId := ⟨1, 0⟩

def lamps : Assignables where
  assignables := []
  assignments v := if v ∈ [lamp, light] then [⟨v, 0⟩, ⟨v, 1⟩] else []
  weight a := UInt32.ofNat a.index
  isAssumption v := v = lamp
  defaultAssignment v := ⟨v, 0⟩
  assignmentOf d := ⟨⟨d / 2, 0⟩, d % 2⟩
  var_eq v a ha := by
    split_ifs at ha
    · rcases List.mem_pair.mp ha with rfl | rfl
      · rfl
      · rfl
    · cases ha
  default_mem v hv := by
    obtain rfl := of_decide_eq_true hv
    exact List.mem_cons_self

/-- The lamp is the state variable, and the light is observed. -/
def lampSession : Session where
  assignables := lamps
  datum a := 2 * a.var.id + a.index
  isObservable v := v = light
  tracker := ⟨lamp, 2, 0, ⟨0, 0⟩, fun _ _ => false, fun _ _ => false⟩
  nodup v := by
    dsimp only [lamps]
    split_ifs
    · simp
    · exact List.nodup_nil
  assignmentOf_datum v a ha := by
    dsimp only [lamps] at ha
    split_ifs at ha with hv
    · rcases List.mem_pair.mp hv with rfl | rfl
      · rcases List.mem_pair.mp ha with rfl | rfl
        · rfl
        · rfl
      · rcases List.mem_pair.mp ha with rfl | rfl
        · rfl
        · rfl
    · cases ha
  not_isAssumption v hv := by
    obtain rfl := of_decide_eq_true hv
    rfl

theorem ranksFit_lamps {e : Engine} (h : e.assumptions = [lamp]) : (e.space lamps).RanksFit 0 := by
  intro Δ hΔ
  have hsub : Δ ⊆ {⟨lamp, 0⟩, ⟨lamp, 1⟩} := by
    rintro ⟨v, i⟩ ha
    obtain ⟨hmem, ha⟩ := hΔ.known _ ha
    simp only [Engine.space, h, List.mem_singleton] at hmem
    obtain rfl := hmem
    simpa using List.mem_pair.mp ha
  have hlt : UInt32.toNat 0 + lamps.rank {⟨lamp, 0⟩, ⟨lamp, 1⟩} < 2 ^ 32 := by decide
  exact (Nat.add_le_add_left (Assignables.rank_mono hsub) _).trans_lt hlt

/-- The state after the calls, without those that fail. -/
def stateAfter (M : Session) (calls : List Call) : Tracked :=
  calls.foldl (fun t call => (M.apply 0 8 t call).toOption.getD t)
    ((M.tracker.new M.assignables 8).toOption.getD ⟨{}, [], .emptyAgenda⟩)

theorem apply_stateAfter (hok : (M.apply 0 8 (M.stateAfter calls) call).isOk = true) :
    M.apply 0 8 (M.stateAfter calls) call = .ok (M.stateAfter (calls ++ [call])) := by
  have heq : M.stateAfter (calls ++ [call]) =
      (M.apply 0 8 (M.stateAfter calls) call).toOption.getD (M.stateAfter calls) := by
    unfold stateAfter
    rw [List.foldl_append]
    rfl
  rw [heq]
  cases ht' : M.apply 0 8 (M.stateAfter calls) call with
  | error x => simp [ht', Except.isOk, Except.toBool] at hok
  | ok t' => rfl

theorem next_stateAfter (hkind : kind call = true) (hv : M.Valid (M.stateAfter calls) call)
    (hok : (M.apply 0 8 (M.stateAfter calls) call).isOk = true) :
    M.Next kind (M.stateAfter calls) (M.stateAfter (calls ++ [call])) :=
  ⟨call, 0, 8, hkind, hv, apply_stateAfter hok⟩

theorem reachable_snoc (h : M.Reachable (M.stateAfter calls)) (hv : M.Valid (M.stateAfter calls) call)
    (hok : (M.apply 0 8 (M.stateAfter calls) call).isOk = true) :
    M.Reachable (M.stateAfter (calls ++ [call])) :=
  h.applied hv (apply_stateAfter hok)

/-- The light gets a proposition for each of its values, and so does the lamp. -/
def lampCalls : List Call :=
  [.createAssignable lamp, .createAssignable light] ++ [.createClause [3] [1] false true]

def darkCalls : List Call := lampCalls ++ [.observe light 1]

def foundCalls : List Call := darkCalls ++ [.diagnose .extend]

-- each step of the run is evaluated
set_option maxRecDepth 10000 in
theorem reachable_lamps : lampSession.Reachable (lampSession.stateAfter lampCalls) := by
  have h₁ : lampSession.Reachable (lampSession.stateAfter ([] ++ [.createAssignable lamp])) :=
    reachable_snoc ⟨8, _, rfl, Relation.ReflTransGen.refl⟩ ⟨by decide, by decide⟩ (by decide)
  have h₂ : lampSession.Reachable
      (lampSession.stateAfter ([.createAssignable lamp] ++ [.createAssignable light])) :=
    reachable_snoc h₁ ⟨by decide, by decide⟩ (by decide)
  unfold lampCalls
  exact reachable_snoc h₂ ⟨by decide, by decide⟩ (by decide)

set_option maxRecDepth 10000 in
theorem next_dark (kind : Call → Bool) (hkind : kind (.observe light 1) = true) :
    lampSession.Next kind (lampSession.stateAfter lampCalls) (lampSession.stateAfter darkCalls) :=
  next_stateAfter hkind (fun _ b hb => by cases (show none = some b from hb)) (by decide)

theorem reachable_dark : lampSession.Reachable (lampSession.stateAfter darkCalls) :=
  reachable_lamps.leads (next_dark (fun _ => true) rfl)

set_option maxRecDepth 10000 in
theorem assumptions_dark : (lampSession.stateAfter darkCalls).engine.assumptions = [lamp] := by
  decide

theorem ranksFit_dark :
    ((lampSession.stateAfter darkCalls).engine.space lampSession.assignables).RanksFit 0 :=
  ranksFit_lamps assumptions_dark

theorem valid_dark (style : FcStyle) (hstyle : style ≠ .invalid) :
    lampSession.Valid (lampSession.stateAfter darkCalls) (.diagnose style) :=
  ⟨hstyle, ranksFit_dark, fun _ => assumptions_dark ▸ List.mem_singleton_self lamp⟩

def broken : PropId → Bool := fun p => p = 0 ∨ p = 2

-- one evaluation of the search for all that is said of the state it leaves
set_option maxRecDepth 40000 in
theorem evaluated_found :
    (lampSession.apply 0 8 (lampSession.stateAfter darkCalls) (.diagnose .extend)).isOk = true ∧
      (lampSession.stateAfter foundCalls).engine.candidates = [[⟨lamp, 1⟩]] ∧
      (lampSession.stateAfter foundCalls).engine.db.conflicts = [0] ∧
      (lampSession.stateAfter foundCalls).engine.assumptions = [lamp] ∧
      (∀ c ∈ (lampSession.stateAfter foundCalls).engine.solver.clauses,
        ((lampSession.stateAfter foundCalls).engine.solver.clause c).deleted = false →
          ∃ l ∈ ((lampSession.stateAfter foundCalls).engine.solver.clause c).lits,
            broken l.1 = l.2) ∧
      ∃ l ∈ ((lampSession.stateAfter foundCalls).engine.solver.clause
        ((lampSession.stateAfter foundCalls).engine.clauseOf ⟨lamp, 1⟩)).lits, broken l.1 = l.2 := by
  decide +kernel

theorem apply_found :
    lampSession.apply 0 8 (lampSession.stateAfter darkCalls) (.diagnose .extend) =
      .ok (lampSession.stateAfter foundCalls) :=
  apply_stateAfter evaluated_found.1

theorem reachable_found : lampSession.Reachable (lampSession.stateAfter foundCalls) :=
  reachable_dark.applied (valid_dark .extend (by decide)) apply_found

theorem candidates_found :
    (lampSession.stateAfter foundCalls).engine.candidates = [[⟨lamp, 1⟩]] ∧
      (lampSession.stateAfter foundCalls).engine.db.conflicts = [0] :=
  ⟨evaluated_found.2.1, evaluated_found.2.2.1⟩

theorem state_dark : lampSession.tracker.stateVariable ∈
    (lampSession.stateAfter darkCalls).engine.assumptions :=
  assumptions_dark ▸ List.mem_singleton_self lamp

/-- In every state of a session the stored conflicts are nogoods, the back pointers of the database
are right, the candidates are of assumptions that exist, each with one of its values, and from the
first search on the classes are those of the candidates. Every valid call returns: no failed assertion
or exception of the code is reached, and no search goes on for ever. -/
theorem reachable_justified (h : M.Reachable t) :
    t.engine.Justified M.assignables ∧ t.engine.db.Linked M.assignables ∧
      (∀ c ∈ t.engine.candidates, c.Legal (t.engine.space M.assignables)) ∧
      (t.candidatePartition = M.tracker.partition t.engine.candidates ∨
        M.ReachableBy (fun call => !call.diagnoses) t) ∧
      ∀ call, M.Valid t call → ∀ timestep, ∃ K, ∀ fuel, K < fuel →
        ∃ t', M.apply timestep fuel t call = .ok t' :=
  ⟨h.good.justified, h.good.inv.linked, h.good.legal, h.classes,
    fun _ hv timestep => (h.good.returns hv timestep).1⟩

theorem reachable_justified_found :
    (lampSession.stateAfter foundCalls).engine.db.conflicts = [0] ∧
      (lampSession.stateAfter foundCalls).engine.Nogood lampSession.assignables
        ((lampSession.stateAfter foundCalls).engine.db.conflict 0).assignments := by
  obtain ⟨hjustified, -⟩ := reachable_justified reachable_found
  have hmem : 0 ∈ (lampSession.stateAfter foundCalls).engine.db.conflicts := by
    rw [candidates_found.2]
    exact List.mem_singleton_self 0
  exact ⟨candidates_found.2, hjustified 0 hmem⟩

/-- Whatever was observed and searched before, a search from the candidates finds consistent ones, in
the order of their ranks, and leaves no minimal one within the limits unaccounted for. -/
theorem reachable_diagnosed (h : M.Reachable t)
    (hfit : (t.engine.space M.assignables).RanksFit 0) (timestep : ℕ) :
    (∃ K, ∀ fuel, K < fuel → ∃ t', M.apply timestep fuel t (.diagnose .extend) = .ok t') ∧
      ∀ fuel t', M.apply timestep fuel t (.diagnose .extend) = .ok t' →
        M.tracker.Diagnosed M.assignables timestep t.engine
          (CbfsAgenda.initialCandidates t.engine.candidates) t' :=
  M.tracker.extendCandidates_diagnosed h.good.inv h.good.justified hfit h.good.legal timestep

theorem reachable_diagnosed_dark :
    lampSession.tracker.Diagnosed lampSession.assignables 0
      (lampSession.stateAfter darkCalls).engine
      (CbfsAgenda.initialCandidates (lampSession.stateAfter darkCalls).engine.candidates)
      (lampSession.stateAfter foundCalls) :=
  (reachable_diagnosed reachable_dark ranksFit_dark 0).2 8 _ apply_found

/-- `prune_and_search` keeps just the candidates that are still consistent, and only when there are
none does it search from the values of the state variable. -/
theorem reachable_pruned (h : M.Reachable t) (hfit : (t.engine.space M.assignables).RanksFit 0)
    (hstate : M.tracker.stateVariable ∈ t.engine.assumptions) (timestep : ℕ) :
    (∃ K, ∀ fuel, K < fuel → ∃ t', M.apply timestep fuel t (.diagnose .pruneAndSearch) = .ok t') ∧
      ∀ fuel t', M.apply timestep fuel t (.diagnose .pruneAndSearch) = .ok t' →
        M.tracker.Pruned M.assignables timestep t.engine t' :=
  M.tracker.pruneAndSearch_pruned h.good.inv h.good.justified hfit h.good.legal hstate timestep

theorem reachable_pruned_dark : ∃ fuel t',
    lampSession.apply 0 fuel (lampSession.stateAfter darkCalls) (.diagnose .pruneAndSearch) = .ok t' ∧
      lampSession.tracker.Pruned lampSession.assignables 0
        (lampSession.stateAfter darkCalls).engine t' := by
  obtain ⟨⟨K, htotal⟩, hright⟩ := reachable_pruned reachable_dark ranksFit_dark state_dark 0
  obtain ⟨t', ht'⟩ := htotal (K + 1) (Nat.lt_succ_self K)
  exact ⟨K + 1, t', ht', hright _ t' ht'⟩

/-- When `prune_and_search` leaves no candidate, and has not been cut short, no selection within the
limits explains what was observed; a candidate that it leaves does. -/
theorem reachable_explained (h : M.Reachable t) (hfit : (t.engine.space M.assignables).RanksFit 0)
    (hstate : M.tracker.stateVariable ∈ t.engine.assumptions) (hnumber : 0 < M.tracker.numberTracked)
    (ht' : M.apply timestep fuel t (.diagnose .pruneAndSearch) = .ok t') :
    (t'.engine.candidates ≠ [] → ∃ Δ, (t.engine.space M.assignables).IsSelection Δ ∧
      t.engine.Consistent M.assignables Δ) ∧
    (t'.engine.candidates = [] → t'.termination ≠ .maxOverrun →
      ∀ Δ, (t.engine.space M.assignables).IsSelection Δ →
        (∃ a ∈ Δ, a.var = M.tracker.stateVariable) →
          M.tracker.limits.Admits (M.assignables.rank Δ) → ¬ t.engine.Consistent M.assignables Δ) :=
  M.tracker.pruneAndSearch_explains h.good.inv h.good.justified hfit h.good.legal hstate hnumber ht'

theorem reachable_explained_dark : ∃ fuel t',
    lampSession.apply 0 fuel (lampSession.stateAfter darkCalls) (.diagnose .pruneAndSearch) = .ok t' ∧
      (t'.engine.candidates ≠ [] → ∃ Δ,
        ((lampSession.stateAfter darkCalls).engine.space lampSession.assignables).IsSelection Δ ∧
          (lampSession.stateAfter darkCalls).engine.Consistent lampSession.assignables Δ) := by
  obtain ⟨K, htotal⟩ :=
    (reachable_dark.good.returns (valid_dark .pruneAndSearch (by decide)) 0).1
  obtain ⟨t', ht'⟩ := htotal (K + 1) (Nat.lt_succ_self K)
  exact ⟨K + 1, t', ht',
    (reachable_explained reachable_dark ranksFit_dark state_dark (by decide) ht').1⟩

/-- The truth is never ruled out. When a valuation satisfies the clauses and the assumptions have the
values of a selection, no stored conflict blames all of them, and a search that is not cut short
leaves a candidate. -/
theorem truth_not_excluded (h : M.Reachable t) {Δ : Finset Assignment} {β : PropId → Bool}
    (hβ : t.engine.Explains M.assignables Δ β) :
    (∀ c ∈ t.engine.db.conflicts,
      ∃ a ∈ (t.engine.db.conflict c).assignments, ¬ M.assignables.Holds Δ a) ∧
    ((t.engine.space M.assignables).RanksFit 0 → (t.engine.space M.assignables).IsSelection Δ →
      (∃ a ∈ Δ, a.var = M.tracker.stateVariable) →
      M.tracker.limits.Admits (M.assignables.rank Δ) → 0 < M.tracker.numberTracked →
      ∀ timestep fuel t', M.apply timestep fuel t (.diagnose .pruneAndSearch) = .ok t' →
        t'.termination ≠ .maxOverrun → t'.engine.candidates ≠ []) := by
  refine ⟨fun c hc => hβ.resolves (h.good.justified c hc), ?_⟩
  intro hfit hΔ hstate hadmits hnumber timestep fuel t' ht' hmax hnil
  obtain ⟨a, ha, hvar⟩ := hstate
  have hmem : M.tracker.stateVariable ∈ t.engine.assumptions := hvar ▸ (hΔ.known a ha).1
  obtain ⟨-, hnone⟩ := M.tracker.pruneAndSearch_explains h.good.inv h.good.justified hfit
    h.good.legal hmem hnumber ht'
  exact hnone hnil hmax Δ hΔ ⟨a, ha, hvar⟩ hadmits hβ.consistent

theorem explains_broken :
    (lampSession.stateAfter foundCalls).engine.Explains lampSession.assignables {⟨lamp, 1⟩} broken := by
  obtain ⟨-, -, -, hlamp, hsatisfied, hunit⟩ := evaluated_found
  rintro C (⟨c, hact, -, rfl⟩ | ⟨a, ⟨hmem, hholds⟩, rfl⟩)
  · exact hsatisfied c hact.1 hact.2
  · rw [hlamp, List.mem_singleton] at hmem
    have ha : a = ⟨lamp, 1⟩ := by
      rcases hholds with ha | ⟨-, hnone⟩
      · exact Finset.mem_singleton.mp ha
      · exact absurd hmem.symm (hnone _ (Finset.mem_singleton_self _))
    subst ha
    exact hunit

/-- The conflict that was found blames the lamp for working. -/
theorem truth_not_excluded_found :
    ∃ a ∈ ((lampSession.stateAfter foundCalls).engine.db.conflict 0).assignments,
      ¬ lampSession.assignables.Holds {⟨lamp, 1⟩} a := by
  refine (truth_not_excluded reachable_found explains_broken).1 0 ?_
  rw [candidates_found.2]
  exact List.mem_singleton_self 0

/-- A candidate that was inconsistent once is found by no later search, whatever is created and
observed in between. -/
theorem found_consistent_before (h : M.Reachable t) (hl : M.Leads kind t t') {style : FcStyle}
    (hv : M.Valid t' (.diagnose style))
    (ht'' : M.apply timestep fuel t' (.diagnose style) = .ok t'') :
    ∀ c ∈ t''.engine.candidates, t.engine.Consistent M.assignables c.toFinset := by
  intro c hc
  obtain ⟨hgood, hgrows⟩ := h.good.leads hl
  obtain ⟨hlegal, hcons⟩ := ((hgood.diagnose_spec hv timestep).2 fuel t'' ht'').sound c hc
  exact hgrows.consistent h.good.inv
    (fun a ha => (hlegal.known a (List.mem_toFinset.mp ha)).2) hcons

theorem found_consistent_before_lamps :
    (lampSession.stateAfter lampCalls).engine.Consistent lampSession.assignables
      (List.toFinset [⟨lamp, 1⟩]) := by
  refine found_consistent_before reachable_lamps
    (Relation.ReflTransGen.single (next_dark (fun _ => true) rfl)) (valid_dark .extend (by decide)) apply_found _ ?_
  rw [candidates_found.1]
  exact List.mem_singleton_self _

/-- Searching leaves no trace: however many searches there were in between, a consistent candidate
that is installed gives every variable the value that it would have had before. -/
theorem install_alike (h : M.Reachable t) (hl : M.Leads Call.searches t t') {candidate : Candidate}
    (hlegal : candidate.Legal (t.engine.space M.assignables))
    (hcons : t.engine.Consistent M.assignables candidate.toFinset) :
    ∃ e e', t.engine.install M.assignables candidate true = .ok e ∧
      t'.engine.install M.assignables candidate true = .ok e' ∧
      (∀ p, e'.solver.value p = e.solver.value p) ∧ e'.current = e.current := by
  obtain ⟨hground, hothers⟩ := h.good.leads_searches hl
  have hgood' := (h.good.leads hl).1
  obtain ⟨e, he, hs, ha, hinfers⟩ := Engine.install_spec h.good.inv hlegal true
  obtain ⟨e', he', hs', ha', hinfers'⟩ :=
    Engine.install_spec hgood'.inv (hground.space.symm ▸ hlegal) true
  have hinfers := hinfers rfl hcons
  have hinfers' := hinfers' rfl ((hground.consistent _).mpr hcons)
  have hunder : t'.engine.under M.assignables (t'.engine.holding M.assignables candidate.toFinset) =
      t.engine.under M.assignables (t.engine.holding M.assignables candidate.toFinset) := by
    rw [hground.holding, hground.under]
  refine ⟨e, e', he, he', fun p => ?_, funext fun v => ?_⟩
  · obtain ⟨htrue, hfalse⟩ := hinfers p
    obtain ⟨htrue', hfalse'⟩ := hinfers' p
    rw [hunder] at htrue' hfalse'
    exact TruthValue.eq_of_iff (htrue'.trans htrue.symm) (hfalse'.trans hfalse.symm)
  · by_cases hv : v ∈ t.engine.assumptions
    · have hv' := hground.reassigned.assumptions.symm ▸ hv
      refine Option.ext fun a => ⟨fun hsome => ?_, fun hsome => ?_⟩
      · obtain ⟨rfl, -⟩ := hs'.inv.current v a hsome
        exact (ha.holds a hv).mpr ((ha'.holds a hv').mp hsome)
      · obtain ⟨rfl, -⟩ := hs.inv.current v a hsome
        exact (ha'.holds a hv').mpr ((ha.holds a hv).mp hsome)
    · have hv' := hground.reassigned.assumptions.symm ▸ hv
      rw [ha'.others v hv', hothers v hv, ha.others v hv]

/-- The lamp is broken, before the search as after it. -/
theorem install_alike_found : ∃ e e',
    (lampSession.stateAfter darkCalls).engine.install lampSession.assignables [⟨lamp, 1⟩] true =
      .ok e ∧
    (lampSession.stateAfter foundCalls).engine.install lampSession.assignables [⟨lamp, 1⟩] true =
      .ok e' ∧
    (∀ p, e'.solver.value p = e.solver.value p) ∧ e'.current = e.current := by
  have hfound := ((reachable_dark.good.diagnose_spec (valid_dark .extend (by decide)) 0).2 8 _
    apply_found).sound [⟨lamp, 1⟩] (by
      rw [candidates_found.1]
      exact List.mem_singleton_self _)
  exact install_alike reachable_dark (Relation.ReflTransGen.single
    ⟨_, 0, 8, rfl, valid_dark .extend (by decide), apply_found⟩) hfound.1 hfound.2

end Session

end Livingstone
