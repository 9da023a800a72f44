import Livingstone.Diagnosis.Nogoods

/-! Variables and clauses are created. The clauses that there are stay as they are, and what is
contradictory with them remains so. -/

namespace Livingstone

-- the wrap of a counter is never computed here
attribute [local irreducible] lengthT

namespace Ltms

variable {s s' s'' : Ltms} {pos neg : List PropId}

/-- The clauses of `s` are as before, and the new ones stand for no assignment. -/
structure Extends (s s' : Ltms) : Prop where
  mem : ∀ c ∈ s.clauses, c ∈ s'.clauses
  lits : ∀ c ∈ s.clauses, (s'.clause c).lits = (s.clause c).lits
  datum : ∀ c ∈ s.clauses, (s'.clause c).datum = (s.clause c).datum
  active : ∀ c ∈ s.clauses, (s'.Active c ↔ s.Active c)
  new : ∀ c ∈ s'.clauses, c ∉ s.clauses → (s'.clause c).datum = none

namespace Extends

theorem refl (s : Ltms) : s.Extends s :=
  ⟨fun _ hc => hc, fun _ _ => rfl, fun _ _ => rfl, fun _ _ => Iff.rfl, fun _ hc hn => absurd hc hn⟩

theorem trans (h : s.Extends s') (h' : s'.Extends s'') : s.Extends s'' where
  mem c hc := h'.mem c (h.mem c hc)
  lits c hc := (h'.lits c (h.mem c hc)).trans (h.lits c hc)
  datum c hc := (h'.datum c (h.mem c hc)).trans (h.datum c hc)
  active c hc := (h'.active c (h.mem c hc)).trans (h.active c hc)
  new c hc hn := by
    by_cases hc' : c ∈ s'.clauses
    · exact (h'.datum c hc').trans (h.new c hc' hn)
    · exact h'.new c hc hc'

end Extends

theorem createProposition_extends (s : Ltms) : s.Extends s.createProposition.2 :=
  ⟨fun _ hc => hc, fun _ _ => rfl, fun _ _ => rfl, fun _ _ => Iff.rfl, fun _ hc hn => absurd hc hn⟩

theorem createPropositions_extends (s : Ltms) (n : ℕ) : s.Extends (s.createPropositions n).2 := by
  induction n with
  | zero => exact Extends.refl s
  | succ n ih => exact ih.trans (createProposition_extends _)

theorem createClause_extends (h : s.Inv) (hfit : Fits pos neg)
    (hp : ∀ p ∈ pos ++ neg, p ∈ s.props) (isVolatile inTheory : Bool) :
    ∃ s', s.createClause none pos neg isVolatile inTheory = .ok (s.nextClause, s') ∧ s'.Inv ∧
      s'.props = s.props ∧ s.Extends s' := by
  have hinv := newClause_inv none isVolatile h hfit
    (fun p hm => hp p (List.mem_append_left _ hm)) (fun p hm => hp p (List.mem_append_right _ hm))
  have hc := newClause_created (s := s) none isVolatile hfit
  have hact := hc.active h.wf rfl
  set s₁ := (s.newClause none pos neg isVolatile).2 with hs₁
  have hnew : ∀ c ∈ s₁.clauses, c ∉ s.clauses → c = s.nextClause := fun c hm hn =>
    (hc.mem_clauses.mp hm).resolve_left hn
  unfold createClause
  cases inTheory with
  | false =>
    refine ⟨s₁, rfl, hinv, hc.props, fun c hm => hc.mem_clauses.mpr (Or.inl hm), ?_, ?_,
      fun c _ => hact c, fun c hm hn => ?_⟩
    · exact fun c hm => by rw [hc.clause_eq h.wf hm]
    · exact fun c hm => by rw [hc.clause_eq h.wf hm]
    · rw [hnew c hm hn, hc.new]
      rfl
  | true =>
    obtain ⟨s', hs', hinv', -, hsel⟩ := add_spec (c := s.nextClause) hinv
      (hc.mem_clauses.mpr (Or.inr rfl)) (by rw [hc.new]; rfl)
    have hdatum := (SameFlags.add hs').datum
    refine ⟨s', ?_, hinv', hsel.props.trans hc.props, fun c hm => ?_, fun c hm => ?_, fun c hm => ?_,
      fun c hm => ?_, fun c hm hn => ?_⟩
    · simp only [newClause_fst, if_true, ← hs₁, hs']
      rfl
    · exact hsel.clauses ▸ hc.mem_clauses.mpr (Or.inl hm)
    · rw [hsel.lits, hc.clause_eq h.wf hm]
    · rw [hdatum, hc.clause_eq h.wf hm]
    · rw [hsel.active, hact, or_iff_left (h.wf.fresh hm)]
    · rw [hdatum, hnew c (hsel.clauses ▸ hm) hn, hc.new]
      rfl

theorem mutexWith_extends (h : s.Inv) {p : PropId} (hp : p ∈ s.props) {others : List PropId}
    (ho : ∀ q ∈ others, q ∈ s.props) (hs' : mutexWith p s others = .ok s') :
    s'.Inv ∧ s'.props = s.props ∧ s.Extends s' := by
  refine Loop.foldlM_inv (fun t => t.Inv ∧ t.props = s.props ∧ s.Extends t) others
    (fun q hq t t' ⟨hinv, hprops, hext⟩ ht => ?_) ⟨h, rfl, Extends.refl s⟩ hs'
  have hfit : Fits [] [q, p] := by
    have hle := List.toFinset_card_le [q, p]
    rw [fits_iff]
    exact le_trans (Nat.add_le_add_left hle _) (by simp)
  have hmem : ∀ x ∈ [] ++ [q, p], x ∈ t.props := by
    intro x hx
    rw [hprops]
    rcases List.mem_pair.mp hx with rfl | rfl
    · exact ho x hq
    · exact hp
  obtain ⟨t₁, ht₁, hinv₁, hprops₁, hext₁⟩ := createClause_extends hinv hfit hmem false true
  rw [ht₁] at ht
  obtain rfl := Except.ok.inj ht
  exact ⟨hinv₁, hprops₁.trans hprops, hext.trans hext₁⟩

theorem mutexClauses_extends (h : s.Inv) {propositions : List PropId}
    (hp : ∀ p ∈ propositions, p ∈ s.props) (hs' : mutexClauses propositions s = .ok s') :
    s'.props = s.props ∧ s.Extends s' := by
  induction propositions generalizing s with
  | nil => exact Except.ok.inj hs' ▸ ⟨rfl, Extends.refl s⟩
  | cons p propositions ih =>
    obtain ⟨s₁, hs₁, hs'⟩ := Loop.bind_eq_ok hs'
    obtain ⟨hinv, hprops, hext⟩ := mutexWith_extends h (hp p List.mem_cons_self)
      (fun q hq => hp q (List.mem_cons_of_mem p hq)) hs₁
    obtain ⟨hprops', hext'⟩ :=
      ih hinv (fun q hq => hprops ▸ hp q (List.mem_cons_of_mem p hq)) hs'
    exact ⟨hprops'.trans hprops, hext.trans hext'⟩

/-- A new variable: its propositions are new ones, and its clauses stand for no assignment. -/
theorem newVariable_extends (h : s.Inv) {n : ℕ} (hn : n ≤ 127) :
    ∃ s', s.newVariable n = .ok ((s.createPropositions n).1, s') ∧ s'.Inv ∧ s.Extends s' ∧
      ∀ p ∈ (s.createPropositions n).1, p ∈ s'.props := by
  obtain ⟨s', hs', hinv⟩ := newVariable_inv h hn
  obtain ⟨hps, -, hprops⟩ := createPropositions_eq s n
  have hmem : ∀ p ∈ (s.createPropositions n).1, p ∈ (s.createPropositions n).2.props := by
    intro p hp
    rw [hps, List.mem_reverse] at hp
    rw [hprops]
    exact List.mem_append_right _ hp
  have hfit : Fits (s.createPropositions n).1 [] := by
    rw [fits_iff, List.toFinset_card_of_nodup (createPropositions_nodup s n),
      createPropositions_length]
    simpa using hn
  obtain ⟨s₁, hs₁, hinv₁, hprops₁, hext₁⟩ :=
    createClause_extends (createPropositions_inv h n) hfit (by simpa using hmem) false true
  have hmutex : mutexClauses (s.createPropositions n).1 s₁ = .ok s' := by
    have hnew := hs'
    unfold newVariable at hnew
    simp only [hs₁, bind, Except.bind] at hnew
    cases hm : mutexClauses (s.createPropositions n).1 s₁ with
    | error x => simp [hm] at hnew
    | ok s₂ =>
      simp only [hm, pure, Except.pure, Except.ok.injEq, Prod.mk.injEq, true_and] at hnew
      rw [hnew]
  obtain ⟨hprops', hext'⟩ := mutexClauses_extends hinv₁ (fun p hp => hprops₁ ▸ hmem p hp) hmutex
  refine ⟨s', hs', hinv, ((createPropositions_extends s n).trans hext₁).trans hext', fun p hp => ?_⟩
  rw [hprops', hprops₁]
  exact hmem p hp

end Ltms

namespace Engine

open Function (update update_self update_of_ne)
open Ltms (Extends)
open ConflictDb (isAssumptionClause)

variable {D : Assignables} {e e' e'' : Engine} {a : Assignment} {v : VarId}
  {datum : Assignment → ℕ}

/-- What stood for something in `e` stands for it in `e'`, and nothing left the background. -/
structure Grows (D : Assignables) (e e' : Engine) : Prop where
  background : e.background D ⊆ e'.background D
  unit : ∀ a, e.Known D a → e'.unit a = e.unit a
  assignables : ∀ v ∈ e.assignables, v ∈ e'.assignables
  assumptions : ∀ v ∈ e.assumptions, v ∈ e'.assumptions

namespace Grows

theorem refl (D : Assignables) (e : Engine) : Grows D e e :=
  ⟨Set.Subset.rfl, fun _ _ => rfl, fun _ h => h, fun _ h => h⟩

theorem known (h : Grows D e e') (ha : e.Known D a) : e'.Known D a :=
  ⟨h.assignables _ ha.1, ha.2⟩

theorem trans (h : Grows D e e') (h' : Grows D e' e'') : Grows D e e'' where
  background := h.background.trans h'.background
  unit a ha := (h'.unit a (h.known ha)).trans (h.unit a ha)
  assignables v hv := h'.assignables v (h.assignables v hv)
  assumptions v hv := h'.assumptions v (h.assumptions v hv)

theorem of_sameGround (h : SameGround D e e') : Grows D e e' where
  background := h.background.ge
  unit a _ := h.reassigned.unit a
  assignables _ hv := h.reassigned.assignables.symm ▸ hv
  assumptions _ hv := h.reassigned.assumptions.symm ▸ hv

theorem space_known (h : Grows D e e') (ha : (e.space D).Known a) : (e'.space D).Known a :=
  ⟨h.assumptions _ ha.1, ha.2⟩

theorem legal (h : Grows D e e') {candidate : Candidate} (hlegal : candidate.Legal (e.space D)) :
    candidate.Legal (e'.space D) :=
  ⟨hlegal.wellFormed, fun a ha => h.space_known (hlegal.known a ha)⟩

theorem nogood (h : Grows D e e') (hinv : e.Inv D) {assignments : List Assignment}
    (hn : e.Nogood D assignments) : e'.Nogood D assignments := by
  refine ⟨fun a ha => h.space_known (hn.1 a ha), UnitProp.Contradicts.mono ?_ hn.2⟩
  rintro C (hC | ⟨a, ha, rfl⟩)
  · exact Or.inl (h.background hC)
  · exact Or.inr ⟨a, ha, (h.unit a (hinv.known_of_space (hn.1 a ha)).1).symm⟩

theorem justified (h : Grows D e e') (hinv : e.Inv D) (hdb : e'.db = e.db)
    (hj : e.Justified D) : e'.Justified D := by
  intro c hc
  rw [hdb] at hc ⊢
  exact h.nogood hinv (hj c hc)

end Grows

/-- The background grows when the other variables keep the values that they have. -/
theorem Reassigned.grows (h : e.Reassigned e') (hinv : e.Inv D) (hinv' : e'.Inv D)
    (hkeep : ∀ v, v ∉ e.assumptions → ∀ b, e.current v = some b → e'.current v = some b) :
    Grows D e e' := by
  refine ⟨?_, fun a _ => h.unit a, fun v hv => h.assignables.symm ▸ hv,
    fun v hv => h.assumptions.symm ▸ hv⟩
  rintro C ⟨c, hact, hnot, rfl⟩
  have hact' : e'.solver.Active c := by
    cases hd : (e.solver.clause c).datum with
    | none => exact (h.others c hd).mpr hact
    | some d =>
      obtain ⟨hknown, hclause⟩ := hinv.datum c hact.1 d hd
      have hcur := (hinv.active _ hknown).mp (hclause ▸ hact)
      have hvar : (D.assignmentOf d).var ∉ e.assumptions := by
        intro hmem
        rw [isAssumptionClause_iff.mpr ⟨d, hd, ((hinv.assumptions _).mp hmem).2⟩] at hnot
        cases hnot
      have hact' := (hinv'.active _ ((h.known _).mpr hknown)).mpr (hkeep _ hvar _ hcur)
      rwa [h.clauseOf, hclause] at hact'
  refine ⟨c, hact', (isAssumptionClause_congr (h.datum c)).trans hnot, ?_⟩
  unfold Ltms.litSet
  rw [h.lits]

/-- The engine once its solver has more clauses, of which none stands for an assignment. -/
theorem Inv.extend (h : e.Inv D) {s : Ltms} (hs : s.Inv) (hext : e.solver.Extends s) :
    ({ e with solver := s } : Engine).Inv D ∧ Grows D e { e with solver := s } := by
  refine ⟨⟨hs, h.linked, fun a ha => ?_, fun c hc d hd => ?_, fun a ha => ?_, h.current,
    h.assumptions⟩, ⟨?_, fun a ha => ?_, fun _ hv => hv, fun _ hv => hv⟩⟩
  · obtain ⟨hmem, hunit, hdatum⟩ := h.stands a ha
    refine ⟨hext.mem _ hmem, ?_, ?_⟩
    · dsimp only
      rw [hext.lits _ hmem]
      exact hunit
    · dsimp only
      rw [hext.datum _ hmem]
      exact hdatum
  · by_cases hold : c ∈ e.solver.clauses
    · exact h.datum c hold d ((hext.datum c hold).symm.trans hd)
    · cases (hext.new c hc hold).symm.trans hd
  · exact (hext.active _ (h.stands a ha).mem).trans (h.active a ha)
  · rintro C ⟨c, hact, hnot, rfl⟩
    refine ⟨c, (hext.active c hact.1).mpr hact, ?_, ?_⟩
    · exact (isAssumptionClause_congr (hext.datum c hact.1)).trans hnot
    · unfold Ltms.litSet
      rw [hext.lits c hact.1]
  · have hmem := (h.stands a ha).mem
    unfold unit Ltms.litSet
    dsimp only
    rw [hext.lits _ hmem]

theorem createClause_spec (h : e.Inv D) {positive negative : List PropId}
    (hfit : Fits positive negative) (hp : ∀ p ∈ positive ++ negative, p ∈ e.solver.props)
    (isVolatile inTheory : Bool) :
    ∃ e', e.createClause positive negative isVolatile inTheory = .ok e' ∧ e'.Inv D ∧ Grows D e e' ∧
      e'.memory = e.memory := by
  obtain ⟨s, hs, hinv, -, hext⟩ :=
    Ltms.createClause_extends h.solver hfit hp isVolatile inTheory
  obtain ⟨hinv', hgrows⟩ := h.extend hinv hext
  refine ⟨_, ?_, hinv', hgrows, rfl⟩
  unfold createClause
  rw [hs]
  rfl

theorem createDependent_spec (h : e.Inv D) {n : ℕ} (hn : n ≤ 127) :
    ∃ e', e.createDependent n = .ok e' ∧ e'.Inv D ∧ Grows D e e' ∧ e'.memory = e.memory := by
  obtain ⟨s, hs, hinv, hext, -⟩ := Ltms.newVariable_extends h.solver hn
  obtain ⟨hinv', hgrows⟩ := h.extend hinv hext
  refine ⟨_, ?_, hinv', hgrows, rfl⟩
  unfold createDependent
  rw [hs]
  rfl

/-- Some of the values have their clauses, which are not in the theory. -/
structure Valued (datum : Assignment → ℕ) (e : Engine) (done : List (Assignment × PropId))
    (e' : Engine) : Prop where
  inv : e'.solver.Inv
  props : e'.solver.props = e.solver.props
  old : ∀ c ∈ e.solver.clauses,
    c ∈ e'.solver.clauses ∧ e'.solver.clause c = e.solver.clause c
  new : ∀ c ∈ e'.solver.clauses, c ∉ e.solver.clauses → ∃ p ∈ done, e'.clauseOf p.1 = c
  value : ∀ p ∈ done, e'.clauseOf p.1 ∈ e'.solver.clauses ∧
    (e'.solver.clause (e'.clauseOf p.1)).lits = [(p.2, true)] ∧
    (e'.solver.clause (e'.clauseOf p.1)).datum = some (datum p.1) ∧
    (e'.solver.clause (e'.clauseOf p.1)).deleted = true
  clauseOf : ∀ a, (∀ p ∈ done, p.1 ≠ a) → e'.clauseOf a = e.clauseOf a
  rest : { e' with solver := e.solver, clauseOf := e.clauseOf } = e

theorem createAssignment_valued {done : List (Assignment × PropId)} {p : Assignment × PropId}
    (h : Valued datum e done e') (hp : p.2 ∈ e.solver.props) (hnew : ∀ q ∈ done, q.1 ≠ p.1) :
    ∃ e'', createAssignment datum e' p = .ok e'' ∧ Valued datum e (done ++ [p]) e'' := by
  have hfit : Fits [p.2] [] := by
    rw [fits_iff]
    simp
  have hprops : ∀ q ∈ [p.2], q ∈ e'.solver.props := by
    intro q hq
    rw [List.mem_singleton.mp hq, h.props]
    exact hp
  have hc := Ltms.newClause_created (s := e'.solver) (some (datum p.1)) true hfit
  have hinv := Ltms.newClause_inv (some (datum p.1)) true h.inv hfit hprops (by simp)
  set c := e'.solver.nextClause with hcdef
  set s := (e'.solver.newClause (some (datum p.1)) [p.2] [] true).2 with hs
  have hself : update e'.clauseOf p.1 c p.1 = c := update_self _ _ _
  have hother : ∀ a, a ≠ p.1 → update e'.clauseOf p.1 c a = e'.clauseOf a := fun a ha =>
    update_of_ne ha _ _
  refine ⟨{ e' with solver := s, clauseOf := update e'.clauseOf p.1 c }, ?_, hinv,
    hc.props.trans h.props, fun d hd => ?_, fun d hd hold => ?_, fun q hq => ?_, fun a ha => ?_, h.rest⟩
  · unfold createAssignment Ltms.createClause
    rfl
  · obtain ⟨hmem, heq⟩ := h.old d hd
    exact ⟨hc.mem_clauses.mpr (Or.inl hmem), (hc.clause_eq h.inv.wf hmem).trans heq⟩
  · rcases hc.mem_clauses.mp hd with hd | rfl
    · obtain ⟨q, hq, rfl⟩ := h.new d hd hold
      exact ⟨q, List.mem_append_left _ hq, hother _ (hnew q hq)⟩
    · exact ⟨p, List.mem_append_right _ List.mem_cons_self, hself⟩
  · dsimp only
    rcases List.mem_append.mp hq with hq | hq
    · rw [hother _ (hnew q hq)]
      obtain ⟨hmem, hvalue⟩ := h.value q hq
      rw [hc.clause_eq h.inv.wf hmem]
      exact ⟨hc.mem_clauses.mpr (Or.inl hmem), hvalue⟩
    · obtain rfl := List.mem_singleton.mp hq
      rw [hself, hc.new]
      refine ⟨hc.mem_clauses.mpr (Or.inr rfl), ?_, rfl, rfl⟩
      rw [lits_construct _ _ hfit]
      rfl
  · have hpa : a ≠ p.1 := fun heq => ha p (by simp) heq.symm
    exact (hother a hpa).trans (h.clauseOf a fun q hq => ha q (List.mem_append_left _ hq))

theorem createAssignments_valued (datum : Assignment → ℕ) (h : e.solver.Inv) {pairs : List (Assignment × PropId)}
    (hp : ∀ p ∈ pairs, p.2 ∈ e.solver.props) (hn : (pairs.map Prod.fst).Nodup) :
    ∃ e', pairs.foldlM (createAssignment datum) e = .ok e' ∧ Valued datum e pairs e' := by
  obtain ⟨e', he', done, hdone, hv⟩ := Loop.foldlM_rest
    (fun rest e' => ∃ done, done ++ rest = pairs ∧ Valued datum e done e')
    (f := createAssignment datum) (fun p rest e' ⟨done, hdone, hv⟩ => by
      subst hdone
      have hnew : ∀ q ∈ done, q.1 ≠ p.1 := by
        intro q hq heq
        rw [List.map_append, List.map_cons] at hn
        exact (List.nodup_append.mp hn).2.2 _ (List.mem_map_of_mem hq) _ List.mem_cons_self heq
      obtain ⟨e'', he'', hv'⟩ := createAssignment_valued hv (hp p (by simp)) hnew
      exact ⟨e'', he'', done ++ [p], by simp, hv'⟩)
    pairs e ⟨[], rfl, h, rfl, fun c hc => ⟨hc, rfl⟩, fun c hc hn => absurd hc hn,
      fun p hp => absurd hp List.not_mem_nil, fun a _ => rfl, rfl⟩
  rw [List.append_nil] at hdone
  exact ⟨e', he', hdone ▸ hv⟩

namespace Valued

variable {pairs : List (Assignment × PropId)} {c : ClauseId}

theorem assignables_register (hv : Valued datum e pairs e') :
    (e'.register D v).assignables = v :: e.assignables :=
  congrArg (v :: ·) (congrArg (·.assignables) hv.rest : e'.assignables = e.assignables)

theorem assumptions_register (hv : Valued datum e pairs e') : (e'.register D v).assumptions =
    if D.isAssumption v then v :: e.assumptions else e.assumptions := by
  rw [← (congrArg (·.assumptions) hv.rest : e'.assumptions = e.assumptions)]
  rfl

theorem known_register (hv : Valued datum e pairs e') :
    (e'.register D v).Known D a ↔ e.Known D a ∨ a ∈ D.assignments v := by
  unfold Known
  rw [hv.assignables_register, List.mem_cons]
  refine ⟨fun ⟨hmem, ha⟩ => ?_, ?_⟩
  · rcases hmem with hmem | hmem
    · exact Or.inr (hmem ▸ ha)
    · exact Or.inl ⟨hmem, ha⟩
  · rintro (⟨hmem, ha⟩ | ha)
    · exact ⟨Or.inr hmem, ha⟩
    · have heq := D.var_eq v a ha
      exact ⟨Or.inl heq, heq.symm ▸ ha⟩

theorem var_eq (hpairs : pairs.map Prod.fst = D.assignments v) {p : Assignment × PropId}
    (hp : p ∈ pairs) : p.1 ∈ D.assignments v ∧ p.1.var = v := by
  have hmem : p.1 ∈ D.assignments v := hpairs ▸ List.mem_map_of_mem hp
  exact ⟨hmem, D.var_eq v p.1 hmem⟩

theorem clauseOf_known (hv : Valued datum e pairs e') (hnew : v ∉ e.assignables)
    (hpairs : pairs.map Prod.fst = D.assignments v) (ha : e.Known D a) :
    e'.clauseOf a = e.clauseOf a := by
  refine hv.clauseOf a fun p hp heq => hnew ?_
  rw [← (var_eq hpairs hp).2, heq]
  exact ha.1

theorem active_iff (hv : Valued datum e pairs e') (hc : c ∈ e.solver.clauses) :
    e'.solver.Active c ↔ e.solver.Active c := by
  obtain ⟨hmem, heq⟩ := hv.old c hc
  unfold Ltms.Active
  rw [heq]
  exact and_congr_left fun _ => iff_of_true hmem hc

theorem stands_register (h : e.Inv D) (hv : Valued datum e pairs e') (hnew : v ∉ e.assignables)
    (hdatum : ∀ a ∈ D.assignments v, D.assignmentOf (datum a) = a)
    (hpairs : pairs.map Prod.fst = D.assignments v) (ha : (e'.register D v).Known D a) :
    (e'.register D v).Stands D a := by
  rcases hv.known_register.mp ha with ha | ha
  · obtain ⟨hmem, hunit, hd⟩ := h.stands a ha
    obtain ⟨hmem', heq⟩ := hv.old _ hmem
    have hclause := hv.clauseOf_known hnew hpairs ha
    refine ⟨hclause.symm ▸ hmem', ?_, ?_⟩
    · change ∃ l, (e'.solver.clause (e'.clauseOf a)).lits = [l]
      rw [hclause, heq]
      exact hunit
    · change ∃ d, (e'.solver.clause (e'.clauseOf a)).datum = some d ∧ _
      rw [hclause, heq]
      exact hd
  · obtain ⟨p, hp, rfl⟩ := List.mem_map.mp (hpairs.symm ▸ ha)
    obtain ⟨hmem, hlits, hd, -⟩ := hv.value p hp
    exact ⟨hmem, ⟨_, hlits⟩, _, hd, hdatum _ ha⟩

theorem active_register (h : e.Inv D) (hv : Valued datum e pairs e') (hnew : v ∉ e.assignables)
    (hpairs : pairs.map Prod.fst = D.assignments v) (ha : (e'.register D v).Known D a) :
    e'.solver.Active (e'.clauseOf a) ↔ e.current a.var = some a := by
  rcases hv.known_register.mp ha with ha | ha
  · rw [hv.clauseOf_known hnew hpairs ha, hv.active_iff (h.stands a ha).mem]
    exact h.active a ha
  · obtain ⟨p, hp, rfl⟩ := List.mem_map.mp (hpairs.symm ▸ ha)
    refine iff_of_false (fun hact => ?_) fun hsome => ?_
    · cases hact.2.symm.trans (hv.value p hp).2.2.2
    · exact hnew ((var_eq hpairs hp).2 ▸ (h.current _ _ hsome).2.1)

theorem inv_register (h : e.Inv D) (hv : Valued datum e pairs e') (hnew : v ∉ e.assignables)
    (hdatum : ∀ a ∈ D.assignments v, D.assignmentOf (datum a) = a)
    (hpairs : pairs.map Prod.fst = D.assignments v) : (e'.register D v).Inv D := by
  have hcur : e'.current = e.current := congrArg (·.current) hv.rest
  refine ⟨hv.inv, ?_, fun a ha => hv.stands_register h hnew hdatum hpairs ha, fun c hc d hd => ?_,
    fun a ha => ?_, fun w a hw => ?_, fun w => ?_⟩
  · exact (congrArg (·.db) hv.rest : e'.db = e.db).symm ▸ h.linked
  · by_cases hc' : c ∈ e.solver.clauses
    · obtain ⟨hk, hclause⟩ :=
        h.datum c hc' d ((congrArg Clause.datum (hv.old c hc').2).symm.trans hd)
      exact ⟨hv.known_register.mpr (Or.inl hk), (hv.clauseOf_known hnew hpairs hk).trans hclause⟩
    · obtain ⟨p, hp, rfl⟩ := hv.new c hc hc'
      obtain rfl := Option.some.inj ((hv.value p hp).2.2.1.symm.trans hd)
      have hmem := (var_eq hpairs hp).1
      rw [hdatum _ hmem]
      exact ⟨hv.known_register.mpr (Or.inr hmem), rfl⟩
  · change e'.solver.Active (e'.clauseOf a) ↔ e'.current a.var = some a
    rw [hcur]
    exact hv.active_register h hnew hpairs ha
  · obtain ⟨hav, hk⟩ := h.current w a (hcur ▸ hw)
    exact ⟨hav, hv.known_register.mpr (Or.inl hk)⟩
  · rw [hv.assignables_register, hv.assumptions_register, List.mem_cons]
    by_cases hwv : w = v
    · subst hwv
      cases hassumption : D.isAssumption w with
      | true => simp
      | false =>
        simp only [Bool.false_eq_true, if_false, and_false, iff_false]
        exact fun hmem => by cases ((h.assumptions w).mp hmem).2.symm.trans hassumption
    · cases D.isAssumption v with
      | true => simp [hwv, h.assumptions w]
      | false => simp [hwv, h.assumptions w]

theorem grows_register (h : e.Inv D) (hv : Valued datum e pairs e') (hnew : v ∉ e.assignables)
    (hpairs : pairs.map Prod.fst = D.assignments v) : Grows D e (e'.register D v) := by
  refine ⟨?_, fun a ha => ?_, fun w hw => ?_, fun w hw => ?_⟩
  · rintro C ⟨c, hact, hnot, rfl⟩
    have heq := (hv.old c hact.1).2
    refine ⟨c, (hv.active_iff hact.1).mpr hact, ?_, ?_⟩
    · exact (isAssumptionClause_congr (congrArg Clause.datum heq)).trans hnot
    · exact congrArg (fun k : Clause => {l | l ∈ k.lits}) heq.symm
  · change e'.solver.litSet (e'.clauseOf a) = e.solver.litSet (e.clauseOf a)
    unfold Ltms.litSet
    rw [hv.clauseOf_known hnew hpairs ha, (hv.old _ (h.stands a ha).mem).2]
  · rw [hv.assignables_register]
    exact List.mem_cons_of_mem _ hw
  · rw [hv.assumptions_register]
    split_ifs
    · exact List.mem_cons_of_mem _ hw
    · exact hw

theorem register (h : e.Inv D) (hv : Valued datum e pairs e') (hnew : v ∉ e.assignables)
    (hdatum : ∀ a ∈ D.assignments v, D.assignmentOf (datum a) = a)
    (hpairs : pairs.map Prod.fst = D.assignments v) :
    (e'.register D v).Inv D ∧ Grows D e (e'.register D v) ∧ (e'.register D v).memory = e.memory :=
  ⟨hv.inv_register h hnew hdatum hpairs, hv.grows_register h hnew hpairs,
    Prod.ext (congrArg (·.db) hv.rest : e'.db = e.db)
      (congrArg (·.candidates) hv.rest : e'.candidates = e.candidates)⟩

end Valued

theorem createAssignable_spec (h : e.Inv D) (hnew : v ∉ e.assignables)
    (hn : (D.assignments v).Nodup) (hsize : (D.assignments v).length ≤ 127)
    (hdatum : ∀ a ∈ D.assignments v, D.assignmentOf (datum a) = a) :
    ∃ e', e.createAssignable D datum v = .ok e' ∧ e'.Inv D ∧ Grows D e e' ∧
      e'.memory = e.memory := by
  obtain ⟨s, hs, hinv, hext, hprops⟩ := Ltms.newVariable_extends h.solver hsize
  obtain ⟨hinv₁, hgrows₁⟩ := h.extend hinv hext
  have hlen : (D.assignments v).length =
      (e.solver.createPropositions (D.assignments v).length).1.length :=
    (Ltms.createPropositions_length _ _).symm
  have hpairs : ((D.assignments v).zip
      (e.solver.createPropositions (D.assignments v).length).1).map Prod.fst = D.assignments v :=
    List.map_fst_zip hlen.le
  obtain ⟨e', he', hv⟩ := createAssignments_valued datum (e := { e with solver := s })
    hinv (fun p hp => hprops _ (List.of_mem_zip hp).2) (hpairs.symm ▸ hn)
  obtain ⟨hinv', hgrows, hmemory⟩ := hv.register hinv₁ hnew hdatum hpairs
  refine ⟨e'.register D v, ?_, hinv', hgrows₁.trans hgrows, hmemory⟩
  unfold createAssignable
  simp only [hs, bind, Except.bind, he']
  rfl

end Engine

end Livingstone
