import Livingstone.Diagnosis.Creating
import Livingstone.Lib.OneHot

/-! What the clauses say that stand for no assignment, as variables and clauses are created. A
variable adds that it has one of its values. -/

namespace Livingstone

open OneHot (ExactlyOne exactlyOne_iff)

namespace Ltms

attribute [local irreducible] lengthT

variable {s s' : Ltms} {pos neg : List PropId} {τ : PropId → Bool}

/-- The valuation satisfies the clauses in the theory that stand for no assignment. -/
def Satisfies (s : Ltms) (τ : PropId → Bool) : Prop :=
  ∀ c, s.Active c → (s.clause c).datum = none → ∃ l ∈ (s.clause c).lits, τ l.1 = l.2

def Says (pos neg : List PropId) (τ : PropId → Bool) : Prop :=
  (∃ p ∈ pos, τ p = true) ∨ ∃ p ∈ neg, τ p = false

theorem exists_lit_construct (datum : Option ℕ) (v : Bool) (hfit : Fits pos neg) :
    (∃ l ∈ (Clause.construct datum pos neg v).lits, τ l.1 = l.2) ↔ Says pos neg τ := by
  constructor
  · rintro ⟨⟨p, b⟩, hl, hb⟩
    rw [mem_lits_construct datum v hfit] at hl
    cases b with
    | true => exact Or.inl ⟨p, hl, hb⟩
    | false => exact Or.inr ⟨p, hl, hb⟩
  · rintro (⟨p, hp, hb⟩ | ⟨p, hp, hb⟩)
    · exact ⟨(p, true), (mem_lits_construct datum v hfit).mpr hp, hb⟩
    · exact ⟨(p, false), (mem_lits_construct datum v hfit).mpr hp, hb⟩

theorem createClause_satisfies (h : s.Inv) (hfit : Fits pos neg)
    (hp : ∀ p ∈ pos ++ neg, p ∈ s.props) (v : Bool) :
    ∃ s', s.createClause none pos neg v true = .ok (s.nextClause, s') ∧ s'.Inv ∧
      s'.props = s.props ∧ s.Extends s' ∧ ∀ τ, s'.Satisfies τ ↔ s.Satisfies τ ∧ Says pos neg τ := by
  obtain ⟨s', hs', hinv', hprops, hext⟩ := createClause_extends h hfit hp v true
  refine ⟨s', hs', hinv', hprops, hext, fun τ => ?_⟩
  have hinv := newClause_inv none v h hfit
    (fun p hm => hp p (List.mem_append_left _ hm)) (fun p hm => hp p (List.mem_append_right _ hm))
  have hc := newClause_created (s := s) none v hfit
  set s₁ := (s.newClause none pos neg v).2 with hs₁
  obtain ⟨s₂, hs₂, -, -, hsel⟩ := add_spec (c := s.nextClause) hinv
    (hc.mem_clauses.mpr (Or.inr rfl)) (by rw [hc.new]; rfl)
  obtain rfl : s₂ = s' := by
    unfold createClause at hs'
    simp only [newClause_fst, if_true, ← hs₁, hs₂, bind, Except.bind] at hs'
    exact (Prod.mk.inj (Except.ok.inj hs')).2
  have hnew : (s₂.clause s.nextClause).lits = (Clause.construct none pos neg v).lits := by
    rw [hsel.lits, hc.new]
  have hdatum : (s₂.clause s.nextClause).datum = none := by
    rw [(SameFlags.add hs₂).datum, hc.new]
    rfl
  have hactive (c : ClauseId) : s₂.Active c ↔ s.Active c ∨ c = s.nextClause := by
    rw [hsel.active, hc.active h.wf rfl]
  constructor
  · intro hsat
    refine ⟨fun c hact hd => ?_, (exists_lit_construct none v hfit).mp ?_⟩
    · rw [← hext.lits c hact.1]
      exact hsat c ((hactive c).mpr (Or.inl hact)) ((hext.datum c hact.1).trans hd)
    · rw [← hnew]
      exact hsat s.nextClause ((hactive _).mpr (Or.inr rfl)) hdatum
  · rintro ⟨hsat, hmeans⟩ c hact hd
    rcases (hactive c).mp hact with hold | rfl
    · rw [hext.lits c hold.1]
      exact hsat c hold ((hext.datum c hold.1).symm.trans hd)
    · rw [hnew]
      exact (exists_lit_construct none v hfit).mpr hmeans

theorem mutexWith_satisfies (h : s.Inv) {p : PropId} (hp : p ∈ s.props) {others : List PropId}
    (ho : ∀ q ∈ others, q ∈ s.props) (hs' : mutexWith p s others = .ok s') :
    s'.Satisfies τ ↔ s.Satisfies τ ∧ ∀ q ∈ others, τ q = false ∨ τ p = false := by
  induction others generalizing s with
  | nil =>
    obtain rfl := Except.ok.inj hs'
    simp
  | cons q others ih =>
    have hfit : Fits [] [q, p] := by
      have hle := List.toFinset_card_le [q, p]
      rw [fits_iff]
      exact le_trans (Nat.add_le_add_left hle _) (by simp)
    have hmem : ∀ x ∈ [] ++ [q, p], x ∈ s.props := by
      intro x hx
      rcases List.mem_pair.mp hx with rfl | rfl
      · exact ho x List.mem_cons_self
      · exact hp
    obtain ⟨s₁, hs₁, hinv₁, hprops₁, -, hsat⟩ := createClause_satisfies h hfit hmem false
    unfold mutexWith at hs'
    rw [List.foldlM_cons, hs₁] at hs'
    rw [ih hinv₁ (hprops₁ ▸ hp) (fun x hx => hprops₁ ▸ ho x (List.mem_cons_of_mem q hx)) hs', hsat,
      List.forall_mem_cons, and_assoc]
    simp [Says]

theorem mutexClauses_satisfies (h : s.Inv) {propositions : List PropId}
    (hp : ∀ p ∈ propositions, p ∈ s.props) (hs' : mutexClauses propositions s = .ok s') :
    s'.Satisfies τ ↔
      s.Satisfies τ ∧ propositions.Pairwise fun p q => τ q = false ∨ τ p = false := by
  induction propositions generalizing s with
  | nil =>
    obtain rfl := Except.ok.inj hs'
    simp
  | cons p propositions ih =>
    have ho : ∀ q ∈ propositions, q ∈ s.props := fun q hq => hp q (List.mem_cons_of_mem p hq)
    obtain ⟨s₁, hs₁, hs'⟩ := Loop.bind_eq_ok hs'
    obtain ⟨hinv₁, hprops₁, -⟩ := mutexWith_extends h (hp p List.mem_cons_self) ho hs₁
    rw [ih hinv₁ (fun q hq => hprops₁ ▸ ho q hq) hs',
      mutexWith_satisfies h (hp p List.mem_cons_self) ho hs₁, List.pairwise_cons, and_assoc]

theorem createPropositions_satisfies (s : Ltms) (n : ℕ) :
    (s.createPropositions n).2.Satisfies τ ↔ s.Satisfies τ := by
  have hclauses : (s.createPropositions n).2.clauses = s.clauses ∧
      (s.createPropositions n).2.clause = s.clause := by
    induction n with
    | zero => exact ⟨rfl, rfl⟩
    | succ n ih => exact ih
  unfold Satisfies Active
  rw [hclauses.1, hclauses.2]

/-- A new variable of the solver, with the propositions `ps`. -/
structure Gains (ps : List PropId) (s s' : Ltms) : Prop where
  nodup : ps.Nodup
  new : ∀ p ∈ ps, p ∉ s.props
  props : ∀ p, p ∈ s'.props ↔ p ∈ s.props ∨ p ∈ ps
  satisfies : ∀ τ, s'.Satisfies τ ↔ s.Satisfies τ ∧ ExactlyOne τ ps

theorem newVariable_gains (h : s.Inv) {n : ℕ} (hn : n ≤ 127) :
    ∃ s', s.newVariable n = .ok ((s.createPropositions n).1, s') ∧ s'.Inv ∧ s.Extends s' ∧
      Gains (s.createPropositions n).1 s s' := by
  obtain ⟨s', hs', hinv, hext, -⟩ := newVariable_extends h hn
  obtain ⟨hps, -, hprops⟩ := createPropositions_eq s n
  have hmem (p : PropId) : p ∈ (s.createPropositions n).2.props ↔
      p ∈ s.props ∨ p ∈ (s.createPropositions n).1 := by
    rw [hps, hprops, List.mem_append, List.mem_reverse]
  have hsub : ∀ p ∈ (s.createPropositions n).1, p ∈ (s.createPropositions n).2.props := fun p hp =>
    (hmem p).mpr (Or.inr hp)
  have hfit : Fits (s.createPropositions n).1 [] := by
    rw [fits_iff, List.toFinset_card_of_nodup (createPropositions_nodup s n),
      createPropositions_length]
    simpa using hn
  obtain ⟨s₁, hs₁, hinv₁, hprops₁, -, hsat₁⟩ :=
    createClause_satisfies (createPropositions_inv h n) hfit (by simpa using hsub) false
  have hmutex : mutexClauses (s.createPropositions n).1 s₁ = .ok s' := by
    have hnew := hs'
    unfold newVariable at hnew
    simp only [hs₁, bind, Except.bind] at hnew
    cases hm : mutexClauses (s.createPropositions n).1 s₁ with
    | error x => simp [hm] at hnew
    | ok s₂ =>
      simp only [hm, pure, Except.pure, Except.ok.injEq, Prod.mk.injEq, true_and] at hnew
      rw [hnew]
  have hsub₁ : ∀ p ∈ (s.createPropositions n).1, p ∈ s₁.props := fun p hp => hprops₁ ▸ hsub p hp
  obtain ⟨hprops', -⟩ := mutexClauses_extends hinv₁ hsub₁ hmutex
  refine ⟨s', hs', hinv, hext, createPropositions_nodup s n, fun p hp hold => ?_, fun p => ?_,
    fun τ => ?_⟩
  · rw [hps, List.mem_reverse] at hp
    obtain ⟨i, -, rfl⟩ := List.mem_map.mp hp
    exact absurd (h.wf.prop_lt _ hold) (Nat.not_lt.mpr (Nat.le_add_right _ i))
  · rw [hprops', hprops₁, hmem]
  · rw [mutexClauses_satisfies hinv₁ hsub₁ hmutex, hsat₁, createPropositions_satisfies,
      exactlyOne_iff, and_assoc]
    simp [Says]

end Ltms

namespace Engine

open Ltms (Gains Says Extends SameFlags)

attribute [local irreducible] lengthT

variable {D : Assignables} {e e' : Engine} {a : Assignment} {v : VarId}
  {datum : Assignment → ℕ} {τ : PropId → Bool}

theorem Reassigned.satisfies (h : e.Reassigned e') :
    e'.solver.Satisfies τ ↔ e.solver.Satisfies τ := by
  have hclause (c : ClauseId) :
      (e'.solver.Active c → (e'.solver.clause c).datum = none →
        ∃ l ∈ (e'.solver.clause c).lits, τ l.1 = l.2) ↔
      (e.solver.Active c → (e.solver.clause c).datum = none →
        ∃ l ∈ (e.solver.clause c).lits, τ l.1 = l.2) := by
    rw [h.lits, h.datum]
    refine ⟨fun hc hact hd => hc ((h.others c hd).mpr hact) hd,
      fun hc hact hd => hc ((h.others c hd).mp hact) hd⟩
  exact forall_congr' hclause

theorem createClause_adds (h : e.Inv D) {positive negative : List PropId}
    (hfit : Fits positive negative) (hp : ∀ p ∈ positive ++ negative, p ∈ e.solver.props)
    (isVolatile : Bool) :
    ∃ s, e.createClause positive negative isVolatile true = .ok { e with solver := s } ∧
      ({ e with solver := s } : Engine).Inv D ∧ Grows D e { e with solver := s } ∧
      s.props = e.solver.props ∧
      ∀ τ, s.Satisfies τ ↔ e.solver.Satisfies τ ∧ Says positive negative τ := by
  obtain ⟨s, hs, hinv, hprops, hext, hsat⟩ :=
    Ltms.createClause_satisfies h.solver hfit hp isVolatile
  obtain ⟨hinv', hgrows⟩ := h.extend hinv hext
  refine ⟨s, ?_, hinv', hgrows, hprops, hsat⟩
  unfold createClause
  rw [hs]
  rfl

theorem createDependent_gains (h : e.Inv D) {n : ℕ} (hn : n ≤ 127) :
    ∃ s, e.createDependent n = .ok { e with solver := s } ∧
      ({ e with solver := s } : Engine).Inv D ∧ Grows D e { e with solver := s } ∧
      Gains (e.solver.createPropositions n).1 e.solver s := by
  obtain ⟨s, hs, hinv, hext, hgains⟩ := Ltms.newVariable_gains h.solver hn
  obtain ⟨hinv', hgrows⟩ := h.extend hinv hext
  refine ⟨s, ?_, hinv', hgrows, hgains⟩
  unfold createDependent
  rw [hs]
  rfl

theorem Valued.satisfies {pairs : List (Assignment × PropId)} (hv : Valued datum e pairs e') :
    e'.solver.Satisfies τ ↔ e.solver.Satisfies τ := by
  refine ⟨fun hsat c hact hd => ?_, fun hsat c hact hd => ?_⟩
  · obtain ⟨hmem, heq⟩ := hv.old c hact.1
    have hact' : e'.solver.Active c := ⟨hmem, by rw [heq]; exact hact.2⟩
    have hlits := hsat c hact' (by rw [heq]; exact hd)
    rwa [heq] at hlits
  · by_cases hold : c ∈ e.solver.clauses
    · have heq := (hv.old c hold).2
      rw [heq]
      exact hsat c ⟨hold, heq ▸ hact.2⟩ (heq ▸ hd)
    · obtain ⟨p, hp, rfl⟩ := hv.new c hact.1 hold
      cases hd.symm.trans (hv.value p hp).2.2.1

/-- A new assignable variable with the value `x`, if any. Its values have the propositions `ps`. -/
structure Acquires (D : Assignables) (v : VarId) (ps : List PropId) (x : Option Assignment)
    (e e' : Engine) : Prop where
  inv : e'.Inv D
  grows : Grows D e e'
  memory : e'.memory = e.memory
  gains : Gains ps e.solver e'.solver
  assignables : e'.assignables = v :: e.assignables
  current : e'.current = Function.update e.current v x
  unit : ∀ (i : ℕ) (a : Assignment) (p : PropId), (D.assignments v)[i]? = some a →
    ps[i]? = some p → e'.unit a = {(p, true)}

theorem createAssignable_acquires (h : e.Inv D) (hnew : v ∉ e.assignables)
    (hn : (D.assignments v).Nodup) (hsize : (D.assignments v).length ≤ 127)
    (hdatum : ∀ a ∈ D.assignments v, D.assignmentOf (datum a) = a) :
    ∃ e', e.createAssignable D datum v = .ok e' ∧
      Acquires D v (e.solver.createPropositions (D.assignments v).length).1 none e e' := by
  obtain ⟨s, hs, hinv, hext, hgains⟩ := Ltms.newVariable_gains h.solver hsize
  obtain ⟨hinv₁, hgrows₁⟩ := h.extend hinv hext
  set ps := (e.solver.createPropositions (D.assignments v).length).1
  have hlen : (D.assignments v).length = ps.length := (Ltms.createPropositions_length _ _).symm
  have hpairs : ((D.assignments v).zip ps).map Prod.fst = D.assignments v :=
    List.map_fst_zip hlen.le
  obtain ⟨e', he', hv⟩ := createAssignments_valued datum (e := { e with solver := s }) hinv
    (fun p hp => (hgains.props _).mpr (Or.inr (List.of_mem_zip hp).2)) (hpairs.symm ▸ hn)
  obtain ⟨hinv', hgrows, hmemory⟩ := hv.register hinv₁ hnew hdatum hpairs
  refine ⟨e'.register D v, ?_, hinv', hgrows₁.trans hgrows, hmemory, ?_, ?_, ?_, ?_⟩
  · unfold createAssignable
    simp only [hs, bind, Except.bind, he']
    rfl
  · refine ⟨hgains.nodup, hgains.new, fun p => ?_, fun τ => ?_⟩
    · change p ∈ e'.solver.props ↔ _
      rw [hv.props]
      exact hgains.props p
    · change e'.solver.Satisfies τ ↔ _
      rw [hv.satisfies]
      exact hgains.satisfies τ
  · exact congrArg (v :: ·) (congrArg (·.assignables) hv.rest : e'.assignables = e.assignables)
  · have hnone : e.current v = none := by
      by_contra hsome
      obtain ⟨a, ha⟩ := Option.ne_none_iff_exists'.mp hsome
      obtain ⟨rfl, hknown⟩ := h.current v a ha
      exact hnew hknown.1
    rw [← hnone, Function.update_eq_self]
    exact (congrArg (·.current) hv.rest : e'.current = e.current)
  · intro i a p ha hp
    have hmem : (a, p) ∈ (D.assignments v).zip ps :=
      List.mem_of_getElem? (List.getElem?_zip_eq_some.mpr ⟨ha, hp⟩)
    obtain ⟨-, hlits, -⟩ := hv.value (a, p) hmem
    change {l | l ∈ (e'.solver.clause (e'.clauseOf a)).lits} = {(p, true)}
    rw [hlits]
    ext l
    simp

/-- A first value of a variable adds no proposition, and the background grows. -/
theorem assign_first (h : e.Inv D) (ha : e.Known D a) (hcur : e.current a.var = none) :
    ∃ e', e.assign a = .ok e' ∧ e'.Inv D ∧ e.Reassigned e' ∧ Grows D e e' ∧ e'.memory = e.memory ∧
      e'.current = Function.update e.current a.var (some a) ∧
      e'.solver.props = e.solver.props := by
  obtain ⟨e', he', hinv, hre, hmemory, hcur'⟩ := assign_spec h ha
  refine ⟨e', he', hinv, hre, hre.grows h hinv fun w _ b hb => ?_, hmemory, hcur', ?_⟩
  · rw [hcur']
    by_cases hw : w = a.var
    · rw [hw, hcur] at hb
      cases hb
    · rw [Function.update_of_ne hw, hb]
  · have hdel : (e.solver.clause (e.clauseOf a)).deleted = true := by
      by_contra hdel
      have hact := (h.active a ha).mp ⟨(h.stands a ha).mem, by simpa using hdel⟩
      cases hcur.symm.trans hact
    obtain ⟨s, hs, -, -, hsel⟩ := Ltms.add_spec h.solver (h.stands a ha).mem hdel
    unfold Engine.assign retract at he'
    simp only [hcur, reduceCtorEq, if_false, hs, bind, Except.bind] at he'
    obtain rfl := Except.ok.inj he'
    exact hsel.props

theorem Acquires.assign {ps : List PropId} (h : Acquires D v ps none e e')
    (ha : a ∈ D.assignments v) :
    ∃ e'', e'.assign a = .ok e'' ∧ Acquires D v ps (some a) e e'' := by
  have hvar := D.var_eq v a ha
  have hknown : e'.Known D a := by
    refine ⟨?_, hvar.symm ▸ ha⟩
    rw [hvar, h.assignables]
    exact List.mem_cons_self
  have hcur : e'.current a.var = none := by
    rw [h.current, hvar, Function.update_self]
  obtain ⟨e'', he'', hinv, hre, hgrows, hmemory, hcur', hprops⟩ := assign_first h.inv hknown hcur
  refine ⟨e'', he'', hinv, h.grows.trans hgrows, hmemory.trans h.memory, ?_, ?_, ?_, ?_⟩
  · refine ⟨h.gains.nodup, h.gains.new, fun p => ?_, fun τ => ?_⟩
    · rw [hprops, h.gains.props]
    · rw [hre.satisfies, h.gains.satisfies]
  · rw [hre.assignables, h.assignables]
  · rw [hcur', h.current, hvar, Function.update_idem]
  · intro i b p hb hp
    rw [hre.unit, h.unit i b p hb hp]

theorem Inv.satisfies_theory_iff (h : e.Inv D) : (∀ C ∈ e.solver.theory, ∃ l ∈ C, τ l.1 = l.2) ↔
    e.solver.Satisfies τ ∧
      ∀ x, e.current x.var = some x → ∃ l ∈ e.unit x, τ l.1 = l.2 := by
  constructor
  · intro hall
    refine ⟨fun c hact _ => hall _ ⟨c, hact, rfl⟩, fun x hx => ?_⟩
    obtain ⟨-, hknown⟩ := h.current _ x hx
    exact hall _ ⟨e.clauseOf x, (h.active x hknown).mpr hx, rfl⟩
  · rintro ⟨hsat, hunits⟩ C ⟨c, hact, rfl⟩
    cases hd : (e.solver.clause c).datum with
    | none => exact hsat c hact hd
    | some d =>
      obtain ⟨hknown, rfl⟩ := h.datum c hact.1 d hd
      exact hunits _ ((h.active _ hknown).mp hact)

theorem Inv.satisfies_under_iff (h : e.Inv D) {A : Set Assignment} :
    (∀ C ∈ e.under D A, ∃ l ∈ C, τ l.1 = l.2) ↔
      e.solver.Satisfies τ ∧
      (∀ x, e.current x.var = some x → D.isAssumption x.var = false → ∃ l ∈ e.unit x, τ l.1 = l.2) ∧
      ∀ x ∈ A, ∃ l ∈ e.unit x, τ l.1 = l.2 := by
  constructor
  · intro hall
    refine ⟨fun c hact hd => hall _ (Or.inl ⟨c, hact, ?_, rfl⟩), fun x hx hassumption => ?_,
      fun x hx => hall _ (Or.inr ⟨x, hx, rfl⟩)⟩
    · unfold ConflictDb.isAssumptionClause
      rw [hd]
    · obtain ⟨-, hknown⟩ := h.current _ x hx
      obtain ⟨d, hd, heq⟩ := (h.stands x hknown).datum
      refine hall _ (Or.inl ⟨e.clauseOf x, (h.active x hknown).mpr hx, ?_, rfl⟩)
      unfold ConflictDb.isAssumptionClause
      rw [hd]
      simp only [heq, hassumption]
  · rintro ⟨hsat, hcurrent, hunits⟩ C (⟨c, hact, hnot, rfl⟩ | ⟨x, hx, rfl⟩)
    · cases hd : (e.solver.clause c).datum with
      | none => exact hsat c hact hd
      | some d =>
        obtain ⟨hknown, rfl⟩ := h.datum c hact.1 d hd
        refine hcurrent _ ((h.active _ hknown).mp hact) ?_
        unfold ConflictDb.isAssumptionClause at hnot
        rw [hd] at hnot
        exact hnot
    · exact hunits x hx

end Engine

end Livingstone
