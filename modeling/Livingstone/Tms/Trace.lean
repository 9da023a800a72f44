import Livingstone.Tms.Propagation

/-! The support trace. It walks from a clause to the clauses that support its
propositions, and marks each with the time stamp of the query. -/

namespace Livingstone.Ltms

open UnitProp (Literal Derives Contradicts)
open Loop (whileM)

variable {s s' s'' : Ltms} {c d e : ClauseId} {q : PropId}

structure Restamped (s s' : Ltms) : Prop where
  rest : { s' with clause := s.clause, timeStamp := s.timeStamp } = s
  clause : ∀ d, { s'.clause d with timeStamp := (s.clause d).timeStamp } = s.clause d

namespace Restamped

theorem refl (s : Ltms) : s.Restamped s := ⟨rfl, fun _ => rfl⟩

theorem trans (h : s.Restamped s') (h' : s'.Restamped s'') : s.Restamped s'' := by
  refine ⟨?_, fun d => ?_⟩
  · conv_rhs => rw [← h.rest, ← h'.rest]
  · conv_rhs => rw [← h.clause d, ← h'.clause d]

variable (h : s.Restamped s')
include h

theorem field {β : Type*} (f : Clause → β) (hf : ∀ k t, f { k with timeStamp := t } = f k)
    (d : ClauseId) : f (s'.clause d) = f (s.clause d) := by
  rw [← hf (s'.clause d) (s.clause d).timeStamp, h.clause d]

theorem lits (d : ClauseId) : (s'.clause d).lits = (s.clause d).lits :=
  h.field Clause.lits (fun _ _ => rfl) d

theorem getSupports (d : ClauseId) : (s'.clause d).getSupports = (s.clause d).getSupports :=
  h.field Clause.getSupports (fun _ _ => rfl) d

theorem prop : s'.prop = s.prop := congrArg (·.prop) h.rest

theorem clauses : s'.clauses = s.clauses := congrArg (·.clauses) h.rest

theorem value (p : PropId) : s'.value p = s.value p := congrArg (·.value p) h.rest

theorem litVal : s'.litVal = s.litVal := congrArg (·.litVal) h.rest

theorem active (d : ClauseId) : s'.Active d ↔ s.Active d := by
  unfold Active
  rw [h.clauses, h.field Clause.deleted (fun _ _ => rfl) d]

theorem theory : s'.theory = s.theory := by
  simp only [Ltms.theory, litSet, h.active, h.lits]

theorem wellFormed (hw : s.WellFormed) : s'.WellFormed := by
  have hprops : s'.props = s.props := congrArg (·.props) h.rest
  have hocc : s'.occurrences = s.occurrences := congrArg (·.occurrences) h.rest
  refine ⟨hprops ▸ hw.props_nodup, h.clauses ▸ hw.clauses_nodup, ?_, ?_, fun d hd => ?_,
    fun d hd => ?_, fun d p b => ?_, hocc ▸ hw.occurs_nodup⟩
  · rw [hprops, show s'.nextProp = s.nextProp from congrArg (·.nextProp) h.rest]
    exact hw.prop_lt
  · rw [h.clauses, show s'.nextClause = s.nextClause from congrArg (·.nextClause) h.rest]
    exact hw.clause_lt
  · have := hw.shape d (h.clauses ▸ hd)
    rw [← h.clause d] at this
    exact ⟨this.numLits, this.numPos_nonneg, this.numPos_le, this.bound, this.nodup⟩
  · rw [h.lits, hprops]
    exact hw.lits_props d (h.clauses ▸ hd)
  · rw [hocc, h.clauses, h.lits]
    exact hw.occurs d p b

theorem inv (hi : s.Inv) (ht : s'.Stamps) : s'.Inv := by
  have hmark (d : ClauseId) : (s'.clause d).mark = (s.clause d).mark :=
    h.field Clause.mark (fun _ _ => rfl) d
  have hfr (v : Bool) : s'.fringeOf v = s.fringeOf v := congrArg (·.fringeOf v) h.rest
  have huns : s'.unsatisfied = s.unsatisfied := congrArg (·.unsatisfied) h.rest
  have hundo : s'.undoList = s.undoList := congrArg (·.undoList) h.rest
  have hprops : s'.props = s.props := congrArg (·.props) h.rest
  obtain ⟨rank, hs⟩ := hi.support
  refine ⟨h.wellFormed hi.wf, ⟨fun v d => ?_, fun v => ?_, fun v i d hd => ?_, fun d => ?_, ?_⟩,
    ⟨fun d hd => ?_, fun d hd hdel => ?_⟩, ⟨rank, ?_⟩, hundo.trans hi.undo, ht⟩
  · rw [hfr, h.clauses, h.field Clause.inFringe (fun _ _ => rfl) d,
      h.field Clause.isVolatile (fun _ _ => rfl) d]
    exact hi.containers.fringe_mem v d
  · exact hfr v ▸ hi.containers.fringe_nodup v
  · rw [h.field Clause.fringeIndex (fun _ _ => rfl) d]
    exact hi.containers.fringe_index v i d (hfr v ▸ hd)
  · rw [huns, h.clauses, h.field Clause.unsatisfied (fun _ _ => rfl) d]
    exact hi.containers.unsat_mem d
  · exact huns ▸ hi.containers.unsat_nodup
  · rw [h.lits, hmark, h.litVal]
    exact hi.marks.active d ((h.active d).mp hd)
  · rw [hmark, h.lits]
    exact hi.marks.deleted d (h.clauses ▸ hd) (h.field Clause.deleted (fun _ _ => rfl) d ▸ hdel)
  · refine ⟨?_, ?_, ?_, ?_, ?_, hundo ▸ hs.undo_nodup, ?_⟩
    · simpa only [h.value, h.prop] using hs.unknown
    · simpa only [h.value, hprops] using hs.alloc
    · simpa only [h.active, h.prop, h.getSupports] using hs.forth
    · simpa only [h.active, h.prop, h.getSupports, h.clauses] using hs.back
    · simpa only [h.lits, h.getSupports, h.clauses, h.litVal] using hs.just
    · simpa only [hundo, h.value, h.getSupports, h.clauses] using hs.undo

end Restamped

def Trace.visited (t : Trace) (d : ClauseId) : Prop :=
  d ∈ t.ltms.clauses ∧ (t.ltms.clause d).timeStamp = t.ltms.timeStamp

instance (t : Trace) (d : ClauseId) : Decidable (t.visited d) := by
  unfold Trace.visited
  infer_instance

/-- A turn takes one clause from the stack and puts there only clauses that it
visits for the first time. -/
def Trace.measure (t : Trace) : ℕ :=
  t.ltms.clauses.countP (fun d => ¬ t.visited d) + t.stack.length

/-- The propositions of a clause, in the order of the trace. -/
def propsOf (s : Ltms) (d : ClauseId) : List PropId :=
  (s.clause d).literals.take (s.clause d).numLits.toNat

/-- The invariant of the trace from `c`. `todo` holds the propositions of the
current clause whose support is still to be looked at. -/
structure Tracing (predicate : ClauseId → Bool) (s : Ltms) (c : ClauseId)
    (todo : ClauseId → PropId → Prop) (t : Trace) : Prop where
  restamped : s.Restamped t.ltms
  stamps : t.ltms.Stamps
  start : ¬ t.visited c
  nodup : t.result.Nodup
  result : ∀ d, d ∈ t.result ↔ predicate d = true ∧ (t.visited d ∨ d = c)
  supporter : ∀ d, t.visited d → s.Active d ∧ (s.clause d).getSupports ≠ none
  stack : ∀ d ∈ t.stack, d = c ∨ t.visited d
  closed : ∀ d, d = c ∨ t.visited d ∧ predicate d = false → d ∉ t.stack →
    ∀ q ∈ s.propsOf d, ¬ todo d q →
      ∀ e, (s.prop q).supportedBy = some e → e ≠ d → t.visited e

/-- Every proposition of a clause that supports something, and of an unsatisfied
one, has a value. -/
theorem supported_of_traced {rank : PropId → ℕ} (hw : s.WellFormed)
    (hs : s.Support ∅ s.litVal rank) (hc : c ∈ s.clauses)
    (hf : ∀ l ∈ (s.clause c).lits, s.litVal l = some false)
    (hd : d = c ∨ s.Active d ∧ (s.clause d).getSupports ≠ none) (hq : q ∈ s.propsOf d) :
    ∃ e, (s.prop q).supportedBy = some e := by
  have hdc : d ∈ s.clauses := by
    rcases hd with rfl | ⟨ha, -⟩
    · exact hc
    · exact ha.1
  obtain ⟨b, hb⟩ := (hw.shape d hdc).mem_lits hq
  have hv : s.litVal (q, b) ≠ none := by
    rcases hd with rfl | ⟨ha, hne⟩
    · simp [hf _ hb]
    · obtain ⟨p, hp⟩ := Option.ne_none_iff_exists'.mp hne
      obtain ⟨x, hx, ht, hrest⟩ := hs.just d hdc p hp
      by_cases he : (q, b) = (p, x)
      · simp [he, ht]
      · simp [(hrest _ hb he).1]
  rw [Ne, litVal_eq_none, hs.unknown] at hv
  exact Option.ne_none_iff_exists'.mp hv

section
variable {predicate : ClauseId → Bool} {todo : ClauseId → PropId → Prop} {t : Trace}

/-- `e` is marked. -/
def Trace.mark (t : Trace) (e : ClauseId) : Ltms :=
  t.ltms.setClause e { t.ltms.clause e with timeStamp := t.ltms.timeStamp }

theorem restamped_mark (t : Trace) (e : ClauseId) : t.ltms.Restamped (t.mark e) := by
  refine ⟨rfl, fun d => ?_⟩
  by_cases hd : d = e
  · rw [hd, Trace.mark, setClause_same]
  · rw [Trace.mark, setClause_ne _ _ hd]

theorem Stamps.mark (h : t.ltms.Stamps) (e : ClauseId) : (t.mark e).Stamps := by
  refine ⟨h.theory_le, fun d hd => ?_⟩
  by_cases hde : d = e
  · rw [hde, Trace.mark, setClause_same]
    exact le_refl _
  · rw [Trace.mark, setClause_ne _ _ hde]
    exact h.clause_le d hd

theorem Tracing.visit {stack result : List ClauseId} (h : Tracing predicate s c todo t)
    (hn : s.clauses.Nodup) (he : s.Active e) (hes : (s.clause e).getSupports ≠ none) (hec : e ≠ c) (hnew : ¬ t.visited e)
    (hlists : predicate e = true ∧ result = e :: t.result ∧ stack = t.stack ∨
      predicate e = false ∧ result = t.result ∧ stack = e :: t.stack) :
    Tracing predicate s c todo ⟨t.mark e, stack, result⟩ ∧
      (Trace.mk (t.mark e) stack result).measure ≤ t.measure ∧
      ∀ d, (Trace.mk (t.mark e) stack result).visited d ↔ t.visited d ∨ d = e := by
  have het : e ∈ t.ltms.clauses := h.restamped.clauses ▸ he.1
  have hvis (d : ClauseId) :
      (Trace.mk (t.mark e) stack result).visited d ↔ t.visited d ∨ d = e := by
    simp only [Trace.visited, Trace.mark]
    by_cases hd : d = e
    · subst hd
      simp only [setClause_same, or_true, iff_true]
      exact ⟨het, rfl⟩
    · simp only [setClause_ne _ _ hd, hd, or_false]
      rfl
  have heres : e ∉ t.result := fun hm => by
    rcases ((h.result e).mp hm).2 with hv | hv
    · exact hnew hv
    · exact hec hv
  refine ⟨⟨h.restamped.trans (restamped_mark t e), h.stamps.mark e, ?_, ?_, fun d => ?_,
    fun d hd => ?_, fun d hd => ?_, fun d hd hds q hq hn f hf hfd => ?_⟩, ?_, hvis⟩
  · rw [hvis, not_or]
    exact ⟨h.start, hec.symm⟩
  · rcases hlists with ⟨-, rfl, -⟩ | ⟨-, rfl, -⟩
    · exact List.nodup_cons.mpr ⟨heres, h.nodup⟩
    · exact h.nodup
  · rw [hvis]
    rcases hlists with ⟨hp, rfl, -⟩ | ⟨hp, rfl, -⟩
    · simp only [List.mem_cons, h.result]
      by_cases hd : d = e
      · simp [hd, hp]
      · simp [hd]
    · rw [h.result]
      by_cases hd : d = e
      · simp [hd, hp]
      · simp [hd]
  · rcases (hvis d).mp hd with hd | rfl
    · exact h.supporter d hd
    · exact ⟨he, hes⟩
  · rw [hvis]
    rcases hlists with ⟨-, -, rfl⟩ | ⟨-, -, rfl⟩
    · exact (h.stack d hd).imp_right Or.inl
    · rcases List.mem_cons.mp hd with rfl | hd
      · exact Or.inr (Or.inr rfl)
      · exact (h.stack d hd).imp_right Or.inl
  · refine (hvis f).mpr (Or.inl ?_)
    have hds' : d ∉ t.stack := by
      rcases hlists with ⟨-, -, rfl⟩ | ⟨-, -, rfl⟩
      · exact hds
      · exact fun hm => hds (List.mem_cons_of_mem e hm)
    refine h.closed d (hd.imp_right fun ⟨hv, hp⟩ => ⟨?_, hp⟩) hds' q hq hn f hf hfd
    rcases (hvis d).mp hv with hv | rfl
    · exact hv
    · -- the new clause is on the stack unless it meets the predicate
      rcases hlists with ⟨hp', -, -⟩ | ⟨-, -, rfl⟩
      · rw [hp] at hp'
        cases hp'
      · exact absurd List.mem_cons_self hds
  · have hcount := countP_flip (P := fun d => ¬ t.visited d)
      (Q := fun d => ¬ (Trace.mk (t.mark e) stack result).visited d)
      (show t.ltms.clauses.Nodup from h.restamped.clauses ▸ hn) het (by simpa using hnew) (by simp [hvis]) (fun d hd => by simp [hvis, hd])
    have hlen : stack.length ≤ t.stack.length + 1 := by
      rcases hlists with ⟨-, -, rfl⟩ | ⟨-, -, rfl⟩ <;> simp
    unfold Trace.measure
    rw [hcount]
    change t.ltms.clauses.countP _ + stack.length ≤ _
    omega

theorem traceProp_step {rank : PropId → ℕ} {l : List PropId} (hw : s.WellFormed)
    (hs : s.Support ∅ s.litVal rank) (hc : c ∈ s.clauses)
    (hf : ∀ l ∈ (s.clause c).lits, s.litVal l = some false)
    (hd : d = c ∨ t.visited d) (hq : q ∈ s.propsOf d)
    (h : Tracing predicate s c (fun d' q' => d' = d ∧ q' ∈ q :: l) t) :
    ∃ t', traceProp predicate d t q = .ok t' ∧
      Tracing predicate s c (fun d' q' => d' = d ∧ q' ∈ l) t' ∧ t'.measure ≤ t.measure ∧
      (d = c ∨ t'.visited d) := by
  obtain ⟨e, hsup⟩ := supported_of_traced hw hs hc hf (hd.imp_right (h.supporter d)) hq
  obtain ⟨he, hes⟩ := hs.forth q e hsup (Set.notMem_empty q)
  have hec : e ≠ c := by
    rintro rfl
    obtain ⟨b, hb, ht, -⟩ := hs.just e hc q hes
    simp [hf _ hb] at ht
  -- once the support of `q` is visited nothing is left to do for `q`
  have done {t' : Trace} (h' : Tracing predicate s c (fun d' q' => d' = d ∧ q' ∈ q :: l) t')
      (hv : e ≠ d → t'.visited e) : Tracing predicate s c (fun d' q' => d' = d ∧ q' ∈ l) t' := by
    refine { h' with closed := fun d' hd' hds r hr hn f hfs hfd => ?_ }
    by_cases hrq : d' = d ∧ r = q
    · obtain ⟨rfl, rfl⟩ := hrq
      obtain rfl : f = e := Option.some.inj (hfs.symm.trans hsup)
      exact hv hfd
    · refine h'.closed d' hd' hds r hr (fun ⟨hdd, hm⟩ => ?_) f hfs hfd
      rcases List.mem_cons.mp hm with hrq' | hm
      · exact hrq ⟨hdd, hrq'⟩
      · exact hn ⟨hdd, hm⟩
  unfold traceProp
  rw [h.restamped.prop, hsup]
  simp only
  split_ifs with hnew hp
  · have hnv : ¬ t.visited e := fun hv => hnew.2 hv.2
    obtain ⟨h', hμ, hvis⟩ := h.visit hw.clauses_nodup he (by simp [hes]) hec hnv
      (Or.inl ⟨hp, rfl, rfl⟩)
    exact ⟨_, rfl, done h' fun _ => (hvis e).mpr (Or.inr rfl), hμ,
      hd.imp_right fun hv => (hvis d).mpr (Or.inl hv)⟩
  · have hnv : ¬ t.visited e := fun hv => hnew.2 hv.2
    obtain ⟨h', hμ, hvis⟩ := h.visit hw.clauses_nodup he (by simp [hes]) hec hnv
      (Or.inr ⟨by simpa using hp, rfl, rfl⟩)
    exact ⟨_, rfl, done h' fun _ => (hvis e).mpr (Or.inr rfl), hμ,
      hd.imp_right fun hv => (hvis d).mpr (Or.inl hv)⟩
  · refine ⟨t, rfl, done h fun hed => ?_, le_refl _, hd⟩
    refine ⟨h.restamped.clauses ▸ he.1, ?_⟩
    by_contra hne
    exact hnew ⟨hed, hne⟩

theorem traceTurn_step {rank : PropId → ℕ} {stack : List ClauseId} (hw : s.WellFormed)
    (hs : s.Support ∅ s.litVal rank) (hc : c ∈ s.clauses)
    (hf : ∀ l ∈ (s.clause c).lits, s.litVal l = some false)
    (h : Tracing predicate s c (fun _ _ => False) t) (ht : t.stack = d :: stack) :
    ∃ t', traceTurn predicate t = .ok (.inl t') ∧ Tracing predicate s c (fun _ _ => False) t' ∧
      t'.measure < t.measure := by
  have hprops : (t.ltms.clause d).literals.take (t.ltms.clause d).numLits.toNat = s.propsOf d := by
    rw [h.restamped.field Clause.literals (fun _ _ => rfl) d,
      h.restamped.field Clause.numLits (fun _ _ => rfl) d, propsOf]
  have hd := h.stack d (by simp [ht])
  have h₀ : Tracing predicate s c (fun d' q' => d' = d ∧ q' ∈ s.propsOf d)
      { t with stack := stack } := by
    refine ⟨h.restamped, h.stamps, h.start, h.nodup, h.result, h.supporter,
      fun e he => h.stack e (by simp [ht, he]), fun e he hes r hr hn => ?_⟩
    refine h.closed e he ?_ r hr id
    rw [ht, List.mem_cons, not_or]
    exact ⟨fun hed => hn ⟨hed, hed ▸ hr⟩, hes⟩
  obtain ⟨t', ht', -, h', hμ, -⟩ := Loop.foldlM_rest (f := traceProp predicate d)
    (fun l t' => (∀ q ∈ l, q ∈ s.propsOf d) ∧
      Tracing predicate s c (fun d' q' => d' = d ∧ q' ∈ l) t' ∧
      t'.measure ≤ Trace.measure { t with stack := stack } ∧ (d = c ∨ t'.visited d))
    (fun q l t' ⟨hl, h', hμ, hd⟩ => by
      obtain ⟨t'', ht'', h'', hμ', hd'⟩ := traceProp_step hw hs hc hf hd (hl q (by simp)) h'
      exact ⟨t'', ht'', fun r hr => hl r (by simp [hr]), h'', hμ'.trans hμ, hd'⟩)
    (s.propsOf d) { t with stack := stack } ⟨fun _ hq => hq, h₀, le_refl _, hd⟩
  refine ⟨t', ?_, { h' with closed := fun e he hes r hr _ => h'.closed e he hes r hr (by simp) }, ?_⟩
  · unfold traceTurn
    simp only [ht, hprops, ht', bind, Except.bind]
    rfl
  · have : Trace.measure { t with stack := stack } + 1 = t.measure := by
      simp only [Trace.measure, ht, List.length_cons]
      rfl
    omega

end

/-- The state in which the trace starts: no clause carries the new stamp. -/
def freshStamp (s : Ltms) : Ltms :=
  let s := if s.timeStamp = maxTimeStamp then s.initializeTimeStamps else s
  { s with timeStamp := (s.timeStamp + 1) % (maxTimeStamp + 1) }

theorem restamped_initializeTimeStamps (s : Ltms) : s.Restamped s.initializeTimeStamps := by
  refine ⟨rfl, fun d => ?_⟩
  simp only [initializeTimeStamps]
  split_ifs <;> rfl

theorem freshStamp_spec (h : s.Stamps) : s.Restamped s.freshStamp ∧ s.freshStamp.Stamps ∧
    ∀ d ∈ s.clauses, (s.freshStamp.clause d).timeStamp ≠ s.freshStamp.timeStamp := by
  unfold freshStamp
  split_ifs with hmax
  · have hr := restamped_initializeTimeStamps s
    have hz (d : ClauseId) (hd : d ∈ s.clauses) :
        (s.initializeTimeStamps.clause d).timeStamp = 0 := by
      simp [initializeTimeStamps, hd]
    refine ⟨⟨rfl, hr.clause⟩, ⟨by simp [initializeTimeStamps, maxTimeStamp], fun d hd => ?_⟩,
      fun d hd => ?_⟩
    · exact (hz d hd).trans_le (Nat.zero_le _)
    · simp only [hz d hd]
      simp [initializeTimeStamps, maxTimeStamp]
  · have hlt : s.timeStamp + 1 < maxTimeStamp + 1 := by
      have := h.theory_le
      omega
    have hmod : (s.timeStamp + 1) % (maxTimeStamp + 1) = s.timeStamp + 1 := Nat.mod_eq_of_lt hlt
    simp only [hmod]
    refine ⟨⟨rfl, fun _ => rfl⟩, ⟨Nat.lt_succ_iff.mp hlt, fun d hd => ?_⟩, fun d hd => ?_⟩
    · exact (h.clause_le d hd).trans (Nat.le_succ _)
    · exact (Nat.lt_succ_of_le (h.clause_le d hd)).ne

/-- The clauses that an answer blames: those returned, and every active clause
that the predicate leaves out. -/
def blamed (s : Ltms) (predicate : ClauseId → Bool) (out : List ClauseId) :
    Set (Set (Literal PropId)) :=
  {C | ∃ d, s.Active d ∧ (d ∈ out ∨ predicate d = false) ∧ C = s.litSet d}

theorem litVal_neg_true {l : Literal PropId} (h : s.litVal l = some false) :
    s.litVal l.neg = some true := by
  obtain ⟨p, b⟩ := l
  rw [litVal_eq_some] at h
  rw [UnitProp.Literal.neg_mk, litVal_eq_some, h]
  cases b <;> rfl

/-- When the stack is empty the walk has found a refutation. The induction is on
the rank of the propositions. -/
theorem Tracing.contradicts {rank : PropId → ℕ} {predicate : ClauseId → Bool} {t : Trace}
    (hw : s.WellFormed) (hs : s.Support ∅ s.litVal rank) (hc : s.Active c)
    (hf : ∀ l ∈ (s.clause c).lits, s.litVal l = some false)
    (hunit : ∀ d, s.Active d → predicate d = true → ∃ l, (s.clause d).lits = [l])
    (h : Tracing predicate s c (fun _ _ => False) t) (ht : t.stack = []) :
    Contradicts (s.blamed predicate t.result) := by
  have hblame {d : ClauseId} (ha : s.Active d) (hd : d = c ∨ t.visited d) :
      s.litSet d ∈ s.blamed predicate t.result := by
    refine ⟨d, ha, ?_, rfl⟩
    cases hp : predicate d with
    | false => exact Or.inr rfl
    | true => exact Or.inl ((h.result d).mpr ⟨hp, hd.symm⟩)
  have hnext {d : ClauseId} (hd : d = c ∨ t.visited d ∧ predicate d = false)
      {l : Literal PropId} (hl : l ∈ (s.clause d).lits) (hdc : d ∈ s.clauses) {e : ClauseId}
      (he : (s.prop l.1).supportedBy = some e) (hed : e ≠ d) : t.visited e :=
    h.closed d hd (by simp [ht]) l.1 ((hw.shape d hdc).mem_literals hl) id e he hed
  have hderive (n : ℕ) : ∀ l : Literal PropId, rank l.1 = n → s.litVal l = some true →
      ∀ e, (s.prop l.1).supportedBy = some e → t.visited e →
        Derives (s.blamed predicate t.result) l := by
    induction n using Nat.strong_induction_on with
    | _ n ih =>
      intro l hn hl e he hv
      obtain ⟨ha, hg⟩ := hs.forth l.1 e he (Set.notMem_empty _)
      obtain ⟨b, hb, hbt, hrest⟩ := hs.just e ha.1 l.1 hg
      have hlb : (l.1, b) = l := by
        refine Prod.ext rfl ?_
        rw [litVal_eq_some] at hbt hl
        rw [hl] at hbt
        cases hb : b <;> cases hl2 : l.2 <;> simp_all [truth]
      rw [hlb] at hb hrest
      refine .unit (hblame ha (Or.inr hv)) hb fun m hm hne => ?_
      cases hp : predicate e with
      | true =>
        obtain ⟨x, hx⟩ := hunit e ha hp
        have hm : m = x := by simpa [litSet, hx] using hm
        have hl : l = x := by simpa [hx] using hb
        exact absurd (hm.trans hl.symm) hne
      | false =>
        obtain ⟨hmf, hlt⟩ := hrest m hm hne
        have hmv : s.value m.1 ≠ .unknown := by
          rw [Ne, ← litVal_eq_none (b := m.2)]
          simp [hmf]
        obtain ⟨f, hfs⟩ := Option.ne_none_iff_exists'.mp (mt (hs.unknown m.1).mpr hmv)
        obtain ⟨-, hgf⟩ := hs.forth m.1 f hfs (Set.notMem_empty _)
        have hfe : f ≠ e := by
          rintro rfl
          have : m.1 = l.1 := Option.some.inj (hgf.symm.trans hg)
          rw [this] at hlt
          omega
        exact ih (rank m.1) (hn ▸ hlt) m.neg rfl (litVal_neg_true hmf) f hfs
          (hnext (Or.inr ⟨hv, hp⟩) hm ha.1 hfs hfe)
  refine ⟨s.litSet c, hblame hc (Or.inl rfl), fun l hl => ?_⟩
  have hlf := hf l hl
  have hlv : s.value l.1 ≠ .unknown := by
    rw [Ne, ← litVal_eq_none (b := l.2)]
    simp [hlf]
  obtain ⟨e, he⟩ := Option.ne_none_iff_exists'.mp (mt (hs.unknown l.1).mpr hlv)
  have hec : e ≠ c := by
    rintro rfl
    obtain ⟨b, hb, ht, -⟩ := hs.just e hc.1 _ (hs.forth l.1 e he (Set.notMem_empty _)).2
    simp [hf _ hb] at ht
  exact hderive _ l.neg rfl (litVal_neg_true hlf) e he (hnext (Or.inl rfl) hl hc.1 he hec)

theorem getClauseSupport_spec (h : s.Inv) (hc : s.Active c)
    (hf : ∀ l ∈ (s.clause c).lits, s.litVal l = some false) (predicate : ClauseId → Bool) :
    ∃ out s', s.getClauseSupport c (if predicate c then [c] else []) predicate = .ok (out, s') ∧
      s.Restamped s' ∧ s'.Stamps ∧ out.Nodup ∧ (∀ d ∈ out, predicate d = true ∧ s.Active d) ∧
      ((∀ d, s.Active d → predicate d = true → ∃ l, (s.clause d).lits = [l]) →
        Contradicts (s.blamed predicate out)) := by
  obtain ⟨rank, hs⟩ := h.support
  obtain ⟨hr, hst, hne⟩ := freshStamp_spec h.stamps
  set t₀ : Trace := ⟨s.freshStamp, [c], if predicate c then [c] else []⟩
  have hno (d : ClauseId) : ¬ t₀.visited d := fun hv => hne d (hr.clauses ▸ hv.1) hv.2
  have h₀ : Tracing predicate s c (fun _ _ => False) t₀ := by
    refine ⟨hr, hst, hno c, ?_, fun d => ?_, fun d hd => absurd hd (hno d), fun d hd => ?_,
      fun d hd hds => ?_⟩
    · simp only [t₀]
      split_ifs <;> simp
    · simp only [t₀, hno d, false_or]
      split_ifs with hp
      · rw [List.mem_singleton]
        exact ⟨fun hd => ⟨hd ▸ hp, hd⟩, fun hd => hd.2⟩
      · simp only [List.not_mem_nil, false_iff]
        rintro ⟨hp', rfl⟩
        exact hp hp'
    · exact Or.inl (List.mem_singleton.mp hd)
    · rcases hd with rfl | ⟨hv, -⟩
      · exact absurd (List.mem_singleton_self d) hds
      · exact absurd hv (hno d)
  obtain ⟨t, ht, hinv, hstack⟩ := Loop.whileM_total L2Error.outOfFuel
    (traceTurn predicate) (Tracing predicate s c fun _ _ => False) Trace.measure
    (fun t => Tracing predicate s c (fun _ _ => False) t ∧ t.stack = [])
    (fun t ht => by
      cases hstack : t.stack with
      | nil => exact Or.inr ⟨t, by simp only [traceTurn, hstack], ht, hstack⟩
      | cons d stack =>
        obtain ⟨t', ht', h', hμ⟩ := traceTurn_step h.wf hs hc.1 hf ht hstack
        exact Or.inl ⟨t', ht', h', hμ⟩)
    (s.clauses.length + 2) t₀ h₀ (by
      have : t₀.ltms.clauses.countP (fun d => ¬ t₀.visited d) ≤ t₀.ltms.clauses.length :=
        List.countP_le_length
      have hlen : t₀.ltms.clauses.length = s.clauses.length := congrArg List.length hr.clauses
      simp only [Trace.measure]
      change _ + 1 < _
      omega)
  refine ⟨t.result, t.ltms, ?_, hinv.restamped, hinv.stamps, hinv.nodup, fun d hd => ?_,
    fun hunit => hinv.contradicts h.wf hs hc hf hunit hstack⟩
  · unfold getClauseSupport
    change (whileM .outOfFuel (traceTurn predicate) (s.freshStamp.clauses.length + 2) t₀ >>=
      fun t => pure (t.result, t.ltms)) = _
    rw [hr.clauses, ht]
    rfl
  · obtain ⟨hp, hv | rfl⟩ := (hinv.result d).mp hd
    · exact ⟨hp, (hinv.supporter d hv).1⟩
    · exact ⟨hp, hc⟩

end Livingstone.Ltms
