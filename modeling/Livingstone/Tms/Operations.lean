import Livingstone.Tms.Update

/-! Creating, adding and removing keeps the representation invariant. -/

namespace Livingstone

open UnitProp (Literal)

theorem nodup_eraseDups {α : Type*} [DecidableEq α] (xs : List α) : xs.eraseDups.Nodup := by
  induction h : xs.length using Nat.strong_induction_on generalizing xs with
  | _ n ih =>
    cases xs with
    | nil => simp
    | cons x xs =>
      rw [List.eraseDups_cons, List.nodup_cons]
      refine ⟨by simp [List.mem_eraseDups], ih _ ?_ _ rfl⟩
      rw [← h]
      exact Nat.lt_succ_of_le (List.length_filter_le _ xs)

/-- A clause of at most 127 distinct literals fits the counters. -/
def Fits (pos neg : List PropId) : Prop := (pos.eraseDups ++ neg.eraseDups).length ≤ 127

instance (pos neg : List PropId) : Decidable (Fits pos neg) := by
  unfold Fits
  infer_instance

section
variable (datum : Option ℕ) {pos neg : List PropId} (v : Bool) (h : Fits pos neg)
include h

theorem construct_counts :
    (Clause.construct datum pos neg v).numPosLits = pos.eraseDups.length ∧
    (Clause.construct datum pos neg v).numLits = (pos.eraseDups ++ neg.eraseDups).length := by
  have hle := h
  unfold Fits at hle
  rw [List.length_append] at hle
  have hpos : (Clause.construct datum pos neg v).numPosLits = pos.eraseDups.length := by
    simp only [Clause.construct]
    rw [lengthT_of_le (by omega) (by omega), Nat.mod_eq_of_lt (by omega)]
  refine ⟨hpos, ?_⟩
  simp only [Clause.construct] at hpos ⊢
  rw [hpos, List.length_append, lengthT_of_le (by omega) (by omega)]
  omega

theorem lits_construct : (Clause.construct datum pos neg v).lits =
    pos.eraseDups.map (·, true) ++ neg.eraseDups.map (·, false) := by
  obtain ⟨hp, hn⟩ := construct_counts datum v h
  have hl : (Clause.construct datum pos neg v).literals = pos.eraseDups ++ neg.eraseDups := rfl
  simp only [Clause.lits, Clause.positiveProps, Clause.negativeProps, hp, hn, hl,
    Int.toNat_natCast, List.take_left, List.take_length, List.drop_left]

theorem clauseShape_construct : ClauseShape (Clause.construct datum pos neg v) := by
  obtain ⟨hp, hn⟩ := construct_counts datum v h
  refine ⟨hn, by omega, ?_, h, ?_⟩
  · rw [hp, hn, List.length_append]
    omega
  · rw [lits_construct datum v h, List.nodup_append]
    refine ⟨?_, ?_, ?_⟩
    · exact (nodup_eraseDups pos).map fun _ _ he => congrArg Prod.fst he
    · exact (nodup_eraseDups neg).map fun _ _ he => congrArg Prod.fst he
    · simp

theorem mem_lits_construct {p : PropId} {b : Bool} :
    (p, b) ∈ (Clause.construct datum pos neg v).lits ↔ if b then p ∈ pos else p ∈ neg := by
  rw [lits_construct datum v h]
  cases b <;> simp [List.mem_eraseDups]

end

namespace Ltms

-- the wrap of a counter is never computed here
attribute [local irreducible] lengthT

variable {s : Ltms} {c : ClauseId} {p : PropId} {b : Bool}

/-- Only the lists of clauses kept by the propositions differ. -/
structure Relinked (s s' : Ltms) : Prop where
  value : ∀ p, s'.value p = s.value p
  supportedBy : ∀ p, (s'.prop p).supportedBy = (s.prop p).supportedBy
  rest : { s' with prop := s.prop } = s

namespace Relinked

theorem refl (s : Ltms) : s.Relinked s := ⟨fun _ => rfl, fun _ => rfl, rfl⟩

theorem trans {s' s'' : Ltms} (h : s.Relinked s') (h' : s'.Relinked s'') : s.Relinked s'' := by
  refine ⟨fun p => (h'.value p).trans (h.value p),
    fun p => (h'.supportedBy p).trans (h.supportedBy p), ?_⟩
  conv_rhs => rw [← h.rest, ← h'.rest]

variable {s' : Ltms} (h : s.Relinked s')
include h

theorem litVal : s'.litVal = s.litVal := by
  funext l
  simp only [Ltms.litVal, h.value]

theorem clause : s'.clause = s.clause := congrArg (·.clause) h.rest

theorem props : s'.props = s.props := congrArg (·.props) h.rest

theorem clauses : s'.clauses = s.clauses := congrArg (·.clauses) h.rest

theorem nextProp : s'.nextProp = s.nextProp := congrArg (·.nextProp) h.rest

theorem nextClause : s'.nextClause = s.nextClause := congrArg (·.nextClause) h.rest

theorem timeStamp : s'.timeStamp = s.timeStamp := congrArg (·.timeStamp) h.rest

theorem fringeOf (v : Bool) : s'.fringeOf v = s.fringeOf v := congrArg (·.fringeOf v) h.rest

theorem unsatisfied : s'.unsatisfied = s.unsatisfied := congrArg (·.unsatisfied) h.rest

theorem undoList : s'.undoList = s.undoList := congrArg (·.undoList) h.rest

end Relinked

theorem relinked_addOccurrence (s : Ltms) (c : ClauseId) (l : Literal PropId) :
    s.Relinked (s.addOccurrence c l) := by
  refine ⟨fun q => ?_, fun q => ?_, rfl⟩
  · by_cases hq : q = l.1
    · subst hq
      cases h : l.2 <;> simp [addOccurrence, setProp, value, h]
    · simp [addOccurrence, setProp, value, hq]
  · by_cases hq : q = l.1
    · subst hq
      cases h : l.2 <;> simp [addOccurrence, setProp, h]
    · simp [addOccurrence, setProp, hq]

theorem occurrences_addOccurrence (s : Ltms) (c : ClauseId) (l : Literal PropId) (p : PropId)
    (b : Bool) : (s.addOccurrence c l).occurrences p b =
      s.occurrences p b ++ if (p, b) = l then [c] else [] := by
  obtain ⟨q, x⟩ := l
  by_cases hq : p = q
  · subst hq
    cases b <;> cases x <;> simp [addOccurrence, occurrences, setProp]
  · simp [addOccurrence, occurrences, setProp, hq]

theorem foldl_addOccurrence {ls : List (Literal PropId)} (hn : ls.Nodup) (s : Ltms)
    (c : ClauseId) : s.Relinked (ls.foldl (fun s l => s.addOccurrence c l) s) ∧
      ∀ p b, (ls.foldl (fun s l => s.addOccurrence c l) s).occurrences p b =
        s.occurrences p b ++ if (p, b) ∈ ls then [c] else [] := by
  induction ls generalizing s with
  | nil => exact ⟨Relinked.refl s, fun p b => by simp⟩
  | cons l ls ih =>
    obtain ⟨hl, hn⟩ := List.nodup_cons.mp hn
    obtain ⟨hr, ho⟩ := ih hn (s.addOccurrence c l)
    refine ⟨(relinked_addOccurrence s c l).trans hr, fun p b => ?_⟩
    rw [List.foldl_cons, ho, occurrences_addOccurrence]
    by_cases hpl : (p, b) = l
    · subst hpl
      simp [hl]
    · simp [hpl]

/-- The clause `k` was created, and is not in the theory. -/
structure Created (s s' : Ltms) (k : Clause) : Prop where
  clauses : s'.clauses = s.clauses ++ [s.nextClause]
  nextClause : s'.nextClause = s.nextClause + 1
  new : s'.clause s.nextClause = k
  old : ∀ d, d ≠ s.nextClause → s'.clause d = s.clause d
  value : s'.value = s.value
  supportedBy : ∀ p, (s'.prop p).supportedBy = (s.prop p).supportedBy
  occurrences : ∀ p b, s'.occurrences p b =
    s.occurrences p b ++ if (p, b) ∈ k.lits then [s.nextClause] else []
  props : s'.props = s.props
  nextProp : s'.nextProp = s.nextProp
  timeStamp : s'.timeStamp = s.timeStamp
  fringeOf : s'.fringeOf = s.fringeOf
  unsatisfied : s'.unsatisfied = s.unsatisfied
  undoList : s'.undoList = s.undoList

theorem newClause_fst (s : Ltms) (datum : Option ℕ) (pos neg : List PropId) (v : Bool) :
    (s.newClause datum pos neg v).1 = s.nextClause := rfl

theorem newClause_created (datum : Option ℕ) {pos neg : List PropId} (v : Bool)
    (hfit : Fits pos neg) :
    s.Created (s.newClause datum pos neg v).2 (Clause.construct datum pos neg v) := by
  have hn := (clauseShape_construct datum v hfit).nodup
  set k := Clause.construct datum pos neg v
  set s₀ := { s.setClause s.nextClause k with nextClause := s.nextClause + 1 } with hs₀
  obtain ⟨hr, ho⟩ := foldl_addOccurrence hn s₀ s.nextClause
  have ht : (s.newClause datum pos neg v).2 =
      { k.lits.foldl (fun s' l => s'.addOccurrence s.nextClause l) s₀ with
        clauses := s.clauses ++ [s.nextClause] } := by
    simp only [newClause]
    rw [hr.clauses]
    rfl
  rw [ht]
  generalize k.lits.foldl (fun s' l => s'.addOccurrence s.nextClause l) s₀ = t at *
  refine ⟨rfl, hr.nextClause, ?_, fun d hd => ?_, funext hr.value, hr.supportedBy, ho, hr.props,
    hr.nextProp, hr.timeStamp, funext hr.fringeOf, hr.unsatisfied, hr.undoList⟩
  · exact (congrFun hr.clause _).trans (setClause_same s _ _)
  · exact (congrFun hr.clause d).trans (setClause_ne s _ hd)

theorem WellFormed.fresh (hw : s.WellFormed) {d : ClauseId} (hd : d ∈ s.clauses) :
    d ≠ s.nextClause := (hw.clause_lt d hd).ne

namespace Created

variable {s' : Ltms} {k : Clause} (h : s.Created s' k) (hw : s.WellFormed)
include h hw

theorem clause_eq {d : ClauseId} (hd : d ∈ s.clauses) : s'.clause d = s.clause d :=
  h.old d (hw.fresh hd)

omit hw in
theorem mem_clauses {d : ClauseId} : d ∈ s'.clauses ↔ d ∈ s.clauses ∨ d = s.nextClause := by
  simp [h.clauses]

theorem active (hk : k.deleted = true) (d : ClauseId) : s'.Active d ↔ s.Active d := by
  unfold Active
  rw [h.mem_clauses]
  constructor
  · rintro ⟨hd | rfl, hdel⟩
    · exact ⟨hd, h.clause_eq hw hd ▸ hdel⟩
    · rw [h.new, hk] at hdel
      cases hdel
  · rintro ⟨hd, hdel⟩
    exact ⟨Or.inl hd, h.clause_eq hw hd ▸ hdel⟩

theorem theory (hk : k.deleted = true) : s'.theory = s.theory := by
  ext C
  constructor
  · rintro ⟨d, hd, rfl⟩
    have ha := (h.active hw hk d).mp hd
    exact ⟨d, ha, by simp only [litSet, h.clause_eq hw ha.1]⟩
  · rintro ⟨d, ha, rfl⟩
    exact ⟨d, (h.active hw hk d).mpr ha, by simp only [litSet, h.clause_eq hw ha.1]⟩

theorem wellFormed (hs : ClauseShape k) (hp : ∀ l ∈ k.lits, l.1 ∈ s.props) : s'.WellFormed := by
  refine ⟨?_, ?_, ?_, fun d hd => ?_, fun d hd => ?_, fun d hd => ?_, fun d p b => ?_, fun p b => ?_⟩
  · exact h.props ▸ hw.props_nodup
  · rw [h.clauses]
    simpa using hw.clauses_nodup.concat (fun hm => hw.fresh hm rfl)
  · rw [h.props, h.nextProp]
    exact hw.prop_lt
  · rw [h.nextClause]
    rcases h.mem_clauses.mp hd with hd | rfl
    · exact Nat.lt_succ_of_lt (hw.clause_lt d hd)
    · exact Nat.lt_succ_self _
  · rcases h.mem_clauses.mp hd with hd | rfl
    · exact h.clause_eq hw hd ▸ hw.shape d hd
    · exact h.new ▸ hs
  · rw [h.props]
    rcases h.mem_clauses.mp hd with hd | rfl
    · rw [h.clause_eq hw hd]
      exact hw.lits_props d hd
    · rw [h.new]
      exact hp
  · rw [h.occurrences, List.mem_append, hw.mem_occurrences, h.mem_clauses]
    by_cases hd : d ∈ s.clauses
    · have := hw.fresh hd
      rw [h.clause_eq hw hd]
      split_ifs <;> simp [hd, this]
    · by_cases hdc : d = s.nextClause
      · subst hdc
        rw [h.new]
        split_ifs with hm <;> simp [hd, hm]
      · split_ifs <;> simp [hd, hdc]
  · rw [h.occurrences]
    split_ifs
    · have hn : s.nextClause ∉ s.occurrences p b := fun hm =>
        hw.fresh (hw.mem_occurrences.mp hm).1 rfl
      simpa using (hw.occurs_nodup p b).concat hn
    · simpa using hw.occurs_nodup p b

theorem flag {f : Clause → Prop} (hf : ¬ f k) (d : ClauseId) :
    (d ∈ s'.clauses ∧ f (s'.clause d)) ↔ d ∈ s.clauses ∧ f (s.clause d) := by
  rw [h.mem_clauses]
  by_cases hd : d ∈ s.clauses
  · simp [hd, h.clause_eq hw hd]
  · by_cases hdc : d = s.nextClause
    · subst hdc
      simp [hd, h.new, hf]
    · simp [hd, hdc]

theorem containers (hc : s.Containers) (hf : k.inFringe = false) (hu : k.unsatisfied = false) :
    s'.Containers := by
  refine ⟨fun v d => ?_, fun v => ?_, fun v i d hd => ?_, fun d => ?_, ?_⟩
  · rw [h.fringeOf, hc.fringe_mem]
    exact (h.flag hw (f := fun k => k.inFringe = true ∧ k.isVolatile = v) (by simp [hf]) d).symm
  · exact h.fringeOf ▸ hc.fringe_nodup v
  · rw [h.fringeOf] at hd
    rw [h.clause_eq hw ((hc.fringe_mem v d).mp (List.mem_of_getElem? hd)).1]
    exact hc.fringe_index v i d hd
  · rw [h.unsatisfied, hc.unsat_mem]
    exact (h.flag hw (f := fun k => k.unsatisfied = true) (by simp [hu]) d).symm
  · exact h.unsatisfied ▸ hc.unsat_nodup

omit hw in
theorem litVal : s'.litVal = s.litVal := by
  funext l
  simp only [Ltms.litVal, h.value]

theorem marked (hm : s.Marked s.litVal) (hk : k.deleted = true) (hst : k.mark.Stale k.lits) :
    s'.Marked s'.litVal := by
  refine ⟨fun d hd => ?_, fun d hd hdel => ?_⟩
  · have ha := (h.active hw hk d).mp hd
    rw [h.clause_eq hw ha.1, h.litVal]
    exact hm.active d ha
  · rcases h.mem_clauses.mp hd with hd | rfl
    · rw [h.clause_eq hw hd] at hdel ⊢
      exact hm.deleted d hd hdel
    · rw [h.new]
      exact hst

theorem support {pend : Set PropId} {rank : PropId → ℕ} (hs : s.Support pend s.litVal rank)
    (hk : k.deleted = true) (hg : k.getSupports = none) : s'.Support pend s'.litVal rank := by
  have hgs (d : ClauseId) (hd : d ∈ s'.clauses) (p : PropId)
      (hp : (s'.clause d).getSupports = some p) :
      d ∈ s.clauses ∧ (s.clause d).getSupports = some p :=
    (h.flag hw (f := fun k => k.getSupports = some p) (by simp [hg]) d).mp ⟨hd, hp⟩
  refine ⟨fun p => ?_, fun p hp => ?_, fun p d hd hn => ?_, fun d hd p hp => ?_,
    fun d hd p hp => ?_, h.undoList ▸ hs.undo_nodup, fun p hp => ?_⟩
  · rw [h.value, h.supportedBy]
    exact hs.unknown p
  · rw [h.props]
    exact hs.alloc p (h.value ▸ hp)
  · rw [h.supportedBy] at hd
    obtain ⟨ha, hg⟩ := hs.forth p d hd hn
    exact ⟨(h.active hw hk d).mpr ha, h.clause_eq hw ha.1 ▸ hg⟩
  · obtain ⟨hd, hp⟩ := hgs d hd p hp
    obtain ⟨ha, hb⟩ := hs.back d hd p hp
    exact ⟨(h.active hw hk d).mpr ha, (h.supportedBy p).trans hb⟩
  · obtain ⟨hd, hp⟩ := hgs d hd p hp
    rw [h.clause_eq hw hd, h.litVal]
    exact hs.just d hd p hp
  · obtain ⟨hp, hv, hn⟩ := hs.undo p (h.undoList ▸ hp)
    exact ⟨hp, h.value ▸ hv, fun d hd hg => by
      obtain ⟨hd, hg⟩ := hgs d hd p hg
      exact hn d hd hg⟩

theorem stamps (hs : s.Stamps) (ht : k.timeStamp = 0) : s'.Stamps := by
  refine ⟨h.timeStamp ▸ hs.theory_le, fun d hd => ?_⟩
  rw [h.timeStamp]
  rcases h.mem_clauses.mp hd with hd | rfl
  · exact h.clause_eq hw hd ▸ hs.clause_le d hd
  · rw [h.new, ht]
    exact Nat.zero_le _

end Created

theorem newClause_inv (datum : Option ℕ) {pos neg : List PropId} (v : Bool) (h : s.Inv)
    (hfit : Fits pos neg) (hpos : ∀ p ∈ pos, p ∈ s.props) (hneg : ∀ p ∈ neg, p ∈ s.props) :
    (s.newClause datum pos neg v).2.Inv := by
  have hc := newClause_created (s := s) datum v hfit
  obtain ⟨rank, hs⟩ := h.support
  have hst : (Clause.construct datum pos neg v).mark.Stale
      (Clause.construct datum pos neg v).lits :=
    ⟨(fun p hp => by cases hp), rfl, rfl, le_refl 0, show (0 : ℤ) ≤ 127 by decide⟩
  refine ⟨hc.wellFormed h.wf (clauseShape_construct datum v hfit) ?_,
    hc.containers h.wf h.containers rfl rfl, hc.marked h.wf h.marks rfl hst,
    ⟨rank, hc.support h.wf hs rfl rfl⟩, hc.undoList.trans h.undo, hc.stamps h.wf h.stamps rfl⟩
  rintro ⟨p, b⟩ hl
  rw [mem_lits_construct datum v hfit] at hl
  cases b
  · exact hneg p hl
  · exact hpos p hl

theorem createProposition_inv (h : s.Inv) : s.createProposition.2.Inv := by
  set q := s.nextProp
  set s' := s.createProposition.2
  have hfresh : q ∉ s.props := fun hm => (h.wf.prop_lt q hm).ne rfl
  obtain ⟨rank, hs⟩ := h.support
  have hq : s.value q = .unknown := by
    by_contra hv
    exact hfresh (hs.alloc q hv)
  have hnew : s'.prop q = {} := Function.update_self q _ s.prop
  have hold (p : PropId) (hp : p ≠ q) : s'.prop p = s.prop p := Function.update_of_ne hp _ s.prop
  have hocc (p : PropId) (b : Bool) : s'.occurrences p b = s.occurrences p b := by
    by_cases hp : p = q
    · have : s.occurrences q b = [] := List.eq_nil_iff_forall_not_mem.mpr fun c hc => by
        obtain ⟨hc, hl⟩ := h.wf.mem_occurrences.mp hc
        exact hfresh (h.wf.lits_props c hc _ hl)
      rw [hp, this]
      simp [occurrences, hnew]
    · simp only [occurrences, hold p hp]
  have hval (p : PropId) : s'.value p = s.value p := by
    by_cases hp : p = q
    · rw [hp, hq, value, hnew]
    · simp only [value, hold p hp]
  have hsup (p : PropId) : (s'.prop p).supportedBy = (s.prop p).supportedBy := by
    by_cases hp : p = q
    · rw [hp, (hs.unknown q).mp hq, hnew]
    · rw [hold p hp]
  have hlv : s'.litVal = s.litVal := by
    funext l
    simp only [litVal, hval]
  have hprops (p : PropId) : p ∈ s'.props ↔ p ∈ s.props ∨ p = q := by
    simp [s', createProposition, q]
  refine ⟨⟨?_, h.wf.clauses_nodup, fun p hp => ?_, h.wf.clause_lt, h.wf.shape, fun c hc l hl => ?_,
    fun c p b => ?_, fun p b => ?_⟩, ?_, ?_, ⟨rank, ?_⟩, h.undo,
    ⟨h.stamps.theory_le, h.stamps.clause_le⟩⟩
  · simpa [s', createProposition] using h.wf.props_nodup.concat hfresh
  · rcases (hprops p).mp hp with hp | rfl
    · exact Nat.lt_succ_of_lt (h.wf.prop_lt p hp)
    · exact Nat.lt_succ_self _
  · exact (hprops l.1).mpr (Or.inl (h.wf.lits_props c hc l hl))
  · rw [hocc]
    exact h.wf.occurs c p b
  · exact hocc p b ▸ h.wf.occurs_nodup p b
  · exact ⟨h.containers.fringe_mem, h.containers.fringe_nodup, h.containers.fringe_index,
      h.containers.unsat_mem, h.containers.unsat_nodup⟩
  · exact hlv ▸ ⟨h.marks.active, h.marks.deleted⟩
  · refine ⟨fun p => ?_, fun p hp => ?_, fun p c hc hn => ?_, fun c hc p hp => ?_, hlv ▸ hs.just,
      hs.undo_nodup, fun p hp => ?_⟩
    · rw [hval, hsup]
      exact hs.unknown p
    · exact (hprops p).mpr (Or.inl (hs.alloc p (hval p ▸ hp)))
    · exact hs.forth p c (hsup p ▸ hc) hn
    · rw [hsup]
      exact hs.back c hc p hp
    · exact absurd hp (by rw [show s'.undoList = s.undoList from rfl, h.undo]; simp)

section
variable {k : Clause}

theorem WellFormed.setClause (h : s.WellFormed) (hl : k.literals = (s.clause c).literals)
    (hn : k.numLits = (s.clause c).numLits) (hp : k.numPosLits = (s.clause c).numPosLits) :
    (s.setClause c k).WellFormed := by
  have hlits : k.lits = (s.clause c).lits := by
    simp only [Clause.lits, Clause.positiveProps, Clause.negativeProps, hl, hn, hp]
  have same (d : ClauseId) : ((s.setClause c k).clause d).lits = (s.clause d).lits := by
    by_cases hd : d = c
    · subst hd
      rw [setClause_same, hlits]
    · rw [setClause_ne s k hd]
  refine ⟨h.props_nodup, h.clauses_nodup, h.prop_lt, h.clause_lt, fun d hd => ?_, fun d hd => ?_,
    fun d p b => ?_, h.occurs_nodup⟩
  · by_cases hdc : d = c
    · subst hdc
      have := h.shape d hd
      rw [setClause_same]
      exact ⟨hn ▸ hl ▸ this.numLits, hp ▸ this.numPos_nonneg, hn ▸ hp ▸ this.numPos_le,
        hl ▸ this.bound, hlits ▸ this.nodup⟩
    · rw [setClause_ne s k hdc]
      exact h.shape d hd
  · rw [same]
    exact h.lits_props d hd
  · rw [same]
    exact h.occurs d p b

theorem Support.setClause {pend : Set PropId} {lv : Literal PropId → Option Bool}
    {rank : PropId → ℕ} (h : s.Support pend lv rank) (hc : (s.clause c).getSupports = none)
    (hk : k.getSupports = none) : (s.setClause c k).Support pend lv rank := by
  have hne {d : ClauseId} {p : PropId} (hp : ((s.setClause c k).clause d).getSupports = some p) :
      d ≠ c := by
    rintro rfl
    rw [setClause_same, hk] at hp
    cases hp
  refine ⟨h.unknown, h.alloc, fun p d hd hn => ?_, fun d hd p hp => ?_, fun d hd p hp => ?_,
    h.undo_nodup, fun p hp => ?_⟩
  · obtain ⟨⟨hdc, hdel⟩, hg⟩ := h.forth p d hd hn
    have : d ≠ c := by
      rintro rfl
      rw [hc] at hg
      cases hg
    unfold Active
    rw [setClause_ne s k this]
    exact ⟨⟨hdc, hdel⟩, hg⟩
  · have := hne hp
    rw [setClause_ne s k this] at hp
    obtain ⟨⟨hdc, hdel⟩, hb⟩ := h.back d hd p hp
    unfold Active
    rw [setClause_ne s k this]
    exact ⟨⟨hdc, hdel⟩, hb⟩
  · have := hne hp
    rw [setClause_ne s k this] at hp ⊢
    exact h.just d hd p hp
  · obtain ⟨hw, hv, hn⟩ := h.undo p hp
    refine ⟨hw, hv, fun d hd hg => ?_⟩
    have := hne hg
    rw [setClause_ne s k this] at hg
    exact hn d hd hg

theorem Stamps.setClause (h : s.Stamps) (ht : k.timeStamp = (s.clause c).timeStamp) :
    (s.setClause c k).Stamps := by
  refine ⟨h.theory_le, fun d hd => ?_⟩
  by_cases hdc : d = c
  · subst hdc
    rw [setClause_same, ht]
    exact h.clause_le d hd
  · rw [setClause_ne s k hdc]
    exact h.clause_le d hd

end

/-- The same clauses, of which those in `A` are in the theory. -/
structure Selects (s s' : Ltms) (A : ClauseId → Prop) : Prop where
  props : s'.props = s.props
  clauses : s'.clauses = s.clauses
  lits : ∀ d, (s'.clause d).lits = (s.clause d).lits
  active : ∀ d, s'.Active d ↔ A d

theorem Selects.theory {s' : Ltms} {A : ClauseId → Prop} (h : s.Selects s' A) :
    s'.theory = {C | ∃ d, A d ∧ C = s.litSet d} := by
  simp only [Ltms.theory, litSet, h.active, h.lits]

theorem Selects.outline {s' s'' : Ltms} {A : ClauseId → Prop} (h : s.Selects s' A)
    (ho : s'.Outline s'') : s.Selects s'' A :=
  ⟨ho.props.trans h.props, ho.clauses.trans h.clauses, fun d => (ho.lits d).trans (h.lits d),
    fun d => (ho.active d).trans (h.active d)⟩

theorem Support.deleted_none {pend : Set PropId} {lv : Literal PropId → Option Bool}
    {rank : PropId → ℕ} (h : s.Support pend lv rank) (hc : c ∈ s.clauses)
    (hdel : (s.clause c).deleted = true) : (s.clause c).getSupports = none := by
  by_contra hne
  obtain ⟨p, hp⟩ := Option.ne_none_iff_exists'.mp hne
  have := (h.back c hc p hp).1.2
  simp [hdel] at this

/-- A deleted clause once its counters are set. -/
def readied (s : Ltms) (c : ClauseId) : Clause :=
  { s.clause c with
    deleted := false
    satisfyingProp := s.findSatisfyingProp (s.clause c)
    numUnassigned := s.countUnassigned (s.clause c)
    supports := noProposition
    unsatisfied := false }

theorem add_eq (hdel : (s.clause c).deleted = true) (hf : (s.clause c).inFringe = false) :
    s.add c = .ok (
      if (s.readied c).satisfyingProp = none then
        if (s.readied c).numUnassigned = 1 then (s.setClause c (s.readied c)).insertIntoFringe c
        else if (s.readied c).numUnassigned = 0 then
          (s.setClause c (s.readied c)).insertIntoUnsat c
        else s.setClause c (s.readied c)
      else s.setClause c (s.readied c)) := by
  have hready : s.ptheoryAdd c = s.setClause c
      { s.readied c with
        supports := (s.clause c).supports
        unsatisfied := (s.clause c).unsatisfied } := by
    simp only [ptheoryAdd, hdel, if_true, readied]
  have hset : (s.ptheoryAdd c).setSupports c none = .ok (s.setClause c
      { s.readied c with unsatisfied := (s.clause c).unsatisfied }) := by
    rw [hready]
    simp only [setSupports, setClause_same, setClause_setClause]
    rfl
  have hin : (s.readied c).inFringe = false := hf
  unfold add
  rw [if_pos hdel]
  simp only [hset, bind, Except.bind, setClause_same, setClause_setClause]
  rw [if_neg (by simp [hin])]
  split_ifs <;> rfl

theorem countUnassigned_eq {k : Clause} (h : ClauseShape k) :
    s.countUnassigned k = (k.lits.countP fun l => s.litVal l = none : ℕ) := by
  have hle : (k.lits.countP fun l => s.litVal l = none) ≤ k.lits.length := List.countP_le_length
  have := h.length_lits
  have := h.bound
  exact lengthT_of_le (by omega) (by omega)

theorem add_spec (h : s.Inv) (hc : c ∈ s.clauses) (hdel : (s.clause c).deleted = true) :
    ∃ s', s.add c = .ok s' ∧ s'.Inv ∧ s'.value = s.value ∧
      s.Selects s' fun d => s.Active d ∨ d = c := by
  obtain ⟨-, hf, hu, -, -⟩ := h.marks.deleted c hc hdel
  obtain ⟨rank, hs⟩ := h.support
  have hadd := add_eq hdel hf
  have hkd : (s.readied c).deleted = false := rfl
  have hkf : (s.readied c).inFringe = false := hf
  have hku : (s.readied c).unsatisfied = false := rfl
  set k := s.readied c
  set s₁ := s.setClause c k
  have hnew : s₁.clause c = k := setClause_same s c k
  have hold (d : ClauseId) (hd : d ≠ c) : s₁.clause d = s.clause d := setClause_ne s k hd
  have hlits (d : ClauseId) : (s₁.clause d).lits = (s.clause d).lits := by
    by_cases hd : d = c
    · rw [hd, hnew]
      rfl
    · rw [hold d hd]
  have hact (d : ClauseId) : s₁.Active d ↔ s.Active d ∨ d = c := by
    unfold Active
    by_cases hd : d = c
    · rw [hd, hnew]
      exact ⟨fun _ => Or.inr rfl, fun _ => ⟨hc, rfl⟩⟩
    · rw [hold d hd, or_iff_left hd]
      rfl
  have hwf : s₁.WellFormed := h.wf.setClause rfl rfl rfl
  have hcon : s₁.Containers := containers_setClause h.containers rfl rfl hu.symm rfl
  have hsup : s₁.Support ∅ s₁.litVal rank := hs.setClause (hs.deleted_none hc hdel) rfl
  have hstamps : s₁.Stamps := h.stamps.setClause rfl
  have hcount := countUnassigned_eq (s := s) (h.wf.shape c hc)
  -- whatever list the clause goes to, the rest is as before
  have close {s' : Ltms} {m : Mark} (hr : s₁.Remarks s' c m)
      (hb : Bookkeeping s.litVal (s.clause c).lits m) : s'.Inv ∧ s'.value = s.value ∧
        s.Selects s' fun d => s.Active d ∨ d = c := by
    refine ⟨⟨hr.frame.wellFormed hwf, hr.containers, ?_, ⟨rank, ?_⟩, ?_, hr.frame.stamps hstamps⟩,
      funext hr.frame.value, (show s.Selects s₁ _ from ⟨rfl, rfl, hlits, hact⟩).outline hr.frame.toOutline⟩
    · refine ⟨fun d hd => ?_, fun d hd hdel => ?_⟩
      · rw [hr.frame.litVal, hr.frame.lits, hlits]
        by_cases hdc : d = c
        · rw [hdc, hr.mark]
          exact hb
        · rw [hr.others d hdc, hold d hdc]
          exact h.marks.active d (((hact d).mp ((hr.frame.active d).mp hd)).resolve_right hdc)
      · rw [hr.frame.clauses] at hd
        rw [hr.frame.deleted] at hdel
        have hdc : d ≠ c := by
          rintro rfl
          simp [hnew, hkd] at hdel
        rw [hold d hdc] at hdel
        rw [hr.others d hdc, hr.frame.lits, hold d hdc]
        exact h.marks.deleted d hd hdel
    · rw [hr.frame.litVal]
      exact hr.frame.support hsup
    · exact hr.frame.undoList.trans h.undo
  have hc₁ : c ∈ s₁.clauses := hc
  have hsat (p : PropId) (hp : k.satisfyingProp = some p) := findSatisfyingProp_some hp
  have hnone (hn : k.satisfyingProp = none) := findSatisfyingProp_none.mp hn
  rw [hadd]
  split_ifs with hn h1 h0
  · have hr := remarks_insertIntoFringe hcon hc₁
    rw [hnew] at hr
    refine ⟨_, rfl, close hr ⟨hcount, hsat, hnone, ?_, ?_⟩⟩
    · simp [Clause.mark, hn, h1]
    · simp [Clause.mark, hku, h1]
  · have hr := remarks_insertIntoUnsat hcon hc₁
    rw [hnew] at hr
    refine ⟨_, rfl, close hr ⟨hcount, hsat, hnone, ?_, ?_⟩⟩
    · simp [Clause.mark, hkf, h0]
    · simp [Clause.mark, hn, h0]
  · refine ⟨_, rfl, close ⟨Frame.refl s₁, hcon, rfl, fun _ _ => rfl⟩ ?_⟩
    rw [hnew]
    refine ⟨hcount, hsat, hnone, ?_, ?_⟩
    · simp [Clause.mark, hkf, h1]
    · simp [Clause.mark, hku, h0]
  · refine ⟨_, rfl, close ⟨Frame.refl s₁, hcon, rfl, fun _ _ => rfl⟩ ?_⟩
    rw [hnew]
    refine ⟨hcount, hsat, hnone, ?_, ?_⟩
    · simp [Clause.mark, hkf, hn]
    · simp [Clause.mark, hku, hn]

theorem Undoing.inv {rank : PropId → ℕ} (h : s.Undoing rank) (hu : s.undoList = [])
    (hs : s.Stamps) : s.Inv := by
  have hw : s.waiting = ∅ := by
    ext p
    simp [waiting, hu]
  exact ⟨h.wf, h.containers, h.marks, ⟨rank, hw ▸ h.support⟩, hu, hs⟩

theorem Inv.undoing (h : s.Inv) : ∃ rank, s.Undoing rank := by
  have hw : s.waiting = ∅ := by
    ext p
    simp [waiting, h.undo]
  obtain ⟨rank, hs⟩ := h.support
  exact ⟨rank, h.wf, h.containers, h.marks, hw ▸ hs⟩

theorem Undoing.ptheoryRemove {rank : PropId → ℕ} {s' : Ltms} {m : Mark} (h : s.Undoing rank)
    (hg : (s.clause c).getSupports = none)
    (hr : (s.ptheoryRemove c).Remarks s' c m) (hst : m.Stale (s.clause c).lits) :
    s'.Undoing rank ∧ s.Selects s' (fun d => s.Active d ∧ d ≠ c) ∧ s'.undoList = s.undoList := by
  set k := { s.clause c with deleted := true }
  have hnew : (s.ptheoryRemove c).clause c = k := setClause_same s c k
  have hold (d : ClauseId) (hd : d ≠ c) : (s.ptheoryRemove c).clause d = s.clause d :=
    setClause_ne s k hd
  have hlits (d : ClauseId) : ((s.ptheoryRemove c).clause d).lits = (s.clause d).lits := by
    by_cases hd : d = c
    · rw [hd, hnew]
      rfl
    · rw [hold d hd]
  have hact (d : ClauseId) : (s.ptheoryRemove c).Active d ↔ s.Active d ∧ d ≠ c := by
    unfold Active
    by_cases hd : d = c
    · rw [hd, hnew]
      simp [k]
    · rw [hold d hd]
      exact ⟨fun h => ⟨h, hd⟩, fun h => h.1⟩
  refine ⟨⟨hr.frame.wellFormed (h.wf.setClause rfl rfl rfl), hr.containers, ?_, ?_⟩,
    (show s.Selects (s.ptheoryRemove c) _ from ⟨rfl, rfl, hlits, hact⟩).outline hr.frame.toOutline,
    hr.frame.undoList⟩
  · refine ⟨fun d hd => ?_, fun d hd hdel => ?_⟩
    · obtain ⟨ha, hdc⟩ := (hact d).mp ((hr.frame.active d).mp hd)
      rw [hr.frame.litVal, hr.frame.lits, hlits, hr.others d hdc, hold d hdc]
      exact h.marks.active d ha
    · by_cases hdc : d = c
      · rw [hdc, hr.mark, hr.frame.lits, hlits]
        exact hst
      · rw [hr.frame.deleted, hold d hdc] at hdel
        rw [hr.others d hdc, hr.frame.lits, hold d hdc]
        exact h.marks.deleted d (hr.frame.clauses ▸ hd) hdel
  · rw [waiting, hr.frame.undoList, hr.frame.litVal]
    exact hr.frame.support (h.support.setClause hg hg)

theorem Bookkeeping.support_none {lv : Literal PropId → Option Bool} {pend : Set PropId}
    {rank : PropId → ℕ} (hs : s.Support pend lv rank) (hc : c ∈ s.clauses)
    (hb : Bookkeeping lv (s.clause c).lits (s.clause c).mark)
    (hn : (s.clause c).satisfyingProp = none) : (s.clause c).getSupports = none := by
  by_contra hne
  obtain ⟨p, hp⟩ := Option.ne_none_iff_exists'.mp hne
  obtain ⟨b, hb', ht, -⟩ := hs.just c hc p hp
  exact hb.unsat hn _ hb' ht

/-- What depends on `c` is unassigned and everything else keeps its value and its
supporting clause. -/
structure Retracts (s : Ltms) (c : ClauseId) (s' : Ltms) : Prop where
  gone : ∀ p, s.DependsOn c p → s'.value p = .unknown
  kept : ∀ p, ¬ s.DependsOn c p →
    s'.value p = s.value p ∧ (s'.prop p).supportedBy = (s.prop p).supportedBy

theorem Inv.retracts_of_none {s' : Ltms} (h : s.Inv) (hg : (s.clause c).getSupports = none)
    (hprop : s'.prop = s.prop) : s.Retracts c s' := by
  obtain ⟨rank, hs⟩ := h.support
  have hno (p : PropId) (hp : s.DependsOn c p) : False := by
    induction hp with
    | supported hsup =>
      have := (hs.forth _ c hsup (Set.notMem_empty _)).2
      rw [hg] at this
      cases this
    | fed _ _ _ ih => exact ih
  refine ⟨fun p hp => absurd hp (hno p), fun p _ => ⟨?_, ?_⟩⟩
  · rw [value, value, hprop]
  · rw [hprop]

theorem ptheoryRemove_dropSupport (s : Ltms) (c : ClauseId) (p : PropId) :
    (s.ptheoryRemove c).dropSupport c p = (s.dropSupport c p).ptheoryRemove c := by
  simp only [dropSupport, ptheoryRemove, enqueueForUndo, setClause_same]
  simp only [setClause, Function.update_idem]

theorem Inv.undoing_dropSupport (h : s.Inv) {rank : PropId → ℕ} (hun : s.Undoing rank)
    (ha : s.Active c) {p : PropId} (hp : (s.clause c).getSupports = some p) :
    (s.dropSupport c p).Undoing rank := by
  have hsk := skeleton_dropSupport s c p
  refine ⟨hsk.wellFormed h.wf, containers_dropSupport c p h.containers, ?_, ?_⟩
  · rw [hsk.litVal]
    refine hsk.marked ⟨fun d hd => ?_, fun d hd hdel => ?_⟩
    · rw [mark_dropSupport]
      exact h.marks.active d ((hsk.active d).mp hd)
    · rw [mark_dropSupport, hsk.lits]
      exact h.marks.deleted d hd (hsk.deleted d ▸ hdel)
  · rw [hsk.litVal]
    exact hun.support.dropSupport ha.1 hp

/-- The removal of a clause that supports a proposition. The link is dropped before the clause is
deleted, which comes to the same. -/
theorem undo_retracts (h : s.Inv) (ha : s.Active c) {p : PropId}
    (hp : (s.clause c).getSupports = some p)
    (hstale : (s.clause c).mark.Stale (s.clause c).lits) :
    ∃ s', ((s.ptheoryRemove c).dropSupport c p).undoPropagations = .ok s' ∧ s'.Inv ∧
      (s.Selects s' fun d => s.Active d ∧ d ≠ c) ∧ s.Retracts c s' := by
  obtain ⟨rank, hun⟩ := h.undoing
  set s₂ := s.dropSupport c p
  have hsk := skeleton_dropSupport s c p
  have hun₂ : s₂.Undoing rank := h.undoing_dropSupport hun ha hp
  have hcl : (s₂.clause c) = { s.clause c with supports := noProposition } := by
    rw [clause_dropSupport, if_pos rfl]
  obtain ⟨hun', hsel, -⟩ := hun₂.ptheoryRemove (c := c) (m := ((s₂.ptheoryRemove c).clause c).mark)
    (by rw [getSupports_dropSupport, if_pos rfl])
    ⟨Frame.refl _, containers_setClause hun₂.containers rfl rfl rfl rfl, rfl, fun _ _ => rfl⟩
    (by rw [Ltms.ptheoryRemove, setClause_same, hcl]; exact hstale)
  have hstart : Retracting s c (s₂.ptheoryRemove c) := by
    refine ⟨fun d => (hsel.lits d).trans (hsk.lits d), fun q hq => ?_,
      fun q => Or.inl ⟨rfl, rfl⟩⟩
    rcases List.mem_cons.mp (show q ∈ p :: s.undoList from hq) with rfl | hq
    · exact .supported (hun.support.back c ha.1 q hp).2
    · rw [h.undo] at hq
      cases hq
  obtain ⟨s', hs', ho, hun'', hundo, hret⟩ := undoPropagations_keeps (Retracting s c)
    (fun _ _ _ _ hp hI ho hun hprop hnew => hI.step hp ho hun hprop hnew) hun' hstart
  have hgone : ¬ s'.Active c := by
    rw [ho.active, hsel.active]
    exact fun hc => hc.2 rfl
  have hstamps : (s₂.ptheoryRemove c).Stamps := by
    rw [← ptheoryRemove_dropSupport]
    exact (skeleton_dropSupport (s.ptheoryRemove c) c p).toOutline.stamps (h.stamps.setClause rfl)
  refine ⟨s', ?_, hun''.inv hundo (ho.stamps hstamps), ?_,
    fun q hq => hret.unassigned hun'' hundo hgone hq, fun q hq => ?_⟩
  · rw [ptheoryRemove_dropSupport]
    exact hs'
  · have hall := hsel.outline ho
    refine ⟨hall.props, hall.clauses, fun d => (hall.lits d).trans (hsk.lits d), fun d => ?_⟩
    rw [hall.active, hsk.active]
  · rcases hret.kept q with hk | ⟨-, -, hd⟩
    · exact hk
    · exact absurd hd hq

theorem remove_retracts (h : s.Inv) (ha : s.Active c) :
    ∃ s', s.remove c = .ok s' ∧ s'.Inv ∧ (s.Selects s' fun d => s.Active d ∧ d ≠ c) ∧
      s.Retracts c s' := by
  obtain ⟨rank, hun⟩ := h.undoing
  have hb := h.marks.active c ha
  set s₁ := s.ptheoryRemove c with hs₁
  have hnew : s₁.clause c = { s.clause c with deleted := true } := setClause_same s c _
  have hcon : s₁.Containers := containers_setClause h.containers rfl rfl rfl rfl
  have hstamps {s' : Ltms} (ho : s₁.Outline s') : s'.Stamps := ho.stamps (h.stamps.setClause rfl)
  have hfringe : (s.clause c).inFringe = true ↔
    (s.clause c).satisfyingProp = none ∧ (s.clause c).numUnassigned = 1 := hb.fringe
  have hunsat : (s.clause c).unsatisfied = true ↔
    (s.clause c).satisfyingProp = none ∧ (s.clause c).numUnassigned = 0 := hb.unsatisfied
  have hle : (s.clause c).mark.numUnassigned ≤ 127 := by
    have := hb.count_le
    have := (h.wf.shape c ha.1).length_lits
    have := (h.wf.shape c ha.1).bound
    omega
  have hsat : ∀ p, (s.clause c).satisfyingProp = some p → ∃ b, (p, b) ∈ (s.clause c).lits := by
    intro p hp
    obtain ⟨b, hb, -⟩ := hb.sat p hp
    exact ⟨b, hb⟩
  unfold remove
  rw [if_neg (by simp [ha.2])]
  simp only [← hs₁, hnew]
  split_ifs with hf hu
  · have hu : (s.clause c).unsatisfied = false := by
      by_contra hu
      have := (hunsat.mp (by simpa using hu)).2
      have := (hfringe.mp hf).2
      omega
    obtain ⟨s', hs', hr⟩ := remarks_removeFromFringe hcon (c := c) ha.1
    have hg := Bookkeeping.support_none hun.support ha.1 hb (hfringe.mp hf).1
    obtain ⟨hun', hsel, hundo⟩ := hun.ptheoryRemove hg hr
      ⟨by rw [hnew]; exact hsat, rfl, by simp only [Clause.mark, hnew, hu],
        by rw [hnew]; exact hb.count_nonneg, by rw [hnew]; exact hle⟩
    exact ⟨s', hs', hun'.inv (hundo.trans h.undo) (hstamps hr.frame.toOutline), hsel,
      h.retracts_of_none hg hr.frame.prop⟩
  · obtain ⟨s', hs', hr⟩ := remarks_removeFromUnsat hcon (c := c) ha.1
    have hg := Bookkeeping.support_none hun.support ha.1 hb (hunsat.mp hu).1
    obtain ⟨hun', hsel, hundo⟩ := hun.ptheoryRemove hg hr
      ⟨by rw [hnew]; exact hsat, by simp only [Clause.mark, hnew, eq_false_of_ne_true hf], rfl,
        by rw [hnew]; exact hb.count_nonneg, by rw [hnew]; exact hle⟩
    exact ⟨s', hs', hun'.inv (hundo.trans h.undo) (hstamps hr.frame.toOutline), hsel,
      h.retracts_of_none hg hr.frame.prop⟩
  · have hstale : (s.clause c).mark.Stale (s.clause c).lits :=
      ⟨hsat, eq_false_of_ne_true hf, eq_false_of_ne_true hu, hb.count_nonneg, hle⟩
    have hg : ({ s.clause c with deleted := true } : Clause).getSupports
        = (s.clause c).getSupports := rfl
    rw [hg]
    cases hp : (s.clause c).getSupports with
    | none =>
      obtain ⟨hun', hsel, hundo⟩ := hun.ptheoryRemove hp (m := (s₁.clause c).mark)
        ⟨Frame.refl s₁, hcon, rfl, fun _ _ => rfl⟩ (by rw [hnew]; exact hstale)
      exact ⟨s₁, rfl, hun'.inv (hundo.trans h.undo) (hstamps (Outline.refl s₁)), hsel,
        h.retracts_of_none hp rfl⟩
    | some p =>
      obtain ⟨s', hs', hrest⟩ := undo_retracts h ha hp hstale
      refine ⟨s', ?_, hrest⟩
      simp only [setSupports_none, bind, Except.bind]
      exact hs'

theorem remove_spec (h : s.Inv) (ha : s.Active c) :
    ∃ s', s.remove c = .ok s' ∧ s'.Inv ∧ s.Selects s' fun d => s.Active d ∧ d ≠ c := by
  obtain ⟨s', hs', hinv, hsel, -⟩ := remove_retracts h ha
  exact ⟨s', hs', hinv, hsel⟩

end Ltms

end Livingstone
