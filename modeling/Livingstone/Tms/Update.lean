import Livingstone.Tms.Assign

/-! A proposition is assigned or unassigned in all of its clauses, and the
consequences of a retracted proposition are undone. -/

namespace Livingstone.Ltms

open UnitProp (Literal)
open Function (update update_of_ne)

variable {s : Ltms} {c : ClauseId} {p : PropId} {b : Bool}

def setValue (s : Ltms) (p : PropId) (tv : TruthValue) (sup : Option ClauseId) : Ltms :=
  s.setProp p { s.prop p with tv := tv, supportedBy := sup }

section
variable (s p) (tv : TruthValue) (sup : Option ClauseId)

theorem value_setValue (q : PropId) :
    (s.setValue p tv sup).value q = if q = p then tv else s.value q := by
  by_cases hq : q = p
  · simp [value, setValue, setProp, hq]
  · simp [value, setValue, setProp, hq]

theorem supportedBy_setValue (q : PropId) :
    ((s.setValue p tv sup).prop q).supportedBy = if q = p then sup else (s.prop q).supportedBy := by
  by_cases hq : q = p
  · simp [setValue, setProp, hq]
  · simp [setValue, setProp, hq]

theorem outline_setValue : s.Outline (s.setValue p tv sup) := by
  refine ⟨fun q b => ?_, rfl, rfl, rfl, rfl, rfl, fun _ => rfl⟩
  by_cases hq : q = p
  · subst hq
    simp [occurrences, setValue, setProp]
  · simp [occurrences, setValue, setProp, hq]

theorem Containers.setValue {s : Ltms} (h : s.Containers) : (s.setValue p tv sup).Containers :=
  ⟨h.fringe_mem, h.fringe_nodup, h.fringe_index, h.unsat_mem, h.unsat_nodup⟩

theorem Marks.setValue {s : Ltms} {B : ClauseId → Mark → Prop} (h : s.Marks B) :
    (s.setValue p tv sup).Marks B :=
  ⟨h.active, h.deleted⟩

end

def truth (b : Bool) : TruthValue := if b then .ptrue else .pfalse

theorem litVal_eq_none : s.litVal (p, b) = none ↔ s.value p = .unknown := by
  unfold litVal
  cases s.value p <;> simp

theorem litVal_eq_some {x : Bool} : s.litVal (p, b) = some x ↔ s.value p = truth (b == x) := by
  unfold litVal truth
  cases s.value p <;> cases b <;> cases x <;> simp

theorem litVal_assign (sup : Option ClauseId) :
    (s.setValue p (truth b) sup).litVal =
      update (update s.litVal (p, b) (some true)) (p, !b) (some false) := by
  funext ⟨q, x⟩
  by_cases hq : q = p
  · subst hq
    have hx : x = b ∨ x = !b := by cases x <;> cases b <;> simp
    rcases hx with rfl | rfl
    · rw [update_of_ne (by simp), Function.update_self, litVal_eq_some, value_setValue]
      simp
    · rw [Function.update_self, litVal_eq_some, value_setValue]
      simp
  · rw [update_of_ne (by simp [hq]), update_of_ne (by simp [hq])]
    simp [litVal, value_setValue, hq]

theorem litVal_unassign (sup : Option ClauseId) :
    (s.setValue p .unknown sup).litVal = update (update s.litVal (p, b) none) (p, !b) none := by
  funext ⟨q, x⟩
  by_cases hq : q = p
  · subst hq
    have hx : x = b ∨ x = !b := by cases x <;> cases b <;> simp
    rcases hx with rfl | rfl
    · rw [update_of_ne (by simp), Function.update_self, litVal_eq_none, value_setValue]
      simp
    · rw [Function.update_self, litVal_eq_none, value_setValue]
      simp
  · rw [update_of_ne (by simp [hq]), update_of_ne (by simp [hq])]
    simp [litVal, value_setValue, hq]

theorem WellFormed.mem_occurrences (hw : s.WellFormed) :
    c ∈ s.occurrences p b ↔ c ∈ s.clauses ∧ (p, b) ∈ (s.clause c).lits := hw.occurs c p b

theorem WellFormed.outside (hw : s.WellFormed) {lv : Literal PropId → Option Bool}
    {x : Option Bool} (ha : s.Active c) (hc : c ∉ s.occurrences p b) :
    ∀ l ∈ (s.clause c).lits, update lv (p, b) x l = lv l := by
  intro l hl
  rw [update_of_ne]
  rintro rfl
  exact hc (hw.mem_occurrences.mpr ⟨ha.1, hl⟩)

/-- The loop over the occurrences of a literal, when no step touches a support
link. -/
theorem frame_loop (lv : Literal PropId → Option Bool) {B : ClauseId → Mark → Prop}
    (body : Ltms → ClauseId → Except L2Error Ltms) (hw : s.WellFormed)
    (hdel : ∀ s c, (s.clause c).deleted = true → body s c = .ok s)
    (hstep : ∀ s' d, s.Frame s' → s'.Containers → ClauseShape (s'.clause d) →
      B d (s'.clause d).mark → (p, b) ∈ (s'.clause d).lits → s'.Active d →
      ∃ s'' m, body s' d = .ok s'' ∧ s'.Remarks s'' d m ∧ Bookkeeping lv (s'.clause d).lits m)
    (hout : ∀ d, s.Active d → d ∉ s.occurrences p b → ∀ m, B d m →
      Bookkeeping lv (s.clause d).lits m)
    (hc : s.Containers) (hm : s.Marks B) :
    ∃ s', (s.occurrences p b).foldlM body s = .ok s' ∧ s.Frame s' ∧ s'.Containers ∧
      s'.Marked lv := by
  obtain ⟨s', h, hf, -, hc', hm'⟩ := marks_loop (fun c => Bookkeeping lv (s.clause c).lits) body
    (fun _ s' => s.Frame s') (hw.occurs_nodup p b) hdel (fun _ _ _ _ _ h => h)
    (fun d l s' hd hsk hf hc ha hb => by
      obtain ⟨hdc, hdl⟩ := hw.mem_occurrences.mp hd
      obtain ⟨s'', m, h, hr, hb'⟩ := hstep s' d hf hc (hsk.clauseShape (hw.shape d hdc)) hb
        (hsk.lits d ▸ hdl) ((hsk.active d).mpr ha)
      rw [hsk.lits, ← hr.mark] at hb'
      exact ⟨s'', h, hf.trans hr.frame, hr.frame.toSkeleton, hr.containers, hr.others, hb'⟩)
    (Frame.refl s) hc (fun d hd => (hw.mem_occurrences.mp hd).1) hm hout
  exact ⟨s', h, hf, hc', hf.marked hm'⟩

/-- A proposition gets a value. Its supporting clause may have left the fringe
already. -/
theorem assign_spec (popped : Option ClauseId) (hw : s.WellFormed) (hc : s.Containers)
    (hm : s.Marks fun d m => Bookkeeping s.litVal (s.clause d).lits
      { m with inFringe := m.inFringe || decide (popped = some d) })
    (hpop : ∀ d, popped = some d → d ∈ s.occurrences p b) (hp : s.value p = .unknown)
    (c : ClauseId) :
    ∃ s', s.assign p b c = .ok s' ∧ (s.setValue p (truth b) (some c)).Frame s' ∧
      s'.Containers ∧ s'.Marked s'.litVal := by
  set s₀ := s.setValue p (truth b) (some c) with hs₀
  have hw₀ : s₀.WellFormed := (outline_setValue s p _ _).wellFormed hw
  have hnone (x : Bool) : s.litVal (p, x) = none := litVal_eq_none.mpr hp
  obtain ⟨s₁, h₁, hf₁, hc₁, hm₁⟩ := frame_loop (p := p) (b := b)
    (update s.litVal (p, b) (some true)) (assignSame p) hw₀ (fun s c hd => if_pos hd)
    (fun s' d hf hc hk hb hl ha => assignSame_step hc hk
      (fun h => Bool.or_eq_true_iff.mpr (Or.inl h)) (hf.lits d ▸ hb) hl ha (hnone b))
    (fun d ha hd m hb => by
      have hne : popped ≠ some d := fun he => hd ((outline_setValue s p _ _).occurrences p b ▸
        hpop d he)
      simp only [hne, decide_false, Bool.or_false] at hb
      exact hb.congr (hw₀.outside ha hd))
    (hc.setValue _ _ _) (hm.setValue _ _ _)
  obtain ⟨s₂, h₂, hf₂, hc₂, hm₂⟩ := frame_loop (p := p) (b := !b)
    (update (update s.litVal (p, b) (some true)) (p, !b) (some false)) assignOpposite
    (hf₁.wellFormed hw₀) (fun s c hd => if_pos hd)
    (fun s' d hf hc hk hb hl ha => assignOpposite_step hc hk (hf.lits d ▸ hb) hl ha (by
      rw [update_of_ne (by simp), hnone]))
    (fun d ha hd m hb => hb.congr ((hf₁.wellFormed hw₀).outside ha hd)) hc₁ hm₁
  refine ⟨s₂, ?_, hf₁.trans hf₂, hc₂, ?_⟩
  · change (assignUpdateSameSense s₀ p b >>= fun s => assignUpdateOppositeSense s p b) = _
    rw [assignUpdateSameSense, h₁]
    exact h₂
  · rw [(hf₁.trans hf₂).litVal, hs₀, litVal_assign]
    exact hm₂

/-- The propositions that wait to be unassigned. -/
def waiting (s : Ltms) : Set PropId := {q | q ∈ s.undoList}

/-- The clause that supports `q` mentions `p`. -/
def Feeds (s : Ltms) (p q : PropId) : Prop :=
  ∃ d, (s.prop q).supportedBy = some d ∧ ∃ b, (p, b) ∈ (s.clause d).lits

/-- The chain of supporting clauses of a proposition passes through `c`. -/
inductive DependsOn (s : Ltms) (c : ClauseId) : PropId → Prop
  | supported {p : PropId} (h : (s.prop p).supportedBy = some c) : DependsOn s c p
  | fed {p q : PropId} (h : DependsOn s c p) (hne : p ≠ q) (hf : s.Feeds p q) : DependsOn s c q

/-- What is left to do while propagations are undone: a proposition waits, or a
clause may still lose its link. -/
def undoMeasure (s : Ltms) : ℕ :=
  s.undoList.length + s.clauses.countP fun c => (s.clause c).getSupports ≠ none

section
variable (s c) (q : PropId)

theorem skeleton_dropSupport : s.Skeleton (s.dropSupport c q) := by
  have := skeleton_setClause s c { s.clause c with supports := noProposition } rfl
  exact ⟨⟨this.occurrences, rfl, rfl, rfl, rfl, rfl, this.core⟩, rfl⟩

theorem clause_dropSupport (d : ClauseId) : (s.dropSupport c q).clause d =
    if d = c then { s.clause c with supports := noProposition } else s.clause d := by
  split_ifs with hd
  · subst hd
    exact setClause_same _ _ _
  · exact setClause_ne _ _ hd

theorem mark_dropSupport (d : ClauseId) :
    ((s.dropSupport c q).clause d).mark = (s.clause d).mark := by
  rw [clause_dropSupport]
  split_ifs with hd
  · subst hd
    rfl
  · rfl

theorem getSupports_dropSupport (d : ClauseId) : ((s.dropSupport c q).clause d).getSupports =
    if d = c then none else (s.clause d).getSupports := by
  rw [clause_dropSupport]
  split_ifs
  · rfl
  · rfl

theorem containers_dropSupport {s : Ltms} (h : s.Containers) : (s.dropSupport c q).Containers := by
  have := containers_setClause (c := c) (k := { s.clause c with supports := noProposition }) h
    rfl rfl rfl rfl
  exact ⟨this.fringe_mem, this.fringe_nodup, this.fringe_index, this.unsat_mem, this.unsat_nodup⟩

end

section
variable {pend : Set PropId} {lv lv' : Literal PropId → Option Bool} {rank : PropId → ℕ}

theorem Support.congr (h : s.Support pend lv rank)
    (heq : ∀ c ∈ s.clauses, (s.clause c).getSupports ≠ none →
      ∀ l ∈ (s.clause c).lits, lv' l = lv l) : s.Support pend lv' rank := by
  refine { h with just := fun c hc p hp => ?_ }
  obtain ⟨b, hb, ht, hrest⟩ := h.just c hc p hp
  have heq := heq c hc (by simp [hp])
  refine ⟨b, hb, (heq _ hb).trans ht, fun l hl hne => ?_⟩
  rw [heq l hl]
  exact hrest l hl hne

theorem Support.dropSupport {q : PropId} (h : s.Support s.waiting lv rank) (hc : c ∈ s.clauses)
    (hq : (s.clause c).getSupports = some q) :
    (s.dropSupport c q).Support (s.dropSupport c q).waiting lv rank := by
  have hsk := skeleton_dropSupport s c q
  have hsup := getSupports_dropSupport s c q
  have hwait (r : PropId) : r ∈ (s.dropSupport c q).waiting ↔ r = q ∨ r ∈ s.waiting :=
    List.mem_cons
  have hold {d : ClauseId} {r : PropId}
      (hd : ((s.dropSupport c q).clause d).getSupports = some r) :
      d ≠ c ∧ (s.clause d).getSupports = some r := by
    rw [hsup] at hd
    split_ifs at hd with hdc
    exact ⟨hdc, hd⟩
  have hback := h.back c hc q hq
  refine ⟨?_, ?_, fun r d hr hn => ?_, fun d hd r hr => ?_, fun d hd r hr => ?_, ?_, ?_⟩
  · simpa only [hsk.value, hsk.prop] using h.unknown
  · simpa only [hsk.value, hsk.props] using h.alloc
  · rw [hwait, not_or] at hn
    rw [hsk.prop] at hr
    obtain ⟨ha, hs⟩ := h.forth r d hr hn.2
    have hdc : d ≠ c := by
      rintro rfl
      exact hn.1 (Option.some.inj (hs.symm.trans hq))
    exact ⟨(hsk.active d).mpr ha, by rw [hsup, if_neg hdc, hs]⟩
  · obtain ⟨ha, hs⟩ := h.back d (hsk.clauses ▸ hd) r (hold hr).2
    exact ⟨(hsk.active d).mpr ha, by rw [hsk.prop, hs]⟩
  · rw [hsk.lits]
    exact h.just d (hsk.clauses ▸ hd) r (hold hr).2
  · refine List.nodup_cons.mpr ⟨fun hm => ?_, h.undo_nodup⟩
    exact (h.undo q hm).2.2 c hc hq
  · intro r hr
    refine ⟨hr, ?_⟩
    rcases (hwait r).mp hr with rfl | hr
    · refine ⟨?_, fun d hd hs => ?_⟩
      · rw [hsk.value, Ne, h.unknown, hback.2]
        simp
      · obtain ⟨hdc, hs⟩ := hold hs
        have := (h.back d (hsk.clauses ▸ hd) r hs).2
        exact hdc (Option.some.inj (this.symm.trans hback.2))
    · refine ⟨?_, fun d hd hs => ?_⟩
      · rw [hsk.value]
        exact (h.undo r hr).2.1
      · exact (h.undo r hr).2.2 d (hsk.clauses ▸ hd) (hold hs).2

theorem undoMeasure_dropSupport {q : PropId} (hn : s.clauses.Nodup) (hc : c ∈ s.clauses)
    (hq : (s.clause c).getSupports = some q) :
    (s.dropSupport c q).undoMeasure = s.undoMeasure := by
  have := countP_flip (P := fun d => (s.clause d).getSupports ≠ none)
    (Q := fun d => ((s.dropSupport c q).clause d).getSupports ≠ none) hn hc (by simp [hq])
    (by simp [getSupports_dropSupport]) (fun d hd => by simp [getSupports_dropSupport, hd])
  have hlen : (s.dropSupport c q).undoList.length = s.undoList.length + 1 := rfl
  have hcl : (s.dropSupport c q).clauses = s.clauses := rfl
  unfold undoMeasure
  rw [hcl, hlen, this]
  omega

theorem Support.retract (h : s.Support (insert p s.waiting) lv rank) (hu : p ∉ s.undoList)
    (hp : ∀ c ∈ s.clauses, (s.clause c).getSupports ≠ some p) :
    (s.setValue p .unknown none).Support s.waiting lv rank := by
  have hval := value_setValue s p .unknown none
  have hsup := supportedBy_setValue s p .unknown none
  refine ⟨fun q => ?_, fun q hq => ?_, fun q c hq hn => ?_, fun c hc q hq => ?_, h.just,
    h.undo_nodup, fun q hq => ⟨hq, ?_, (h.undo q hq).2.2⟩⟩
  · rw [hval, hsup]
    split_ifs
    · simp
    · exact h.unknown q
  · rw [hval] at hq
    split_ifs at hq
    · exact absurd rfl hq
    · exact h.alloc q hq
  · rw [hsup] at hq
    split_ifs at hq with hqp
    exact h.forth q c hq (by simpa [hqp] using hn)
  · obtain ⟨ha, hs⟩ := h.back c hc q hq
    have hqp : q ≠ p := by
      rintro rfl
      exact hp c hc hq
    exact ⟨ha, by rw [hsup, if_neg hqp, hs]⟩
  · have hqp : q ≠ p := by
      rintro rfl
      exact hu hq
    rw [hval, if_neg hqp]
    exact (h.undo q hq).2.1

theorem unassignOpposite_loop (hw : s.WellFormed) (hc : s.Containers) (hm : s.Marked lv)
    (hs : s.Support s.waiting lv rank) (h₀ : lv (p, b) = some false) :
    ∃ s', (s.occurrences p b).foldlM unassignOpposite s = .ok s' ∧ s.Skeleton s' ∧
      s'.Containers ∧ s'.Marked (update lv (p, b) none) ∧
      s'.Support s'.waiting (update lv (p, b) none) rank ∧ s'.undoMeasure = s.undoMeasure ∧
      ∀ q ∈ s'.undoList, q ∈ s.undoList ∨ s.Feeds p q := by
  -- a visited clause supports nothing
  obtain ⟨s', h, ⟨hs', hμ, hnew, hnone⟩, hsk, hc', hm'⟩ := marks_loop
    (fun d => Bookkeeping (update lv (p, b) none) (s.clause d).lits) unassignOpposite
    (fun l s' => s'.Support s'.waiting lv rank ∧ s'.undoMeasure = s.undoMeasure ∧
      (∀ q ∈ s'.undoList, q ∈ s.undoList ∨ s.Feeds p q) ∧
      ∀ d ∈ s.occurrences p b, d ∉ l → (s'.clause d).getSupports = none)
    (hw.occurs_nodup p b) (fun s c hd => if_pos hd)
    (fun d l s' hsk hd ⟨hs, hμ, hnew, hnone⟩ => ⟨hs, hμ, hnew, fun e he hel => by
      by_cases hed : e = d
      · subst hed
        by_contra hne
        obtain ⟨q, hq⟩ := Option.ne_none_iff_exists'.mp hne
        have ha := (hs.back e (hsk.clauses ▸ (hw.mem_occurrences.mp he).1) q hq).1
        have := ((hsk.active e).mp ha).2
        simp [this] at hd
      · exact hnone e he (by simp [hed, hel])⟩)
    (fun d l s' hd hsk ⟨hs, hμ, hnew, hnone⟩ hc ha hb => by
      obtain ⟨hdc, hdl⟩ := hw.mem_occurrences.mp hd
      rw [← hsk.lits] at hb hdl
      have ha' := (hsk.active d).mpr ha
      obtain ⟨s₁, m, hr, hb', hok⟩ := unassignOpposite_step hc (hsk.clauseShape (hw.shape d hdc)) hb
        hdl ha' h₀ (fun hne hn => by
          obtain ⟨q, hq⟩ := Option.ne_none_iff_exists'.mp hne
          obtain ⟨x, hx, ht, -⟩ := hs.just d ha'.1 q hq
          exact hb.unsat hn _ hx ht)
      have hs₁ : s₁.Support s₁.waiting lv rank := by
        have := hr.frame.support hs
        rwa [waiting, ← hr.frame.undoList] at this
      have hμ₁ : s₁.undoMeasure = s'.undoMeasure := by
        simp only [undoMeasure, hr.frame.undoList, hr.frame.clauses, hr.frame.getSupports]
      rw [hsk.lits, ← hr.mark] at hb'
      cases hq : (s'.clause d).getSupports with
      | none =>
        rw [hq] at hok
        refine ⟨s₁, hok, ⟨hs₁, hμ₁.trans hμ, hr.frame.undoList ▸ hnew, fun e he hel => ?_⟩,
          hr.frame.toSkeleton, hr.containers, hr.others, hb'⟩
        rw [hr.frame.getSupports]
        by_cases hed : e = d
        · exact hed ▸ hq
        · exact hnone e he (by simp [hed, hel])
      | some q =>
        rw [hq] at hok
        have hd₁ : d ∈ s₁.clauses := hr.frame.clauses ▸ ha'.1
        have hq₁ : (s₁.clause d).getSupports = some q := hr.frame.getSupports d ▸ hq
        have hn₁ : s₁.clauses.Nodup := by
          rw [hr.frame.clauses, hsk.clauses]
          exact hw.clauses_nodup
        refine ⟨s₁.dropSupport d q, hok, ⟨hs₁.dropSupport hd₁ hq₁,
          (undoMeasure_dropSupport hn₁ hd₁ hq₁).trans (hμ₁.trans hμ), fun r hr' => ?_,
          fun e he hel => ?_⟩, hr.frame.toSkeleton.trans (skeleton_dropSupport s₁ d q),
          containers_dropSupport d q hr.containers, fun e he => ?_, ?_⟩
        · rcases List.mem_cons.mp hr' with rfl | hr'
          · refine Or.inr ⟨d, ?_, b, hsk.lits d ▸ hdl⟩
            rw [← hsk.prop]
            exact (hs.back d ha'.1 r hq).2
          · exact hnew r (hr.frame.undoList ▸ hr')
        · rw [getSupports_dropSupport]
          split_ifs with hed
          · rfl
          · rw [hr.frame.getSupports]
            exact hnone e he (by simp [hed, hel])
        · rw [mark_dropSupport]
          exact hr.others e he
        · rw [mark_dropSupport]
          exact hb')
    ⟨hs, rfl, fun q hq => Or.inl hq, fun d hd hn => absurd hd hn⟩ hc (fun d hd => (hw.mem_occurrences.mp hd).1) hm
    (fun d ha hd m hb => hb.congr (hw.outside ha hd))
  refine ⟨s', h, hsk, hc', hsk.marked hm', hs'.congr fun d hd hne l hl => ?_, hμ, hnew⟩
  rw [hsk.clauses] at hd
  rw [hsk.lits] at hl
  rw [update_of_ne]
  rintro rfl
  exact hne (hnone d (hw.mem_occurrences.mpr ⟨hd, hl⟩) List.not_mem_nil)

theorem unassign_spec (hw : s.WellFormed) (hc : s.Containers) (hm : s.Marked s.litVal)
    (hs : s.Support (insert p s.waiting) s.litVal rank) (hu : p ∉ s.undoList)
    (hp : ∀ c ∈ s.clauses, (s.clause c).getSupports ≠ some p) (hv : s.value p ≠ .unknown) :
    ∃ s', s.unassign p = .ok s' ∧ (s.setValue p .unknown none).Skeleton s' ∧ s'.Containers ∧
      s'.Marked s'.litVal ∧ s'.Support s'.waiting s'.litVal rank ∧
      s'.undoMeasure = s.undoMeasure ∧ ∀ q ∈ s'.undoList, q ∈ s.undoList ∨ s.Feeds p q := by
  set s₀ := s.setValue p .unknown none with hs₀
  set b := decide (s.value p = .ptrue) with hb
  have htrue : s.litVal (p, b) = some true := by
    rw [litVal_eq_some, hb, truth]
    cases h : s.value p <;> simp_all
  have hfalse : s.litVal (p, !b) = some false := by
    rw [litVal_eq_some, hb, truth]
    cases h : s.value p <;> simp_all
  have hw₀ : s₀.WellFormed := (outline_setValue s p _ _).wellFormed hw
  obtain ⟨s₁, h₁, hf₁, hc₁, hm₁⟩ := frame_loop (p := p) (b := b)
    (update s.litVal (p, b) none) (unassignSame p) hw₀ (fun s c hd => if_pos hd)
    (fun s' d hf hc hk hb hl ha => unassignSame_step hc hk (hf.lits d ▸ hb) hl ha htrue
      (fun l hl => by
        rw [hf.litVal, hs₀, litVal_unassign (b := b)]
        by_cases hl : l = (p, !b)
        · subst hl
          rw [Function.update_self, update_of_ne (by simp), hfalse]
          simp
        · rw [update_of_ne hl]))
    (fun d ha hd m hb => hb.congr (hw₀.outside ha hd)) (hc.setValue _ _ _) (hm.setValue _ _ _)
  have hsup : s₁.Support s₁.waiting (update s.litVal (p, b) none) rank := by
    have := hf₁.support (hs.retract hu hp)
    rw [waiting, hf₁.undoList]
    refine this.congr fun c hc hne l hl => update_of_ne ?_ _ _
    rintro rfl
    obtain ⟨q, hq⟩ := Option.ne_none_iff_exists'.mp hne
    obtain ⟨x, hx, -, hrest⟩ := this.just c hc q hq
    have hpq : (p, b) ≠ (q, x) := by
      rintro ⟨⟩
      exact hp c (hf₁.clauses ▸ hc) (hf₁.getSupports c ▸ hq)
    have := (hrest _ hl hpq).1
    simp [htrue] at this
  obtain ⟨s₂, h₂, hsk₂, hc₂, hm₂, hs₂, hμ₂, hnew⟩ := unassignOpposite_loop (p := p) (b := !b)
    (hf₁.wellFormed hw₀) hc₁ hm₁ hsup (by rw [update_of_ne (by simp), hfalse])
  have hlv : s₂.litVal = update (update s.litVal (p, b) none) (p, !b) none := by
    rw [hsk₂.litVal, hf₁.litVal, hs₀, litVal_unassign]
  refine ⟨s₂, ?_, hf₁.toSkeleton.trans hsk₂, hc₂, hlv ▸ hm₂, hlv ▸ hs₂, ?_, fun q hq => ?_⟩
  · unfold unassign
    rw [if_neg hv]
    change (unassignUpdateSameSense s₀ p b >>= fun s => unassignUpdateOppositeSense s p b) = _
    rw [unassignUpdateSameSense, h₁]
    exact h₂
  · rw [hμ₂]
    simp only [undoMeasure, hf₁.undoList, hf₁.clauses, hf₁.getSupports]
    rfl
  · refine (hnew q hq).imp (fun hq => hf₁.undoList ▸ hq) ?_
    intro ⟨d, hd, x, hx⟩
    refine ⟨d, ?_, x, hf₁.lits d ▸ hx⟩
    rw [hf₁.prop, hs₀, supportedBy_setValue] at hd
    split_ifs at hd
    exact hd

end

/-- The invariant of `undo_propagations`. -/
structure Undoing (rank : PropId → ℕ) (s : Ltms) : Prop where
  wf : s.WellFormed
  containers : s.Containers
  marks : s.Marked s.litVal
  support : s.Support s.waiting s.litVal rank

theorem undoTurn_step {rank : PropId → ℕ} {rest : List PropId} (h : Undoing rank s)
    (hu : s.undoList = p :: rest) :
    ∃ s', s.undoTurn = .ok (.inl s') ∧ s.Outline s' ∧ Undoing rank s' ∧
      s'.undoMeasure < s.undoMeasure ∧ s'.prop = (s.setValue p .unknown none).prop ∧
      ∀ q ∈ s'.undoList, q ∈ s.undoList ∨ s.Feeds p q := by
  set s₁ := { s with undoList := rest } with hs₁
  have hout : s.Outline s₁ := ⟨fun _ _ => rfl, rfl, rfl, rfl, rfl, rfl, fun _ => rfl⟩
  have hmem : p ∈ s.undoList := by simp [hu]
  have hnodup := h.support.undo_nodup
  rw [hu, List.nodup_cons] at hnodup
  have hwait : insert p s₁.waiting = s.waiting := by
    ext q
    simp [waiting, hu, hs₁]
  have hs : s₁.Support (insert p s₁.waiting) s₁.litVal rank := by
    rw [hwait]
    have := h.support
    exact ⟨this.unknown, this.alloc, this.forth, this.back, this.just, hnodup.2,
      fun q hq => this.undo q (hu ▸ List.mem_cons_of_mem p hq)⟩
  have hc : s₁.Containers := ⟨h.containers.fringe_mem, h.containers.fringe_nodup,
    h.containers.fringe_index, h.containers.unsat_mem, h.containers.unsat_nodup⟩
  obtain ⟨s', hs', hsk, hc', hm', hsup', hμ, hnew⟩ := unassign_spec (hout.wellFormed h.wf) hc
    ⟨h.marks.active, h.marks.deleted⟩ hs hnodup.1 (h.support.undo p hmem).2.2
    (h.support.undo p hmem).2.1
  have hout' := hout.trans ((outline_setValue s₁ p _ _).trans hsk.toOutline)
  refine ⟨s', ?_, hout', ⟨hout'.wellFormed h.wf, hc', hm', hsup'⟩, ?_, hsk.prop, fun q hq => ?_⟩
  · unfold undoTurn
    simp only [hu]
    change (s₁.unassign p >>= fun s => pure (Sum.inl s)) = _
    rw [hs']
    rfl
  · rw [hμ]
    have : s₁.undoMeasure + 1 = s.undoMeasure := by
      simp only [undoMeasure, hu, hs₁, List.length_cons]
      ring
    omega
  · rcases hnew q hq with hq | hf
    · exact Or.inl (hu ▸ List.mem_cons_of_mem p hq)
    · exact Or.inr hf

theorem undoPropagations_keeps {rank : PropId → ℕ} (I : Ltms → Prop)
    (hstep : ∀ s s' p, Undoing rank s → p ∈ s.undoList → I s → s.Outline s' → Undoing rank s' →
      s'.prop = (s.setValue p .unknown none).prop →
      (∀ q ∈ s'.undoList, q ∈ s.undoList ∨ s.Feeds p q) → I s')
    (h : Undoing rank s) (hI : I s) :
    ∃ s', s.undoPropagations = .ok s' ∧ s.Outline s' ∧ Undoing rank s' ∧ s'.undoList = [] ∧
      I s' := by
  refine Loop.whileM_total _ _ (fun s' => s.Outline s' ∧ Undoing rank s' ∧ I s') undoMeasure _
    (fun s' ⟨hout, h', hI'⟩ => ?_) _ s ⟨Outline.refl s, h, hI⟩ ?_
  · cases hu : s'.undoList with
    | nil => exact Or.inr ⟨s', by simp only [undoTurn, hu], hout, h', hu, hI'⟩
    | cons p rest =>
      obtain ⟨s'', hs'', hout', h'', hμ, hprop, hnew⟩ := undoTurn_step h' hu
      have hp : p ∈ s'.undoList := hu ▸ List.mem_cons_self
      exact Or.inl ⟨s'', hs'', ⟨hout.trans hout', h'',
        hstep s' s'' p h' hp hI' hout' h'' hprop hnew⟩, hμ⟩
  · have : s.clauses.countP (fun c => (s.clause c).getSupports ≠ none) ≤ s.clauses.length :=
      List.countP_le_length
    unfold undoMeasure
    omega

theorem undoPropagations_spec {rank : PropId → ℕ} (h : Undoing rank s) :
    ∃ s', s.undoPropagations = .ok s' ∧ s.Outline s' ∧ Undoing rank s' ∧ s'.undoList = [] := by
  obtain ⟨s', hs', ho, hun, hu, -⟩ := undoPropagations_keeps (fun _ => True)
    (fun _ _ _ _ _ _ _ _ _ _ => trivial) h trivial
  exact ⟨s', hs', ho, hun, hu⟩

/-- Only propositions that depend on `c` in `s₀` have been unassigned, or wait for it. -/
structure Retracting (s₀ : Ltms) (c : ClauseId) (s : Ltms) : Prop where
  lits : ∀ d, (s.clause d).lits = (s₀.clause d).lits
  waits : ∀ q ∈ s.undoList, s₀.DependsOn c q
  kept : ∀ q, (s.value q = s₀.value q ∧ (s.prop q).supportedBy = (s₀.prop q).supportedBy) ∨
    (s.value q = .unknown ∧ (s.prop q).supportedBy = none ∧ s₀.DependsOn c q)

theorem Retracting.step {s₀ s' : Ltms} {rank : PropId → ℕ} (h : Retracting s₀ c s)
    (hp : p ∈ s.undoList) (ho : s.Outline s') (hun : Undoing rank s')
    (hprop : s'.prop = (s.setValue p .unknown none).prop)
    (hnew : ∀ q ∈ s'.undoList, q ∈ s.undoList ∨ s.Feeds p q) : Retracting s₀ c s' := by
  have hval (q : PropId) : s'.value q = if q = p then .unknown else s.value q := by
    rw [← value_setValue s p .unknown none q, value, value, hprop]
  have hsup (q : PropId) :
      (s'.prop q).supportedBy = if q = p then none else (s.prop q).supportedBy := by
    rw [hprop, supportedBy_setValue]
  refine ⟨fun d => (ho.lits d).trans (h.lits d), fun q hq => ?_, fun q => ?_⟩
  · rcases hnew q hq with hq' | ⟨d, hd, b, hb⟩
    · exact h.waits q hq'
    · have hne : p ≠ q := by
        rintro rfl
        exact (hun.support.undo p hq).2.1 (by rw [hval, if_pos rfl])
      have hd₀ : (s₀.prop q).supportedBy = some d := by
        rcases h.kept q with ⟨-, hk⟩ | ⟨-, hk, -⟩
        · exact hk.symm.trans hd
        · rw [hk] at hd
          cases hd
      exact (h.waits p hp).fed hne ⟨d, hd₀, b, h.lits d ▸ hb⟩
  · rw [hval, hsup]
    split_ifs with hq
    · exact Or.inr ⟨rfl, rfl, hq ▸ h.waits p hp⟩
    · exact h.kept q

/-- Whatever depends on a clause that left the theory has been unassigned in the end. -/
theorem Retracting.unassigned {s₀ : Ltms} {rank : PropId → ℕ} (h : Retracting s₀ c s)
    (hun : Undoing rank s) (hu : s.undoList = []) (hc : ¬ s.Active c) (hp : s₀.DependsOn c p) :
    s.value p = .unknown := by
  have hforth {q : PropId} {d : ClauseId} (hq : (s₀.prop q).supportedBy = some d)
      (hv : s.value q ≠ .unknown) : s.Active d ∧ (s.clause d).getSupports = some q := by
    have hk : (s.prop q).supportedBy = some d := by
      rcases h.kept q with ⟨-, hk⟩ | ⟨hk, -⟩
      · exact hk.trans hq
      · exact absurd hk hv
    exact hun.support.forth q d hk (by simp [waiting, hu])
  induction hp with
  | supported hs =>
    by_contra hv
    exact hc (hforth hs hv).1
  | @fed p q hp hne hf ih =>
    by_contra hv
    obtain ⟨d, hd, x, hx⟩ := hf
    obtain ⟨ha, hg⟩ := hforth hd hv
    obtain ⟨b, -, -, hrest⟩ := hun.support.just d ha.1 q hg
    have hfalse := (hrest (p, x) (h.lits d ▸ hx) fun he => hne (Prod.mk.inj he).1).1
    rw [litVal_eq_none.mpr ih] at hfalse
    cases hfalse

end Livingstone.Ltms
