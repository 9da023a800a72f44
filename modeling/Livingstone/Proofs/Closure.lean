import Livingstone.Tms.Run

/-! Propagation computes the closure of the active clauses under the unit rule,
whatever history led to them. -/

namespace Livingstone.Ltms

open UnitProp (Literal Derives Contradicts Coherent Justified Saturated)

variable {s s' : Ltms} {ops : List Op}

theorem coherent_litVal (s : Ltms) : Coherent s.litVal := by
  rintro ⟨p, b⟩
  simp only [UnitProp.Literal.neg_mk, litVal]
  cases s.value p <;> simp

theorem litVal_true_iff {p : PropId} :
    (s.litVal (p, true) = some true ↔ s.value p = .ptrue) ∧
      (s.litVal (p, false) = some true ↔ s.value p = .pfalse) := by
  simp [litVal_eq_some, truth]

theorem Inv.justified (h : s.Inv) : ∃ rank, Justified s.theory s.litVal rank := by
  obtain ⟨rank, hs⟩ := h.support
  refine ⟨rank, fun ⟨p, b⟩ hl => ?_⟩
  have hv : s.value p ≠ .unknown := by
    rw [Ne, ← litVal_eq_none (b := b)]
    simp [hl]
  obtain ⟨c, hc⟩ := Option.ne_none_iff_exists'.mp (mt (hs.unknown p).mpr hv)
  obtain ⟨ha, hg⟩ := hs.forth p c hc (Set.notMem_empty p)
  obtain ⟨x, hx, ht, hrest⟩ := hs.just c ha.1 p hg
  obtain rfl : x = b := by
    rw [litVal_eq_some] at hl ht
    rw [hl] at ht
    cases b <;> cases x <;> simp_all [truth]
  exact ⟨s.litSet c, ⟨c, ha, rfl⟩, hx, hrest⟩

/-- Nothing is left to propagate. -/
structure Quiet (s : Ltms) : Prop where
  unsatisfied : s.unsatisfied = []
  fringe : ∀ v, s.fringeOf v = []

theorem Inv.satisfied_or_open (h : s.Inv) (hq : s.Quiet) {c : ClauseId} (ha : s.Active c) :
    (∃ l ∈ (s.clause c).lits, s.litVal l = some true) ∨
      ∃ l ∈ (s.clause c).lits, ∃ m ∈ (s.clause c).lits,
        l ≠ m ∧ s.litVal l = none ∧ s.litVal m = none := by
  have hb := h.marks.active c ha
  cases hs : (s.clause c).satisfyingProp with
  | some p =>
    obtain ⟨b, hb, ht⟩ := hb.sat p hs
    exact Or.inl ⟨_, hb, ht⟩
  | none =>
    refine Or.inr (hb.two_unassigned (h.wf.shape c ha.1).nodup (fun h0 => ?_) (fun h1 => ?_))
    · have := (h.containers.unsat_mem c).mpr ⟨ha.1, hb.unsatisfied.mpr ⟨hs, h0⟩⟩
      simp [hq.unsatisfied] at this
    · have := (h.containers.fringe_mem _ c).mpr ⟨ha.1, hb.fringe.mpr ⟨hs, h1⟩, rfl⟩
      simp [hq.fringe] at this

theorem Inv.saturated (h : s.Inv) (hq : s.Quiet) : Saturated s.theory s.litVal := by
  rintro C ⟨c, ha, rfl⟩
  exact h.satisfied_or_open hq ha

theorem Inv.contradicts (h : s.Inv) (hu : s.unsatisfied ≠ []) : Contradicts s.theory := by
  obtain ⟨c, hc⟩ := List.exists_mem_of_ne_nil _ hu
  obtain ⟨ha, hf⟩ := h.unsatisfied_clause hc
  obtain ⟨rank, hj⟩ := h.justified
  exact ⟨s.litSet c, ⟨c, ha, rfl⟩, fun l hl =>
    hj.derives (coherent_litVal s) (litVal_neg_true (hf l hl))⟩

theorem Inv.litVal_iff_derives (h : s.Inv) (hq : s.Quiet) (l : Literal PropId) :
    s.litVal l = some true ↔ Derives s.theory l := by
  obtain ⟨rank, hj⟩ := h.justified
  exact UnitProp.derives_iff (coherent_litVal s) (h.saturated hq) hj l

theorem value_eq_of_theory {t : Ltms} (h : s.Inv) (hq : s.Quiet) (ht : t.Inv) (hqt : t.Quiet)
    (hth : t.theory = s.theory) : t.value = s.value := by
  have hiff (l : Literal PropId) : t.litVal l = some true ↔ s.litVal l = some true := by
    rw [ht.litVal_iff_derives hqt, h.litVal_iff_derives hq, hth]
  funext p
  have h₁ := hiff (p, true)
  have h₂ := hiff (p, false)
  rw [litVal_true_iff.1, litVal_true_iff.1] at h₁
  rw [litVal_true_iff.2, litVal_true_iff.2] at h₂
  cases hv : s.value p <;> cases hv' : t.value p <;> simp_all

theorem Inv.propagate (h : s.Inv) : ∃ b s', s.propagate = .ok (b, s') ∧ s'.Inv ∧ s.Outline s' ∧
    (b = true → s'.Quiet) ∧ (b = true ↔ ¬ Contradicts s.theory) := by
  obtain ⟨b, s', hs', hinv, ho, hb, hfr⟩ := propagate_spec h
  refine ⟨b, s', hs', hinv, ho, fun ht => ⟨hb.mp ht, hfr ht⟩, fun ht => ?_, fun hn => ?_⟩
  · rw [← ho.theory]
    exact (hinv.saturated ⟨hb.mp ht, hfr ht⟩).not_contradicts (coherent_litVal s')
  · rw [hb]
    by_contra hu
    exact hn (ho.theory ▸ hinv.contradicts hu)

/-- After any history `propagate` returns. When it returns true the values are the
closure of the active clauses and each of these is satisfied or has two
unassigned literals, and any other history that leads to the same active
clauses ends with the same values. When it returns false the active clauses
are contradictory. -/
theorem propagate_closure (h : Run ops s) :
    ∃ b s', s.propagate = .ok (b, s') ∧ s'.theory = s.theory ∧
      (b = true →
        (∀ p, (s'.value p = .ptrue ↔ Derives s.theory (p, true)) ∧
          (s'.value p = .pfalse ↔ Derives s.theory (p, false))) ∧
        (∀ c, s'.Active c → (∃ l ∈ (s'.clause c).lits, s'.litVal l = some true) ∨
          ∃ l ∈ (s'.clause c).lits, ∃ m ∈ (s'.clause c).lits,
            l ≠ m ∧ s'.litVal l = none ∧ s'.litVal m = none)) ∧
      (b = false → Contradicts s.theory) ∧
      ∀ ops₂ s₂, Run ops₂ s₂ → s₂.theory = s.theory →
        ∃ s₂', s₂.propagate = .ok (b, s₂') ∧ (b = true → s₂'.value = s'.value) := by
  obtain ⟨b, s', hs', hinv, ho, hq, hb⟩ := h.inv.propagate
  refine ⟨b, s', hs', ho.theory, fun ht => ⟨fun p => ?_, fun c hc => ?_⟩, fun hf => ?_,
    fun ops₂ s₂ h₂ hth => ?_⟩
  · rw [← litVal_true_iff.1, ← litVal_true_iff.2, ← ho.theory]
    exact ⟨hinv.litVal_iff_derives (hq ht) _, hinv.litVal_iff_derives (hq ht) _⟩
  · exact hinv.satisfied_or_open (hq ht) hc
  · by_contra hn
    simp [hb.mpr hn] at hf
  · obtain ⟨b₂, s₂', hs₂', hinv₂, ho₂, hq₂, hb₂⟩ := h₂.inv.propagate
    obtain rfl : b₂ = b := by
      rw [Bool.eq_iff_iff, hb₂, hb, hth]
    exact ⟨s₂', hs₂', fun ht => value_eq_of_theory hinv (hq ht) hinv₂ (hq₂ ht)
      (ho₂.theory.trans (hth.trans ho.theory.symm))⟩

theorem propagate_closure_refutedChain : ∃ s, Run refutedChain s ∧
    ∃ b s', s.propagate = .ok (b, s') ∧ s'.theory = s.theory ∧
      (b = false → Contradicts s.theory) := by
  obtain ⟨b, s', hs', hth, -, hf, -⟩ := propagate_closure run_refutedChain
  exact ⟨_, run_refutedChain, b, s', hs', hth, hf⟩

end Livingstone.Ltms
