import Livingstone.Proofs.Closure

/-! What every reachable state satisfies, and the conflicts read off from it. -/

namespace Livingstone.Ltms

open UnitProp (Literal Contradicts)

variable {s s' : Ltms} {ops : List Op}

/-- The fields of a clause agree with the values of its literals, and the lists
with the flags. Counters are kept for the clauses in the theory only. -/
structure Consistent (s : Ltms) : Prop where
  count : ∀ c, s.Active c →
    (s.clause c).numUnassigned = ((s.clause c).lits.countP fun l => s.litVal l = none : ℕ)
  satisfying : ∀ c, s.Active c → ∀ p, (s.clause c).satisfyingProp = some p →
    ∃ b, (p, b) ∈ (s.clause c).lits ∧ s.litVal (p, b) = some true
  unsatisfiable : ∀ c, s.Active c → ((s.clause c).satisfyingProp = none ↔
    ∀ l ∈ (s.clause c).lits, s.litVal l ≠ some true)
  fringe : ∀ c ∈ s.clauses, ((s.clause c).inFringe = true ↔
    (s.clause c).deleted = false ∧ (∀ l ∈ (s.clause c).lits, s.litVal l ≠ some true) ∧
      ((s.clause c).lits.countP fun l => s.litVal l = none) = 1)
  fringe_index : ∀ c ∈ s.clauses, (s.clause c).inFringe = true →
    (s.fringeOf (s.clause c).isVolatile)[(s.clause c).fringeIndex]? = some c
  unsat_flag : ∀ c ∈ s.clauses, ((s.clause c).unsatisfied = true ↔ c ∈ s.unsatisfied)
  unsat_list : ∀ c ∈ s.clauses, (c ∈ s.unsatisfied ↔
    (s.clause c).deleted = false ∧ ∀ l ∈ (s.clause c).lits, s.litVal l = some false)
  support : ∀ c ∈ s.clauses, ∀ p,
    ((s.clause c).getSupports = some p ↔ (s.prop p).supportedBy = some c)

theorem Inv.consistent (h : s.Inv) : s.Consistent := by
  obtain ⟨rank, hs⟩ := h.support
  have hact {c : ClauseId} (hc : c ∈ s.clauses) (hdel : (s.clause c).deleted = false) :=
    h.marks.active c ⟨hc, hdel⟩
  refine ⟨fun c ha => (h.marks.active c ha).count, fun c ha => (h.marks.active c ha).sat,
    fun c ha => (h.marks.active c ha).none_iff, fun c hc => ?_, fun c hc hin => ?_,
    fun c hc => ?_, fun c hc => ?_, fun c hc p => ⟨fun hg => (hs.back c hc p hg).2, fun hp => ?_⟩⟩
  · cases hdel : (s.clause c).deleted with
    | true => simp [show (s.clause c).inFringe = false from (h.marks.deleted c hc hdel).inFringe]
    | false =>
      have hb := hact hc hdel
      rw [show (s.clause c).inFringe = true ↔ _ from hb.fringe, hb.none_iff, hb.count]
      simp
  · obtain ⟨i, hi, hget⟩ := List.mem_iff_getElem.mp ((h.containers.fringe_mem _ c).mpr ⟨hc, hin, rfl⟩)
    have hi' := List.getElem?_eq_getElem hi
    rw [hget] at hi'
    rw [h.containers.fringe_index _ i c hi', hi']
  · rw [h.containers.unsat_mem]
    simp [hc]
  · rw [h.containers.unsat_mem]
    cases hdel : (s.clause c).deleted with
    | true => simp [show (s.clause c).unsatisfied = false from (h.marks.deleted c hc hdel).unsatisfied]
    | false =>
      have hb := hact hc hdel
      refine ⟨fun ⟨_, hu⟩ => ⟨rfl, ?_⟩, fun ⟨_, hf⟩ => ⟨hc, ?_⟩⟩
      · obtain ⟨hsat, h0⟩ := hb.unsatisfied.mp hu
        exact hb.all_false hsat h0
      · refine hb.unsatisfied.mpr ⟨hb.none_iff.mpr fun l hl => by simp [hf l hl], ?_⟩
        rw [hb.count, Int.natCast_eq_zero, List.countP_eq_zero]
        intro l hl
        simp [hf l hl]
  · exact (hs.forth p c hp (Set.notMem_empty p)).2

/-- Every reachable state is consistent and every call on it returns: none of the
failed assertions and exceptions of the code is reached. -/
theorem reachable_consistent (h : Run ops s) :
    s.Consistent ∧ ∀ op, s.Valid op → ∃ s', s.apply op = .ok s' := by
  refine ⟨h.inv.consistent, fun op hv => ?_⟩
  obtain ⟨s', hs', -⟩ := apply_spec h.inv hv
  exact ⟨s', hs'⟩

theorem reachable_consistent_refutedChain : ∃ s, Run refutedChain s ∧ s.Consistent :=
  ⟨_, run_refutedChain, (reachable_consistent run_refutedChain).1⟩

/-- The counter of a clause that was created but never added is 0. -/
theorem not_counted_before_added : ∃ ops s, Run ops s ∧ ∃ c ∈ s.clauses,
    (s.clause c).numUnassigned ≠ ((s.clause c).lits.countP fun l => s.litVal l = none : ℕ) :=
  ⟨[.createProposition, .createClause none [0] [] false false], _, run_stateAfter (by decide), 0,
    by decide, by decide⟩

/-- In an inconsistent state `last_conflict` returns a set of clauses that meet the
predicate and, together with the active clauses that do not, are contradictory. -/
theorem lastConflict_sound (h : Run ops s) (hu : s.unsatisfied ≠ []) (predicate : ClauseId → Bool)
    (hunit : ∀ d, s.Active d → predicate d = true → ∃ l, (s.clause d).lits = [l]) :
    ∃ out s', s.lastConflict predicate = .ok (out, s') ∧ out.Nodup ∧
      (∀ d ∈ out, predicate d = true ∧ s.Active d) ∧ Contradicts (s.blamed predicate out) := by
  obtain ⟨out, s', hs', -, -, hn, hp, hcon⟩ := lastConflict_spec h.inv predicate
  exact ⟨out, s', hs', hn, hp, hcon hu hunit⟩

theorem lastConflict_sound_refutedChain : ∃ s, Run refutedChain s ∧
    ∃ out s', s.lastConflict (· ≠ 1) = .ok (out, s') ∧ out.Nodup ∧
      Contradicts (s.blamed (· ≠ 1) out) := by
  obtain ⟨out, s', hs', hn, -, hcon⟩ := lastConflict_sound run_refutedChain
    (by decide) (· ≠ 1) (fun d hd hp => by
      have : ∀ d ∈ (stateAfter refutedChain).clauses, (d ≠ 1 : Bool) = true →
          ((stateAfter refutedChain).clause d).lits.length = 1 := by decide
      exact List.length_eq_one_iff.mp (this d hd.1 hp))
  exact ⟨_, run_refutedChain, out, s', hs', hn, hcon⟩

end Livingstone.Ltms
