import Livingstone.Tms.Sweep
import Livingstone.Tms.Flags

/-! `finish_destroying` on marked propositions and clauses: the invariant holds again,
the marked objects are gone, and the rest is as before up to its deductions. -/

namespace Livingstone.Ltms

open UnitProp (Literal)

variable {s s' : Ltms} {c : ClauseId} {p : PropId} {P P' : PropId → Bool} {C C' : ClauseId → Bool}

/-- The objects of `P` and `C` are marked too. -/
def flag (s : Ltms) (P : PropId → Bool) (C : ClauseId → Bool) : Ltms :=
  { s with
    prop := fun p => { s.prop p with destroying := (s.prop p).destroying || P p }
    clause := fun c => { s.clause c with destroying := (s.clause c).destroying || C c } }

@[simp] theorem occurrences_flag (p : PropId) (b : Bool) :
    (s.flag P C).occurrences p b = s.occurrences p b := rfl

theorem flag_flag : (s.flag P C).flag P' C' =
    s.flag (fun p => P p || P' p) fun c => C c || C' c := by
  simp only [flag, Bool.or_assoc]

theorem setDestroyingClause_eq (s : Ltms) (c : ClauseId) :
    s.setDestroyingClause c = s.flag (fun _ => false) fun d => decide (d = c) := by
  have hclause : (s.setDestroyingClause c).clause =
      (s.flag (fun _ => false) fun d => decide (d = c)).clause := by
    funext d
    by_cases hd : d = c
    · simp [setDestroyingClause, setClause, flag, hd]
    · simp [setDestroyingClause, setClause, flag, hd]
  have hprop : s.prop = (s.flag (fun _ => false) fun d => decide (d = c)).prop := by
    simp [flag]
  simp only [setDestroyingClause, setClause, flag] at hclause hprop ⊢
  rw [← hclause, ← hprop]

theorem setDestroyingClauses_eq (cs : List ClauseId) (s : Ltms) :
    ∃ C, cs.foldl setDestroyingClause s = s.flag (fun _ => false) C ∧
      ∀ c, C c = true ↔ c ∈ cs := by
  induction cs generalizing s with
  | nil => exact ⟨fun _ => false, by simp [flag], by simp⟩
  | cons d cs ih =>
    obtain ⟨C, hC, hmem⟩ := ih (s.setDestroyingClause d)
    refine ⟨fun c => decide (c = d) || C c, ?_, fun c => by simp [hmem]⟩
    rw [List.foldl_cons, hC, setDestroyingClause_eq, flag_flag]
    simp

theorem setDestroying_eq (s : Ltms) (p : PropId) :
    ∃ C, s.setDestroying p = s.flag (fun q => decide (q = p)) C ∧ ∀ c, C c = true ↔ ∃ b, c ∈ s.occurrences p b := by
  have hfirst : s.setProp p { s.prop p with destroying := true } =
      s.flag (fun q => decide (q = p)) fun _ => false := by
    have hprop : (s.setProp p { s.prop p with destroying := true }).prop =
        (s.flag (fun q => decide (q = p)) fun _ => false).prop := by
      funext q
      by_cases hq : q = p
      · simp [setProp, flag, hq]
      · simp [setProp, flag, hq]
    simp only [setProp, flag] at hprop ⊢
    rw [← hprop]
    simp
  obtain ⟨C, hC, hmem⟩ := setDestroyingClauses_eq (s.occurrences p true)
    (s.flag (fun q => decide (q = p)) fun _ => false)
  obtain ⟨C', hC', hmem'⟩ := setDestroyingClauses_eq (s.occurrences p false)
    ((s.flag (fun q => decide (q = p)) fun _ => false).flag (fun _ => false) C)
  refine ⟨fun c => C c || C' c, ?_, fun c => ?_⟩
  · have hpos : ((s.flag (fun q => decide (q = p)) fun _ => false).prop p).positive =
        s.occurrences p true := rfl
    unfold setDestroying
    simp only
    rw [hfirst, hpos, hC]
    refine hC'.trans ?_
    rw [flag_flag, flag_flag]
    simp
  · simp [hmem, hmem']
    tauto

/-- What goes when `ps` and `cs` are marked: the clauses of a proposition go with it. -/
def Doomed (s : Ltms) (ps : List PropId) (cs : List ClauseId) (c : ClauseId) : Prop :=
  c ∈ cs ∨ ∃ p ∈ ps, ∃ b, c ∈ s.occurrences p b

theorem mark_eq (ps : List PropId) (cs : List ClauseId) (s : Ltms) :
    ∃ P C, cs.foldl setDestroyingClause (ps.foldl setDestroying s) = s.flag P C ∧
      (∀ p, P p = true ↔ p ∈ ps) ∧ ∀ c, C c = true ↔ s.Doomed ps cs c := by
  induction ps generalizing s with
  | nil =>
    obtain ⟨C, hC, hmem⟩ := setDestroyingClauses_eq cs s
    exact ⟨fun _ => false, C, hC, by simp, fun c => by simp [hmem, Doomed]⟩
  | cons q ps ih =>
    obtain ⟨C, hC, hmem⟩ := setDestroying_eq s q
    obtain ⟨P', C', hPC, hP', hC'⟩ := ih (s.setDestroying q)
    refine ⟨fun p => decide (p = q) || P' p, fun c => C c || C' c, ?_, fun p => by simp [hP'],
      fun c => ?_⟩
    · rw [List.foldl_cons, hPC, hC, flag_flag]
    · have hsame : (s.setDestroying q).Doomed ps cs c ↔ s.Doomed ps cs c := by
        simp only [Doomed, hC, occurrences_flag]
      simp only [Bool.or_eq_true, hmem, hC', hsame]
      simp only [Doomed, List.exists_mem_cons_iff]
      tauto

theorem Inv.flag (h : s.Inv) (P : PropId → Bool) (C : ClauseId → Bool) : (s.flag P C).Inv := by
  obtain ⟨rank, hs⟩ := h.support
  refine ⟨⟨h.wf.props_nodup, h.wf.clauses_nodup, h.wf.prop_lt, h.wf.clause_lt, fun c hc => ?_,
    h.wf.lits_props, h.wf.occurs, h.wf.occurs_nodup⟩,
    ⟨h.containers.fringe_mem, h.containers.fringe_nodup, h.containers.fringe_index,
      h.containers.unsat_mem, h.containers.unsat_nodup⟩,
    ⟨h.marks.active, h.marks.deleted⟩,
    ⟨rank, hs.unknown, hs.alloc, hs.forth, hs.back, hs.just, hs.undo_nodup, hs.undo⟩,
    h.undo, h.stamps.theory_le, h.stamps.clause_le⟩
  have hk := h.wf.shape c hc
  exact ⟨hk.numLits, hk.numPos_nonneg, hk.numPos_le, hk.bound, hk.nodup⟩

/-- The marked objects of `s` are gone and the others have kept their literals. -/
structure Destroyed (ps : List PropId) (cs : List ClauseId) (s s' : Ltms) : Prop where
  props : ∀ p, p ∈ s'.props ↔ p ∈ s.props ∧ p ∉ ps
  clauses : ∀ c, c ∈ s'.clauses ↔ c ∈ s.clauses ∧ ¬ s.Doomed ps cs c
  lits : ∀ c ∈ s'.clauses, (s'.clause c).lits = (s.clause c).lits
  active : ∀ c, s'.Active c ↔ s.Active c ∧ ¬ s.Doomed ps cs c

theorem SameFlags.finishDestroying {s₁ s₂ : Ltms} {r : Bool × Ltms}
    (h₁ : s₁.undoPropagations = .ok s₂) (h₂ : s₂.propagate = .ok r) : s₁.SameFlags r.2 :=
  (SameFlags.undoPropagations h₁).trans (SameFlags.propagate h₂)

theorem finishDestroying_spec (h : s.Inv) (hcl : s.Closed) :
    ∃ s₁ b s', s.Swept s₁ ∧ s.finishDestroying = .ok s' ∧ s'.Inv ∧ s₁.Outline s' ∧
      s₁.SameFlags s' ∧ (b = true ↔ s'.unsatisfied = []) ∧
      (b = true → ∀ v, s'.fringeOf v = []) := by
  obtain ⟨s₁, s₂, s₃, h₁, h₂, h₃, hsw⟩ := sweep_spec h hcl
  obtain ⟨rank, hun⟩ := hsw.undoing h hcl
  obtain ⟨s₄, h₄, ho₄, hun₄, hu₄⟩ := undoPropagations_spec hun
  have hinv₄ : s₄.Inv := hun₄.inv hu₄ (ho₄.stamps (hsw.stamps h.stamps))
  obtain ⟨b, s₅, h₅, hinv₅, ho₅, hb, hfr⟩ := propagate_spec hinv₄
  refine ⟨s₃, b, s₅, hsw, ?_, hinv₅, ho₄.trans ho₅, SameFlags.finishDestroying h₄ h₅, hb, hfr⟩
  unfold Ltms.finishDestroying
  simp only [h₁, h₂, h₃, h₄, h₅, bind, Except.bind]
  rfl

/-- The marks that `ps` and `cs` put on a state without marks take every clause of a
marked proposition. -/
theorem Unmarked.closed {ps : List PropId} {cs : List ClauseId} (h : s.Unmarked)
    (hP : ∀ p, P p = true ↔ p ∈ ps) (hC : ∀ c, C c = true ↔ s.Doomed ps cs c) :
    (s.flag P C).Closed := by
  intro p b hp c hc
  have hps : p ∈ ps := (hP p).mp (by simpa [flag, h.1 p] using hp)
  have hd : s.Doomed ps cs c := Or.inr ⟨p, hps, b, hc⟩
  simp only [flag, (hC c).mpr hd, Bool.or_true]

theorem destroy_spec {ps : List PropId} (cs : List ClauseId) (h : s.Inv) (hun : s.Unmarked)
    (hps : ∀ p ∈ ps, p ∈ s.props) :
    ∃ b s', s.destroy ps cs = .ok s' ∧ s'.Inv ∧ s'.Unmarked ∧ s.Destroyed ps cs s' ∧
      (b = true ↔ s'.unsatisfied = []) ∧ (b = true → ∀ v, s'.fringeOf v = []) := by
  obtain ⟨P, C, hmark, hP, hC⟩ := mark_eq ps cs s
  obtain ⟨s₁, b, s', hsw, hs', hinv, ho, hf, hb, hfr⟩ :=
    finishDestroying_spec (h.flag P C) (hun.closed hP hC)
  have hp (p : PropId) : ((s.flag P C).prop p).destroying = true ↔ p ∈ ps := by
    simp only [flag, hun.1 p, Bool.false_or, hP]
  have hc {c : ClauseId} (hc : c ∈ s.clauses) :
      ((s.flag P C).clause c).destroying = false ↔ ¬ s.Doomed ps cs c := by
    rw [← hC, Bool.not_eq_true]
    simp only [flag, hun.2 c hc, Bool.false_or]
  refine ⟨b, s', ?_, hinv, ⟨fun p => ?_, fun c hcs => ?_⟩, ⟨fun p => ?_, fun c => ?_,
    fun c hcs => ?_, fun c => ?_⟩, hb, hfr⟩
  · rw [destroy, hmark]
    exact hs'
  · rw [hf.prop, hsw.destroying]
    split_ifs with hd
    · rfl
    · by_contra hne
      have hd' := eq_true_of_ne_false hne
      exact hd ⟨hps p ((hp p).mp hd'), hd'⟩
  · rw [hf.clauses] at hcs
    rw [hf.clause, hsw.field Clause.destroying (fun _ => rfl) hcs]
    exact ((hsw.clauses_mem c).mp hcs).2
  · rw [ho.props, hsw.props_mem]
    refine and_congr_right fun _ => ?_
    rw [← hp, Bool.not_eq_true]
  · rw [ho.clauses, hsw.clauses_mem]
    exact and_congr_right hc
  · rw [ho.clauses] at hcs
    rw [ho.lits, hsw.lits hcs]
    rfl
  · rw [ho.active, hsw.active]
    exact and_congr_right fun ha => hc ha.1

end Livingstone.Ltms
