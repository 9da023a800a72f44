import Livingstone.Tms.Stuck

/-! `partial_propagate` against `propagate`. The slices of the first link no clause
to the proposition it assigned, so whatever they deduce can never be retracted. -/

namespace Livingstone

/-- A history in which some propagation is done in slices. -/
inductive Step where
  | call (op : Op)
  | slice (iterations : ℕ)

namespace Ltms

open Loop

variable {s s' t t' : Ltms} {steps : List Step}

/-- `Sliced steps s t`: the history leads to `s`, and to `t` when each slice that
reports completion is replaced by one `propagate` and the others are left out.
Both runs return, and with the same answers. -/
inductive Sliced : List Step → Ltms → Ltms → Prop
  | nil : Sliced [] {} {}
  | call {steps : List Step} {op : Op} {s s' t t' : Ltms} (h : Sliced steps s t)
      (hv : s.Valid op) (hv' : t.Valid op) (hs : s.apply op = .ok s') (ht : t.apply op = .ok t') :
      Sliced (steps ++ [.call op]) s' t'
  | unfinished {steps : List Step} {n : ℕ} {s s' t : Ltms} (h : Sliced steps s t)
      (hs : s.partialPropagate n = .ok (none, s')) : Sliced (steps ++ [.slice n]) s' t
  | finished {steps : List Step} {n : ℕ} {b : Bool} {s s' t t' : Ltms} (h : Sliced steps s t)
      (hs : s.partialPropagate n = .ok (some b, s')) (ht : t.propagate = .ok (b, t')) :
      Sliced (steps ++ [.slice n]) s' t'

/-- The same truth values and the same support relation, in both directions. -/
structure SameDeductions (s t : Ltms) : Prop where
  clauses : s.clauses = t.clauses
  value : ∀ p, s.value p = t.value p
  supportedBy : ∀ p, (s.prop p).supportedBy = (t.prop p).supportedBy
  supports : ∀ c ∈ s.clauses, (s.clause c).getSupports = (t.clause c).getSupports

/-- A slice of `n` iterations has nothing to propagate. -/
def Idle (s : Ltms) (n : ℕ) : Prop := n = 0 ∨ s.unsatisfied ≠ [] ∨ ∀ v, s.fringeOf v = []

inductive IdleRun : List Step → Ltms → Prop
  | nil : IdleRun [] {}
  | call {steps : List Step} {op : Op} {s s' : Ltms} (h : IdleRun steps s) (hv : s.Valid op)
      (hs : s.apply op = .ok s') : IdleRun (steps ++ [.call op]) s'
  | slice {steps : List Step} {n : ℕ} {s : Ltms} (h : IdleRun steps s) (hi : s.Idle n) :
      IdleRun (steps ++ [.slice n]) s

theorem getFringeClause_eq_none : s.getFringeClause = none ↔ ∀ v, s.fringeOf v = [] := by
  constructor
  · exact getFringeClause_none
  · intro h
    have h₁ := h true
    have h₀ := h false
    simp only [fringeOf] at h₁ h₀
    simp_all [getFringeClause, fringePop, fringeOf]

theorem propagate_of_unsatisfied (h : s.unsatisfied ≠ []) : s.propagate = .ok (false, s) := by
  apply whileM_inr
  simp only [propagateTurn, if_pos h]

theorem propagate_of_empty (h : s.unsatisfied = []) (hf : ∀ v, s.fringeOf v = []) :
    s.propagate = .ok (true, s) := by
  apply whileM_inr
  simp only [propagateTurn, h, getFringeClause_eq_none.mpr hf, ne_eq, not_true, if_false]

/-- An idle slice leaves the state as it is, and reports what `propagate` does. -/
theorem Idle.partialPropagate {n : ℕ} (h : s.Idle n) :
    ∃ r, s.partialPropagate n = .ok (r, s) ∧
      ∀ b, r = some b → s.propagate = .ok (b, s) := by
  by_cases hu : s.unsatisfied = []
  · cases n with
    | zero =>
      refine ⟨none, ?_, fun b hb => by cases hb⟩
      simp only [Ltms.partialPropagate, hu, ne_eq, not_true, if_false]
    | succ n =>
      have hf : ∀ v, s.fringeOf v = [] := by
        rcases h with h | h | h
        · cases h
        · exact absurd hu h
        · exact h
      refine ⟨some true, ?_, ?_⟩
      · simp only [Ltms.partialPropagate, hu, getFringeClause_eq_none.mpr hf, ne_eq, not_true,
          if_false]
      · intro b hb
        exact Option.some.inj hb ▸ propagate_of_empty hu hf
  · refine ⟨some false, ?_, ?_⟩
    · cases n <;> simp only [Ltms.partialPropagate, ne_eq, hu, not_false_eq_true, if_true]
    · intro b hb
      exact Option.some.inj hb ▸ propagate_of_unsatisfied hu

theorem Inv.of_idleRun (h : IdleRun steps s) : s.Inv := by
  induction h with
  | nil => exact inv_empty
  | call _ hv hs ih =>
    obtain ⟨s', hs', hinv⟩ := apply_spec ih hv
    exact Except.ok.inj (hs'.symm.trans hs) ▸ hinv
  | slice _ _ ih => exact ih

theorem IdleRun.sliced (h : IdleRun steps s) : Sliced steps s s := by
  induction h with
  | nil => exact Sliced.nil
  | call _ hv hs ih => exact ih.call hv hv hs hs
  | slice _ hi ih =>
    obtain ⟨r, hr, hb⟩ := hi.partialPropagate
    cases r with
    | none => exact ih.unfinished hr
    | some b => exact ih.finished hr (hb b rfl)

theorem Sliced.inv (h : Sliced steps s t) : t.Inv := by
  induction h with
  | nil => exact inv_empty
  | call _ _ hv _ ht ih =>
    obtain ⟨t', ht', hinv⟩ := apply_spec ih hv
    exact Except.ok.inj (ht'.symm.trans ht) ▸ hinv
  | unfinished _ _ ih => exact ih
  | finished _ _ ht ih =>
    obtain ⟨b', t', ht', hinv, -⟩ := propagate_spec ih
    cases ht'.symm.trans ht
    exact hinv

theorem Inv.stuck_of_popAssign (h : s.Inv) {x : ClauseId × Ltms} (hx : s.getFringeClause = some x) :
    ∃ p b s₂, x.2.getUnassignedLiteral (x.2.clause x.1) = .ok (p, b) ∧
      x.2.assign p b x.1 = .ok s₂ ∧ s₂.Stuck p := by
  obtain ⟨p, b, s₂, hget, hassign, ha, hl, hv, -, hf₁, hf₂, -, -⟩ := popAssign_spec h hx
  refine ⟨p, b, s₂, hget, hassign, ?_⟩
  have ho : s.Outline s₂ :=
    hf₁.toOutline.trans ((outline_setValue x.2 p _ _).trans hf₂.toOutline)
  have hw := ho.wellFormed h.wf
  obtain ⟨rank, hs⟩ := h.support
  have hp : p ∈ s₂.props := ho.props ▸ h.wf.lits_props x.1 ha.1 _ hl
  refine ⟨fun c hc => (hw.shape c hc).bound, fun q d c hc => ((hw.occurs c q d).mp hc).1, ?_,
    hw.prop_lt p hp, ?_, ?_⟩
  · rw [hf₂.value, value_setValue, if_pos rfl]
    cases b <;> simp [truth]
  · intro c hc hg
    have hg : (s.clause c).getSupports = some p := by
      rw [← hf₁.getSupports]
      exact (hf₂.getSupports c).symm.trans hg
    have hsup := (hs.back c (ho.clauses ▸ hc) p hg).2
    rw [(hs.unknown p).mp hv] at hsup
    cases hsup
  · rw [hf₂.undoList]
    exact (hf₁.undoList.trans h.undo) ▸ List.not_mem_nil

theorem Inv.stuck_of_slice {n : ℕ} {r : Option Bool × Ltms} (h : s.Inv) (hn : ¬ s.Idle n)
    (hs : s.partialPropagate n = .ok r) : ∃ p, r.2.Stuck p := by
  have hu : s.unsatisfied = [] := by
    by_contra hu
    exact hn (Or.inr (Or.inl hu))
  cases n with
  | zero => exact absurd (Or.inl rfl) hn
  | succ n =>
    cases hx : s.getFringeClause with
    | none => exact absurd (Or.inr (Or.inr (getFringeClause_none hx))) hn
    | some x =>
      obtain ⟨p, b, s₂, hget, hassign, hstuck⟩ := h.stuck_of_popAssign hx
      simp only [Ltms.partialPropagate, hu, hx, hget, bind, Except.bind, hassign, ne_eq, not_true,
        if_false] at hs
      exact ⟨p, hstuck.partialPropagate hs⟩

/-- A slice that propagates, anywhere in the history, leaves such a deduction for good. -/
theorem Sliced.idle_or_stuck (h : Sliced steps s t) :
    (IdleRun steps s ∧ s = t) ∨ ∃ p, s.Stuck p := by
  have slice {steps : List Step} {n : ℕ} {s t : Ltms} {r : Option Bool × Ltms}
      (ih : (IdleRun steps s ∧ s = t) ∨ ∃ p, s.Stuck p) (hs : s.partialPropagate n = .ok r) :
      (IdleRun (steps ++ [.slice n]) s ∧ s = t ∧ s.Idle n) ∨ ∃ p, r.2.Stuck p := by
    rcases ih with ⟨hidle, heq⟩ | ⟨p, hp⟩
    · by_cases hn : s.Idle n
      · exact Or.inl ⟨hidle.slice hn, heq, hn⟩
      · exact Or.inr ((Inv.of_idleRun hidle).stuck_of_slice hn hs)
    · exact Or.inr ⟨p, hp.partialPropagate hs⟩
  induction h with
  | nil => exact Or.inl ⟨IdleRun.nil, rfl⟩
  | call _ hv _ hs ht ih =>
    rcases ih with ⟨hidle, heq⟩ | ⟨p, hp⟩
    · subst heq
      exact Or.inl ⟨hidle.call hv hs, Except.ok.inj (hs.symm.trans ht)⟩
    · exact Or.inr ⟨p, hp.apply hv hs⟩
  | unfinished _ hs ih =>
    rcases slice ih hs with ⟨hidle, heq, hn⟩ | hstuck
    · obtain ⟨r, hr, -⟩ := hn.partialPropagate
      cases hs.symm.trans hr
      exact Or.inl ⟨hidle, heq⟩
    · exact Or.inr hstuck
  | finished _ hs ht ih =>
    rcases slice ih hs with ⟨hidle, heq, hn⟩ | hstuck
    · obtain ⟨r, hr, hb⟩ := hn.partialPropagate
      cases hs.symm.trans hr
      subst heq
      cases ht.symm.trans (hb _ rfl)
      exact Or.inl ⟨hidle, rfl⟩
    · exact Or.inr hstuck

theorem SameDeductions.not_stuck (h : s.SameDeductions t) (hinv : t.Inv) {p : PropId} :
    ¬ s.Stuck p := by
  intro hp
  obtain ⟨rank, ht⟩ := hinv.support
  have hv : t.value p ≠ .unknown := h.value p ▸ hp.known
  obtain ⟨c, hc⟩ := Option.ne_none_iff_exists'.mp (mt (ht.unknown p).mpr hv)
  obtain ⟨ha, hg⟩ := ht.forth p c hc (Set.notMem_empty p)
  have hcs : c ∈ s.clauses := h.clauses ▸ ha.1
  exact hp.unlinked c hcs ((h.supports c hcs).trans hg)

/-- A run in slices agrees with the run that propagates at once if and only if no
slice of it had anything to propagate. -/
theorem sliced_iff_idle (steps : List Step) :
    (∃ s t, Sliced steps s t ∧ s.SameDeductions t) ↔ ∃ s, IdleRun steps s := by
  constructor
  · intro ⟨s, t, h, heq⟩
    rcases h.idle_or_stuck with ⟨hidle, -⟩ | ⟨p, hp⟩
    · exact ⟨s, hidle⟩
    · exact absurd hp (heq.not_stuck h.inv)
  · intro ⟨s, h⟩
    exact ⟨s, s, h.sliced, rfl, fun _ => rfl, fun _ => rfl, fun _ _ => rfl⟩

/-- One unit clause, propagated in a slice and removed. -/
def unitRetracted : List Step := [.call .createProposition,
  .call (.createClause none [0] [] false true), .slice 2, .call (.remove 0)]

/-- Its consequence stays. -/
theorem slice_not_retracted : ∃ s t, Sliced unitRetracted s t ∧
    s.value 0 = .ptrue ∧ t.value 0 = .unknown := by
  have h₁ : Sliced [.call .createProposition] _ _ := Sliced.nil.call trivial trivial rfl rfl
  have h₂ : Sliced ([.call .createProposition] ++ [.call (.createClause none [0] [] false true)])
      _ _ := h₁.call (by decide) (by decide) rfl rfl
  have h₃ : Sliced (_ ++ [.slice 2]) _ _ := h₂.finished (b := true) rfl rfl
  have h₄ : Sliced (_ ++ [.call (.remove 0)]) _ _ := h₃.call (by decide) (by decide) rfl rfl
  exact ⟨_, _, h₄, rfl, rfl⟩

end Ltms

end Livingstone
