import Livingstone.Transition.Removal

/-! Truncation keeps the observations of the time steps that stay. They are saved, what summarizes
the state may take them back, and they are restored when the old variables are gone. -/

namespace Livingstone
namespace Transition

open Function (update update_self update_of_ne)

variable {σ : Type} {S : Solver σ} {s s₁ s' : TSystem σ} {K : Set Ref} {r v : Ref}
  {horizon : UInt32}

/-- The observables and their copies, as `map_over_observations` visits them. -/
def TSystem.observations (s : TSystem σ) : List Ref :=
  s.present.flatMap fun v => if s.kindOf v = .observable then s.history v else []

theorem mem_observations : r ∈ s.observations ↔
    ∃ v ∈ s.present, s.kindOf v = .observable ∧ r ∈ s.history v := by
  unfold TSystem.observations
  rw [List.mem_flatMap]
  constructor
  · intro ⟨v, hv, hr⟩
    split_ifs at hr with hobs
    · exact ⟨v, hv, hobs, hr⟩
    · exact absurd hr List.not_mem_nil
  · intro ⟨v, hv, hobs, hr⟩
    refine ⟨v, hv, ?_⟩
    rwa [if_pos hobs]

theorem Tidy.mem_of_observations (h : Tidy K s) (hr : r ∈ s.observations) : r ∈ K := by
  obtain ⟨v, hv, hobs, hr⟩ := mem_observations.mp hr
  obtain ⟨l, hl, -, -, -, hK, -⟩ := h.history hv hobs
  exact hK r (hl ▸ hr)

/-- Only the values of variables and their saved ones are changed. -/
structure Revalued (s s' : TSystem σ) : Prop where
  rest : ∃ f t, s' = { s with cell := f, solver := t }
  cell : ∀ r, ∃ c x, s'.cell r = { s.cell r with current := c, savedAssignment := x }

theorem Revalued.refl (s : TSystem σ) : Revalued s s := ⟨⟨_, _, rfl⟩, fun _ => ⟨_, _, rfl⟩⟩

theorem Revalued.trans (h : Revalued s s₁) (h' : Revalued s₁ s') : Revalued s s' := by
  refine ⟨?_, fun r => ?_⟩
  · obtain ⟨f, t, rfl⟩ := h.rest
    obtain ⟨f', t', rfl⟩ := h'.rest
    exact ⟨f', t', rfl⟩
  · obtain ⟨c, x, hcell⟩ := h.cell r
    obtain ⟨c', x', hcell'⟩ := h'.cell r
    exact ⟨c', x', by rw [hcell', hcell]⟩

theorem Revalued.kindOf (h : Revalued s s') : s'.kindOf = s.kindOf := by
  funext r
  obtain ⟨c, x, hcell⟩ := h.cell r
  rw [TSystem.kindOf, hcell]
  rfl

theorem Revalued.timeOf (h : Revalued s s') : s'.timeOf = s.timeOf := by
  funext r
  obtain ⟨c, x, hcell⟩ := h.cell r
  rw [TSystem.timeOf, hcell]
  rfl

theorem Revalued.setVariable (s : TSystem σ) (r : Ref) (c x : Option ℕ) (t : σ) :
    Revalued s { s.setVariable r { s.cell r with current := c, savedAssignment := x } with
      solver := t } := by
  refine ⟨⟨_, t, rfl⟩, fun q => ?_⟩
  by_cases hq : q = r
  · subst hq
    exact ⟨c, x, update_self ..⟩
  · exact ⟨_, _, update_of_ne hq ..⟩

theorem revalued_mapCommand (command : TSystem.MapCommand) (r : Ref) (s : TSystem σ) :
    Revalued s (s.mapCommand S command r) := by
  cases command with
  | save => exact Revalued.setVariable s r _ _ s.solver
  | unassign =>
    obtain ⟨t, ht⟩ := unassign_eq (S := S) (s := s) r
    rw [TSystem.mapCommand, ht]
    exact Revalued.setVariable s r none _ t
  | restore =>
    obtain ⟨t, ht⟩ := assign_eq (S := S) (s := s) r (s.cell r).savedAssignment
    rw [TSystem.mapCommand, TSystem.restore, ht]
    exact Revalued.setVariable s r _ _ t

theorem Tidy.revalued (h : Tidy K s) (hr : Revalued s s') : Tidy K s' := by
  have hkind := hr.kindOf
  have htime := hr.timeOf
  obtain ⟨f, t, rfl⟩ := hr.rest
  refine ⟨h.listed, h.bounded, ?_, h.consistent, h.apart, ?_, ?_, ?_, ?_, ?_⟩
  · rw [hkind]
    exact h.observed
  · rw [hkind]
    exact h.chain
  · rw [htime]
    exact h.present
  · unfold IsTransition
    rw [hkind, htime]
    exact h.modes
  · rw [hkind]
    exact h.assumptions
  · rw [hkind]
    exact h.candidates

theorem Revalued.foldl {α : Type} {f : TSystem σ → α → TSystem σ}
    (hf : ∀ s a, Revalued s (f s a)) (l : List α) (s : TSystem σ) : Revalued s (l.foldl f s) := by
  induction l generalizing s with
  | nil => exact Revalued.refl s
  | cons a l ih => exact (hf s a).trans (ih (f s a))

theorem Revalued.present (h : Revalued s s') : s'.present = s.present := by
  obtain ⟨f, t, rfl⟩ := h.rest
  rfl

theorem Revalued.history (h : Revalued s s') : s'.history = s.history := by
  obtain ⟨f, t, rfl⟩ := h.rest
  rfl

theorem Revalued.observations (h : Revalued s s') : s'.observations = s.observations := by
  unfold TSystem.observations
  rw [h.present, h.kindOf, h.history]

theorem mapOverHistory_eq (command : TSystem.MapCommand) (n : ℕ) (r : Ref) (s : TSystem σ) :
    s.mapOverHistory S command n r =
      (s.links.walk n r).foldl (fun s q => s.mapCommand S command q) s := by
  induction n generalizing r s with
  | zero => rfl
  | succ n ih =>
    have hlinks : (s.mapCommand S command r).links = s.links := by
      obtain ⟨f, t, heq⟩ := (revalued_mapCommand (S := S) command r s).rest
      rw [heq]
    unfold TSystem.mapOverHistory Chain.Links.walk
    simp only [List.foldl_cons, hlinks]
    cases s.links.previous r with
    | none => rfl
    | some q =>
      dsimp only
      rw [ih, hlinks]

theorem mapOverObservations_eq (command : TSystem.MapCommand) (s : TSystem σ) :
    s.mapOverObservations S command =
      s.observations.foldl (fun s r => s.mapCommand S command r) s := by
  have hloop (l : List Ref) (s₁ : TSystem σ) (h : Revalued s s₁) :
      l.foldl (fun s r => if s.kindOf r = .observable then
        s.mapOverHistory S command s.fresh r else s) s₁ =
      (l.flatMap fun v => if s.kindOf v = .observable then s.history v else []).foldl
        (fun s r => s.mapCommand S command r) s₁ := by
    induction l generalizing s₁ with
    | nil => rfl
    | cons v l ih =>
      rw [List.foldl_cons, List.flatMap_cons, List.foldl_append, h.kindOf]
      split_ifs with hobs
      · have hstep : s₁.mapOverHistory S command s₁.fresh v =
            (s.history v).foldl (fun s r => s.mapCommand S command r) s₁ := by
          rw [mapOverHistory_eq, ← h.history]
          rfl
        rw [hstep]
        exact ih _ (h.trans (Revalued.foldl (fun s r => revalued_mapCommand command r s) _ s₁))
      · exact ih s₁ h
  exact hloop s.present s (Revalued.refl s)

theorem revalued_mapOverObservations (command : TSystem.MapCommand) (s : TSystem σ) :
    Revalued s (s.mapOverObservations S command) := by
  rw [mapOverObservations_eq]
  exact Revalued.foldl (fun s r => revalued_mapCommand command r s) _ s

theorem cell_save (r q : Ref) (s : TSystem σ) : (s.save r).cell q =
    if q = r then { s.cell q with savedAssignment := (s.cell q).current } else s.cell q := by
  split_ifs with hq
  · subst hq
    exact update_self ..
  · exact update_of_ne hq ..

theorem cell_restore (r q : Ref) (s : TSystem σ) : (s.restore S r).cell q =
    if q = r then { s.cell q with current := (s.cell q).savedAssignment } else s.cell q := by
  obtain ⟨t, ht⟩ := assign_eq (S := S) (s := s) r (s.cell r).savedAssignment
  rw [TSystem.restore, ht]
  split_ifs with hq
  · subst hq
    exact update_self ..
  · exact update_of_ne hq ..

theorem cell_foldl_save (l : List Ref) (s : TSystem σ) (q : Ref) :
    (l.foldl (fun s r => s.mapCommand S .save r) s).cell q =
      if q ∈ l then { s.cell q with savedAssignment := (s.cell q).current } else s.cell q := by
  induction l generalizing s with
  | nil => rfl
  | cons r l ih =>
    rw [List.foldl_cons, ih, TSystem.mapCommand, cell_save]
    simp only [List.mem_cons]
    split_ifs <;> simp_all

theorem cell_foldl_restore (l : List Ref) (s : TSystem σ) (q : Ref) :
    (l.foldl (fun s r => s.mapCommand S .restore r) s).cell q =
      if q ∈ l then { s.cell q with current := (s.cell q).savedAssignment } else s.cell q := by
  induction l generalizing s with
  | nil => rfl
  | cons r l ih =>
    rw [List.foldl_cons, ih, TSystem.mapCommand, cell_restore]
    simp only [List.mem_cons]
    split_ifs <;> simp_all

theorem same_foldl_unassign (l : List Ref) (s : TSystem σ) :
    Same s (l.foldl (fun s r => s.mapCommand S .unassign r) s) :=
  Same.foldl (fun _ r => same_unassign r) l s

theorem summarizeState_grows (h : Tidy K s) (hs : s.summarizeState S horizon = .ok s') :
    ∃ t cs, Grows s t ∧ s' = { t with candidates := cs } ∧
      ∀ c ∈ cs, ∀ a ∈ c, a.1 < t.fresh ∧ (t.kindOf a.1).isAssumption = true := by
  unfold TSystem.summarizeState at hs
  split at hs
  case isTrue hnone =>
    obtain ⟨s₁, h₁, hs⟩ := Loop.bind_eq_ok hs
    have hunassigned : Same s (s.mapOverObservations S .unassign) := by
      rw [mapOverObservations_eq]
      exact same_foldl_unassign _ s
    have hg := hunassigned.grows.trans (grows_createStateVar h₁)
    have hg' := hg.trans (same_foldlM (fun s₂ i s₃ h₃ =>
      (same_assign _ _).trans (constrains_summarizeVariables h₃).same) hs).grows
    refine ⟨s', s'.candidates, hg', rfl, ?_⟩
    rw [hg'.candidates, hnone]
    simp
  case isFalse =>
    obtain ⟨s₁, h₁, hs⟩ := Loop.bind_eq_ok hs
    obtain ⟨⟨cs, t⟩, h₂, hs⟩ := Loop.bind_eq_ok hs
    obtain ⟨hsame, hcs⟩ := summarizeCandidates_same h₂
    have hg := grows_createStateVar h₁
    have hstate := createStateVar_stateVar h₁
    have ht := hg.trans hsame.grows
    refine ⟨t, cs, ht, (Except.ok.inj hs).symm, fun c hc a ha => ?_⟩
    rcases hcs c hc a ha with ⟨c₀, hc₀, ha⟩ | ha
    · have hold := h.candidates c₀ (hg.candidates ▸ hc₀) a ha
      refine ⟨hold.1.trans_le ht.fresh, ?_⟩
      rw [(ht.cell a.1 hold.1).1]
      exact hold.2
    · rw [ha, hsame.fresh, (hsame.cell s₁.stateVar).1]
      exact hstate

theorem Same.observations (h : Same s s') : s'.observations = s.observations := by
  have hpresent : s'.present = s.present := by
    unfold TSystem.present
    rw [h.present]
  have hkind : s'.kindOf = s.kindOf := funext fun r => (h.cell r).1
  have hhistory : s'.history = s.history := by
    funext r
    unfold TSystem.history
    rw [h.links, h.fresh]
  unfold TSystem.observations
  rw [hpresent, hkind, hhistory]

theorem Tidy.history_grows (h : Tidy K s) (hg : Grows s s') (hv : v ∈ s.present)
    (hobs : s.kindOf v = .observable) : s'.history v = s.history v := by
  obtain ⟨l, hl, hlen, hf, -, hK, -⟩ := h.history hv hobs
  rw [hl]
  apply Chain.walk_eq
  · exact hf.congr fun x hx => (hg.links x (h.mem_lt (hK x hx))).1
  · exact hlen.trans_le hg.fresh

theorem cell_foldl_assign (l : List (Ref × Option ℕ)) (s : TSystem σ) {q : Ref}
    (hq : ∀ a ∈ l, q ≠ a.1) : (l.foldl (fun s a => s.assign S a.1 a.2) s).cell q = s.cell q := by
  induction l generalizing s with
  | nil => rfl
  | cons a l ih =>
    rw [List.forall_mem_cons] at hq
    rw [List.foldl_cons, ih _ hq.2]
    obtain ⟨t, ht⟩ := assign_eq (S := S) (s := s) a.1 a.2
    rw [ht]
    exact update_of_ne hq.1 ..

theorem Tidy.cell_install (h : Tidy K s) {c : Candidate}
    (hc : ∀ a ∈ c, (s.kindOf a.1).isAssumption = true) (hr : (s.kindOf r).isAssumption = false) :
    (s.install S c).cell r = s.cell r := by
  have hne {x : Ref} (hx : (s.kindOf x).isAssumption = true) : r ≠ x := by
    rintro rfl
    exact Bool.false_ne_true (hr.symm.trans hx)
  have hdefaults : (s.restoreAssumptionDefaults S).cell r = s.cell r := by
    have hfold := cell_foldl_assign (S := S) (s.assumptions.map fun x => (x, some 0)) s (q := r)
      (by
        intro a ha
        obtain ⟨x, hx, rfl⟩ := List.mem_map.mp ha
        exact hne (h.assumptions x hx).2)
    rw [List.foldl_map] at hfold
    exact hfold
  have hcandidate := cell_foldl_assign (S := S) (c.map fun a => (a.1, some a.2))
    (s.restoreAssumptionDefaults S) (q := r)
    (by
      intro a ha
      obtain ⟨x, hx, rfl⟩ := List.mem_map.mp ha
      exact hne (hc x hx))
  rw [List.foldl_map] at hcandidate
  exact hcandidate.trans hdefaults

theorem Modes.observations (h : Modes s s') : s'.observations = s.observations := by
  obtain ⟨f, rfl⟩ := h.rest
  rfl

theorem removeOldVariables_observations (h : Tidy K s)
    (hs : s.removeOldVariables S horizon = .ok s') : ∃ K', Tidy K' s' ∧
      s'.presentVariables = s.presentVariables ∧ s'.cell = s.cell ∧
      ∀ r ∈ s.observations, ¬ s.timeOf r < horizon → r ∈ s'.observations := by
  obtain ⟨h₁, hmodes, hret⟩ := mapModes_removeOldModeTransition horizon h
  obtain ⟨old, hremoves, hold, -⟩ := removeOldVariables_removes hs h₁.listed
  generalize s.mapModes (TSystem.removeOldModeTransition horizon) = s₁ at *
  obtain ⟨f, rfl⟩ := hmodes.rest
  obtain ⟨h', hhistory⟩ := h₁.removes hret hremoves hold
  refine ⟨_, h', hremoves.present, hremoves.cell, fun r hr htime => ?_⟩
  obtain ⟨v, hv, hobs, hr⟩ := mem_observations.mp hr
  have hv' : v ∈ s'.present := by
    have hpresent := hremoves.present
    unfold TSystem.present at hv ⊢
    rwa [hpresent]
  refine mem_observations.mpr ⟨v, hv', (hremoves.kindOf v).trans hobs, ?_⟩
  rw [hhistory v hv hobs]
  exact List.mem_filter.mpr ⟨hr, decide_eq_true fun hmem => htime (hold r hmem)⟩

/-- The observations from the horizon on are there, with the values that they had. -/
def ObservationsKept (horizon : UInt32) (s s' : TSystem σ) : Prop :=
  ∀ r ∈ s.observations, ¬ s.timeOf r < horizon →
    r ∈ s'.observations ∧ s'.timeOf r = s.timeOf r ∧ (s'.cell r).current = (s.cell r).current

theorem summarizeState_observations (h : Tidy K s) (hs : s.summarizeState S horizon = .ok s') :
    Tidy K s' ∧ s'.presentVariables = s.presentVariables ∧ ∀ r ∈ s.observations,
      r ∈ s'.observations ∧ s'.timeOf r = s.timeOf r ∧
        (s'.cell r).savedAssignment = (s.cell r).savedAssignment := by
  obtain ⟨t, cs, hg, rfl, hcs⟩ := summarizeState_grows h hs
  refine ⟨(h.grows hg).setCandidates hcs, hg.present, fun r hr => ?_⟩
  obtain ⟨-, htime, hsaved⟩ := hg.cell r (h.mem_lt (h.mem_of_observations hr))
  refine ⟨?_, htime, hsaved⟩
  obtain ⟨v, hv, hobs, hr⟩ := mem_observations.mp hr
  have hvt : v ∈ t.present := by
    unfold TSystem.present at hv ⊢
    rwa [hg.present]
  refine mem_observations.mpr ⟨v, hvt, ?_, ?_⟩
  · exact ((hg.cell v (h.lt (h.present v hv).1)).1).trans hobs
  · have hhistory : t.history v = s.history v := h.history_grows hg hv hobs
    exact hhistory ▸ hr

theorem truncate_spec (h : Tidy K s) (hs : s.truncate S horizon = .ok s') :
    Tidied s s' ∧ ObservationsKept horizon s s' := by
  unfold TSystem.truncate at hs
  split at hs
  case isTrue =>
    obtain rfl := Except.ok.inj hs
    exact ⟨⟨K, h, rfl⟩, fun r hr _ => ⟨hr, rfl, rfl⟩⟩
  obtain ⟨s₂, h₂, hs⟩ := Loop.bind_eq_ok hs
  obtain ⟨s₃, h₃, hs⟩ := Loop.bind_eq_ok hs
  have hsave := revalued_mapOverObservations (S := S) .save s
  obtain ⟨hK₂, hpresent₂, hkept₂⟩ := summarizeState_observations (h.revalued hsave) h₂
  obtain ⟨K₃, hK₃, hpresent₃, hcell₃, hkept₃⟩ := removeOldVariables_observations hK₂ h₃
  have hinstalled : Same s₃ (s₃.installNewState S) := (constrains_newClauses []).same.solver _
  have hcell₄ : (s₃.installNewState S).cell = s₃.cell := rfl
  have hK₄ := hK₃.same hinstalled
  have hobs₄ := hinstalled.observations
  generalize s₃.installNewState S = s₄ at hs hinstalled hcell₄ hK₄ hobs₄
  have hrestore := revalued_mapOverObservations (S := S) .restore s₄
  have hpresent₅ : (s₄.mapOverObservations S .restore).presentVariables = s.presentVariables := by
    obtain ⟨f, t, heq⟩ := hrestore.rest
    obtain ⟨f', t', heq'⟩ := hsave.rest
    rw [heq]
    exact (hinstalled.present.trans hpresent₃).trans (hpresent₂.trans (by rw [heq']))
  have hkept₅ : ObservationsKept horizon s (s₄.mapOverObservations S .restore) := by
    intro r hr htime
    have hr₁ : r ∈ (s.mapOverObservations S .save).observations := hsave.observations ▸ hr
    obtain ⟨hr₂, htime₂, hsaved₂⟩ := hkept₂ r hr₁
    rw [hsave.timeOf] at htime₂
    have hr₃ := hkept₃ r hr₂ (htime₂ ▸ htime)
    have hr₄ : r ∈ s₄.observations := hobs₄ ▸ hr₃
    refine ⟨hrestore.observations ▸ hr₄, ?_, ?_⟩
    · rw [hrestore.timeOf, TSystem.timeOf, hcell₄, hcell₃]
      exact htime₂
    · rw [mapOverObservations_eq, cell_foldl_restore, if_pos hr₄, hcell₄, hcell₃]
      refine hsaved₂.trans ?_
      rw [mapOverObservations_eq, cell_foldl_save, if_pos hr]
  have hK₅ := hK₄.revalued hrestore
  generalize s₄.mapOverObservations S .restore = s₅ at hs hpresent₅ hkept₅ hK₅
  obtain rfl := Except.ok.inj hs
  split
  case h_1 =>
    have hsame : Same s₅ (s₅.propagate S).2 := same_propagate
    refine ⟨⟨K₃, hK₅.same hsame, hpresent₅⟩, fun r hr htime => ?_⟩
    obtain ⟨hr₅, htime₅, hvalue₅⟩ := hkept₅ r hr htime
    exact ⟨hsame.observations ▸ hr₅, htime₅, hvalue₅⟩
  case h_2 c cs hcs =>
    have hsame := same_install (S := S) (s := s₅) c
    have hc : ∀ a ∈ c, (s₅.kindOf a.1).isAssumption = true := fun a ha =>
      (hK₅.candidates c (hcs ▸ List.mem_cons_self) a ha).2
    refine ⟨⟨K₃, hK₅.same hsame, hsame.present.trans hpresent₅⟩, fun r hr htime => ?_⟩
    obtain ⟨hr₅, htime₅, hvalue₅⟩ := hkept₅ r hr htime
    have hcell := hK₅.cell_install (S := S) hc (hK₅.observed r (hK₅.mem_of_observations hr₅)).2.1
    refine ⟨hsame.observations ▸ hr₅, ((hsame.cell r).2.1).trans htime₅, ?_⟩
    rw [hcell]
    exact hvalue₅

end Transition
end Livingstone
