import Livingstone.Transition.LtmsSolver
import Livingstone.Transition.Observations

/-! Runs of the transition system: every reachable state has its histories in order, so a truncation
keeps the observations of the time steps that stay. -/

namespace Livingstone
namespace Transition

variable {σ : Type} {S : Solver σ} {s s₀ s' : TSystem σ} {K : Set Ref} {v : Ref}

theorem same_createConstraint {pos neg : List ProtoAssignment} {stateConstraint : Bool}
    (h : s.createConstraint S pos neg stateConstraint = .ok s') : Same s s' := by
  have hadd : Same s (if stateConstraint then
      { s with stateConstraintPrototypes := (pos, neg) :: s.stateConstraintPrototypes }
      else s) := by
    split
    · exact { cell := fun _ => ⟨rfl, rfl, rfl⟩, modes := fun _ => ⟨rfl, rfl⟩ }
    · exact Same.refl s
  obtain ⟨positive, -, h⟩ := Loop.bind_eq_ok h
  obtain ⟨negative, -, h⟩ := Loop.bind_eq_ok h
  obtain rfl := Except.ok.inj h
  exact hadd.trans (constrains_createClause _ _ _).same

theorem same_addTransitionCost (m : Ref) (cost : UInt32) : Same s (s.addTransitionCost m cost) := by
  have hmode : Same s (s.setMode m { s.modeCell m with
      transitionCosts := (s.modeCell m).transitionCosts ++ [cost] }) := same_setMode rfl rfl
  exact hmode.trans (same_setVariable rfl rfl rfl)

theorem Built.tidy (h : Built S s) : ∃ K, Tidy K s := by
  induction h with
  | empty t historyLength maxTruncatedCandidates progressUsesFull =>
    exact ⟨∅, tidy_empty t historyLength maxTruncatedCandidates progressUsesFull⟩
  | created d _ hs ih =>
    obtain ⟨K, hK⟩ := ih
    exact hK.createVariable hs
  | constraint pos neg stateConstraint _ hs ih =>
    obtain ⟨K, hK⟩ := ih
    exact ⟨K, hK.same (same_createConstraint hs)⟩
  | cost cost _ _ _ ih =>
    obtain ⟨K, hK⟩ := ih
    exact ⟨K, hK.same (same_addTransitionCost _ cost)⟩
  | prototype p _ _ _ ih =>
    obtain ⟨K, hK⟩ := ih
    exact ⟨K, hK.same (same_setMode rfl rfl)⟩

theorem same_initialValues {initial : List (Ref × ℕ)}
    (hs : initial.foldlM (fun s v =>
      if s.kindOf v.1 = .transitioned then do
        let (_, s) ← s.setInitialMode S 0 (some v.2) now true v.1
        return s
      else pure (s.observe S v.1 (some v.2))) s = .ok s') : Same s s' := by
  refine same_foldlM (fun s₁ a s₂ h₂ => ?_) hs
  split at h₂
  · obtain ⟨⟨c, s₃⟩, h₃, h₂⟩ := Loop.bind_eq_ok h₂
    obtain rfl := Except.ok.inj h₂
    exact (constrains_setInitialMode h₃).same
  · obtain rfl := Except.ok.inj h₂
    exact same_observe _ _

theorem Tidy.createInitialState (h : Tidy K s) {initial : List (Ref × ℕ)}
    (hs : s.createInitialState S initial = .ok s') : Tidy K s' := by
  obtain ⟨s₁, h₁, hs⟩ := Loop.bind_eq_ok hs
  obtain ⟨s₂, h₂, hs⟩ := Loop.bind_eq_ok hs
  obtain rfl := Except.ok.inj hs
  have hassigned := ((h.grows (grows_createStateVar h₁)).same (same_initialValues h₂)).same
    (same_assign (S := S) s₂.stateVar (some 0))
  exact hassigned.nextTimestep.same same_propagate

theorem Tidied.nextTimestep (h : Tidied s₀ s) : Tidied s₀ s.nextTimestep := by
  obtain ⟨K, hK, hpresent⟩ := h
  exact ⟨K, hK.nextTimestep, hpresent⟩

theorem Tidied.copyInPast (h : Tidied s₀ s) {kind : Kind} (hkind : kind.isAssumption = false)
    (hv : v ∈ s₀.present) : Tidied s₀ (s.copyInPast S kind v).2 := by
  rw [← h.present] at hv
  obtain ⟨K, hK, hpresent⟩ := h
  obtain ⟨K', hK', hpresent', -⟩ := hK.copyInPast S kind hkind hv
  exact ⟨K', hK', hpresent'.trans hpresent⟩

theorem Tidied.foldl {α : Type} {f : TSystem σ → α → TSystem σ} {l : List α}
    (hf : ∀ a ∈ l, ∀ s, Tidied s₀ s → Tidied s₀ (f s a)) (h : Tidied s₀ s) :
    Tidied s₀ (l.foldl f s) := by
  induction l generalizing s with
  | nil => exact h
  | cons a l ih =>
    rw [List.forall_mem_cons] at hf
    exact ih hf.2 (hf.1 s h)

theorem Tidied.fullProgressCopy (h : Tidied s₀ s) (hv : v ∈ s₀.present) :
    Tidied s₀ (s.fullProgressCopy S v) := by
  unfold TSystem.fullProgressCopy
  dsimp only
  split
  · exact (h.copyInPast rfl hv).same (same_setExogenouslyAssigned _ _)
  · split
    · exact h.copyInPast rfl hv
    · exact h

theorem Tidied.fullProgressCopyVariables {command : Option (Ref × ℕ)} (h : Tidied s₀ s)
    (hs : s.fullProgressCopyVariables S command = .ok s') : Tidied s₀ s' := by
  have hcopied : Tidied s₀ (s.present.foldl (TSystem.fullProgressCopy S) s) :=
    h.foldl fun v hv s₁ h₁ => h₁.fullProgressCopy (h.present ▸ hv)
  refine hcopied.foldlM (fun m hm s₁ s₂ h₁ hs => ?_) hs
  rw [h.present] at hm
  split at hs
  case isFalse =>
    obtain rfl := Except.ok.inj hs
    exact h₁
  case isTrue hmode =>
    split at hs
    · exact h₁.transition hm hmode hs
    · exact h₁.idle hm hmode hs

theorem constrains_fullProgressCreateConstraints
    (h : s.fullProgressCreateConstraints S = .ok s') : Constrains s s' := by
  refine constrains_foldlM (fun s₁ c s₂ hs => ?_) h
  obtain ⟨positive, -, hs⟩ := Loop.bind_eq_ok hs
  obtain ⟨negative, -, hs⟩ := Loop.bind_eq_ok hs
  obtain rfl := Except.ok.inj hs
  exact constrains_createClause _ _ _

theorem same_fullProgressAssign {command : Option (Ref × ℕ)}
    (h : s.fullProgressAssign S command v = .ok s') : Same s s' := by
  unfold TSystem.fullProgressAssign at h
  split at h
  case isFalse =>
    obtain rfl := Except.ok.inj h
    exact Same.refl s
  case isTrue =>
    split at h
    · cases h
    · split at h
      all_goals
        obtain rfl := Except.ok.inj h
        exact (same_assign _ _).trans (same_setExogenouslyAssigned _ _)

theorem Tidy.truncateIfNeeded (h : Tidy K s) (hs : s.truncateIfNeeded S = .ok s') :
    Tidied s s' := by
  unfold TSystem.truncateIfNeeded at hs
  split at hs
  · exact (truncate_spec h hs).1
  · obtain rfl := Except.ok.inj hs
    exact ⟨K, h, rfl⟩

theorem Tidy.minimalProgress (h : Tidy K s) {command : Option (Ref × ℕ)}
    (hcommand : ∀ a, command = some a → a.1 ∈ s.present)
    (hs : s.minimalProgress S command = .ok s') : Tidied s s' := by
  obtain ⟨s₁, h₁, hs⟩ := Loop.bind_eq_ok hs
  have hstart := h.truncateIfNeeded h₁
  cases command with
  | none =>
    obtain rfl := Except.ok.inj hs
    exact hstart.nextTimestep
  | some a =>
    dsimp only at hs
    obtain ⟨s₂, h₂, hs⟩ := Loop.bind_eq_ok hs
    obtain rfl := Except.ok.inj hs
    have hcopied : Tidied s (s₁.copyInPast S .command a.1).2 :=
      hstart.copyInPast rfl (hcommand a rfl)
    have hmoved : Tidied s s₂ := by
      refine hcopied.foldlM (fun m hm s₃ s₄ h₃ hs => ?_) h₂
      rw [hcopied.present] at hm
      split at hs
      case isTrue hmode => exact h₃.transition hm hmode.1 hs
      case isFalse =>
        obtain rfl := Except.ok.inj hs
        exact h₃
    generalize (s₁.copyInPast S .command a.1).1 = past
    have hassigned := (hmoved.same (same_assign (S := S) past (some a.2))).same
      (same_setExogenouslyAssigned past true)
    exact (hassigned.same same_propagate).nextTimestep

theorem Tidy.fullProgress (h : Tidy K s) {command : Option (Ref × ℕ)}
    (hs : s.fullProgress S command = .ok s') : Tidied s s' := by
  obtain ⟨s₁, h₁, hs⟩ := Loop.bind_eq_ok hs
  obtain ⟨s₂, h₂, hs⟩ := Loop.bind_eq_ok hs
  obtain ⟨s₃, h₃, hs⟩ := Loop.bind_eq_ok hs
  obtain ⟨s₄, h₄, hs⟩ := Loop.bind_eq_ok hs
  obtain rfl := Except.ok.inj hs
  have hcopied := (h.truncateIfNeeded h₁).fullProgressCopyVariables h₂
  have hassigned := (hcopied.same (constrains_fullProgressCreateConstraints h₃).same).same
    (same_foldlM (fun _ _ _ hs => same_fullProgressAssign hs) h₄)
  exact (hassigned.same same_propagate).nextTimestep

theorem Tidy.progress (h : Tidy K s) {command : Option (Ref × ℕ)}
    (hcommand : ∀ a, command = some a → a.1 ∈ s.present)
    (hs : s.progress S command = .ok s') : Tidied s s' := by
  unfold TSystem.progress at hs
  split at hs
  · exact h.fullProgress hs
  · exact h.minimalProgress hcommand hs

theorem Reachable.tidy (h : Reachable S s) : ∃ K, Tidy K s := by
  induction h with
  | start initial hbuilt _ hs =>
    obtain ⟨K, hK⟩ := hbuilt.tidy
    exact ⟨K, hK.createInitialState hs⟩
  | observe value _ _ _ ih =>
    obtain ⟨K, hK⟩ := ih
    exact ⟨K, hK.same (same_observe _ value)⟩
  | progress command _ hcommand hs ih =>
    obtain ⟨K, hK⟩ := ih
    obtain ⟨K', hK', -⟩ := hK.progress (fun a ha => (hcommand a ha).1) hs
    exact ⟨K', hK'⟩
  | truncate horizon _ hs ih =>
    obtain ⟨K, hK⟩ := ih
    obtain ⟨⟨K', hK', -⟩, -⟩ := truncate_spec hK hs
    exact ⟨K', hK'⟩
  | assume value _ _ ih =>
    obtain ⟨K, hK⟩ := ih
    exact ⟨K, hK.same (same_assign _ value)⟩
  | propagate _ ih =>
    obtain ⟨K, hK⟩ := ih
    exact ⟨K, hK.same same_propagate⟩
  | candidates cs _ hcs ih =>
    obtain ⟨K, hK⟩ := ih
    exact ⟨K, hK.setCandidates fun c hc a ha => hK.assumptions a.1 (hcs c hc a ha)⟩

/-- The observations of the time steps that stay have the values that they had. -/
theorem truncate_keeps_observations (h : Reachable S s) (horizon : UInt32)
    (hs : s.truncate S horizon = .ok s') : ObservationsKept horizon s s' := by
  obtain ⟨K, hK⟩ := h.tidy
  exact (truncate_spec hK hs).2

namespace Observed

def blank : TSystem Ltms := TSystem.empty {} 0 0 true

def model : TSystem Ltms :=
  valueOr (TSystem.createVariable ltmsSolver (.observable 2 0) blank) blank

def start : TSystem Ltms :=
  valueOr (TSystem.createInitialState ltmsSolver [(0, 1)] model) model

def step : TSystem Ltms := valueOr (TSystem.progress ltmsSolver none start) start

def seen : TSystem Ltms := TSystem.observe ltmsSolver 0 (some 0) step

def steps : TSystem Ltms := valueOr (TSystem.progress ltmsSolver none seen) seen

def truncated : TSystem Ltms := valueOr (TSystem.truncate ltmsSolver 2 steps) steps

-- one evaluation of the run, for all that is said of its states
theorem evaluated :
    ((TSystem.createVariable ltmsSolver (.observable 2 0) blank).isOk = true ∧
      (∀ v ∈ [((0, 1) : Ref × ℕ)], v.1 ∈ model.present ∧
        (model.kindOf v.1 = .transitioned ∨ model.kindOf v.1 = .observable)) ∧
      (TSystem.createInitialState ltmsSolver [(0, 1)] model).isOk = true) ∧
    ((TSystem.progress ltmsSolver none start).isOk = true ∧
      0 ∈ step.present ∧ step.kindOf 0 = .observable ∧
      (TSystem.progress ltmsSolver none seen).isOk = true) ∧
    3 ∈ steps.observations ∧ ¬ steps.timeOf 3 < 2 ∧
      (TSystem.truncate ltmsSolver 2 steps).isOk = true := by
  decide +kernel

theorem reachable_start : Reachable ltmsSolver start := by
  obtain ⟨⟨hcreated, hinitial, hstart⟩, -⟩ := evaluated
  have hmodel : Built ltmsSolver model :=
    Built.created _ (Built.empty {} 0 0 true) (eq_valueOr blank hcreated)
  exact Reachable.start [(0, 1)] hmodel hinitial (eq_valueOr model hstart)

theorem reachable_steps : Reachable ltmsSolver steps := by
  obtain ⟨-, ⟨hprogress, hpresent, hkind, hprogress'⟩, -⟩ := evaluated
  have hstep : Reachable ltmsSolver step :=
    Reachable.progress none reachable_start (by simp) (eq_valueOr start hprogress)
  have hseen : Reachable ltmsSolver seen := Reachable.observe (some 0) hstep hpresent hkind
  exact Reachable.progress none hseen (by simp) (eq_valueOr seen hprogress')

end Observed

theorem truncate_keeps_observations_steps : 3 ∈ Observed.steps.observations ∧
    ¬ Observed.steps.timeOf 3 < 2 ∧ ObservationsKept 2 Observed.steps Observed.truncated := by
  obtain ⟨-, -, hmem, htime, htruncated⟩ := Observed.evaluated
  exact ⟨hmem, htime, truncate_keeps_observations Observed.reachable_steps 2
    (eq_valueOr Observed.steps htruncated)⟩

end Transition
end Livingstone
