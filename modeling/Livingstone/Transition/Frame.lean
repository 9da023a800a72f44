import Livingstone.Transition.Additions

/-! What the operations leave alone: most of them change values and clauses, and neither the list of
the variables nor the time. A truncation comes down to a new state variable and a removal. -/

namespace Livingstone
namespace Transition

variable {σ : Type} {S : Solver σ} {s s₁ s' : TSystem σ} {horizon : UInt32} {r v : Ref}

/-- The same variables with the same links. -/
structure Alike (s s' : TSystem σ) : Prop where
  links : s'.links = s.links
  list : s'.variableList = s.variableList
  present : s'.presentVariables = s.presentVariables
  fresh : s'.fresh = s.fresh
  cell : ∀ r, s'.kindOf r = s.kindOf r ∧ s'.timeOf r = s.timeOf r
  modes : ∀ m, (s'.modeCell m).zenithTransition = (s.modeCell m).zenithTransition ∧
    (s'.modeCell m).horizonTransition = (s.modeCell m).horizonTransition

theorem Alike.trans (h : Alike s s₁) (h' : Alike s₁ s') : Alike s s' where
  links := h'.links.trans h.links
  list := h'.list.trans h.list
  present := h'.present.trans h.present
  fresh := h'.fresh.trans h.fresh
  cell r := ⟨(h'.cell r).1.trans (h.cell r).1, (h'.cell r).2.trans (h.cell r).2⟩
  modes m := ⟨(h'.modes m).1.trans (h.modes m).1, (h'.modes m).2.trans (h.modes m).2⟩

theorem Alike.present_eq (ha : Alike s s') : s'.present = s.present :=
  congrArg (List.filterMap id) ha.present

theorem Same.alike (h : Same s s') : Alike s s' where
  links := h.links
  list := h.list
  present := h.present
  fresh := h.fresh
  cell r := ⟨(h.cell r).1, (h.cell r).2.1⟩
  modes := h.modes

theorem Revalued.alike (h : Revalued s s') : Alike s s' := by
  have hkind := h.kindOf
  have htime := h.timeOf
  obtain ⟨f, t, rfl⟩ := h.rest
  exact ⟨rfl, rfl, rfl, rfl, fun r => ⟨congrFun hkind r, congrFun htime r⟩, fun _ => ⟨rfl, rfl⟩⟩

/-- Only what variables and modes have is changed, and clauses, candidates and assumptions. -/
def Touches (s s' : TSystem σ) : Prop :=
  ∃ t f g cs ds ps as, s' = { s with
    solver := t
    cell := f
    modeCell := g
    newClauses := cs
    candidates := ds
    stateConstraintPrototypes := ps
    assumptions := as }

theorem Touches.refl (s : TSystem σ) : Touches s s := ⟨_, _, _, _, _, _, _, rfl⟩

theorem Touches.trans (h : Touches s s₁) (h' : Touches s₁ s') : Touches s s' := by
  obtain ⟨t, f, g, cs, ds, ps, as, rfl⟩ := h
  obtain ⟨t', f', g', cs', ds', ps', as', rfl⟩ := h'
  exact ⟨t', f', g', cs', ds', ps', as', rfl⟩

theorem Touches.foldl {α : Type} {f : TSystem σ → α → TSystem σ} (hf : ∀ s a, Touches s (f s a))
    (l : List α) (s : TSystem σ) : Touches s (l.foldl f s) :=
  Loop.foldl_left (fun _ => Touches s) (fun a _ x hx => hx.trans (hf x a)) (Touches.refl s)

theorem Touches.foldlM {α : Type} {f : TSystem σ → α → Except L2Error (TSystem σ)} {l : List α}
    (hf : ∀ s a s', f s a = .ok s' → Touches s s') (h : l.foldlM f s = .ok s') : Touches s s' :=
  Loop.foldlM_inv (Touches s) l (fun a _ s₁ s₂ h₁ hs => h₁.trans (hf s₁ a s₂ hs)) (Touches.refl s) h

theorem Constrains.touches (h : Constrains s s') : Touches s s' := by
  obtain ⟨t, f, cs, rfl⟩ := h.rest
  exact ⟨_, _, _, _, _, _, _, rfl⟩

theorem Revalued.touches (h : Revalued s s') : Touches s s' := by
  obtain ⟨f, t, rfl⟩ := h.rest
  exact ⟨_, _, _, _, _, _, _, rfl⟩

theorem touches_assign (r : Ref) (value : Option ℕ) : Touches s (s.assign S r value) := by
  obtain ⟨t, ht⟩ := assign_eq (S := S) (s := s) r value
  exact ⟨_, _, _, _, _, _, _, ht⟩

theorem touches_setExogenouslyAssigned (r : Ref) (b : Bool) :
    Touches s (s.setExogenouslyAssigned r b) := ⟨_, _, _, _, _, _, _, rfl⟩

theorem touches_propagate : Touches s (s.propagate S).2 := ⟨_, _, _, _, _, _, _, rfl⟩

theorem touches_observe (r : Ref) (value : Option ℕ) : Touches s (s.observe S r value) := by
  unfold TSystem.observe
  refine Touches.trans ?_ (touches_setExogenouslyAssigned r _)
  cases value with
  | none =>
    obtain ⟨t, ht⟩ := unassign_eq (S := S) (s := s) r
    exact ⟨_, _, _, _, _, _, _, ht⟩
  | some i => exact touches_assign r (some i)

theorem touches_install (c : Candidate) : Touches s (s.install S c) := by
  have hdefaults : Touches s (s.restoreAssumptionDefaults S) :=
    Touches.foldl (fun _ r => touches_assign r _) s.assumptions s
  have hcandidate : Touches s ((s.restoreAssumptionDefaults S).assignCandidate S c) :=
    hdefaults.trans (Touches.foldl (fun _ a => touches_assign a.1 _) c _)
  exact hcandidate.trans touches_propagate

theorem touches_mapModes {f : Ref → TSystem σ → TSystem σ} (hf : ∀ m s, Touches s (f m s))
    (s : TSystem σ) : Touches s (s.mapModes f) := by
  refine Touches.foldl (fun s m => ?_) s.present s
  split
  · exact hf m s
  · exact Touches.refl s

theorem touches_summarizeCandidates {truncationLimit i : ℕ} {cs cs' : List Candidate}
    (hs : s.summarizeCandidates S horizon truncationLimit i cs = .ok (cs', s')) :
    Touches s s' := by
  induction cs generalizing s i cs' with
  | nil =>
    obtain ⟨-, rfl⟩ := Prod.mk.inj (Except.ok.inj hs)
    exact Touches.refl s
  | cons c cs ih =>
    have hinstalled : Touches s ((s.install S c).propagate S).2 :=
      (touches_install c).trans touches_propagate
    unfold TSystem.summarizeCandidates at hs
    split at hs
    case isFalse =>
      obtain ⟨-, rfl⟩ := Prod.mk.inj (Except.ok.inj hs)
      exact Touches.refl s
    case isTrue =>
      dsimp only at hs
      split at hs
      · obtain ⟨s₁, h₁, hs⟩ := Loop.bind_eq_ok hs
        obtain ⟨⟨rest, s₂⟩, h₂, hs⟩ := Loop.bind_eq_ok hs
        obtain ⟨-, rfl⟩ := Prod.mk.inj (Except.ok.inj hs)
        have hsummarized := hinstalled.trans (constrains_summarizeVariables h₁).touches
        have htruncated : Touches s₁ (s₁.truncateCandidate horizon (s₁.stateVar, i) c).2 :=
          ⟨_, _, _, _, _, _, _, rfl⟩
        exact (hsummarized.trans htruncated).trans (ih h₂)
      · exact hinstalled.trans (ih hs)

theorem touches_fullProgressAssign {command : Option (Ref × ℕ)}
    (hs : s.fullProgressAssign S command v = .ok s') : Touches s s' := by
  unfold TSystem.fullProgressAssign at hs
  split at hs
  case isFalse =>
    obtain rfl := Except.ok.inj hs
    exact Touches.refl s
  case isTrue =>
    split at hs
    · cases hs
    · split at hs
      all_goals
        obtain rfl := Except.ok.inj hs
        exact (touches_assign _ _).trans (touches_setExogenouslyAssigned _ _)

theorem touches_createConstraint {pos neg : List ProtoAssignment} {stateConstraint : Bool}
    (h : s.createConstraint S pos neg stateConstraint = .ok s') : Touches s s' := by
  obtain ⟨positive, -, h⟩ := Loop.bind_eq_ok h
  obtain ⟨negative, -, h⟩ := Loop.bind_eq_ok h
  obtain rfl := Except.ok.inj h
  cases stateConstraint <;> exact ⟨_, _, _, _, _, _, _, rfl⟩

theorem touches_initialValues {initial : List (Ref × ℕ)}
    (hs : initial.foldlM (fun s v =>
      if s.kindOf v.1 = .transitioned then do
        let (_, s) ← s.setInitialMode S 0 (some v.2) now true v.1
        return s
      else pure (s.observe S v.1 (some v.2))) s = .ok s') : Touches s s' := by
  refine Touches.foldlM (fun s₁ a s₂ h₂ => ?_) hs
  split at h₂
  · obtain ⟨⟨c, s₃⟩, h₃, h₂⟩ := Loop.bind_eq_ok h₂
    obtain rfl := Except.ok.inj h₂
    exact (constrains_setInitialMode h₃).touches
  · obtain rfl := Except.ok.inj h₂
    exact touches_observe _ _

def clock (s : TSystem σ) : UInt32 × Option Ref := (s.timestep, s.insertBefore)

theorem Touches.clock (h : Touches s s') : clock s' = clock s := by
  obtain ⟨t, f, g, cs, ds, ps, as, rfl⟩ := h
  rfl

theorem clock_createStateVar {nstates : ℕ} (h : s.createStateVar S horizon nstates = .ok s') :
    clock s' = (s.timestep, none) := by
  have hid := createStateVariable_id (S := S) (List.replicate nstates 0) horizon stateVarID
    (s.atHorizon horizon)
  have hadds := adds_newAssignable (S := S) .stateVariable (List.replicate nstates 0) horizon
    stateVarID (s.atHorizon horizon)
  have hat : (s.atHorizon horizon).timestep = s.timestep := by
    unfold TSystem.atHorizon
    split <;> rfl
  unfold TSystem.createStateVar at h
  split at h
  · cases h
  dsimp only at h
  split at h
  · obtain ⟨s₁, h₁, h⟩ := Loop.bind_eq_ok h
    exact absurd hid (registerNewVariable_eq h₁).2.2.1
  · obtain rfl := Except.ok.inj h
    exact congrArg (·, none) (hadds.timestep.trans hat)

theorem touches_removeOldModeTransition (horizon : UInt32) (m : Ref) (s : TSystem σ) :
    Touches s (s.removeOldModeTransition horizon m) := by
  unfold TSystem.removeOldModeTransition
  dsimp only
  split
  · exact ⟨_, _, _, _, _, _, _, rfl⟩
  · exact Touches.refl s

theorem touches_removeDestroyedClauses (s : TSystem σ) :
    Touches s (s.mapModes (TSystem.removeDestroyedClauses S)) :=
  touches_mapModes (fun _ _ => ⟨_, _, _, _, _, _, _, rfl⟩) s

theorem clock_removeOldVariables (hs : s.removeOldVariables S horizon = .ok s') :
    clock s' = clock s := by
  have hmodes := (touches_mapModes (touches_removeOldModeTransition horizon) s).clock
  have hdestroyed (l : List Ref) (x : TSystem σ) :
      clock (l.foldl (TSystem.destroyVariable S) x) = clock x := by
    obtain ⟨t, ht⟩ := foldl_destroyVariable S l x
    rw [ht]
    rfl
  unfold TSystem.removeOldVariables at hs
  dsimp only at hs
  generalize s.mapModes (TSystem.removeOldModeTransition horizon) = s₁ at *
  split at hs
  · cases hs
  · obtain rfl := Except.ok.inj hs
    exact ((touches_removeDestroyedClauses _).clock.trans (hdestroyed _ _)).trans hmodes

/-- But for the new state variable, a summary of the state leaves the variables as they are. -/
theorem summarizeState_steps (hs : s.summarizeState S horizon = .ok s') : ∃ s₁ s₂ n,
    Revalued s s₁ ∧ s₁.createStateVar S horizon n = .ok s₂ ∧ Alike s₂ s' ∧ Touches s₂ s' := by
  unfold TSystem.summarizeState at hs
  split at hs
  case isTrue =>
    obtain ⟨s₁, h₁, hs⟩ := Loop.bind_eq_ok hs
    refine ⟨_, s₁, _, revalued_mapOverObservations .unassign s, h₁, Same.alike ?_, ?_⟩
    · refine same_foldlM (fun s₂ i s₃ h₃ => ?_) hs
      exact (same_assign _ _).trans (constrains_summarizeVariables h₃).same
    · refine Touches.foldlM (fun s₂ i s₃ h₃ => ?_) hs
      exact (touches_assign _ _).trans (constrains_summarizeVariables h₃).touches
  case isFalse =>
    obtain ⟨s₁, h₁, hs⟩ := Loop.bind_eq_ok hs
    obtain ⟨⟨cs, t⟩, h₂, hs⟩ := Loop.bind_eq_ok hs
    obtain rfl := Except.ok.inj hs
    have hset : Alike t { t with candidates := cs } :=
      ⟨rfl, rfl, rfl, rfl, fun _ => ⟨rfl, rfl⟩, fun _ => ⟨rfl, rfl⟩⟩
    have htouches : Touches t { t with candidates := cs } := ⟨_, _, _, _, _, _, _, rfl⟩
    exact ⟨s, s₁, _, Revalued.refl s, h₁, (summarizeCandidates_same h₂).1.alike.trans hset,
      (touches_summarizeCandidates h₂).trans htouches⟩

theorem clock_summarizeState (hs : s.summarizeState S horizon = .ok s') :
    clock s' = (s.timestep, none) := by
  obtain ⟨s₁, s₂, n, hrevalued, h₁, -, htouches⟩ := summarizeState_steps hs
  rw [htouches.clock, clock_createStateVar h₁]
  exact congrArg (·, none) (congrArg Prod.fst hrevalued.touches.clock)

/-- A truncation, when there is something to truncate, is a summary and a removal. -/
theorem truncate_steps (hs : s.truncate S horizon = .ok s') :
    (horizon ≤ s.oldestTimestep ∧ s' = s) ∨ s.oldestTimestep < horizon ∧ ∃ s₁ s₂,
      (s.mapOverObservations S .save).summarizeState S horizon = .ok s₁ ∧
      s₁.removeOldVariables S horizon = .ok s₂ ∧ Alike s₂ s' ∧ Touches s₂ s' := by
  unfold TSystem.truncate at hs
  split at hs
  case isTrue hle => exact Or.inl ⟨hle, (Except.ok.inj hs).symm⟩
  case isFalse hlt =>
    obtain ⟨s₁, h₁, hs⟩ := Loop.bind_eq_ok hs
    obtain ⟨s₂, h₂, hs⟩ := Loop.bind_eq_ok hs
    have hinstalled : Same s₂ (s₂.installNewState S) := (constrains_newClauses []).same.solver _
    have htouches : Touches s₂ (s₂.installNewState S) := ⟨_, _, _, _, _, _, _, rfl⟩
    have hrestore := revalued_mapOverObservations (S := S) .restore (s₂.installNewState S)
    have hrestored := hinstalled.alike.trans hrestore.alike
    have htouched := htouches.trans hrestore.touches
    refine Or.inr ⟨UInt32.not_le.mp hlt, s₁, s₂, h₁, h₂, ?_⟩
    obtain rfl := Except.ok.inj hs
    split
    · exact ⟨hrestored.trans same_propagate.alike, htouched.trans touches_propagate⟩
    · exact ⟨hrestored.trans (same_install _).alike, htouched.trans (touches_install _)⟩

theorem clock_truncate (hs : s.truncate S horizon = .ok s') :
    clock s' = clock s ∨ clock s' = (s.timestep, none) := by
  rcases truncate_steps hs with ⟨-, rfl⟩ | ⟨-, s₁, s₂, h₁, h₂, -, htouches⟩
  · exact Or.inl rfl
  · have hsave := (revalued_mapOverObservations (S := S) .save s).touches.clock
    refine Or.inr ?_
    calc clock s'
      _ = clock s₂ := htouches.clock
      _ = clock s₁ := clock_removeOldVariables h₂
      _ = ((s.mapOverObservations S .save).timestep, none) := clock_summarizeState h₁
      _ = (s.timestep, none) := congrArg (·, none) (congrArg Prod.fst hsave)

theorem timestep_truncate (hs : s.truncate S horizon = .ok s') : s'.timestep = s.timestep := by
  rcases clock_truncate hs with h | h
  · exact congrArg Prod.fst h
  · exact congrArg Prod.fst h

theorem insertBefore_truncate (h : s.insertBefore = none) (hs : s.truncate S horizon = .ok s') :
    s'.insertBefore = none := by
  rcases clock_truncate hs with hc | hc
  · exact (congrArg Prod.snd hc).trans h
  · exact congrArg Prod.snd hc

end Transition
end Livingstone
