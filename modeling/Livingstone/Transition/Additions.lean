import Livingstone.Transition.Observations

/-! What a progress does to the variables that there are: it copies them, and leaves them as they
are. -/

namespace Livingstone
namespace Transition

open Function (update update_self update_of_ne)

variable {σ : Type} {S : Solver σ} {s s₀ s₁ s' : TSystem σ} {K : Set Ref} {m r v : Ref}

/-- The variables of the present stay, and every old variable is as it was. -/
structure Adds (s s' : TSystem σ) : Prop where
  fresh : s.fresh ≤ s'.fresh
  present : s'.presentVariables = s.presentVariables
  timestep : s'.timestep = s.timestep
  cell : ∀ r : ℕ, r < s.fresh → s'.cell r = s.cell r
  insertBefore : s.insertBefore = none → s'.insertBefore = none

theorem Adds.refl (s : TSystem σ) : Adds s s := ⟨le_rfl, rfl, rfl, fun _ _ => rfl, id⟩

theorem Adds.trans (h : Adds s s₁) (h' : Adds s₁ s') : Adds s s' where
  fresh := h.fresh.trans h'.fresh
  present := h'.present.trans h.present
  timestep := h'.timestep.trans h.timestep
  cell r hr := (h'.cell r (hr.trans_le h.fresh)).trans (h.cell r hr)
  insertBefore hnone := h'.insertBefore (h.insertBefore hnone)

theorem Adds.kindOf (h : Adds s s') (hr : r < s.fresh) : s'.kindOf r = s.kindOf r := by
  unfold TSystem.kindOf
  rw [h.cell r hr]

theorem Adds.timeOf (h : Adds s s') (hr : r < s.fresh) : s'.timeOf r = s.timeOf r := by
  unfold TSystem.timeOf
  rw [h.cell r hr]

theorem Adds.present_eq (h : Adds s s') : s'.present = s.present :=
  congrArg (List.filterMap id) h.present

theorem Adds.foldl {α : Type} {f : TSystem σ → α → TSystem σ} (hf : ∀ s a, Adds s (f s a))
    (l : List α) (s : TSystem σ) : Adds s (l.foldl f s) := by
  induction l generalizing s with
  | nil => exact Adds.refl s
  | cons a l ih => exact (hf s a).trans (ih (f s a))

theorem Adds.foldlM {α : Type} {f : TSystem σ → α → Except L2Error (TSystem σ)} {l : List α}
    (hf : ∀ s a s', f s a = .ok s' → Adds s s') (h : l.foldlM f s = .ok s') : Adds s s' :=
  Loop.foldlM_inv (Adds s) l (fun a _ s₁ s₂ h₁ hs => h₁.trans (hf s₁ a s₂ hs)) (Adds.refl s) h

theorem Constrains.adds (h : Constrains s s') : Adds s s' := by
  obtain ⟨t, f, cs, rfl⟩ := h.rest
  exact ⟨le_rfl, rfl, rfl, fun _ _ => rfl, id⟩

theorem Adds.links (h : Adds s s') (L : Chain.Links Ref) : Adds s { s' with links := L } :=
  ⟨h.fresh, h.present, h.timestep, h.cell, h.insertBefore⟩

theorem Adds.setVariable (h : Adds s s') (hr : s.fresh ≤ r) (x : VariableCell) (t : σ) :
    Adds s { s'.setVariable r x with solver := t } := by
  refine ⟨h.fresh, h.present, h.timestep, fun q hq => ?_, h.insertBefore⟩
  have hne : q ≠ r := (hq.trans_le hr).ne
  exact (update_of_ne hne ..).trans (h.cell q hq)

theorem Adds.assign (h : Adds s s') (hr : s.fresh ≤ r) (value : Option ℕ) :
    Adds s (s'.assign S r value) := by
  obtain ⟨t, ht⟩ := assign_eq (S := S) (s := s') r value
  rw [ht]
  exact h.setVariable hr _ t

theorem Adds.setExogenouslyAssigned (h : Adds s s') (hr : s.fresh ≤ r) (b : Bool) :
    Adds s (s'.setExogenouslyAssigned r b) := h.setVariable hr _ s'.solver

theorem Adds.propagate (h : Adds s s') : Adds s (s'.propagate S).2 :=
  ⟨h.fresh, h.present, h.timestep, h.cell, h.insertBefore⟩

theorem adds_newVariable (kind : Kind) (nvalues : ℕ) (timeStep id : UInt32) (s : TSystem σ) :
    Adds s (s.newVariable S kind nvalues timeStep id).2 := by
  have hc := newVariable_created (S := S) kind nvalues timeStep id s
  refine ⟨hc.fresh ▸ Nat.le_succ _, hc.present, ?_, hc.cell, ?_⟩
  · unfold TSystem.newVariable TSystem.insertVariable
    dsimp only
    split <;> rfl
  · intro hnone
    simp [TSystem.newVariable, TSystem.insertVariable, hnone]

theorem adds_newAssignable (kind : Kind) (weights : List UInt32) (timeStep id : UInt32)
    (s : TSystem σ) : Adds s (s.newAssignable S kind weights timeStep id).2 := by
  have hc := newAssignable_created (S := S) kind weights timeStep id s
  have hadds := adds_newVariable (S := S) kind weights.length timeStep id s
  exact ⟨hc.fresh ▸ Nat.le_succ _, hc.present, hadds.timestep, hc.cell, hadds.insertBefore⟩

theorem adds_copyInPast (kind : Kind) (v : Ref) (s : TSystem σ) :
    Adds s (s.copyInPast S kind v).2 := by
  unfold TSystem.copyInPast
  dsimp only
  split
  · exact (adds_newAssignable _ _ _ _ s).links _
  · exact (adds_newVariable _ _ _ _ s).links _

theorem copyInPast_ref (kind : Kind) (v : Ref) (s : TSystem σ) :
    (s.copyInPast S kind v).1 = s.fresh := by
  obtain ⟨s₁, hc, -⟩ := copyInPast_created S kind v s
  exact hc.ref

theorem links_copyInPast (kind : Kind) (v : Ref) (s : TSystem σ) :
    (s.copyInPast S kind v).2.links = (s.links.clear s.fresh).insertPrevious v s.fresh := by
  obtain ⟨s₁, hc, heq⟩ := copyInPast_created S kind v s
  rw [heq, hc.links, hc.ref]

theorem previous_copyInPast (kind : Kind) (hv : v < s.fresh) (x : Ref) :
    (s.copyInPast S kind v).2.links.previous x =
      if x = v then some s.fresh else if x = s.fresh then s.links.previous v
      else s.links.previous x := by
  have hne : v ≠ s.fresh := hv.ne
  rw [links_copyInPast, Chain.previous_insertPrevious]
  split_ifs with hxv hx
  · rfl
  · simp [Chain.Links.clear, hne]
  · simp [Chain.Links.clear, hx]

theorem copyInPast_new (kind : Kind) (v : Ref) (s : TSystem σ) :
    s.fresh < (s.copyInPast S kind v).2.fresh ∧
      (s.copyInPast S kind v).2.timeOf s.fresh = s.timestep := by
  obtain ⟨s₁, hc, heq⟩ := copyInPast_created S kind v s
  rw [heq, ← hc.ref]
  refine ⟨?_, hc.time⟩
  have hfresh : s₁.fresh = s.fresh + 1 := hc.fresh
  dsimp only
  rw [hfresh, hc.ref]
  exact Nat.lt_succ_self _

theorem adds_createModeTransition (costs : List UInt32) (timeStep id : UInt32) (s : TSystem σ) :
    Adds s (s.createModeTransition S costs timeStep id).2 := by
  have hc := newAssignable_created (S := S) .transition costs timeStep id s
  have hadds := adds_newAssignable (S := S) .transition costs timeStep id s
  have hcreated : Adds s (s.createTransition S costs timeStep id).2 :=
    ⟨hadds.fresh, hadds.present, hadds.timestep, hadds.cell, hadds.insertBefore⟩
  exact hcreated.assign hc.ref.ge (some 0)

theorem adds_setMode (m : Ref) (x : ModeCell) (s : TSystem σ) : Adds s (s.setMode m x) :=
  ⟨le_rfl, rfl, rfl, fun _ _ => rfl, id⟩

theorem newTransitioned_adds (nvalues ntransitions : ℕ) (timeStep id : UInt32) (s : TSystem σ) :
    Adds s (s.newTransitioned S nvalues ntransitions timeStep id).2 ∧
      (s.newTransitioned S nvalues ntransitions timeStep id).1 = s.fresh ∧
      (s.newTransitioned S nvalues ntransitions timeStep id).2.kindOf s.fresh = .transitioned := by
  have hc := newVariable_created (S := S) .transitioned nvalues timeStep id s
  have hmode := adds_newVariable (S := S) .transitioned nvalues timeStep id s
  unfold TSystem.newTransitioned
  dsimp only
  generalize s.newVariable S .transitioned nvalues timeStep id = x at hc hmode ⊢
  have htransition := adds_createModeTransition (S := S) (List.replicate ntransitions 0) now id x.2
  have hlt : x.1 < x.2.fresh := by
    rw [hc.ref, hc.fresh]
    exact Nat.lt_succ_self _
  refine ⟨(hmode.trans htransition).trans (adds_setMode _ _ _), hc.ref, ?_⟩
  rw [← hc.ref]
  exact (htransition.kindOf hlt).trans hc.kind

theorem adds_createTransitionVariable_copy (m : Ref) (s : TSystem σ) :
    Adds (s.copyInPast S .dependent m).2 (s.createTransitionVariable S m) := by
  unfold TSystem.createTransitionVariable
  dsimp only
  refine Adds.trans ?_ (adds_setMode _ _ _)
  refine Adds.trans ?_ (constrains_splice m _).adds
  apply Adds.links
  exact (adds_createModeTransition _ _ _ _).trans (adds_setMode _ _ _)

theorem adds_createTransitionVariable (m : Ref) (s : TSystem σ) :
    Adds s (s.createTransitionVariable S m) :=
  (adds_copyInPast .dependent m s).trans (adds_createTransitionVariable_copy m s)

theorem createTransitionVariable_new (m : Ref) (s : TSystem σ) :
    s.fresh < (s.createTransitionVariable S m).fresh ∧
      (s.createTransitionVariable S m).timeOf s.fresh = s.timestep := by
  obtain ⟨hlt, htime⟩ := copyInPast_new (S := S) .dependent m s
  have hadds := adds_createTransitionVariable_copy (S := S) m s
  exact ⟨hlt.trans_le hadds.fresh, (hadds.timeOf hlt).trans htime⟩

theorem constrains_transition {a : Assignment} (hs : s.transition S m a = .ok s') :
    Constrains (s.createTransitionVariable S m) s' :=
  constrains_instantiateClauses hs

theorem constrains_idle (hs : s.idle S m = .ok s') :
    Constrains (s.createTransitionVariable S m) s' := by
  obtain ⟨s₁, h₁, hs⟩ := Loop.bind_eq_ok hs
  exact (constrains_addIdleTransitions h₁).trans (constrains_instantiateAutonomousClauses hs)

theorem links_createModeTransition (costs : List UInt32) (timeStep id : UInt32) (s : TSystem σ) :
    (s.createModeTransition S costs timeStep id).1 = s.fresh ∧
      (s.createModeTransition S costs timeStep id).2.links = s.links.clear s.fresh := by
  have hc := newAssignable_created (S := S) .transition costs timeStep id s
  have hs : Same _ (s.createModeTransition S costs timeStep id).2 :=
    same_assign (s := (s.createTransition S costs timeStep id).2)
      (s.createModeTransition S costs timeStep id).1 (some 0)
  refine ⟨hc.ref, ?_⟩
  rw [hs.links, ← hc.ref]
  exact hc.links

theorem links_createTransitionVariable (m : Ref) (s : TSystem σ) :
    (s.createTransitionVariable S m).links =
      (((s.links.clear s.fresh).insertPrevious m s.fresh).clear (s.fresh + 1)).insertPrevious
        (s.fresh + 1) (s.modeCell m).zenithTransition := by
  obtain ⟨s₁, hc, heq⟩ := copyInPast_created S .dependent m s
  have hlinks := links_copyInPast (S := S) .dependent m s
  unfold TSystem.createTransitionVariable
  dsimp only
  have hfresh : (s.copyInPast S .dependent m).2.fresh = s.fresh + 1 := by
    rw [heq]
    exact hc.fresh
  have hmode : (s.copyInPast S .dependent m).2.modeCell = s.modeCell := by
    rw [heq]
    exact hc.modes
  generalize (s.copyInPast S .dependent m).2 = s₂ at hlinks hfresh hmode ⊢
  obtain ⟨href, hnew⟩ := links_createModeTransition (S := S) (s₂.modeCell m).transitionCosts
    s₂.timestep (s₂.cell m).id s₂
  rw [hfresh] at href hnew
  rw [hlinks] at hnew
  rw [← hnew, ← hmode, ← href]
  rfl

theorem previous_createTransitionVariable {x : Ref} (hx : x < s.fresh) :
    (s.createTransitionVariable S m).links.previous x =
      if x = m then some s.fresh else s.links.previous x := by
  have hxf : x ≠ s.fresh := hx.ne
  have hxt : x ≠ s.fresh + 1 := (hx.trans (Nat.lt_succ_self _)).ne
  have hft : s.fresh ≠ s.fresh + 1 := (Nat.lt_succ_self _).ne
  have hcleared : (((s.links.clear s.fresh).insertPrevious m s.fresh).clear
      (s.fresh + 1)).previous x = if x = m then some s.fresh else s.links.previous x := by
    simp [Chain.Links.clear, Chain.previous_insertPrevious, hxf, hxt]
  rw [links_createTransitionVariable, Chain.previous_insertPrevious, if_neg hxt, hcleared]
  split_ifs with hz hm hm
  · subst hz
    rw [hcleared, if_pos hm, Option.some_or]
  · subst hz
    have hnone : (((s.links.clear s.fresh).insertPrevious m s.fresh).clear
        (s.fresh + 1)).previous (s.fresh + 1) = none := update_self ..
    rw [hcleared, if_neg hm, hnone, Option.or_none]
  · rfl
  · rfl

theorem adds_fullProgressCopy (v : Ref) (s : TSystem σ) : Adds s (s.fullProgressCopy S v) := by
  unfold TSystem.fullProgressCopy
  dsimp only
  split
  · exact (adds_copyInPast .assignable v s).setExogenouslyAssigned (copyInPast_ref _ _ s).ge _
  · split
    · exact adds_copyInPast .dependent v s
    · exact Adds.refl s

/-- What the loop over the modes does for one of them. -/
def IsModeStep (S : Solver σ) (m : Ref) (s s' : TSystem σ) : Prop :=
  s.kindOf m = .transitioned ∧ Constrains (s.createTransitionVariable S m) s' ∨ s' = s

/-- What a full progress does for one of the variables when those that are not modes are copied. -/
def TSystem.fullProgressMode (S : Solver σ) (command : Option (Ref × ℕ)) (s : TSystem σ) (m : Ref) :
    Except L2Error (TSystem σ) :=
  if s.kindOf m = .transitioned then
    match command with
    | some a => s.transition S m (s.commandAssignment a)
    | none => s.idle S m
  else pure s

theorem fullProgressCopyVariables_eq (command : Option (Ref × ℕ)) (s : TSystem σ) :
    s.fullProgressCopyVariables S command = s.present.foldlM (TSystem.fullProgressMode S command)
      (s.present.foldl (TSystem.fullProgressCopy S) s) := rfl

theorem isModeStep_fullProgress {command : Option (Ref × ℕ)}
    (h : s.fullProgressMode S command m = .ok s') : IsModeStep S m s s' := by
  unfold TSystem.fullProgressMode at h
  split at h
  case isTrue hmode =>
    split at h
    · exact Or.inl ⟨hmode, constrains_transition h⟩
    · exact Or.inl ⟨hmode, constrains_idle h⟩
  case isFalse => exact Or.inr (Except.ok.inj h).symm

/-- What a minimal progress does for one of the variables when the command is copied. -/
def TSystem.minimalProgressMode (S : Solver σ) (index : Assignment) (s : TSystem σ) (m : Ref) :
    Except L2Error (TSystem σ) :=
  if s.kindOf m = .transitioned ∧ (s.modeCell m).prototypes.hasIndexedTransitions index then
    s.transition S m index
  else pure s

theorem minimalProgress_eq (a : Ref × ℕ) (s : TSystem σ) : s.minimalProgress S (some a) = do
    let s ← s.truncateIfNeeded S
    let (past, s) := s.copyInPast S .command a.1
    let s ← s.present.foldlM (TSystem.minimalProgressMode S (s.commandAssignment a)) s
    let s := (s.assign S past (some a.2)).setExogenouslyAssigned past true
    return (s.propagate S).2.nextTimestep := rfl

theorem isModeStep_minimalProgress {index : Assignment}
    (h : s.minimalProgressMode S index m = .ok s') : IsModeStep S m s s' := by
  unfold TSystem.minimalProgressMode at h
  split at h
  case isTrue hmode => exact Or.inl ⟨hmode.1, constrains_transition h⟩
  case isFalse => exact Or.inr (Except.ok.inj h).symm

theorem IsModeStep.adds (h : IsModeStep S m s s') : Adds s s' := by
  rcases h with ⟨-, h⟩ | rfl
  · exact (adds_createTransitionVariable m s).trans h.adds
  · exact Adds.refl _

end Transition
end Livingstone
