import Livingstone.Proofs.ClosestVariables
import Livingstone.Transition.Window

/-! The window of the history in every run: progress steps put the variables of their time step in
front of the list, and truncations keep it from growing longer than it may be. -/

namespace Livingstone
namespace Transition

variable {σ : Type} {S : Solver σ} {s s₀ s₁ s' : TSystem σ} {K : Set Ref} {horizon : UInt32}
  {m r v : Ref} {command : Option (Ref × ℕ)}

/-- What is new is of the time step, and stands in front of the list. -/
structure Pushes (s s' : TSystem σ) : Prop where
  fresh : s.fresh ≤ s'.fresh
  present : s'.presentVariables = s.presentVariables
  clock : clock s' = (s.timestep, none)
  bounds : bounds s' = bounds s
  cell : ∀ r : ℕ, r < s.fresh → s'.kindOf r = s.kindOf r ∧ s'.timeOf r = s.timeOf r
  modes : ∀ m, (s'.modeCell m).horizonTransition = (s.modeCell m).horizonTransition
  list : ∃ new, s'.variableList = new ++ s.variableList ∧
    ∀ x ∈ new, x < s'.fresh ∧ s'.timeOf x = s.timestep

theorem Pushes.refl (h : s.insertBefore = none) : Pushes s s :=
  ⟨le_rfl, rfl, congrArg (s.timestep, ·) h, rfl, fun _ _ => ⟨rfl, rfl⟩, fun _ => rfl,
    [], rfl, by simp⟩

theorem Pushes.timestep (h : Pushes s s') : s'.timestep = s.timestep := congrArg Prod.fst h.clock

theorem Pushes.insertBefore (h : Pushes s s') : s'.insertBefore = none := congrArg Prod.snd h.clock

theorem Pushes.trans (h : Pushes s s₁) (h' : Pushes s₁ s') : Pushes s s' := by
  obtain ⟨new, hlist, hnew⟩ := h.list
  obtain ⟨new', hlist', hnew'⟩ := h'.list
  refine ⟨h.fresh.trans h'.fresh, h'.present.trans h.present, ?_, h'.bounds.trans h.bounds,
    fun r hr => ?_, fun m => (h'.modes m).trans (h.modes m), new' ++ new, ?_, fun x hx => ?_⟩
  · rw [h'.clock, h.timestep]
  · obtain ⟨hkind, htime⟩ := h.cell r hr
    obtain ⟨hkind', htime'⟩ := h'.cell r (hr.trans_le h.fresh)
    exact ⟨hkind'.trans hkind, htime'.trans htime⟩
  · rw [hlist', hlist, List.append_assoc]
  · rcases List.mem_append.mp hx with hx | hx
    · obtain ⟨hlt, htime⟩ := hnew' x hx
      exact ⟨hlt, htime.trans h.timestep⟩
    · obtain ⟨hlt, htime⟩ := hnew x hx
      exact ⟨hlt.trans_le h'.fresh, (h'.cell x hlt).2.trans htime⟩

theorem Pushes.of_eq (hb : s'.insertBefore = none) (htimestep : s'.timestep = s.timestep)
    (hbounds : Transition.bounds s' = Transition.bounds s) (hfresh : s'.fresh = s.fresh)
    (hpresent : s'.presentVariables = s.presentVariables) (hlist : s'.variableList = s.variableList)
    (hcell : ∀ r, s'.kindOf r = s.kindOf r ∧ s'.timeOf r = s.timeOf r)
    (hmodes : ∀ m, (s'.modeCell m).horizonTransition = (s.modeCell m).horizonTransition) :
    Pushes s s' :=
  ⟨hfresh.ge, hpresent, congrArg₂ Prod.mk htimestep hb, hbounds, fun r _ => hcell r, hmodes,
    [], hlist, by simp⟩

theorem Pushes.alike (h : Pushes s₀ s) (ha : Alike s s') (ht : Touches s s') : Pushes s₀ s' :=
  h.trans (Pushes.of_eq ((congrArg Prod.snd ht.clock).trans h.insertBefore)
    (congrArg Prod.fst ht.clock) ht.bounds ha.fresh ha.present ha.list ha.cell
    fun m => (ha.modes m).2)

theorem Pushes.created {kind : Kind} (hc : Created kind s.timestep r s s') (ha : Adds s s')
    (hb : s.insertBefore = none) (hbounds : Transition.bounds s' = Transition.bounds s)
    (hlist : s'.variableList = s.fresh :: s.variableList) : Pushes s s' := by
  refine ⟨ha.fresh, hc.present, congrArg₂ Prod.mk ha.timestep (ha.insertBefore hb), hbounds,
    fun q hq => ⟨ha.kindOf hq, ha.timeOf hq⟩, fun m => ?_, [s.fresh], hlist, fun x hx => ?_⟩
  · rw [hc.modes]
  · rw [List.mem_singleton.mp hx, ← hc.ref]
    refine ⟨?_, hc.time⟩
    rw [hc.ref, hc.fresh]
    exact Nat.lt_succ_self _

theorem Pushes.copyInPast (kind : Kind) (v : Ref) (h : Pushes s₀ s) :
    Pushes s₀ (s.copyInPast S kind v).2 := by
  have hadds := adds_copyInPast (S := S) kind v s
  have hbounds := bounds_copyInPast (S := S) kind v s
  have hlist := list_copyInPast (S := S) kind v h.insertBefore
  obtain ⟨s₁, hc, heq⟩ := copyInPast_created S kind v s
  rw [heq] at hadds hbounds hlist ⊢
  have hadds₁ : Adds s s₁ :=
    ⟨hadds.fresh, hadds.present, hadds.timestep, hadds.cell, hadds.insertBefore⟩
  have hpushed := Pushes.created hc hadds₁ h.insertBefore hbounds hlist
  exact (h.trans hpushed).trans (Pushes.of_eq hpushed.insertBefore rfl rfl rfl rfl rfl
    (fun _ => ⟨rfl, rfl⟩) fun _ => rfl)

theorem Pushes.createModeTransition (costs : List UInt32) (id : UInt32) (h : Pushes s₀ s) :
    Pushes s₀ (s.createModeTransition S costs s.timestep id).2 := by
  have hc := newAssignable_created (S := S) .transition costs s.timestep id s
  have hpushed := Pushes.created hc (adds_newAssignable _ _ _ _ s) h.insertBefore
    (bounds_newAssignable _ _ _ _ s) (list_newVariable .transition _ _ _ h.insertBefore)
  have hregistered : Touches (s.newAssignable S .transition costs s.timestep id).2
      (s.createTransition S costs s.timestep id).2 := ⟨_, _, _, _, _, _, _, rfl⟩
  exact (h.trans hpushed).alike (alike_createModeTransition (S := S) costs s.timestep id s)
    (hregistered.trans (touches_assign _ (some 0)))

theorem Pushes.constrains (h : Pushes s₀ s) (hs : Constrains s s') : Pushes s₀ s' :=
  h.alike hs.same.alike hs.touches

theorem Pushes.createTransitionVariable (m : Ref) (h : Pushes s₀ s) :
    Pushes s₀ (s.createTransitionVariable S m) := by
  have hcopied := h.copyInPast (S := S) .dependent m
  have htimestep : (s.copyInPast S .dependent m).2.timestep = s.timestep :=
    hcopied.timestep.trans h.timestep.symm
  unfold TSystem.createTransitionVariable
  dsimp only
  generalize (s.copyInPast S .dependent m).1 = past
  generalize (s.copyInPast S .dependent m).2 = s₁ at *
  have hcreated := hcopied.createModeTransition (S := S) (s₁.modeCell m).transitionCosts
    (s₁.cell m).id
  have hmodes := (grows_createModeTransition (S := S) (s₁.modeCell m).transitionCosts s₁.timestep
    (s₁.cell m).id s₁).modes m
  generalize s₁.createModeTransition S (s₁.modeCell m).transitionCosts s₁.timestep
    (s₁.cell m).id = x at *
  have hset : Pushes s₀ { x.2.setMode m { s₁.modeCell m with zenithTransition := x.1 } with
      links := x.2.links.insertPrevious x.1 (s₁.modeCell m).zenithTransition } := by
    refine hcreated.trans (Pushes.of_eq hcreated.insertBefore rfl rfl rfl rfl rfl
      (fun _ => ⟨rfl, rfl⟩) fun q => ?_)
    by_cases hq : q = m
    · subst hq
      simp [TSystem.setMode, hmodes.2]
    · simp [TSystem.setMode, hq]
  exact (hset.constrains (constrains_splice m past)).constrains (constrains_setMode rfl rfl)

theorem Pushes.modeStep (h : Pushes s₀ s) (hs : IsModeStep S m s s') : Pushes s₀ s' := by
  rcases hs with ⟨-, hs⟩ | rfl
  · exact (h.createTransitionVariable m).constrains hs
  · exact h

theorem Pushes.setExogenouslyAssigned (h : Pushes s₀ s) (r : Ref) (b : Bool) :
    Pushes s₀ (s.setExogenouslyAssigned r b) :=
  h.alike (same_setExogenouslyAssigned r b).alike (touches_setExogenouslyAssigned r b)

theorem Pushes.fullProgressCopy (v : Ref) (h : Pushes s₀ s) :
    Pushes s₀ (s.fullProgressCopy S v) := by
  unfold TSystem.fullProgressCopy
  dsimp only
  split
  · exact (h.copyInPast .assignable v).setExogenouslyAssigned _ _
  · split
    · exact h.copyInPast .dependent v
    · exact h

theorem Pushes.foldlM {α : Type} {f : TSystem σ → α → Except L2Error (TSystem σ)} {l : List α}
    (hf : ∀ s a s', Pushes s₀ s → f s a = .ok s' → Pushes s₀ s') (h : Pushes s₀ s)
    (hs : l.foldlM f s = .ok s') : Pushes s₀ s' :=
  Loop.foldlM_inv (Pushes s₀) l (fun a _ s₁ s₂ h₁ h₂ => hf s₁ a s₂ h₁ h₂) h hs

theorem Windowed.pushes (h : Windowed s) (hK : Tidy K s) (ht : s.timestep ≠ now)
    (hp : Pushes s s') : Windowed s' := by
  obtain ⟨new, hlist, hnew⟩ := hp.list
  have hkept : ∀ x ∈ s.variableList, s'.timeOf x = s.timeOf x := fun x hx =>
    (hp.cell x (hK.lt hx)).2
  have holdest : s'.oldestTimestep = s.oldestTimestep := congrArg Prod.fst hp.bounds
  refine ⟨?_, ?_, ?_, ?_, ?_⟩
  · rw [hlist]
    refine List.pairwise_append.mpr ⟨?_, h.sorted.congr hkept, fun a ha b hb => ?_⟩
    · refine List.pairwise_of_forall_mem_list fun a ha b hb => Or.inr ?_
      rw [(hnew a ha).2, (hnew b hb).2]
      exact ⟨ht, UInt32.le_refl _⟩
    · rw [(hnew a ha).2, hkept b hb]
      exact (h.within b hb).imp_right fun hwithin => ⟨ht, hwithin.2⟩
  · rw [hlist, holdest, hp.timestep]
    intro x hx
    rcases List.mem_append.mp hx with hx | hx
    · rw [(hnew x hx).2]
      exact Or.inr ⟨h.le, UInt32.le_refl _⟩
    · rw [hkept x hx]
      exact h.within x hx
  · obtain ⟨x, hx, hxt⟩ := h.oldest
    rw [hlist, holdest]
    exact ⟨x, List.mem_append_right _ hx, (hkept x hx).trans hxt⟩
  · rw [holdest, hp.timestep]
    exact h.le
  · rw [hlist]
    intro x hx hnow
    rcases List.mem_append.mp hx with hx | hx
    · exact absurd ((hnew x hx).2.symm.trans hnow) ht
    · have hpresent : s'.present = s.present := congrArg (List.filterMap id) hp.present
      refine (h.known x hx ((hkept x hx).symm.trans hnow)).mono ?_ ?_ fun m _ _ => hp.modes m
      · exact fun v hv => hpresent.symm ▸ hv
      · exact fun v hv => (hp.cell v (hK.lt (hK.present v hv).1)).1

/-- There are no more time steps than there may be. -/
def Short (s : TSystem σ) : Prop :=
  s.maxHistoryLength ≠ 0 → s.timestep.toNat ≤ s.oldestTimestep.toNat + s.maxHistoryLength.toNat

def Open (s : TSystem σ) : Prop :=
  s.maxHistoryLength ≠ 0 → s.timestep.toNat < s.oldestTimestep.toNat + s.maxHistoryLength.toNat

theorem getHorizon_toNat (h : s.maxHistoryLength ≤ s.timestep) (hne : s.maxHistoryLength ≠ 0) :
    s.getHorizon.toNat = s.timestep.toNat - s.maxHistoryLength.toNat + 1 := by
  have hpos : s.maxHistoryLength.toNat ≠ 0 := fun heq => hne (UInt32.toNat_inj.mp heq)
  have hlt := s.timestep.toNat_lt
  have hle := UInt32.le_iff_toNat_le.mp h
  unfold TSystem.getHorizon
  rw [if_neg (UInt32.not_lt.mpr h), UInt32.toNat_add, UInt32.toNat_sub_of_le _ _ h,
    UInt32.toNat_one, Nat.mod_eq_of_lt (by omega)]

theorem getHorizon_le (hne : s.maxHistoryLength ≠ 0) : s.getHorizon ≤ s.timestep := by
  rw [UInt32.le_iff_toNat_le]
  by_cases hlt : s.timestep < s.maxHistoryLength
  · unfold TSystem.getHorizon
    rw [if_pos hlt]
    exact Nat.zero_le _
  · have hle := UInt32.not_lt.mp hlt
    have hpos : s.maxHistoryLength.toNat ≠ 0 := fun heq => hne (UInt32.toNat_inj.mp heq)
    have htoNat := UInt32.le_iff_toNat_le.mp hle
    rw [getHorizon_toNat hle hne]
    omega

theorem historyFull_iff : s.historyFull = true ↔
    s.maxHistoryLength ≠ 0 ∧ s.oldestTimestep + s.maxHistoryLength ≤ s.timestep := by
  unfold TSystem.historyFull
  exact decide_eq_true_iff

theorem open_of_getHorizon_le (h : s.maxHistoryLength ≠ 0 → s.getHorizon ≤ s.oldestTimestep) :
    Open s := by
  intro hne
  by_cases hlt : s.timestep < s.maxHistoryLength
  · exact (UInt32.lt_iff_toNat_lt.mp hlt).trans_le (Nat.le_add_left _ _)
  · have hle := UInt32.not_lt.mp hlt
    have hopen := UInt32.le_iff_toNat_le.mp (h hne)
    rw [getHorizon_toNat hle hne] at hopen
    omega

/-- After the truncation of a full history there is room for the progress. The bound of the history
may overflow; nothing is truncated then, as there is room. -/
theorem Windowed.truncateIfNeeded (h : Windowed s) (hK : Tidy K s)
    (hs : s.truncateIfNeeded S = .ok s') : Windowed s' ∧ Open s' := by
  unfold TSystem.truncateIfNeeded at hs
  split at hs
  case isFalse hfull =>
    obtain rfl := Except.ok.inj hs
    refine ⟨h, fun hne => ?_⟩
    have hroom : ¬ s.oldestTimestep + s.maxHistoryLength ≤ s.timestep := fun hle =>
      hfull (historyFull_iff.mpr ⟨hne, hle⟩)
    rw [UInt32.le_iff_toNat_le, UInt32.toNat_add] at hroom
    have hmod := Nat.mod_le (s.oldestTimestep.toNat + s.maxHistoryLength.toNat) (2 ^ 32)
    omega
  case isTrue hfull =>
    obtain ⟨hne, -⟩ := historyFull_iff.mp hfull
    by_cases hold : s.oldestTimestep < s.getHorizon
    · obtain ⟨hwindowed, hbounds⟩ := h.truncate hK hold (getHorizon_le hne) hs
      have htimestep : s'.timestep = s.timestep := timestep_truncate hs
      have holdest : s'.oldestTimestep = s.getHorizon := congrArg Prod.fst hbounds
      have hlength : s'.maxHistoryLength = s.maxHistoryLength := congrArg Prod.snd hbounds
      refine ⟨hwindowed, open_of_getHorizon_le fun _ => ?_⟩
      unfold TSystem.getHorizon
      rw [htimestep, hlength]
      exact holdest.symm ▸ UInt32.le_refl _
    · obtain ⟨-, rfl⟩ := (truncate_steps hs).resolve_right fun hlt => hold hlt.1
      exact ⟨h, open_of_getHorizon_le fun _ => UInt32.not_lt.mp hold⟩

theorem Windowed.advance (h : Windowed s) (hK : Tidy K s) (hopen : Open s) (ht : s.timestep ≠ now)
    (hp : Pushes s s') : Windowed s'.nextTimestep ∧ Short s'.nextTimestep := by
  have h' := h.pushes hK ht hp
  have hlt : s'.timestep < s'.nextTimestep.timestep := lt_nextTimestep (hp.timestep.trans_ne ht)
  have hle := UInt32.le_of_lt hlt
  refine ⟨⟨h'.sorted, fun x hx => ?_, h'.oldest, UInt32.le_trans h'.le hle, h'.known⟩,
    fun hne => ?_⟩
  · exact (h'.within x hx).imp_right fun hwithin => ⟨hwithin.1, UInt32.le_trans hwithin.2 hle⟩
  · have holdest : s'.oldestTimestep = s.oldestTimestep := congrArg Prod.fst hp.bounds
    have hlength : s'.maxHistoryLength = s.maxHistoryLength := congrArg Prod.snd hp.bounds
    have hroom := hopen (hlength.symm.trans_ne hne)
    have hnext : (s'.timestep + 1).toNat ≤ s'.timestep.toNat + 1 := by
      rw [UInt32.toNat_add, UInt32.toNat_one]
      exact Nat.mod_le _ _
    change (s'.timestep + 1).toNat ≤ s'.oldestTimestep.toNat + s'.maxHistoryLength.toNat
    rw [holdest, hlength]
    rw [hp.timestep] at hnext ⊢
    omega

theorem Pushes.propagate (h : Pushes s₀ s) : Pushes s₀ (s.propagate S).2 :=
  h.alike same_propagate.alike touches_propagate

theorem progress_pushes (hs : s.progress S command = .ok s') : ∃ s₀ s₁,
    s.truncateIfNeeded S = .ok s₀ ∧ (s₀.insertBefore = none → Pushes s₀ s₁) ∧
      s' = s₁.nextTimestep := by
  unfold TSystem.progress at hs
  split at hs
  case isTrue =>
    obtain ⟨s₀, h₀, hs⟩ := Loop.bind_eq_ok hs
    obtain ⟨s₁, h₁, hs⟩ := Loop.bind_eq_ok hs
    obtain ⟨s₂, h₂, hs⟩ := Loop.bind_eq_ok hs
    obtain ⟨s₃, h₃, hs⟩ := Loop.bind_eq_ok hs
    obtain rfl := Except.ok.inj hs
    refine ⟨s₀, _, h₀, fun hb => Pushes.propagate ?_, rfl⟩
    have hcopied : Pushes s₀ (s₀.present.foldl (TSystem.fullProgressCopy S) s₀) :=
      Loop.foldl_left (fun _ => Pushes s₀) (fun v _ _ hx => hx.fullProgressCopy v)
        (Pushes.refl hb)
    rw [fullProgressCopyVariables_eq] at h₁
    have hmodes := hcopied.foldlM (fun _ _ _ hx hm => hx.modeStep (isModeStep_fullProgress hm)) h₁
    have hconstrained := hmodes.constrains (constrains_fullProgressCreateConstraints h₂)
    refine hconstrained.foldlM (fun _ _ _ hx ha => ?_) h₃
    exact hx.alike (same_fullProgressAssign ha).alike (touches_fullProgressAssign ha)
  case isFalse =>
    cases command with
    | none =>
      obtain ⟨s₀, h₀, hs⟩ := Loop.bind_eq_ok hs
      exact ⟨s₀, s₀, h₀, Pushes.refl, (Except.ok.inj hs).symm⟩
    | some a =>
      rw [minimalProgress_eq] at hs
      obtain ⟨s₀, h₀, hs⟩ := Loop.bind_eq_ok hs
      dsimp only at hs
      obtain ⟨s₁, h₁, hs⟩ := Loop.bind_eq_ok hs
      refine ⟨s₀, _, h₀, fun hb => Pushes.propagate ?_, (Except.ok.inj hs).symm⟩
      have hcopied := (Pushes.refl hb).copyInPast (S := S) .command a.1
      have hmodes := hcopied.foldlM
        (fun _ _ _ hx hm => hx.modeStep (isModeStep_minimalProgress hm)) h₁
      refine Pushes.setExogenouslyAssigned ?_ _ true
      exact hmodes.alike (same_assign _ _).alike (touches_assign _ _)

theorem Windowed.progress (h : Windowed s) (hsettled : Settled s) (hK : Tidy K s)
    (ht : s.timestep ≠ now) (hs : s.progress S command = .ok s') : Windowed s' ∧ Short s' := by
  obtain ⟨s₀, s₁, h₀, hpushes, rfl⟩ := progress_pushes hs
  obtain ⟨K₀, hK₀, hpassing, -⟩ := hsettled.start hK ht h₀
  obtain ⟨hwindowed, hopen⟩ := h.truncateIfNeeded hK h₀
  exact hwindowed.advance hK₀ hopen (UInt32.ne_of_lt hpassing.timestep)
    (hpushes hpassing.insertBefore)

/-- A system into which a model is being read has variables of the present only. -/
structure Modelled (s : TSystem σ) : Prop where
  oldest : s.oldestTimestep = 0
  known : ∀ x ∈ s.variableList, IsNow s x

theorem Modelled.alike (h : Modelled s) (ha : Alike s s') (ht : Touches s s') : Modelled s' :=
  ⟨(congrArg Prod.fst ht.bounds).trans h.oldest,
    fun x hx => ha.isNow (h.known x (ha.list ▸ hx))⟩

theorem Modelled.register (h : Modelled s) (hK : Tidy K s) (ha : Adds s s₁)
    (hbounds : bounds s₁ = bounds s)
    (hmodes : ∀ m ∈ s.present, (s₁.modeCell m).horizonTransition = (s.modeCell m).horizonTransition)
    (hlist : ∀ x ∈ s₁.variableList, x ∈ s.variableList ∨ x = r ∨
      s₁.kindOf r = .transitioned ∧ (s₁.modeCell r).horizonTransition = x)
    (hs : s₁.registerNewVariable r = .ok s') : Modelled s' := by
  obtain ⟨-, hpresent, l, rfl⟩ := registerNewVariable_registered hs
  have hr : r ∈ TSystem.present { s₁ with presentVariables := l } := (hpresent r).mpr (Or.inl rfl)
  refine ⟨(congrArg Prod.fst hbounds).trans h.oldest, fun x hx => ?_⟩
  rcases hlist x hx with hx | rfl | ⟨hmode, rfl⟩
  · refine (h.known x hx).mono (fun v hv => (hpresent v).mpr (Or.inr ?_)) ?_
      fun m hm _ => hmodes m hm
    · exact ha.present_eq.symm ▸ hv
    · exact fun v hv => ha.kindOf (hK.lt (hK.present v hv).1)
  · exact Or.inl hr
  · exact Or.inr ⟨r, hr, hmode, rfl⟩

theorem Modelled.created {kind : Kind} (h : Modelled s) (hK : Tidy K s)
    (hc : Created kind now r s s₁) (ha : Adds s s₁) (hbounds : bounds s₁ = bounds s)
    (hs : s₁.registerNewVariable r = .ok s') : Modelled s' := by
  refine h.register hK ha hbounds (fun m _ => by rw [hc.modes]) (fun x hx => ?_) hs
  exact ((hc.list x).mp hx).elim (fun hx => Or.inr (Or.inl hx)) Or.inl

theorem newTransitioned_list (nvalues ntransitions : ℕ) (id : UInt32) (s : TSystem σ) :
    bounds (s.newTransitioned S nvalues ntransitions now id).2 = bounds s ∧
      (∀ m, m ≠ s.fresh → ((s.newTransitioned S nvalues ntransitions now id).2.modeCell
        m).horizonTransition = (s.modeCell m).horizonTransition) ∧
      ∀ x ∈ (s.newTransitioned S nvalues ntransitions now id).2.variableList,
        x ∈ s.variableList ∨ x = s.fresh ∨
          ((s.newTransitioned S nvalues ntransitions now id).2.modeCell
            s.fresh).horizonTransition = x := by
  have hc := newVariable_created (S := S) .transitioned nvalues now id s
  have hbounds := bounds_newVariable (S := S) .transitioned nvalues now id s
  unfold TSystem.newTransitioned
  dsimp only
  generalize s.newVariable S .transitioned nvalues now id = x at hc hbounds ⊢
  have hc₂ := newAssignable_created (S := S) .transition (List.replicate ntransitions 0) now id x.2
  have halike := alike_createModeTransition (S := S) (List.replicate ntransitions 0) now id x.2
  have href := (links_createModeTransition (S := S) (List.replicate ntransitions 0) now id x.2).1
  have hbounds₂ := bounds_createModeTransition (S := S) (List.replicate ntransitions 0) now id x.2
  generalize x.2.createModeTransition S (List.replicate ntransitions 0) now id = y at *
  refine ⟨hbounds₂.trans hbounds, fun m hm => ?_, fun q hq => ?_⟩
  · rw [← hc.ref] at hm
    simp only [TSystem.setMode, Function.update_of_ne hm]
    rw [(halike.modes m).2, hc₂.modes, hc.modes]
  · have hq : q ∈ y.2.variableList := hq
    rw [halike.list] at hq
    rcases (hc₂.list q).mp hq with hq | hq
    · refine Or.inr (Or.inr ?_)
      simp only [TSystem.setMode, ← hc.ref, Function.update_self]
      exact href.trans (hc₂.ref.symm.trans hq.symm)
    · exact ((hc.list q).mp hq).elim (fun hq => Or.inr (Or.inl (hq.trans hc.ref))) Or.inl

theorem Modelled.newTransitioned {nvalues ntransitions : ℕ} {id : UInt32} (h : Modelled s)
    (hK : Tidy K s)
    (hs : (s.newTransitioned S nvalues ntransitions now id).2.registerNewVariable
      (s.newTransitioned S nvalues ntransitions now id).1 = .ok s') : Modelled s' := by
  obtain ⟨hadds, href, hkind⟩ := newTransitioned_adds (S := S) nvalues ntransitions now id s
  obtain ⟨hbounds, hmodes, hlist⟩ := newTransitioned_list (S := S) nvalues ntransitions id s
  rw [href] at hs
  refine h.register hK hadds hbounds (fun m hm => hmodes m (hK.lt (hK.present m hm).1).ne)
    (fun x hx => ?_) hs
  exact (hlist x hx).imp_right (Or.imp_right fun hx => ⟨hkind, hx⟩)

theorem Modelled.createVariable {d : TSystem.Declaration} (h : Modelled s) (hK : Tidy K s)
    (hs : s.createVariable S d = .ok s') : Modelled s' := by
  cases d with
  | command nvalues id =>
    have hc := newAssignable_created (S := S) .command (List.replicate nvalues 0) now id s
    have ha := adds_newAssignable (S := S) .command (List.replicate nvalues 0) now id s
    have hsame := same_assign (S := S) (s := (s.createCommand S nvalues now id).2)
      (s.createCommand S nvalues now id).1 (some 0)
    have hbounds := bounds_newAssignable (S := S) .command (List.replicate nvalues 0) now id s
    refine h.register hK (ha.assign hc.ref.ge (some 0)) ((touches_assign _ _).bounds.trans hbounds)
      (fun m _ => ?_) (fun x hx => ?_) hs
    · exact (hsame.modes m).2.trans (congrArg (fun f => (f m).horizonTransition) hc.modes)
    · have hx := (hc.list x).mp ((congrArg (x ∈ ·) hsame.list).mp hx)
      exact hx.elim (fun hx => Or.inr (Or.inl hx)) Or.inl
  | observable nvalues id =>
    exact h.created hK (newAssignable_created (S := S) .observable _ now id s)
      (adds_newAssignable _ _ _ _ s) (bounds_newAssignable _ _ _ _ s) hs
  | mode nvalues ntransitions id => exact h.newTransitioned hK hs
  | dependent nvalues id =>
    exact h.created hK (newVariable_created (S := S) .dependent nvalues now id s)
      (adds_newVariable _ _ _ _ s) (bounds_newVariable _ _ _ _ s) hs

theorem Built.modelled (h : Built S s) : Modelled s := by
  induction h with
  | empty t historyLength maxTruncatedCandidates progressUsesFull =>
    exact ⟨rfl, fun x hx => absurd hx List.not_mem_nil⟩
  | created d hb hs ih =>
    obtain ⟨K, hK⟩ := hb.tidy
    exact ih.createVariable hK hs
  | constraint pos neg stateConstraint _ hs ih =>
    exact ih.alike (same_createConstraint hs).alike (touches_createConstraint hs)
  | cost cost _ _ _ ih => exact ih.alike (same_addTransitionCost _ cost).alike ⟨_, _, _, _, _, _, _, rfl⟩
  | @prototype s m p _ _ _ ih =>
    have hset : Same s (s.addPrototype m p) := same_setMode rfl rfl
    exact ih.alike hset.alike ⟨_, _, _, _, _, _, _, rfl⟩

theorem Starting.createStateVar {nstates : ℕ} (h : Starting s) (hmodelled : Modelled s)
    (hK : Tidy K s) (hs : s.createStateVar S 0 nstates = .ok s') : Windowed s' := by
  have hbounds := bounds_createStateVar hs
  have hclock := clock_createStateVar hs
  obtain ⟨s₁, hc, halike, hpast, hlist⟩ := createStateVar_created hs
  have htime : s'.timeOf = s₁.timeOf := funext fun r => (halike.cell r).2
  have hnew : s'.timeOf s.fresh = 0 := (congrFun htime _).trans hc.time
  have hmem (x : Ref) : x ∈ s'.variableList ↔ x = s.fresh ∨ x ∈ s.variableList :=
    halike.list.symm ▸ hc.list x
  have hkept : ∀ x ∈ s.variableList, s'.timeOf x = s.timeOf x := fun x hx =>
    (congrFun htime x).trans (hc.grows.cell x (hK.lt hx)).2.1
  have hnows : ∀ x ∈ s.variableList, s'.timeOf x = now := fun x hx =>
    (hkept x hx).trans (h.nows x hx)
  have holdest : s'.oldestTimestep = 0 := (congrArg Prod.fst hbounds).trans hmodelled.oldest
  have htimestep : s'.timestep = 0 := (congrArg Prod.fst hclock).trans h.timestep
  refine ⟨?_, ?_, ?_, ?_, ?_⟩
  · cases hq : s.variableList.find? fun x => s.timeOf x ≤ 0 ∨ s.timeOf x = now with
    | some q =>
      have hsorted : Sorted s'.timeOf s.variableList :=
        List.pairwise_of_forall_mem_list fun _ _ b hb => Or.inl (hnows b hb)
      rw [halike.list, hlist q hq]
      refine hsorted.insertInFrontOf hnew hpast ?_
      rw [← hq]
      exact List.find?_congr fun x hx => by rw [hkept x hx]
    | none =>
      -- there is no model
      have hempty : ∀ x, x ∉ s.variableList := fun x hx =>
        List.find?_eq_none.mp hq x hx (decide_eq_true (Or.inr (h.nows x hx)))
      refine List.pairwise_of_forall_mem_list fun a ha b hb => Or.inr ?_
      rw [((hmem a).mp ha).resolve_right (hempty a), ((hmem b).mp hb).resolve_right (hempty b)]
      exact ⟨hnew.trans_ne hpast, UInt32.le_refl _⟩
  · intro x hx
    rw [holdest, htimestep]
    rcases (hmem x).mp hx with rfl | hx
    · rw [hnew]
      exact Or.inr ⟨UInt32.le_refl _, UInt32.le_refl _⟩
    · exact Or.inl (hnows x hx)
  · exact ⟨s.fresh, (hmem _).mpr (Or.inl rfl), hnew.trans holdest.symm⟩
  · rw [holdest, htimestep]
    exact UInt32.le_refl _
  · intro x hx hnow
    rcases (hmem x).mp hx with rfl | hx
    · exact absurd (hnew.symm.trans hnow) hpast
    · have hpresent : s₁.present = s.present := congrArg (List.filterMap id) hc.present
      refine halike.isNow ((hmodelled.known x hx).mono ?_ ?_ ?_)
      · exact fun v hv => hpresent.symm ▸ hv
      · exact fun v hv => (hc.grows.cell v (hK.lt (hK.present v hv).1)).1
      · exact fun m _ _ => congrArg (fun f => (f m).horizonTransition) hc.modes

theorem Starting.windowed (h : Starting s) (hmodelled : Modelled s) (hK : Tidy K s)
    {initial : List (Ref × ℕ)} (hs : s.createInitialState S initial = .ok s') :
    Windowed s' ∧ Short s' := by
  obtain ⟨s₁, h₁, hs⟩ := Loop.bind_eq_ok hs
  obtain ⟨s₂, h₂, hs⟩ := Loop.bind_eq_ok hs
  obtain rfl := Except.ok.inj hs
  have hcreated := h.createStateVar hmodelled hK h₁
  have hK₁ := hK.grows (grows_createStateVar h₁)
  have hassigned := (same_initialValues h₂).trans (same_assign (S := S) s₂.stateVar (some 0))
  have htouches := (touches_initialValues h₂).trans (touches_assign (S := S) s₂.stateVar (some 0))
  have hwindowed := hcreated.alike hassigned.alike htouches
  have hK₂ := hK₁.same hassigned
  generalize s₂.assign S s₂.stateVar (some 0) = s₃ at *
  have hclock := htouches.clock.trans (clock_createStateVar h₁)
  have htimestep : s₃.timestep = 0 := (congrArg Prod.fst hclock).trans h.timestep
  have hb : s₃.insertBefore = none := congrArg Prod.snd hclock
  have hopen : Open s₃ := fun hne => by
    have hpos : s₃.maxHistoryLength.toNat ≠ 0 := fun heq => hne (UInt32.toNat_inj.mp heq)
    have hzero : s₃.timestep.toNat = 0 := congrArg UInt32.toNat htimestep
    omega
  have ht : s₃.timestep ≠ now := htimestep.trans_ne (by decide)
  obtain ⟨hnext, hshort⟩ := hwindowed.advance hK₂ hopen ht (Pushes.refl hb)
  exact ⟨hnext.alike same_propagate.alike touches_propagate, hshort⟩

/-- The states of runs whose progress steps are at time steps before the present, and whose
truncations are at horizons that are not after the time step. -/
inductive Forward (S : Solver σ) : TSystem σ → Prop
  | start {s s' : TSystem σ} (initial : List (Ref × ℕ)) : Built S s →
    (∀ v ∈ initial, v.1 ∈ s.present ∧
      (s.kindOf v.1 = .transitioned ∨ s.kindOf v.1 = .observable)) →
    s.createInitialState S initial = .ok s' → Forward S s'
  | observe {s : TSystem σ} {r : Ref} (value : Option ℕ) : Forward S s → r ∈ s.present →
    s.kindOf r = .observable → Forward S (s.observe S r value)
  | progress {s s' : TSystem σ} (command : Option (Ref × ℕ)) : Forward S s → s.timestep ≠ now →
    (∀ a, command = some a → a.1 ∈ s.present ∧ s.kindOf a.1 = .command) →
    s.progress S command = .ok s' → Forward S s'
  | truncate {s s' : TSystem σ} (horizon : UInt32) : Forward S s → horizon ≤ s.timestep →
    s.truncate S horizon = .ok s' → Forward S s'
  | assume {s : TSystem σ} {r : Ref} (value : Option ℕ) : Forward S s → r ∈ s.assumptions →
    Forward S (s.assign S r value)
  | propagate {s : TSystem σ} : Forward S s → Forward S (s.propagate S).2
  | candidates {s : TSystem σ} (cs : List Candidate) : Forward S s →
    (∀ c ∈ cs, ∀ a ∈ c, a.1 ∈ s.assumptions) → Forward S { s with candidates := cs }

theorem Forward.timely (h : Forward S s) : Timely S s := by
  induction h with
  | start initial hbuilt hinitial hs => exact Timely.start initial hbuilt hinitial hs
  | observe value _ hr hkind ih => exact Timely.observe value ih hr hkind
  | progress command _ ht hcommand hs ih => exact Timely.progress command ih ht hcommand hs
  | truncate horizon _ _ hs ih => exact Timely.truncate horizon ih hs
  | assume value _ hr ih => exact Timely.assume value ih hr
  | propagate _ ih => exact Timely.propagate ih
  | candidates cs _ hcs ih => exact Timely.candidates cs ih hcs

theorem Short.touches (h : Short s) (ht : Touches s s') : Short s' := by
  obtain ⟨t, f, g, cs, ds, ps, as, rfl⟩ := ht
  exact h

theorem Short.truncate (h : Short s) (hwindowed : Windowed s) (hK : Tidy K s)
    (hle : horizon ≤ s.timestep) (hs : s.truncate S horizon = .ok s') :
    Windowed s' ∧ Short s' := by
  by_cases hold : s.oldestTimestep < horizon
  · obtain ⟨hwindowed', hbounds⟩ := hwindowed.truncate hK hold hle hs
    have htimestep : s'.timestep = s.timestep := timestep_truncate hs
    have holdest : s'.oldestTimestep = horizon := congrArg Prod.fst hbounds
    have hlength : s'.maxHistoryLength = s.maxHistoryLength := congrArg Prod.snd hbounds
    refine ⟨hwindowed', fun hne => ?_⟩
    have hshort := h (hlength.symm.trans_ne hne)
    have hlt := UInt32.lt_iff_toNat_lt.mp hold
    rw [htimestep, holdest, hlength]
    omega
  · obtain ⟨-, rfl⟩ := (truncate_steps hs).resolve_right fun hlt => hold hlt.1
    exact ⟨hwindowed, h⟩

theorem Forward.windowed (h : Forward S s) : Windowed s ∧ Short s := by
  induction h with
  | start initial hbuilt _ hs =>
    obtain ⟨K, hK⟩ := hbuilt.tidy
    exact hbuilt.starting.windowed hbuilt.modelled hK hs
  | observe value _ _ _ ih =>
    exact ⟨ih.1.alike (same_observe _ value).alike (touches_observe _ value),
      ih.2.touches (touches_observe _ value)⟩
  | progress command hs₀ ht _ hs ih =>
    obtain ⟨K, hK⟩ := hs₀.timely.reachable.tidy
    exact ih.1.progress hs₀.timely.settled hK ht hs
  | truncate horizon hs₀ hle hs ih =>
    obtain ⟨K, hK⟩ := hs₀.timely.reachable.tidy
    exact ih.2.truncate ih.1 hK hle hs
  | assume value _ _ ih =>
    exact ⟨ih.1.alike (same_assign _ value).alike (touches_assign _ value),
      ih.2.touches (touches_assign _ value)⟩
  | propagate _ ih => exact ⟨ih.1.alike same_propagate.alike touches_propagate, ih.2⟩
  | @candidates s cs _ _ ih =>
    have halike : Alike s { s with candidates := cs } :=
      ⟨rfl, rfl, rfl, rfl, fun _ => ⟨rfl, rfl⟩, fun _ => ⟨rfl, rfl⟩⟩
    exact ⟨ih.1.alike halike ⟨_, _, _, _, _, _, _, rfl⟩, ih.2⟩

theorem Short.sub_le (h : Short s) (hle : s.oldestTimestep ≤ s.timestep)
    (hne : s.maxHistoryLength ≠ 0) : s.timestep - s.oldestTimestep ≤ s.maxHistoryLength := by
  rw [UInt32.le_iff_toNat_le, UInt32.toNat_sub_of_le _ _ hle]
  have hshort := h hne
  omega

/-- What a truncation at the horizon leaves: what is of the present, and the past from the horizon
on. -/
structure Truncated (horizon : UInt32) (s : TSystem σ) : Prop where
  oldest : s.oldestTimestep = horizon
  kept : ∀ x ∈ s.variableList, IsNow s x ∨ horizon ≤ s.timeOf x ∧ s.timeOf x ≤ s.timestep

/-- The history stays in its window, and the list of the variables in order. A truncation at a time
step of the window, as they are before a progress, makes its horizon the oldest time step, and its
scans end before the list does when the model has a variable. -/
theorem forward_window (S : Solver σ) (s : TSystem σ) (h : Forward S s) :
    Sorted s.timeOf s.variableList ∧ s.oldestTimestep ≤ s.timestep ∧
    (s.maxHistoryLength ≠ 0 → s.timestep - s.oldestTimestep ≤ s.maxHistoryLength ∧
      s.getHorizon ≤ s.timestep) ∧
    ∀ horizon, s.oldestTimestep < horizon → horizon ≤ s.timestep →
      (s.present ≠ [] → Scans S horizon s) ∧
      ∀ s', s.truncate S horizon = .ok s' → Truncated horizon s' := by
  obtain ⟨hwindowed, hshort⟩ := h.windowed
  obtain ⟨K, hK⟩ := h.timely.reachable.tidy
  refine ⟨hwindowed.sorted, hwindowed.le,
    fun hne => ⟨hshort.sub_le hwindowed.le hne, getHorizon_le hne⟩,
    fun horizon hold hle => ⟨hwindowed.scans_truncate hK hold hle, fun s' hs => ?_⟩⟩
  obtain ⟨hwindowed', hbounds⟩ := hwindowed.truncate hK hold hle hs
  have holdest : s'.oldestTimestep = horizon := congrArg Prod.fst hbounds
  refine ⟨holdest, fun x hx => ?_⟩
  by_cases hnow : s'.timeOf x = now
  · exact Or.inl (hwindowed'.known x hx hnow)
  · exact Or.inr (holdest ▸ (hwindowed'.within x hx).resolve_left hnow)

namespace Limited

def blank (length : UInt32) : TSystem Ltms := TSystem.empty {} length 0 false

def withCommand (length : UInt32) : TSystem Ltms :=
  valueOr (TSystem.createVariable ltmsSolver (.command 2 0) (blank length)) (blank length)

def withMode (length : UInt32) : TSystem Ltms :=
  valueOr (TSystem.createVariable ltmsSolver (.mode 2 1 1) (withCommand length))
    (withCommand length)

def model (length : UInt32) : TSystem Ltms :=
  TSystem.addPrototype 1 (.commanded 0 0 1 [] [⟨.command 0, 1⟩]) (withMode length)

def start (length : UInt32) : TSystem Ltms :=
  valueOr (TSystem.createInitialState ltmsSolver [(1, 0)] (model length)) (model length)

def step : TSystem Ltms := valueOr (TSystem.progress ltmsSolver (some (0, 1)) (start 1)) (start 1)

def truncated : TSystem Ltms := valueOr (TSystem.truncate ltmsSolver 2 step) step

def last : TSystem Ltms := { start now with timestep := now }

def lastStep : TSystem Ltms := valueOr (TSystem.progress ltmsSolver (some (0, 0)) last) last

def late : TSystem Ltms := valueOr (TSystem.truncate ltmsSolver 5 step) step

def stateOnly : TSystem Ltms :=
  valueOr (TSystem.createInitialState ltmsSolver [] (blank 1)) (blank 1)

def summary : TSystem Ltms := valueOr (TSystem.summarizeState ltmsSolver 1
  (TSystem.mapOverObservations ltmsSolver .save stateOnly)) stateOnly

def Starts (length : UInt32) : Prop :=
  (TSystem.createVariable ltmsSolver (.command 2 0) (blank length)).isOk = true ∧
    (TSystem.createVariable ltmsSolver (.mode 2 1 1) (withCommand length)).isOk = true ∧
    1 ∈ (withMode length).present ∧ (withMode length).kindOf 1 = .transitioned ∧
    (TSystem.createInitialState ltmsSolver [(1, 0)] (model length)).isOk = true ∧
    (start length).timestep = 1 ∧ 0 ∈ (start length).present ∧ (start length).kindOf 0 = .command

instance (length : UInt32) : Decidable (Starts length) :=
  inferInstanceAs (Decidable (_ ∧ _ ∧ _ ∧ _ ∧ _ ∧ _ ∧ _ ∧ _))

-- one evaluation of the runs, for all that is said of their states
theorem evaluated :
    (Starts 1 ∧ Starts now) ∧
    ((TSystem.progress ltmsSolver (some (0, 1)) (start 1)).isOk = true ∧
      step.oldestTimestep < 2 ∧ 2 ≤ step.timestep ∧ step.present ≠ [] ∧
      (TSystem.truncate ltmsSolver 2 step).isOk = true ∧
      (TSystem.truncate ltmsSolver 5 step).isOk = true ∧ late.maxHistoryLength ≠ 0 ∧
      ¬ late.timestep - late.oldestTimestep ≤ late.maxHistoryLength) ∧
    ((start now).progressUsesFull = false ∧
      (start now).oldestTimestep + (start now).maxHistoryLength = now ∧
      (TSystem.progress ltmsSolver (some (0, 0)) last).isOk = true ∧
      ¬ Sorted lastStep.timeOf lastStep.variableList) ∧
    (TSystem.createInitialState ltmsSolver [] (blank 1)).isOk = true ∧
      stateOnly.oldestTimestep < 1 ∧ 1 ≤ stateOnly.timestep ∧
      (TSystem.summarizeState ltmsSolver 1
        (TSystem.mapOverObservations ltmsSolver .save stateOnly)).isOk = true ∧
      (summary.removeOldVariables ltmsSolver 1).isOk = false := by
  decide +kernel

theorem Starts.forward {length : UInt32} (h : Starts length) :
    Forward ltmsSolver (start length) := by
  obtain ⟨hcommand, hmode, hm, hkind, hstart, -⟩ := h
  have hblank : Built ltmsSolver (blank length) := Built.empty ({} : Ltms) length 0 false
  have hcommanded : Built ltmsSolver (withCommand length) :=
    Built.created _ hblank (eq_valueOr (blank length) hcommand)
  have hbuilt : Built ltmsSolver (withMode length) :=
    Built.created _ hcommanded (eq_valueOr (withCommand length) hmode)
  have hmodel : Built ltmsSolver (model length) := Built.prototype _ hbuilt hm hkind
  have hinitial : TSystem.createInitialState ltmsSolver [(1, 0)] (model length) =
      .ok (start length) := eq_valueOr (model length) hstart
  have hset (s : TSystem Ltms) (p : Prototype) : Same s (s.addPrototype 1 p) := same_setMode rfl rfl
  have hsame : Same (withMode length) (model length) := hset _ _
  refine Forward.start [(1, 0)] hmodel (fun v hv => ?_) hinitial
  rw [List.mem_singleton.mp hv, hsame.alike.present_eq]
  exact ⟨hm, Or.inl ((hsame.cell 1).1.trans hkind)⟩

theorem forward_step : Forward ltmsSolver step := by
  obtain ⟨⟨hstarts, -⟩, ⟨hprogress, -⟩, -⟩ := evaluated
  have hforward := hstarts.forward
  obtain ⟨-, -, -, -, -, htime, hcommand⟩ := hstarts
  refine Forward.progress (some (0, 1)) hforward (by rw [htime]; decide) (fun a ha => ?_)
    (eq_valueOr (start 1) hprogress)
  rw [← Option.some.inj ha]
  exact hcommand

theorem forward_idle (n : ℕ) (hn : n + 1 < 2 ^ 32) :
    Forward ltmsSolver { start now with timestep := UInt32.ofNat (n + 1) } := by
  obtain ⟨⟨-, hstarts⟩, -, ⟨hminimal, hlength, -⟩, -⟩ := evaluated
  induction n with
  | zero =>
    have hself (s : TSystem Ltms) {time : UInt32} (h : s.timestep = time) :
        { s with timestep := time } = s := by
      subst h
      rfl
    have hforward := hstarts.forward
    obtain ⟨-, -, -, -, -, htime, -⟩ := hstarts
    rw [hself (start now) (htime.trans (by decide))]
    exact hforward
  | succ n ih =>
    have htoNat : (UInt32.ofNat (n + 1)).toNat = n + 1 :=
      UInt32.toNat_ofNat_of_lt (Nat.lt_of_succ_lt hn)
    have ht : UInt32.ofNat (n + 1) ≠ now := by
      rw [Ne, ← UInt32.toNat_inj, htoNat]
      have hnow : now.toNat = 4294967295 := rfl
      omega
    have hroom : ¬ now ≤ UInt32.ofNat (n + 1) := fun hle =>
      ht (UInt32.le_antisymm (UInt32.not_lt.mp (not_now_lt _)) hle)
    rw [UInt32.ofNat_add (n + 1) 1]
    exact Forward.progress none (ih (Nat.lt_of_succ_lt hn)) ht (by simp)
      (progress_idle _ hminimal (Or.inr (hlength.symm ▸ hroom)))

end Limited

open Limited

theorem forward_window_step : (Sorted step.timeOf step.variableList ∧
    step.oldestTimestep ≤ step.timestep ∧
    (step.maxHistoryLength ≠ 0 → step.timestep - step.oldestTimestep ≤ step.maxHistoryLength ∧
      step.getHorizon ≤ step.timestep)) ∧ Scans ltmsSolver 2 step ∧ Truncated 2 truncated := by
  obtain ⟨hsorted, hle, hlength, htruncate⟩ := forward_window ltmsSolver step forward_step
  obtain ⟨-, ⟨-, hold, hhorizon, hpresent, hok, -⟩, -⟩ := Limited.evaluated
  obtain ⟨hscans, htruncated⟩ := htruncate 2 hold hhorizon
  exact ⟨⟨hsorted, hle, hlength⟩, hscans hpresent, htruncated truncated (eq_valueOr step hok)⟩

/-- A horizon may be after the time step; the copies of the last time step are not of the past; and
the scans of a removal run off a list without variables of the present. -/
theorem not_windowed :
    (¬ ∀ s : TSystem Ltms, Reachable ltmsSolver s → s.maxHistoryLength ≠ 0 →
      s.timestep - s.oldestTimestep ≤ s.maxHistoryLength) ∧
    (¬ ∀ (s : TSystem Ltms) command s', Forward ltmsSolver s →
      s.progress ltmsSolver command = .ok s' → Sorted s'.timeOf s'.variableList) ∧
    ¬ ∀ (s : TSystem Ltms) horizon, Forward ltmsSolver s → s.oldestTimestep < horizon →
      horizon ≤ s.timestep → Scans ltmsSolver horizon s := by
  obtain ⟨-, ⟨-, -, -, -, -, htruncate, hne, hlong⟩, ⟨-, -, hprogress, hunsorted⟩, hstate, hold, hle,
    hsummary, hfails⟩ := Limited.evaluated
  refine ⟨fun hall => ?_, fun hall => ?_, fun hall => ?_⟩
  · have hlate : Reachable ltmsSolver late :=
      Reachable.truncate 5 forward_step.timely.reachable (eq_valueOr step htruncate)
    exact hlong (hall late hlate hne)
  · have hlast : Forward ltmsSolver last := forward_idle 4294967294 (by decide)
    exact hunsorted (hall last (some (0, 0)) lastStep hlast (eq_valueOr last hprogress))
  · have hblank : Built ltmsSolver (blank 1) := Built.empty ({} : Ltms) 1 0 false
    have hstart : Forward ltmsSolver stateOnly :=
      Forward.start [] hblank (by simp) (eq_valueOr (blank 1) hstate)
    obtain ⟨-, hremoval⟩ := hall stateOnly 1 hstart hold hle
    obtain ⟨s₁, h₁⟩ := hremoval summary (eq_valueOr stateOnly hsummary)
    rw [h₁] at hfails
    cases hfails

end Transition
end Livingstone
