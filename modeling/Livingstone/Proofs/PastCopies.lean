import Livingstone.Proofs.Observations
import Livingstone.Transition.Present

/-! The copies of a progress that copies everything. The assignments are made after the copies, and
clear the flag that the copies had. -/

namespace Livingstone
namespace Transition

variable {σ : Type} {S : Solver σ} {s s₀ s₁ s' : TSystem σ} {K : Set Ref} {m r v w : Ref}
  {command : Option (Ref × ℕ)}

theorem Plain.createVariable (h : Plain s) (hK : Tidy K s) {d : TSystem.Declaration}
    (hs : s.createVariable S d = .ok s') : Plain s' := by
  obtain ⟨r, s₁, hadds, hkind, hreg⟩ : ∃ r s₁, Adds s s₁ ∧ (s₁.kindOf r).isAssumption = false ∧
      s₁.registerNewVariable r = .ok s' := by
    cases d with
    | command nvalues id =>
      have hc := newAssignable_created (S := S) .command (List.replicate nvalues 0) now id s
      have ha := adds_newAssignable (S := S) .command (List.replicate nvalues 0) now id s
      have hsame := same_assign (S := S) (s := (s.createCommand S nvalues now id).2)
        (s.createCommand S nvalues now id).1 (some 0)
      refine ⟨_, _, ha.assign hc.ref.ge (some 0), ?_, hs⟩
      exact congrArg Kind.isAssumption (((hsame.cell s.fresh).1).trans hc.kind)
    | observable nvalues id =>
      have hc := newAssignable_created (S := S) .observable (List.replicate nvalues 0) now id s
      exact ⟨_, _, adds_newAssignable _ _ _ _ s, congrArg Kind.isAssumption hc.kind, hs⟩
    | mode nvalues ntransitions id =>
      obtain ⟨ha, href, hkind⟩ := newTransitioned_adds (S := S) nvalues ntransitions now id s
      exact ⟨_, _, ha, congrArg Kind.isAssumption (href ▸ hkind), hs⟩
    | dependent nvalues id =>
      have hc := newVariable_created (S := S) .dependent nvalues now id s
      exact ⟨_, _, adds_newVariable _ _ _ _ s, congrArg Kind.isAssumption hc.kind, hs⟩
  have h₁ := h.adds hK hadds
  obtain ⟨-, hpresent, l, rfl⟩ := registerNewVariable_registered hreg
  intro v hv
  rcases (hpresent v).mp hv with rfl | hv
  · exact hkind
  · exact h₁ v hv

theorem Built.plain (h : Built S s) : Plain s := by
  induction h with
  | empty t historyLength maxTruncatedCandidates progressUsesFull =>
    exact fun v hv => absurd hv List.not_mem_nil
  | created d hb hs ih =>
    obtain ⟨K, hK⟩ := hb.tidy
    exact ih.createVariable hK hs
  | constraint pos neg stateConstraint _ hs ih => exact ih.same (same_createConstraint hs)
  | cost cost _ _ _ ih => exact ih.same (same_addTransitionCost _ cost)
  | prototype p _ _ _ ih => exact ih.same (same_setMode rfl rfl)

theorem Plain.createInitialState (h : Plain s) (hK : Tidy K s) {initial : List (Ref × ℕ)}
    (hs : s.createInitialState S initial = .ok s') : Plain s' := by
  obtain ⟨s₁, h₁, hs⟩ := Loop.bind_eq_ok hs
  obtain ⟨s₂, h₂, hs⟩ := Loop.bind_eq_ok hs
  obtain rfl := Except.ok.inj hs
  have hinitial := same_initialValues h₂
  have hassigned := (hinitial.trans (same_assign (S := S) s₂.stateVar (some 0)))
  exact ((h.grows hK (grows_createStateVar h₁)).same hassigned).congr rfl fun _ _ => rfl

structure Copying (s₀ s : TSystem σ) (done : List Ref) : Prop where
  adds : Adds s₀ s
  bounded : ∀ v ∈ s₀.present, ∀ p : ℕ, s.links.previous v = some p → p < s.fresh
  apart : ∀ v ∈ s₀.present, ∀ w ∈ s₀.present, ∀ p : ℕ, s₀.fresh ≤ p →
    s.links.previous v = some p → s.links.previous w = some p → v = w
  copied : ∀ v ∈ done, (s₀.kindOf v).isAssignable = true → ∃ past : ℕ,
    s.links.previous v = some past ∧ s₀.fresh ≤ past ∧ s.timeOf past = s₀.timestep

theorem Copying.copy {done : List Ref} (h : Copying s₀ s done) (hK : Tidy K s₀)
    (hw : w ∈ s₀.present) (ha : Adds s s')
    (hprevious : ∀ x < s.fresh, s'.links.previous x =
      if x = w then some s.fresh else s.links.previous x)
    (hfresh : s.fresh < s'.fresh) (htime : s'.timeOf s.fresh = s.timestep)
    (hdone : ∀ v ∈ done, v ∈ s₀.present) : Copying s₀ s' (done ++ [w]) := by
  have hlt {v : Ref} (hv : v ∈ s₀.present) : v < s.fresh :=
    (hK.lt (hK.present v hv).1).trans_le h.adds.fresh
  refine ⟨h.adds.trans ha, ?_, ?_, ?_⟩
  · intro v hv p hp
    rw [hprevious v (hlt hv)] at hp
    split_ifs at hp
    · exact Option.some.inj hp ▸ hfresh
    · exact (h.bounded v hv p hp).trans hfresh
  · intro v hv w' hw' p hp hvp hwp
    rw [hprevious v (hlt hv)] at hvp
    rw [hprevious w' (hlt hw')] at hwp
    split_ifs at hvp hwp with hvw hww hww
    · exact hvw.trans hww.symm
    · obtain rfl := Option.some.inj hvp
      exact absurd (h.bounded w' hw' _ hwp) (lt_irrefl _)
    · obtain rfl := Option.some.inj hwp
      exact absurd (h.bounded v hv _ hvp) (lt_irrefl _)
    · exact h.apart v hv w' hw' p hp hvp hwp
  · intro v hv hassignable
    by_cases hvw : v = w
    · subst hvw
      refine ⟨s.fresh, ?_, h.adds.fresh, htime.trans h.adds.timestep⟩
      rw [hprevious v (hlt hw), if_pos rfl]
    · have hv : v ∈ done := by simpa [hvw] using hv
      obtain ⟨past, hpast, hnew, hpasttime⟩ := h.copied v hv hassignable
      refine ⟨past, ?_, hnew, ?_⟩
      · rw [hprevious v (hlt (hdone v hv)), if_neg hvw, hpast]
      · rw [ha.timeOf (h.bounded v (hdone v hv) past hpast), hpasttime]

theorem Tidy.copying (h : Tidy K s) : Copying s s [] where
  adds := Adds.refl s
  bounded v hv p hp := h.bounded v (h.present v hv).1 p (Or.inl hp)
  apart v hv w _ p hp hvp _ := by
    have hlt := h.bounded v (h.present v hv).1 p (Or.inl hvp)
    omega
  copied v hv := absurd hv List.not_mem_nil

theorem Copying.fullProgressCopy {done : List Ref} (h : Copying s₀ s done) (hK : Tidy K s₀)
    (hw : w ∈ s₀.present) (hdone : ∀ v ∈ done, v ∈ s₀.present) :
    Copying s₀ (s.fullProgressCopy S w) (done ++ [w]) := by
  have hlt : w < s₀.fresh := hK.lt (hK.present w hw).1
  have hlt' := hlt.trans_le h.adds.fresh
  have hadds := adds_fullProgressCopy (S := S) w s
  have hprevious (kind : Kind) (x : Ref) (hx : x < s.fresh) :
      (s.copyInPast S kind w).2.links.previous x =
        if x = w then some s.fresh else s.links.previous x := by
    rw [previous_copyInPast kind hlt', if_neg hx.ne]
  unfold TSystem.fullProgressCopy at hadds ⊢
  dsimp only at hadds ⊢
  split at hadds
  case isTrue hkind =>
    rw [if_pos hkind]
    obtain ⟨hfresh, htime⟩ := copyInPast_new (S := S) .assignable w s
    refine h.copy hK hw hadds (hprevious .assignable) hfresh ?_ hdone
    exact ((same_setExogenouslyAssigned _ _).cell s.fresh).2.1.trans htime
  case isFalse hkind =>
    rw [if_neg hkind]
    split
    · obtain ⟨hfresh, htime⟩ := copyInPast_new (S := S) .dependent w s
      exact h.copy hK hw (adds_copyInPast _ w s) (hprevious .dependent) hfresh htime hdone
    · refine ⟨h.adds, h.bounded, h.apart, fun v hv hassignable => ?_⟩
      have hvw : v ≠ w := by
        rintro rfl
        exact hkind (h.adds.kindOf hlt ▸ hassignable)
      exact h.copied v (by simpa [hvw] using hv) hassignable

theorem IsModeStep.copying (h : Copying s₀ s s₀.present) (hK : Tidy K s₀) (hm : m ∈ s₀.present)
    (hs : IsModeStep S m s s') : Copying s₀ s' s₀.present := by
  have hadds := hs.adds
  rcases hs with ⟨-, hs⟩ | rfl
  · obtain ⟨hfresh, htime⟩ := createTransitionVariable_new (S := S) m s
    have hsame := hs.same
    have hcopied := h.copy hK hm hadds (fun x hx => by
      rw [hsame.links, previous_createTransitionVariable hx]) (hsame.fresh ▸ hfresh)
      ((hsame.cell s.fresh).2.1.trans htime) fun v hv => hv
    exact ⟨hcopied.adds, hcopied.bounded, hcopied.apart,
      fun v hv => hcopied.copied v (List.mem_append_left _ hv)⟩
  · exact h

theorem copying_fullProgressCopyVariables (h : Tidy K s)
    (hs : s.fullProgressCopyVariables S command = .ok s') : Copying s s' s.present := by
  have hcopied : Copying s (s.present.foldl (TSystem.fullProgressCopy S) s) s.present ∧
      ∀ v ∈ s.present, v ∈ s.present := by
    refine Loop.foldl_visited (fun done x => Copying s x done ∧ ∀ v ∈ done, v ∈ s.present)
      s.present ?_ ⟨h.copying, fun v hv => absurd hv List.not_mem_nil⟩
    intro done w hw x ⟨hx, hdone⟩
    refine ⟨hx.fullProgressCopy h hw hdone, fun v hv => ?_⟩
    rcases List.mem_append.mp hv with hv | hv
    · exact hdone v hv
    · exact List.mem_singleton.mp hv ▸ hw
  have hpresent := hcopied.1.adds.present_eq
  refine Loop.foldlM_inv (fun x => Copying s x s.present) _ ?_ hcopied.1 hs
  intro m hm x x' hx hstep
  exact (isModeStep_fullProgress hstep).copying hx h (hpresent ▸ hm)

/-- What `fullProgressAssign` gives to the copy of a variable. -/
def assigned (command : Option (Ref × ℕ)) (s : TSystem σ) (v : Ref) : Option ℕ × Bool :=
  match command.filter fun a => a.1 = v with
  | some a => (some a.2, true)
  | none => ((s.cell v).current, false)

theorem fullProgressAssign_eq (hkind : (s.kindOf v).isAssignable = true)
    (hs : s.fullProgressAssign S command v = .ok s') : ∃ past t,
      s.links.previous v = some past ∧ s' = { s.setVariable past { s.cell past with
        current := (assigned command s v).1
        exogenouslyAssigned := (assigned command s v).2 } with solver := t } := by
  unfold TSystem.fullProgressAssign at hs
  rw [if_pos hkind] at hs
  cases hprevious : s.links.previous v with
  | none =>
    rw [hprevious] at hs
    cases hs
  | some past =>
    rw [hprevious] at hs
    dsimp only at hs
    have hset (value : Option ℕ) (b : Bool) : ∃ t,
        (s.assign S past value).setExogenouslyAssigned past b = { s.setVariable past {
          s.cell past with current := value, exogenouslyAssigned := b } with solver := t } := by
      obtain ⟨t, ht⟩ := assign_eq (S := S) (s := s) past value
      refine ⟨t, ?_⟩
      rw [ht]
      simp [TSystem.setExogenouslyAssigned, TSystem.setVariable]
    unfold assigned
    cases hcommand : command.filter fun a => a.1 = v with
    | none =>
      rw [hcommand] at hs
      obtain ⟨t, ht⟩ := hset (s.cell v).current false
      exact ⟨past, t, rfl, (Except.ok.inj hs).symm.trans ht⟩
    | some a =>
      rw [hcommand] at hs
      obtain ⟨t, ht⟩ := hset (some a.2) true
      exact ⟨past, t, rfl, (Except.ok.inj hs).symm.trans ht⟩

/-- After the copies of the variables `done` are assigned. -/
structure Assigning (command : Option (Ref × ℕ)) (s₀ s₁ s : TSystem σ) (done : List Ref) : Prop where
  adds : Adds s₀ s
  same : Same s₁ s
  copied : ∀ v ∈ done, (s₀.kindOf v).isAssignable = true → ∃ past : ℕ,
    s₁.links.previous v = some past ∧ s₀.fresh ≤ past ∧ s₁.timeOf past = s₀.timestep ∧
    ((s.cell past).current, (s.cell past).exogenouslyAssigned) = assigned command s₀ v

theorem Assigning.fullProgressAssign {done : List Ref} (h : Assigning command s₀ s₁ s done)
    (hcopying : Copying s₀ s₁ s₀.present) (hK : Tidy K s₀) (hw : w ∈ s₀.present)
    (hdone : ∀ v ∈ done, v ∈ s₀.present) (hs : s.fullProgressAssign S command w = .ok s') :
    Assigning command s₀ s₁ s' (done ++ [w]) := by
  have hlt : w < s₀.fresh := hK.lt (hK.present w hw).1
  have hsame := h.same.trans (same_fullProgressAssign hs)
  by_cases hkind : (s₀.kindOf w).isAssignable = true
  · obtain ⟨past, hpast, hnew, htime⟩ := hcopying.copied w hw hkind
    obtain ⟨past', t, hpast', rfl⟩ :=
      fullProgressAssign_eq ((h.adds.kindOf hlt).symm ▸ hkind) hs
    rw [h.same.links] at hpast'
    obtain rfl : past' = past := Option.some.inj (hpast'.symm.trans hpast)
    have hvalue : assigned command s w = assigned command s₀ w := by
      unfold assigned
      rw [h.adds.cell w hlt]
    refine ⟨h.adds.setVariable hnew _ t, hsame, fun v hv hassignable => ?_⟩
    by_cases hvw : v = w
    · subst hvw
      refine ⟨past', hpast, hnew, htime, ?_⟩
      simp [TSystem.setVariable, hvalue]
    · have hv : v ∈ done := by simpa [hvw] using hv
      obtain ⟨q, hq, hqnew, hqtime, hqvalue⟩ := h.copied v hv hassignable
      have hne : q ≠ past' := by
        rintro rfl
        exact hvw (hcopying.apart v (hdone v hv) w hw q hqnew hq hpast)
      refine ⟨q, hq, hqnew, hqtime, ?_⟩
      simpa [TSystem.setVariable, hne] using hqvalue
  · have hskip : s' = s := by
      unfold TSystem.fullProgressAssign at hs
      rw [if_neg ((h.adds.kindOf hlt).symm ▸ hkind)] at hs
      exact (Except.ok.inj hs).symm
    refine ⟨hskip ▸ h.adds, hsame, fun v hv hassignable => ?_⟩
    have hvw : v ≠ w := by
      rintro rfl
      exact hkind hassignable
    rw [hskip]
    exact h.copied v (by simpa [hvw] using hv) hassignable

theorem fullProgress_assigning (h : Tidy K s) (hs : s.fullProgress S command = .ok s') :
    ∃ s₀ s₁ s₂, s.truncateIfNeeded S = .ok s₀ ∧ Assigning command s₀ s₁ s₂ s₀.present ∧
      s' = (s₂.propagate S).2.nextTimestep := by
  obtain ⟨s₀, h₀, hs⟩ := Loop.bind_eq_ok hs
  obtain ⟨s₁, h₁, hs⟩ := Loop.bind_eq_ok hs
  obtain ⟨s₂, h₂, hs⟩ := Loop.bind_eq_ok hs
  obtain ⟨s₃, h₃, hs⟩ := Loop.bind_eq_ok hs
  obtain rfl := Except.ok.inj hs
  obtain ⟨K₀, hK₀, -⟩ := h.truncateIfNeeded h₀
  have hcopying₁ := copying_fullProgressCopyVariables hK₀ h₁
  have hconstrains := constrains_fullProgressCreateConstraints h₂
  have hsame := hconstrains.same
  have hcopying : Copying s₀ s₂ s₀.present := by
    refine ⟨hcopying₁.adds.trans hconstrains.adds, ?_, ?_, ?_⟩
    · rw [hsame.links, hsame.fresh]
      exact hcopying₁.bounded
    · rw [hsame.links]
      exact hcopying₁.apart
    · intro v hv hassignable
      obtain ⟨past, hpast, hnew, htime⟩ := hcopying₁.copied v hv hassignable
      exact ⟨past, hsame.links ▸ hpast, hnew, ((hsame.cell past).2.1).trans htime⟩
  refine ⟨s₀, s₂, s₃, h₀, ?_, rfl⟩
  have hpresent := hcopying.adds.present_eq
  have hdone : Assigning command s₀ s₂ s₃ s₂.present ∧ ∀ v ∈ s₂.present, v ∈ s₀.present := by
    refine Loop.foldlM_visited (fun done x => Assigning command s₀ s₂ x done ∧
      ∀ v ∈ done, v ∈ s₀.present) s₂.present ?_ ?_ h₃
    · intro done w hw x x' ⟨hx, hdone⟩ hstep
      rw [hpresent] at hw
      refine ⟨hx.fullProgressAssign hcopying hK₀ hw hdone hstep, fun v hv => ?_⟩
      rcases List.mem_append.mp hv with hv | hv
      · exact hdone v hv
      · exact List.mem_singleton.mp hv ▸ hw
    · exact ⟨⟨hcopying.adds, Same.refl s₂, fun v hv => absurd hv List.not_mem_nil⟩,
        fun v hv => absurd hv List.not_mem_nil⟩
  exact hpresent ▸ hdone.1

theorem minimalProgress_adds (hs : s.minimalProgress S command = .ok s') :
    ∃ s₀ s₁, s.truncateIfNeeded S = .ok s₀ ∧ Adds s₀ s₁ ∧ s' = s₁.nextTimestep := by
  obtain ⟨s₀, h₀, hs⟩ := Loop.bind_eq_ok hs
  cases command with
  | none =>
    obtain rfl := Except.ok.inj hs
    exact ⟨s₀, s₀, h₀, Adds.refl s₀, rfl⟩
  | some a =>
    dsimp only at hs
    obtain ⟨s₁, h₁, hs⟩ := Loop.bind_eq_ok hs
    obtain rfl := Except.ok.inj hs
    have hmoved := (adds_copyInPast (S := S) .command a.1 s₀).trans
      (Adds.foldlM (fun _ _ _ h => (isModeStep_minimalProgress h).adds) h₁)
    have hpast := (copyInPast_ref (S := S) .command a.1 s₀).ge
    have hassigned := (hmoved.assign (S := S) hpast (some a.2)).setExogenouslyAssigned hpast true
    exact ⟨s₀, _, h₀, hassigned.propagate, rfl⟩

theorem progress_adds (h : Tidy K s) (hs : s.progress S command = .ok s') :
    ∃ s₀ s₁, s.truncateIfNeeded S = .ok s₀ ∧ Adds s₀ s₁ ∧ s' = s₁.nextTimestep := by
  unfold TSystem.progress at hs
  split at hs
  · obtain ⟨s₀, s₁, s₂, h₀, hassigning, rfl⟩ := fullProgress_assigning h hs
    exact ⟨s₀, _, h₀, hassigning.adds.propagate, rfl⟩
  · exact minimalProgress_adds hs

theorem Reachable.plain (h : Reachable S s) : Plain s := by
  induction h with
  | start initial hbuilt _ hs =>
    obtain ⟨K, hK⟩ := hbuilt.tidy
    exact hbuilt.plain.createInitialState hK hs
  | observe value _ _ _ ih => exact ih.same (same_observe _ value)
  | progress command hreach hcommand hs ih =>
    obtain ⟨K, hK⟩ := hreach.tidy
    obtain ⟨s₀, s₁, h₀, hadds, rfl⟩ := progress_adds hK hs
    obtain ⟨K₀, hK₀, -⟩ := hK.truncateIfNeeded h₀
    exact ((ih.truncateIfNeeded hK h₀).adds hK₀ hadds).congr rfl fun _ _ => rfl
  | truncate horizon hreach hs ih =>
    obtain ⟨K, hK⟩ := hreach.tidy
    exact ih.truncate hK hs
  | assume value _ _ ih => exact ih.same (same_assign _ value)
  | propagate _ ih => exact ih.same same_propagate
  | candidates cs _ hcs ih => exact ih.congr rfl fun _ _ => rfl

/-- What the copy of a variable is to have: the value of the command, which is exogenous, or what
the variable has itself. -/
def due (command : Option (Ref × ℕ)) (s : TSystem σ) (v : Ref) : Option ℕ × Bool :=
  match command.filter fun a => a.1 = v with
  | some a => (some a.2, true)
  | none => ((s.cell v).current, (s.cell v).exogenouslyAssigned)

structure CopiedFaithfully (command : Option (Ref × ℕ)) (s s' : TSystem σ) (v : Ref) : Prop where
  copy : ∃ past, s'.links.previous v = some past ∧ s.fresh ≤ past ∧ s'.timeOf past = s.timestep ∧
    ((s'.cell past).current, (s'.cell past).exogenouslyAssigned) = due command s v
  current : (s'.cell v).current = (s.cell v).current
  exogenouslyAssigned : (s'.cell v).exogenouslyAssigned = (s.cell v).exogenouslyAssigned

theorem truncateIfNeeded_value (hK : Tidy K s) (hplain : Plain s) (hv : v ∈ s.present)
    (hs : s.truncateIfNeeded S = .ok s₀) : s₀.kindOf v = s.kindOf v ∧ s.fresh ≤ s₀.fresh ∧
      s₀.timestep = s.timestep ∧ (s₀.cell v).current = (s.cell v).current ∧
      (s₀.cell v).exogenouslyAssigned = (s.cell v).exogenouslyAssigned := by
  unfold TSystem.truncateIfNeeded at hs
  split at hs
  · have hkept := truncate_kept hK hv (hplain v hv) hs
    exact ⟨hkept.kindOf, truncate_fresh hK hs, timestep_truncate hs,
      truncate_current hK hv (hplain v hv) hs, hkept.exogenouslyAssigned⟩
  · obtain rfl := Except.ok.inj hs
    exact ⟨rfl, le_rfl, rfl, rfl, rfl⟩

theorem assigned_eq_due_iff : assigned command s v = due command s v ↔
    ((∀ a, command = some a → a.1 ≠ v) → (s.cell v).exogenouslyAssigned = false) := by
  unfold assigned due
  cases hfilter : command.filter fun a => a.1 = v with
  | some a =>
    obtain ⟨hcommand, hv⟩ := Option.filter_eq_some_iff.mp hfilter
    have hne : ¬ ∀ a, command = some a → a.1 ≠ v := fun hall =>
      hall a hcommand (of_decide_eq_true hv)
    exact ⟨fun _ hall => absurd hall hne, fun _ => rfl⟩
  | none =>
    have hne : ∀ a, command = some a → a.1 ≠ v := fun a ha hv => by
      rw [ha] at hfilter
      simp [Option.filter, hv] at hfilter
    constructor
    · intro heq _
      exact (Prod.mk.inj heq).2.symm
    · intro hflag
      rw [hflag hne]

/-- The copies have what they are to have if and only if no variable is exogenously assigned but
the one of the command: the assignments clear the flag that the copies had. -/
theorem copiedFaithfully_iff (h : Reachable S s) (hs : s.fullProgress S command = .ok s') :
    (∀ v ∈ s.present, (s.kindOf v).isAssignable = true → CopiedFaithfully command s s' v) ↔
      ∀ v ∈ s.present, (s.kindOf v).isAssignable = true → (∀ a, command = some a → a.1 ≠ v) →
        (s.cell v).exogenouslyAssigned = false := by
  obtain ⟨K, hK⟩ := h.tidy
  obtain ⟨s₀, s₁, s₂, h₀, hassigning, rfl⟩ := fullProgress_assigning hK hs
  have hpresent := (hK.truncateIfNeeded h₀).present
  obtain ⟨K₀, hK₀, -⟩ := hK.truncateIfNeeded h₀
  refine forall₂_congr fun v hv => forall_congr' fun hkind => ?_
  rw [← assigned_eq_due_iff]
  obtain ⟨hkind₀, hfresh, htimestep, hcurrent, hflag⟩ :=
    truncateIfNeeded_value hK h.plain hv h₀
  obtain ⟨past, hpast, hnew, htime, hvalue⟩ :=
    hassigning.copied v (hpresent ▸ hv) (hkind₀ ▸ hkind)
  have hassigned : assigned command s₀ v = assigned command s v := by
    unfold assigned
    rw [hcurrent]
  have hown := hassigning.adds.cell v (hK₀.lt (hK₀.present v (hpresent ▸ hv)).1)
  constructor
  · intro hcopied
    obtain ⟨q, hq, -, -, hdue⟩ := hcopied.copy
    obtain rfl : q = past := by
      have hq' : s₂.links.previous v = some q := hq
      rw [hassigning.same.links, hpast] at hq'
      exact (Option.some.inj hq').symm
    rw [← hassigned, ← hvalue]
    exact hdue
  · intro heq
    refine ⟨⟨past, ?_, hfresh.trans hnew, ?_, ?_⟩, ?_, ?_⟩
    · exact (congrArg (fun L => L.previous v) hassigning.same.links).trans hpast
    · exact ((hassigning.same.cell past).2.1.trans htime).trans htimestep
    · exact hvalue.trans (hassigned.trans heq)
    · exact (congrArg VariableCell.current hown).trans hcurrent
    · exact (congrArg VariableCell.exogenouslyAssigned hown).trans hflag

namespace Observed

def unseen : TSystem Ltms := TSystem.observe ltmsSolver 0 none start

def unseenStep : TSystem Ltms := valueOr (TSystem.fullProgress ltmsSolver none unseen) unseen

def seenStep : TSystem Ltms := valueOr (TSystem.fullProgress ltmsSolver none start) start

-- one evaluation of the two steps
theorem evaluated_progress :
    (0 ∈ start.present ∧ start.kindOf 0 = .observable ∧ (start.kindOf 0).isAssignable = true) ∧
    ((TSystem.fullProgress ltmsSolver none unseen).isOk = true ∧ 0 ∈ unseen.present ∧
      ∀ v ∈ unseen.present, (unseen.cell v).exogenouslyAssigned = false) ∧
    (TSystem.fullProgress ltmsSolver none start).isOk = true ∧ (due none start 0).2 = true ∧
      (seenStep.links.previous 0).map (fun q => (seenStep.cell q).exogenouslyAssigned) =
        some false := by
  decide +kernel

end Observed

open Observed

/-- The observation is taken back before the progress. -/
theorem copiedFaithfully_unseen : 0 ∈ unseen.present ∧
    ∀ v ∈ unseen.present, (unseen.kindOf v).isAssignable = true →
      CopiedFaithfully none unseen unseenStep v := by
  obtain ⟨⟨hpresent, hkind, -⟩, ⟨hstep, hmem, hflag⟩, -⟩ := evaluated_progress
  have hreach : Reachable ltmsSolver unseen :=
    Reachable.observe none reachable_start hpresent hkind
  exact ⟨hmem, (copiedFaithfully_iff hreach (eq_valueOr unseen hstep)).mpr
    fun v hv _ _ => hflag v hv⟩

/-- The copy of an observation is not exogenous. -/
theorem not_copiedFaithfully_seen : ¬ ∀ (s s' : TSystem Ltms) (command : Option (Ref × ℕ)),
    Reachable ltmsSolver s → s.fullProgress ltmsSolver command = .ok s' →
      ∀ v ∈ s.present, (s.kindOf v).isAssignable = true → CopiedFaithfully command s s' v := by
  intro hall
  obtain ⟨⟨hpresent, -, hassignable⟩, -, hstep, hseen, hcopy⟩ := evaluated_progress
  have hcopied := hall start seenStep none reachable_start (eq_valueOr start hstep) 0 hpresent
    hassignable
  obtain ⟨past, hpast, -, -, hdue⟩ := hcopied.copy
  have hflag := congrArg Prod.snd hdue
  rw [hseen] at hflag
  dsimp only at hflag
  rw [hpast, Option.map_some, hflag] at hcopy
  cases hcopy

end Transition
end Livingstone
