import Livingstone.Proofs.PastCopies
import Livingstone.Transition.OrderedRemoval

/-! Runs of the transition system keep the chains in order, and what is instantiated for a transition
connects the variables of its time steps. -/

namespace Livingstone
namespace Transition

open Function (update update_self update_of_ne)

variable {σ : Type} {S : Solver σ} {s s₀ s₁ s' : TSystem σ} {K D E : Set Ref} {T T' : UInt32}
  {m r v w : Ref} {l t : List Ref} {command : Option (Ref × ℕ)}

theorem Ordered.register (h : Ordered D E T s) (hnew : r ∉ s.present) (hkind : (s.kindOf r).isAssumption = false)
    (hprevious : s.links.previous r = none) (hnext : s.links.next r = none) (hE : r ∉ E)
    (hmode : s.kindOf r = .transitioned → IsTransitions s r [] ∧
      ∀ m ∈ s.present, s.kindOf m = .transitioned →
        (s.modeCell m).horizonTransition ≠ (s.modeCell r).horizonTransition)
    (hs : s.registerNewVariable r = .ok s') : Ordered D E T s' := by
  obtain ⟨-, -, -, hfree, rfl⟩ := registerNewVariable_eq hs
  have hperm := perm_growAndSet (r := r) hfree
  have hpresent (x : Ref) : x ∈ (TSystem.growAndSet s.presentVariables (s.cell r).id.toNat
      r).filterMap id ↔ x = r ∨ x ∈ s.present := mem_growAndSet hfree x
  refine ⟨h.consistent, h.nows, ?_, ?_, fun v hv => ?_, ?_⟩
  · exact hperm.nodup_iff.mpr (List.nodup_cons.mpr ⟨hnew, h.nodup⟩)
  · intro v hv
    rcases (hpresent v).mp hv with rfl | hv
    · exact hkind
    · exact h.plain v hv
  · rcases (hpresent v).mp hv with rfl | hv
    · refine ⟨[], ⟨⟨hnext, hprevious⟩, by simp, by simp, List.Pairwise.nil⟩, fun hmode' => ?_⟩
      obtain ⟨ht, -⟩ := hmode hmode'
      exact ⟨[], ⟨ht.whole, ht.first, ht.listed⟩, fun _ => rfl, fun hE' => absurd hE' hE⟩
    · obtain ⟨l, hl, ht⟩ := h.chain v hv
      refine ⟨l, ⟨hl.whole, hl.listed, hl.times, hl.descending⟩, fun hmode' => ?_⟩
      obtain ⟨t, ht, hsync⟩ := ht hmode'
      exact ⟨t, ⟨ht.whole, ht.first, ht.listed⟩, hsync⟩
  · intro m hm m' hm' hkindm hkindm' heq
    rcases (hpresent m).mp hm with hmr | hmp <;> rcases (hpresent m').mp hm' with hmr' | hmp'
    · exact hmr.trans hmr'.symm
    · subst hmr
      exact absurd heq.symm ((hmode hkindm).2 m' hmp' hkindm')
    · subst hmr'
      exact absurd heq ((hmode hkindm').2 m hmp hkindm)
    · exact h.horizons m hmp m' hmp' hkindm hkindm' heq

/-- A system into which a model is being read. -/
structure Starting (s : TSystem σ) : Prop where
  ordered : Ordered ∅ ∅ 0 s
  nows : ∀ x ∈ s.variableList, s.timeOf x = now
  insertBefore : s.insertBefore = none
  timestep : s.timestep = 0

theorem Starting.alike (h : Starting s) (ha : Alike s s') (hclock : clock s' = clock s) :
    Starting s' := by
  refine ⟨h.ordered.alike ha, ?_, (congrArg Prod.snd hclock).trans h.insertBefore,
    (congrArg Prod.fst hclock).trans h.timestep⟩
  rw [ha.list]
  exact fun x hx => (ha.cell x).2.trans (h.nows x hx)

theorem Starting.created {kind : Kind} (h : Starting s) (hK : Tidy K s)
    (hc : Created kind now r s s₁) (ha : Adds s s₁) : Starting s₁ := by
  have hnows : ∀ x ∈ s₁.variableList, s₁.timeOf x = now := by
    intro x hx
    rcases (hc.list x).mp hx with rfl | hx
    · exact hc.time
    · exact ((hc.grows.cell x (hK.lt hx)).2.1).trans (h.nows x hx)
  refine ⟨h.ordered.created hK hc ?_, hnows, ha.insertBefore h.insertBefore,
    ha.timestep.trans h.timestep⟩
  exact List.pairwise_of_forall_mem_list fun a _ b hb _ => hnows b hb

theorem Starting.register (h : Starting s) (hnew : r ∉ s.present)
    (hkind : (s.kindOf r).isAssumption = false) (hprevious : s.links.previous r = none)
    (hnext : s.links.next r = none)
    (hmode : s.kindOf r = .transitioned → IsTransitions s r [] ∧
      ∀ m ∈ s.present, s.kindOf m = .transitioned →
        (s.modeCell m).horizonTransition ≠ (s.modeCell r).horizonTransition)
    (hs : s.registerNewVariable r = .ok s') : Starting s' := by
  have hordered := h.ordered.register hnew hkind hprevious hnext (fun hE => hE.elim) hmode hs
  obtain ⟨-, -, -, -, rfl⟩ := registerNewVariable_eq hs
  exact ⟨hordered, h.nows, h.insertBefore, h.timestep⟩

theorem Created.not_mem_present {kind : Kind} {timeStep : UInt32} (hK : Tidy K s)
    (hc : Created kind timeStep r s s₁) : r ∉ s₁.present := by
  have hpresent : s₁.present = s.present := congrArg (List.filterMap id) hc.present
  exact fun hmem => hc.not_mem (hK.lt (hK.present r (hpresent ▸ hmem)).1) rfl

theorem Ordered.setMode (h : Ordered D E T s) (hK : Tidy K s) (hm : m ∉ s.present) (x : ModeCell) :
    Ordered D E T (s.setMode m x) := by
  refine h.transport hK rfl (fun _ hx => hx) (fun _ _ => ⟨rfl, rfl⟩) (fun q hq => ?_) h.consistent
    h.nows fun _ _ hw => hw
  have hne : q ≠ m := fun heq => hm (heq ▸ hq)
  simp [TSystem.setMode, hne]

theorem Starting.newTransitioned {nvalues ntransitions : ℕ} {id : UInt32} (h : Starting s)
    (hK : Tidy K s)
    (hs : (s.newTransitioned S nvalues ntransitions now id).2.registerNewVariable
      (s.newTransitioned S nvalues ntransitions now id).1 = .ok s') : Starting s' := by
  have hc := newVariable_created (S := S) .transitioned nvalues now id s
  have ha := adds_newVariable (S := S) .transitioned nvalues now id s
  unfold TSystem.newTransitioned at hs
  dsimp only at hs
  generalize s.newVariable S .transitioned nvalues now id = x at hc ha hs
  have h₁ := h.created hK hc ha
  obtain ⟨hK₁, hlist, -, hprevious, hnext, -⟩ := hK.created hc
  have hnew := hc.not_mem_present hK
  have hlt : x.1 < x.2.fresh := hK₁.lt hlist
  -- the first transition
  have hc₂ := newAssignable_created (S := S) .transition (List.replicate ntransitions 0) now id x.2
  have halike := alike_createModeTransition (S := S) (List.replicate ntransitions 0) now id x.2
  have hadds := adds_createModeTransition (S := S) (List.replicate ntransitions 0) now id x.2
  obtain ⟨href, hlinks⟩ :=
    links_createModeTransition (S := S) (List.replicate ntransitions 0) now id x.2
  have h₂ := (h₁.created hK₁ hc₂ (adds_newAssignable _ _ _ _ _)).alike halike
    (touches_assign (S := S) _ (some 0)).clock
  have hg := grows_createModeTransition (S := S) (List.replicate ntransitions 0) now id x.2
  have hK₂ := hK₁.grows hg
  generalize x.2.createModeTransition S (List.replicate ntransitions 0) now id = y at *
  have hkind : y.2.kindOf x.1 = .transitioned := (hadds.kindOf hlt).trans hc.kind
  have hnew₂ : x.1 ∉ y.2.present := hadds.present_eq ▸ hnew
  have hne : x.1 ≠ x.2.fresh := hlt.ne
  have hunlinked : y.2.links.previous y.1 = none ∧ y.2.links.next y.1 = none := by
    rw [hlinks, href]
    exact ⟨update_self .., update_self ..⟩
  have hset (c : ModeCell) : Starting (y.2.setMode x.1 c) :=
    ⟨h₂.ordered.setMode hK₂ hnew₂ c, h₂.nows, h₂.insertBefore, h₂.timestep⟩
  refine (hset _).register hnew₂ (congrArg Kind.isAssumption hkind) ?_ ?_ (fun _ => ⟨?_, ?_⟩) hs
  · change y.2.links.previous x.1 = none
    rw [hlinks]
    exact (update_of_ne hne ..).trans hprevious
  · change y.2.links.next x.1 = none
    rw [hlinks]
    exact (update_of_ne hne ..).trans hnext
  · refine ⟨?_, ?_, by simp⟩
    · simp only [TSystem.setMode, update_self]
      exact ⟨hunlinked.2, hunlinked.1⟩
    · simp [TSystem.setMode]
  · intro m hm hmode
    have hmx : m ≠ x.1 := fun heq => hnew₂ (heq ▸ hm)
    have hm₁ : m ∈ x.2.present := hadds.present_eq ▸ hm
    have hmode₁ : x.2.kindOf m = .transitioned :=
      (hadds.kindOf (hK₁.lt (hK₁.present m hm₁).1)).symm.trans hmode
    have hlt := hK₁.lt (hK₁.modes m hm₁ hmode₁).2.1.1
    simp only [TSystem.setMode, update_self, update_of_ne hmx, (hg.modes m).2, href]
    exact hlt.ne

theorem Starting.createVariable {d : TSystem.Declaration} (h : Starting s) (hK : Tidy K s)
    (hs : s.createVariable S d = .ok s') : Starting s' := by
  cases d with
  | command nvalues id =>
    have hc := newAssignable_created (S := S) .command (List.replicate nvalues 0) now id s
    have h₁ := h.created hK hc (adds_newAssignable _ _ _ _ s)
    obtain ⟨-, -, -, hprevious, hnext, -⟩ := hK.created hc
    have hsame := same_assign (S := S) (s := (s.createCommand S nvalues now id).2)
      (s.createCommand S nvalues now id).1 (some 0)
    have hkind := (hsame.cell (s.createCommand S nvalues now id).1).1.trans hc.kind
    refine (h₁.alike hsame.alike (touches_assign _ _).clock).register ?_ (congrArg Kind.isAssumption hkind) ?_ ?_
      (fun hmode => Kind.noConfusion (hkind.symm.trans hmode)) hs
    · exact hsame.alike.present_eq.symm ▸ hc.not_mem_present hK
    · exact hsame.links.symm ▸ hprevious
    · exact hsame.links.symm ▸ hnext
  | observable nvalues id =>
    have hc := newAssignable_created (S := S) .observable (List.replicate nvalues 0) now id s
    obtain ⟨-, -, -, hprevious, hnext, -⟩ := hK.created hc
    exact (h.created hK hc (adds_newAssignable _ _ _ _ s)).register (hc.not_mem_present hK)
      (congrArg Kind.isAssumption hc.kind) hprevious hnext (fun hmode => Kind.noConfusion (hc.kind.symm.trans hmode)) hs
  | mode nvalues ntransitions id => exact h.newTransitioned hK hs
  | dependent nvalues id =>
    have hc := newVariable_created (S := S) .dependent nvalues now id s
    obtain ⟨-, -, -, hprevious, hnext, -⟩ := hK.created hc
    exact (h.created hK hc (adds_newVariable _ _ _ _ s)).register (hc.not_mem_present hK)
      (congrArg Kind.isAssumption hc.kind) hprevious hnext (fun hmode => Kind.noConfusion (hc.kind.symm.trans hmode)) hs

theorem starting_empty (t : σ) (historyLength maxTruncatedCandidates : UInt32)
    (progressUsesFull : Bool) :
    Starting (TSystem.empty t historyLength maxTruncatedCandidates progressUsesFull) := by
  refine ⟨⟨⟨?_, ?_⟩, List.Pairwise.nil, List.nodup_nil, ?_, ?_, ?_⟩, ?_, rfl, rfl⟩
  all_goals simp [TSystem.empty, TSystem.present, Plain]

theorem Built.starting (h : Built S s) : Starting s := by
  induction h with
  | empty t historyLength maxTruncatedCandidates progressUsesFull =>
    exact starting_empty t historyLength maxTruncatedCandidates progressUsesFull
  | created d hb hs ih =>
    obtain ⟨K, hK⟩ := hb.tidy
    exact ih.createVariable hK hs
  | constraint pos neg stateConstraint _ hs ih =>
    exact ih.alike (same_createConstraint hs).alike (touches_createConstraint hs).clock
  | cost cost _ _ _ ih => exact ih.alike (same_addTransitionCost _ cost).alike rfl
  | @prototype s m p _ _ _ ih =>
    have hset : Same s (s.addPrototype m p) := same_setMode rfl rfl
    exact ih.alike hset.alike rfl

structure Settled (s : TSystem σ) : Prop where
  ordered : Ordered ∅ ∅ s.timestep s
  insertBefore : s.insertBefore = none

theorem Settled.alike (h : Settled s) (ha : Alike s s') (hclock : clock s' = clock s) :
    Settled s' := by
  have htimestep : s'.timestep = s.timestep := congrArg Prod.fst hclock
  exact ⟨htimestep.symm ▸ h.ordered.alike ha, (congrArg Prod.snd hclock).trans h.insertBefore⟩

theorem Ordered.advance (h : Ordered D ∅ T s) (hT : T < T') : Ordered ∅ ∅ T' s := by
  refine ⟨h.consistent, h.nows, h.nodup, h.plain, fun v hv => ?_, h.horizons⟩
  obtain ⟨l, hl, hmodes⟩ := h.chain v hv
  refine ⟨l, ⟨hl.whole, hl.listed, fun x hx => ?_, hl.descending⟩, fun hmode => ?_⟩
  · obtain ⟨hnow, hlt | ⟨-, heq⟩⟩ := hl.times x hx
    · exact ⟨hnow, Or.inl (UInt32.lt_trans hlt hT)⟩
    · exact ⟨hnow, Or.inl (heq ▸ hT)⟩
  · obtain ⟨t, ht, hsync, -⟩ := hmodes hmode
    exact ⟨t, ht, hsync, fun hE => hE.elim⟩

theorem lt_nextTimestep (h : s.timestep ≠ now) : s.timestep < s.nextTimestep.timestep := by
  have hne : s.timestep.toNat ≠ now.toNat := fun heq => h (UInt32.toNat_inj.mp heq)
  have hlt : s.timestep.toNat < 2 ^ 32 := s.timestep.toNat_lt
  have hnow : now.toNat = 4294967295 := rfl
  rw [UInt32.lt_iff_toNat_lt]
  change s.timestep.toNat < (s.timestep + 1).toNat
  rw [UInt32.toNat_add, UInt32.toNat_one, Nat.mod_eq_of_lt (by omega)]
  exact Nat.lt_succ_self _

theorem Settled.nextTimestep (h : Ordered D ∅ s.timestep s) (hb : s.insertBefore = none)
    (ht : s.timestep ≠ now) : Settled s.nextTimestep := by
  have halike : Alike s s.nextTimestep :=
    ⟨rfl, rfl, rfl, rfl, fun _ => ⟨rfl, rfl⟩, fun _ => ⟨rfl, rfl⟩⟩
  exact ⟨(h.advance (lt_nextTimestep ht)).alike halike, hb⟩

theorem Starting.createInitialState (h : Starting s) (hK : Tidy K s) {initial : List (Ref × ℕ)}
    (hs : s.createInitialState S initial = .ok s') : Settled s' := by
  obtain ⟨s₁, h₁, hs⟩ := Loop.bind_eq_ok hs
  obtain ⟨s₂, h₂, hs⟩ := Loop.bind_eq_ok hs
  obtain rfl := Except.ok.inj hs
  have hassigned := (same_initialValues h₂).trans (same_assign (S := S) s₂.stateVar (some 0))
  have hclock : clock (s₂.assign S s₂.stateVar (some 0)) = (0, none) := by
    rw [(touches_assign _ _).clock, (touches_initialValues h₂).clock, clock_createStateVar h₁,
      h.timestep]
  have hordered := (h.ordered.createStateVar hK h₁).alike hassigned.alike
  generalize s₂.assign S s₂.stateVar (some 0) = s₃ at hclock hordered
  have htimestep : s₃.timestep = 0 := congrArg Prod.fst hclock
  have hnext : Settled s₃.nextTimestep :=
    Settled.nextTimestep (htimestep.symm ▸ hordered) (congrArg Prod.snd hclock) (by
      rw [htimestep]
      decide)
  exact hnext.alike same_propagate.alike rfl

theorem Settled.truncate {horizon : UInt32} (h : Settled s) (hK : Tidy K s)
    (hs : s.truncate S horizon = .ok s') : Settled s' := by
  refine ⟨?_, insertBefore_truncate h.insertBefore hs⟩
  rw [timestep_truncate hs]
  exact h.ordered.truncate hK hs

theorem Settled.truncateIfNeeded (h : Settled s) (hK : Tidy K s)
    (hs : s.truncateIfNeeded S = .ok s') : Settled s' := by
  unfold TSystem.truncateIfNeeded at hs
  split at hs
  · exact h.truncate hK hs
  · obtain rfl := Except.ok.inj hs
    exact h

/-- In a progress from `s₀` on, when the variables of `D` are copied. -/
structure Passing (s₀ : TSystem σ) (D : Set Ref) (s : TSystem σ) : Prop where
  tidied : Tidied s₀ s
  adds : Adds s₀ s
  ordered : Ordered D ∅ s.timestep s
  insertBefore : s.insertBefore = none
  timestep : s.timestep < now

theorem Passing.kindOf (h : Passing s₀ D s) (hK : Tidy K s₀) (hv : v ∈ s₀.present) :
    s.kindOf v = s₀.kindOf v := h.adds.kindOf (hK.lt (hK.present v hv).1)

theorem Settled.passing (h : Settled s) (hK : Tidy K s) (ht : s.timestep ≠ now) :
    Passing s ∅ s := by
  have hle : s.timestep ≤ now := UInt32.not_lt.mp (not_now_lt s.timestep)
  exact ⟨⟨K, hK, rfl⟩, Adds.refl s, h.ordered, h.insertBefore, UInt32.lt_of_le_of_ne hle ht⟩

theorem Passing.same (h : Passing s₀ D s) (hs : Same s s') (ha : Adds s₀ s')
    (hclock : clock s' = clock s) : Passing s₀ D s' := by
  have htimestep : s'.timestep = s.timestep := congrArg Prod.fst hclock
  exact ⟨h.tidied.same hs, ha, htimestep.symm ▸ h.ordered.alike hs.alike,
    (congrArg Prod.snd hclock).trans h.insertBefore, htimestep.symm ▸ h.timestep⟩

theorem Passing.copyInPast (kind : Kind) (h : Passing s₀ D s) (hK : Tidy K s₀)
    (hkind : kind.isAssumption = false) (hv : v ∈ s₀.present)
    (hmode : s₀.kindOf v ≠ .transitioned) (hvD : v ∉ D) :
    Passing s₀ (insert v D) (s.copyInPast S kind v).2 := by
  have hadds := adds_copyInPast (S := S) kind v s
  have htidied := h.tidied.copyInPast (S := S) hkind hv
  have hkindv := h.kindOf hK hv
  have hvs : v ∈ s.present := h.tidied.present ▸ hv
  obtain ⟨K₁, hK₁, -⟩ := h.tidied
  have hcopied := h.ordered.copyInPast (S := S) kind hK₁ hvs hvD (fun hE => hE.elim) h.timestep
    h.insertBefore
  have hlt : v < s.fresh := hK₁.lt (hK₁.present v hvs).1
  have hsettled := hcopied.settle fun m hm => by
    rw [hm.resolve_right fun hE => hE.elim, hadds.kindOf hlt, hkindv]
    exact hmode
  refine ⟨htidied, h.adds.trans hadds, ?_, hadds.insertBefore h.insertBefore, ?_⟩
  · rw [hadds.timestep]
    exact hsettled
  · rw [hadds.timestep]
    exact h.timestep

theorem Passing.fullProgressCopy (h : Passing s₀ D s) (hK : Tidy K s₀)
    (hv : v ∈ s₀.present) (hvD : v ∉ D) : ∃ D', Passing s₀ D' (s.fullProgressCopy S v) ∧
      ∀ w ∈ D', w ∈ D ∨ w = v ∧ s₀.kindOf w ≠ .transitioned := by
  have hkind := h.kindOf hK hv
  unfold TSystem.fullProgressCopy
  dsimp only
  split
  case isTrue hassignable =>
    have hmode : s₀.kindOf v ≠ .transitioned := by
      rintro heq
      rw [hkind, heq] at hassignable
      cases hassignable
    have hcopied := h.copyInPast (S := S) .assignable hK rfl hv hmode hvD
    have hpast := (copyInPast_ref (S := S) .assignable v s).ge
    refine ⟨insert v D, hcopied.same (same_setExogenouslyAssigned _ _)
      (hcopied.adds.setExogenouslyAssigned (h.adds.fresh.trans hpast) _) rfl, ?_⟩
    rintro w (rfl | hw)
    · exact Or.inr ⟨rfl, hmode⟩
    · exact Or.inl hw
  case isFalse =>
    split
    case isTrue hdependent =>
      have hmode : s₀.kindOf v ≠ .transitioned := by
        rw [← hkind, hdependent]
        exact Kind.noConfusion
      refine ⟨insert v D, h.copyInPast .dependent hK rfl hv hmode hvD, ?_⟩
      rintro w (rfl | hw)
      · exact Or.inr ⟨rfl, hmode⟩
      · exact Or.inl hw
    case isFalse => exact ⟨D, h, fun w hw => Or.inl hw⟩

theorem Passing.copies (h : Passing s₀ ∅ s₀) (hK : Tidy K s₀) :
    ∃ D, Passing s₀ D (s₀.present.foldl (TSystem.fullProgressCopy S) s₀) ∧
      ∀ v ∈ D, s₀.kindOf v ≠ .transitioned := by
  let I (rest : List Ref) (x : TSystem σ) : Prop := ∃ D, Passing s₀ D x ∧
    (∀ v ∈ D, s₀.kindOf v ≠ .transitioned) ∧ rest.Nodup ∧ ∀ v ∈ rest, v ∈ s₀.present ∧ v ∉ D
  have hstep (v : Ref) (rest : List Ref) (x : TSystem σ) (hx : I (v :: rest) x) :
      I rest (x.fullProgressCopy S v) := by
    obtain ⟨D, hD, hmodes, hnodup, hrest⟩ := hx
    rw [List.forall_mem_cons] at hrest
    obtain ⟨hv, hnodup⟩ := List.nodup_cons.mp hnodup
    obtain ⟨D', hD', hadded⟩ := hD.fullProgressCopy (S := S) hK hrest.1.1 hrest.1.2
    refine ⟨D', hD', fun w hw => ?_, hnodup, fun w hw => ⟨(hrest.2 w hw).1, fun hwD => ?_⟩⟩
    · exact (hadded w hw).elim (hmodes w) And.right
    · rcases hadded w hwD with hwD | ⟨rfl, -⟩
      · exact (hrest.2 w hw).2 hwD
      · exact hv hw
  have hstart : I s₀.present s₀ :=
    ⟨∅, h, fun _ hE => hE.elim, h.ordered.nodup, fun v hv => ⟨hv, fun hE => hE.elim⟩⟩
  obtain ⟨D, hD, hmodes, -⟩ := Loop.foldl_left I hstep hstart
  exact ⟨D, hD, hmodes⟩

theorem Passing.createTransitionVariable (h : Passing s₀ D s) (hm : m ∈ s₀.present)
    (hmode : s.kindOf m = .transitioned) (hmD : m ∉ D) :
    Passing s₀ (insert m D) (s.createTransitionVariable S m) := by
  have hadds := adds_createTransitionVariable (S := S) m s
  have htidied := h.tidied.createTransitionVariable (S := S) hm hmode
  have hms : m ∈ s.present := h.tidied.present ▸ hm
  obtain ⟨K₁, hK₁, -⟩ := h.tidied
  have hordered := h.ordered.createTransitionVariable (S := S) hK₁ hms hmode hmD h.timestep
    h.insertBefore
  refine ⟨htidied, h.adds.trans hadds, ?_, hadds.insertBefore h.insertBefore, ?_⟩
  · rw [hadds.timestep]
    exact hordered
  · rw [hadds.timestep]
    exact h.timestep

theorem Passing.constrains (h : Passing s₀ D s) (hs : Constrains s s') : Passing s₀ D s' :=
  h.same hs.same (h.adds.trans hs.adds) hs.touches.clock

/-- A loop over variables, in which the modes among them are copied with their transitions. -/
theorem Passing.modes {f : TSystem σ → Ref → Except L2Error (TSystem σ)} (h : Passing s₀ D s)
    (hK : Tidy K s₀) (hf : ∀ x m x', f x m = .ok x' → IsModeStep S m x x') (hl : l.Nodup)
    (hlD : ∀ m ∈ l, m ∈ s₀.present ∧ (s₀.kindOf m = .transitioned → m ∉ D))
    (hs : l.foldlM f s = .ok s') : ∃ D', Passing s₀ D' s' ∧ ∀ w ∈ D', w ∈ D ∨ w ∈ l := by
  let I (rest : List Ref) (x : TSystem σ) : Prop := ∃ D', Passing s₀ D' x ∧
    (∀ w ∈ D', w ∈ D ∨ w ∈ l) ∧ rest.Nodup ∧ rest ⊆ l ∧
      ∀ m ∈ rest, s₀.kindOf m = .transitioned → m ∉ D'
  have hstep (m : Ref) (rest : List Ref) (x x' : TSystem σ) (hx : I (m :: rest) x)
      (hx' : f x m = .ok x') : I rest x' := by
    obtain ⟨D', hD', hadded, hnodup, hrest, hmodes⟩ := hx
    obtain ⟨hm, hnodup⟩ := List.nodup_cons.mp hnodup
    rw [List.forall_mem_cons] at hmodes
    have hml : m ∈ l := hrest List.mem_cons_self
    have hrest : rest ⊆ l := fun w hw => hrest (List.mem_cons_of_mem m hw)
    have hmp := (hlD m hml).1
    rcases hf x m x' hx' with ⟨hmode, hconstrains⟩ | rfl
    · have hmD := hmodes.1 (hD'.kindOf hK hmp ▸ hmode)
      refine ⟨insert m D', (hD'.createTransitionVariable hmp hmode hmD).constrains hconstrains,
        ?_, hnodup, hrest, fun w hw hmode' => ?_⟩
      · rintro w (rfl | hw)
        · exact Or.inr hml
        · exact hadded w hw
      · rintro (rfl | hwD)
        · exact hm hw
        · exact hmodes.2 w hw hmode' hwD
    · exact ⟨D', hD', hadded, hnodup, hrest, hmodes.2⟩
  have hstart : I l s :=
    ⟨D, h, fun w hw => Or.inl hw, hl, List.Subset.refl l, fun m hm => (hlD m hm).2⟩
  obtain ⟨D', hD', hadded, -⟩ := Loop.foldlM_left I hstep hstart hs
  exact ⟨D', hD', hadded⟩

theorem Passing.nextTimestep (h : Passing s₀ D s) : Settled s.nextTimestep :=
  Settled.nextTimestep h.ordered h.insertBefore (UInt32.ne_of_lt h.timestep)

theorem timestep_truncateIfNeeded (hs : s.truncateIfNeeded S = .ok s') :
    s'.timestep = s.timestep := by
  unfold TSystem.truncateIfNeeded at hs
  split at hs
  · exact timestep_truncate hs
  · obtain rfl := Except.ok.inj hs
    rfl

theorem Settled.start (h : Settled s) (hK : Tidy K s) (ht : s.timestep ≠ now)
    (hs : s.truncateIfNeeded S = .ok s₀) : ∃ K₀, Tidy K₀ s₀ ∧ Passing s₀ ∅ s₀ ∧
      s₀.present = s.present ∧ ∀ v ∈ s.present, s₀.kindOf v = s.kindOf v := by
  have htidied := hK.truncateIfNeeded hs
  have hpresent := htidied.present
  obtain ⟨K₀, hK₀, -⟩ := htidied
  have hne : s₀.timestep ≠ now := timestep_truncateIfNeeded hs ▸ ht
  exact ⟨K₀, hK₀, (h.truncateIfNeeded hK hs).passing hK₀ hne, hpresent,
    fun v hv => (truncateIfNeeded_value hK h.ordered.plain hv hs).1⟩

theorem Passing.copyCommand {a : Ref × ℕ} (h : Passing s₀ ∅ s₀) (hK : Tidy K s₀)
    (ha : a.1 ∈ s₀.present) (hkind : s₀.kindOf a.1 = .command) :
    Passing s₀ {a.1} (s₀.copyInPast S .command a.1).2 := by
  have hmode : s₀.kindOf a.1 ≠ .transitioned := by
    rw [hkind]
    exact Kind.noConfusion
  have hcopied := h.copyInPast (S := S) .command hK rfl ha hmode fun hE => hE.elim
  rwa [insert_empty_eq] at hcopied

theorem Settled.minimalProgress (h : Settled s) (hK : Tidy K s) (ht : s.timestep ≠ now)
    (hcommand : ∀ a, command = some a → a.1 ∈ s.present ∧ s.kindOf a.1 = .command)
    (hs : s.minimalProgress S command = .ok s') : Settled s' := by
  cases command with
  | none =>
    obtain ⟨s₀, h₀, hs⟩ := Loop.bind_eq_ok hs
    obtain ⟨K₀, hK₀, hpassing, -⟩ := h.start hK ht h₀
    obtain rfl := Except.ok.inj hs
    exact hpassing.nextTimestep
  | some a =>
    obtain ⟨ha, hkind⟩ := hcommand a rfl
    rw [minimalProgress_eq] at hs
    obtain ⟨s₀, h₀, hs⟩ := Loop.bind_eq_ok hs
    obtain ⟨K₀, hK₀, hpassing, hpresent, hkinds⟩ := h.start hK ht h₀
    dsimp only at hs
    obtain ⟨s₁, h₁, hs⟩ := Loop.bind_eq_ok hs
    obtain rfl := Except.ok.inj hs
    have hkind₀ := (hkinds a.1 ha).trans hkind
    have hcopied := hpassing.copyCommand (S := S) hK₀ (hpresent ▸ ha) hkind₀
    have hpast := (copyInPast_ref (S := S) .command a.1 s₀).ge
    generalize s₀.copyInPast S .command a.1 = x at *
    have hmodes : ∀ m ∈ x.2.present, m ∈ s₀.present ∧
        (s₀.kindOf m = .transitioned → m ∉ ({a.1} : Set Ref)) := by
      refine fun m hm => ⟨hcopied.tidied.present ▸ hm, ?_⟩
      rintro hmode rfl
      rw [hkind₀] at hmode
      cases hmode
    obtain ⟨D, hD, -⟩ := hcopied.modes hK₀ (fun _ _ _ => isModeStep_minimalProgress)
      hcopied.ordered.nodup hmodes h₁
    have hassigned := hD.same (same_assign (S := S) x.1 (some a.2)) (hD.adds.assign hpast _)
      (touches_assign _ _).clock
    have hset := hassigned.same (same_setExogenouslyAssigned x.1 true)
      (hassigned.adds.setExogenouslyAssigned hpast _) rfl
    exact (hset.same (same_propagate (S := S)) hset.adds.propagate rfl).nextTimestep

theorem Settled.fullProgress (h : Settled s) (hK : Tidy K s) (ht : s.timestep ≠ now)
    (hs : s.fullProgress S command = .ok s') : Settled s' := by
  obtain ⟨s₀, h₀, hs⟩ := Loop.bind_eq_ok hs
  obtain ⟨s₁, h₁, hs⟩ := Loop.bind_eq_ok hs
  obtain ⟨s₂, h₂, hs⟩ := Loop.bind_eq_ok hs
  obtain ⟨s₃, h₃, hs⟩ := Loop.bind_eq_ok hs
  obtain rfl := Except.ok.inj hs
  obtain ⟨K₀, hK₀, hpassing, -⟩ := h.start hK ht h₀
  obtain ⟨D, hcopied, hmodes⟩ := hpassing.copies (S := S) hK₀
  rw [fullProgressCopyVariables_eq] at h₁
  obtain ⟨D', hD', -⟩ := hcopied.modes hK₀ (fun _ _ _ => isModeStep_fullProgress)
    hpassing.ordered.nodup (fun m hm => ⟨hm, fun hmode hmD => hmodes m hmD hmode⟩) h₁
  have hconstrained := hD'.constrains (constrains_fullProgressCreateConstraints h₂)
  have hsame : Same s₂ s₃ := same_foldlM (fun _ _ _ hs => same_fullProgressAssign hs) h₃
  have hclock := (Touches.foldlM (fun _ _ _ hs => touches_fullProgressAssign hs) h₃).clock
  have hordered := (hconstrained.ordered.alike hsame.alike).alike (same_propagate (S := S)).alike
  have htimestep : s₃.timestep = s₂.timestep := congrArg Prod.fst hclock
  refine Settled.nextTimestep (s := (s₃.propagate S).2) (D := D') ?_ ?_ ?_
  · exact htimestep.symm ▸ hordered
  · exact (congrArg Prod.snd hclock).trans hconstrained.insertBefore
  · exact htimestep.trans_ne (UInt32.ne_of_lt hconstrained.timestep)

theorem Settled.progress (h : Settled s) (hK : Tidy K s) (ht : s.timestep ≠ now)
    (hcommand : ∀ a, command = some a → a.1 ∈ s.present ∧ s.kindOf a.1 = .command)
    (hs : s.progress S command = .ok s') : Settled s' := by
  unfold TSystem.progress at hs
  split at hs
  · exact h.fullProgress hK ht hs
  · exact h.minimalProgress hK ht hcommand hs

/-- The states of runs whose progress steps are at time steps before the present. -/
inductive Timely (S : Solver σ) : TSystem σ → Prop
  | start {s s' : TSystem σ} (initial : List (Ref × ℕ)) : Built S s →
    (∀ v ∈ initial, v.1 ∈ s.present ∧
      (s.kindOf v.1 = .transitioned ∨ s.kindOf v.1 = .observable)) →
    s.createInitialState S initial = .ok s' → Timely S s'
  | observe {s : TSystem σ} {r : Ref} (value : Option ℕ) : Timely S s → r ∈ s.present →
    s.kindOf r = .observable → Timely S (s.observe S r value)
  | progress {s s' : TSystem σ} (command : Option (Ref × ℕ)) : Timely S s → s.timestep ≠ now →
    (∀ a, command = some a → a.1 ∈ s.present ∧ s.kindOf a.1 = .command) →
    s.progress S command = .ok s' → Timely S s'
  | truncate {s s' : TSystem σ} (horizon : UInt32) : Timely S s →
    s.truncate S horizon = .ok s' → Timely S s'
  | assume {s : TSystem σ} {r : Ref} (value : Option ℕ) : Timely S s → r ∈ s.assumptions →
    Timely S (s.assign S r value)
  | propagate {s : TSystem σ} : Timely S s → Timely S (s.propagate S).2
  | candidates {s : TSystem σ} (cs : List Candidate) : Timely S s →
    (∀ c ∈ cs, ∀ a ∈ c, a.1 ∈ s.assumptions) → Timely S { s with candidates := cs }

theorem Timely.reachable (h : Timely S s) : Reachable S s := by
  induction h with
  | start initial hbuilt hinitial hs => exact Reachable.start initial hbuilt hinitial hs
  | observe value _ hr hkind ih => exact Reachable.observe value ih hr hkind
  | progress command _ _ hcommand hs ih => exact Reachable.progress command ih hcommand hs
  | truncate horizon _ hs ih => exact Reachable.truncate horizon ih hs
  | assume value _ hr ih => exact Reachable.assume value ih hr
  | propagate _ ih => exact Reachable.propagate ih
  | candidates cs _ hcs ih => exact Reachable.candidates cs ih hcs

theorem Timely.settled (h : Timely S s) : Settled s := by
  induction h with
  | start initial hbuilt _ hs =>
    obtain ⟨K, hK⟩ := hbuilt.tidy
    exact hbuilt.starting.createInitialState hK hs
  | observe value _ _ _ ih => exact ih.alike (same_observe _ value).alike (touches_observe _ value).clock
  | progress command hs₀ ht hcommand hs ih =>
    obtain ⟨K, hK⟩ := hs₀.reachable.tidy
    exact ih.progress hK ht hcommand hs
  | truncate horizon hs₀ hs ih =>
    obtain ⟨K, hK⟩ := hs₀.reachable.tidy
    exact ih.truncate hK hs
  | assume value _ _ ih => exact ih.alike (same_assign _ value).alike (touches_assign _ value).clock
  | propagate _ ih => exact ih.alike same_propagate.alike rfl
  | candidates cs _ _ ih =>
    exact ih.alike ⟨rfl, rfl, rfl, rfl, fun _ => ⟨rfl, rfl⟩, fun _ => ⟨rfl, rfl⟩⟩ rfl

end Transition
end Livingstone
