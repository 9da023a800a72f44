import Livingstone.Transition.Frame

/-! The variables of the present: no assumption is among them, and a truncation leaves them their
values. -/

namespace Livingstone
namespace Transition

open Function (update update_self update_of_ne)

variable {σ : Type} {S : Solver σ} {s s₁ s' : TSystem σ} {K : Set Ref} {m r v : Ref}
  {horizon : UInt32}

/-- A variable is as it was, but for what is assigned and saved; what is no observable keeps its
value. -/
def Kept (v : Ref) (s s' : TSystem σ) : Prop :=
  ∃ c x, s'.cell v = { s.cell v with current := c, savedAssignment := x } ∧
    (s.kindOf v ≠ .observable → c = (s.cell v).current)

theorem Kept.of_cell (h : s'.cell v = s.cell v) : Kept v s s' := ⟨_, _, h, fun _ => rfl⟩

theorem Kept.kindOf (h : Kept v s s') : s'.kindOf v = s.kindOf v := by
  obtain ⟨c, x, hcell, -⟩ := h
  unfold TSystem.kindOf
  rw [hcell]

theorem Kept.exogenouslyAssigned (h : Kept v s s') :
    (s'.cell v).exogenouslyAssigned = (s.cell v).exogenouslyAssigned := by
  obtain ⟨c, x, hcell, -⟩ := h
  rw [hcell]

theorem Kept.trans (h : Kept v s s₁) (h' : Kept v s₁ s') : Kept v s s' := by
  have hkind := h.kindOf
  obtain ⟨c, x, hcell, hc⟩ := h
  obtain ⟨c', x', hcell', hc'⟩ := h'
  refine ⟨c', x', by rw [hcell', hcell], fun hobs => ?_⟩
  rw [hc' (hkind ▸ hobs), hcell]
  exact hc hobs

theorem Kept.refl (v : Ref) (s : TSystem σ) : Kept v s s := Kept.of_cell rfl

theorem kept_mapOverObservations (command : TSystem.MapCommand)
    (hv : s.kindOf v ≠ .observable → v ∉ s.observations) :
    Kept v s (s.mapOverObservations S command) := by
  obtain ⟨c, x, hcell⟩ := (revalued_mapOverObservations (S := S) command s).cell v
  refine ⟨c, x, hcell, fun hobs => ?_⟩
  have hfold (l : List Ref) (s : TSystem σ) (hv : v ∉ l) :
      (l.foldl (fun s r => s.mapCommand S command r) s).cell v = s.cell v := by
    induction l generalizing s with
    | nil => rfl
    | cons r l ih =>
      obtain ⟨hne, hvl⟩ := not_or.mp (mt List.mem_cons.mpr hv)
      rw [List.foldl_cons, ih _ hvl]
      cases command with
      | save => exact update_of_ne hne ..
      | unassign =>
        obtain ⟨t, ht⟩ := unassign_eq (S := S) (s := s) r
        rw [TSystem.mapCommand, ht]
        exact update_of_ne hne ..
      | restore =>
        obtain ⟨t, ht⟩ := assign_eq (S := S) (s := s) r (s.cell r).savedAssignment
        rw [TSystem.mapCommand, TSystem.restore, ht]
        exact update_of_ne hne ..
  rw [mapOverObservations_eq, hfold _ s (hv hobs)] at hcell
  exact (congrArg VariableCell.current hcell).symm

theorem Tidy.not_mem_observations (h : Tidy K s) (hv : v ∈ s.present)
    (hobs : s.kindOf v ≠ .observable) : v ∉ s.observations := fun hmem =>
  hobs ((h.observed v (h.mem_of_observations hmem)).2.2 hv)

theorem cell_createStateVar {nstates : ℕ} (hv : v < s.fresh)
    (h : s.createStateVar S horizon nstates = .ok s') : s'.cell v = s.cell v := by
  have hc := newAssignable_created (S := S) .stateVariable (List.replicate nstates 0) horizon
    stateVarID (s.atHorizon horizon)
  have hsame := same_atHorizon (s := s) horizon
  have hcell : (s.atHorizon horizon).cell v = s.cell v := by
    unfold TSystem.atHorizon
    split <;> rfl
  have hcreated := (hc.cell v (hsame.fresh ▸ hv)).trans hcell
  have hid := createStateVariable_id (S := S) (List.replicate nstates 0) horizon stateVarID
    (s.atHorizon horizon)
  unfold TSystem.createStateVar at h
  split at h
  · cases h
  dsimp only at h
  split at h
  · obtain ⟨s₁, h₁, h⟩ := Loop.bind_eq_ok h
    exact absurd hid (registerNewVariable_eq h₁).2.2.1
  · obtain rfl := Except.ok.inj h
    exact hcreated

theorem cell_assign (hne : v ≠ r) (value : Option ℕ) :
    (s.assign S r value).cell v = s.cell v := by
  obtain ⟨t, ht⟩ := assign_eq (S := S) (s := s) r value
  rw [ht]
  exact update_of_ne hne ..

theorem ne_of_isAssumption (hv : (s.kindOf v).isAssumption = false)
    (hr : (s.kindOf r).isAssumption = true) : v ≠ r := by
  rintro rfl
  exact Bool.false_ne_true (hv.symm.trans hr)

theorem cell_summarizeCandidates {truncationLimit i : ℕ} {cs cs' : List Candidate}
    (h : Tidy K s) (hv : (s.kindOf v).isAssumption = false)
    (hstate : (s.kindOf s.stateVar).isAssumption = true)
    (hcs : ∀ c ∈ cs, ∀ a ∈ c, (s.kindOf a.1).isAssumption = true)
    (hs : s.summarizeCandidates S horizon truncationLimit i cs = .ok (cs', s')) :
    s'.cell v = s.cell v := by
  induction cs generalizing s i cs' with
  | nil =>
    obtain ⟨-, rfl⟩ := Prod.mk.inj (Except.ok.inj hs)
    rfl
  | cons c cs ih =>
    rw [List.forall_mem_cons] at hcs
    unfold TSystem.summarizeCandidates at hs
    split at hs
    case isFalse =>
      obtain ⟨-, rfl⟩ := Prod.mk.inj (Except.ok.inj hs)
      rfl
    case isTrue =>
      have hinstalled : Same s (((s.install S c).propagate S).2) :=
        (same_install c).trans same_propagate
      have hcell : ((s.install S c).propagate S).2.cell v = s.cell v := h.cell_install hcs.1 hv
      have hlater {s₁ : TSystem σ} (hsame : Same s s₁) {cs' : List Candidate} {i : ℕ}
          (hs : s₁.summarizeCandidates S horizon truncationLimit i cs = .ok (cs', s')) :
          s'.cell v = s₁.cell v := by
        refine ih (h.same hsame) ?_ ?_ (fun d hd a ha => ?_) hs
        · rw [(hsame.cell v).1, hv]
        · rw [hsame.stateVar, (hsame.cell s.stateVar).1, hstate]
        · rw [(hsame.cell a.1).1]
          exact hcs.2 d hd a ha
      dsimp only at hs
      split at hs
      · obtain ⟨s₁, h₁, hs⟩ := Loop.bind_eq_ok hs
        obtain ⟨⟨rest, s₂⟩, h₂, hs⟩ := Loop.bind_eq_ok hs
        obtain ⟨-, rfl⟩ := Prod.mk.inj (Except.ok.inj hs)
        have hconstrains := constrains_summarizeVariables h₁
        have hsame₁ := hinstalled.trans hconstrains.same
        have hsame := hsame₁.trans (same_truncateCandidate horizon (s₁.stateVar, i) c)
        have hne : v ≠ s₁.stateVar := by
          rw [hsame₁.stateVar]
          exact ne_of_isAssumption hv hstate
        have hset : (s₁.truncateCandidate horizon (s₁.stateVar, i) c).2.cell v = s₁.cell v :=
          update_of_ne hne ..
        rw [hlater hsame h₂, hset, hconstrains.cell]
        exact hcell
      · exact (hlater hinstalled hs).trans hcell

theorem kept_summarizeState (h : Tidy K s) (hv : v ∈ s.present)
    (hkind : (s.kindOf v).isAssumption = false)
    (hs : s.summarizeState S horizon = .ok s') : Kept v s s' := by
  have hlt : v < s.fresh := h.lt (h.present v hv).1
  unfold TSystem.summarizeState at hs
  split at hs
  case isTrue =>
    obtain ⟨s₁, h₁, hs⟩ := Loop.bind_eq_ok hs
    have hunassign := revalued_mapOverObservations (S := S) .unassign s
    have hkept := kept_mapOverObservations (S := S) (s := s) .unassign (h.not_mem_observations hv)
    have hfresh : (s.mapOverObservations S .unassign).fresh = s.fresh := by
      obtain ⟨f, t, heq⟩ := hunassign.rest
      rw [heq]
    have hkept₁ := hkept.trans (Kept.of_cell (cell_createStateVar (hfresh ▸ hlt) h₁))
    have hstate := (createStateVar_stateVar h₁).2
    have hkind₁ : (s₁.kindOf v).isAssumption = false := by
      rw [hkept₁.kindOf, hkind]
    have hloop : s'.cell v = s₁.cell v ∧ Same s₁ s' := by
      refine Loop.foldlM_inv (fun x => x.cell v = s₁.cell v ∧ Same s₁ x) _ ?_
        ⟨rfl, Same.refl s₁⟩ hs
      intro i _ s₂ s₃ ⟨hcell, hsame⟩ h₃
      have hconstrains := constrains_summarizeVariables h₃
      refine ⟨?_, (hsame.trans (same_assign _ _)).trans hconstrains.same⟩
      rw [hconstrains.cell, cell_assign (ne_of_isAssumption hkind₁ hstate)]
      exact hcell
    exact hkept₁.trans (Kept.of_cell hloop.1)
  case isFalse =>
    obtain ⟨s₁, h₁, hs⟩ := Loop.bind_eq_ok hs
    obtain ⟨⟨cs, t⟩, h₂, hs⟩ := Loop.bind_eq_ok hs
    obtain rfl := Except.ok.inj hs
    have hcell := cell_createStateVar hlt h₁
    have hg := grows_createStateVar h₁
    have hcell₂ : t.cell v = s₁.cell v := by
      refine cell_summarizeCandidates (h.grows hg) ?_ (createStateVar_stateVar h₁).2 ?_ h₂
      · rw [(hg.cell v hlt).1, hkind]
      · intro c hc a ha
        obtain ⟨hlt, hassumption⟩ := h.candidates c (hg.candidates ▸ hc) a ha
        rw [(hg.cell a.1 hlt).1, hassumption]
    have hlast : Kept v s₁ { t with candidates := cs } := Kept.of_cell hcell₂
    exact (Kept.of_cell hcell).trans hlast

theorem truncate_kept (h : Tidy K s) (hv : v ∈ s.present)
    (hkind : (s.kindOf v).isAssumption = false) (hs : s.truncate S horizon = .ok s') :
    Kept v s s' := by
  unfold TSystem.truncate at hs
  split at hs
  case isTrue =>
    obtain rfl := Except.ok.inj hs
    exact Kept.refl v s
  obtain ⟨s₂, h₂, hs⟩ := Loop.bind_eq_ok hs
  obtain ⟨s₃, h₃, hs⟩ := Loop.bind_eq_ok hs
  have hsave := revalued_mapOverObservations (S := S) .save s
  have hkept₁ := kept_mapOverObservations (S := S) (s := s) .save (h.not_mem_observations hv)
  have hv₁ : v ∈ (s.mapOverObservations S .save).present := hsave.present ▸ hv
  have hkept₂ := kept_summarizeState (h.revalued hsave) hv₁ (hkept₁.kindOf ▸ hkind) h₂
  obtain ⟨hK₂, hpresent₂, -⟩ := summarizeState_observations (h.revalued hsave) h₂
  obtain ⟨K₃, hK₃, hpresent₃, hcell₃, -⟩ := removeOldVariables_observations hK₂ h₃
  have hkept₃ := (hkept₁.trans hkept₂).trans (Kept.of_cell (congrFun hcell₃ v))
  have hv₃ : v ∈ s₃.present := by
    unfold TSystem.present at hv₁ ⊢
    rwa [hpresent₃, hpresent₂]
  have hinstalled : Same s₃ (s₃.installNewState S) := (constrains_newClauses []).same.solver _
  have hK₄ := hK₃.same hinstalled
  have hkept₄ : Kept v s (s₃.installNewState S) := hkept₃.trans (Kept.of_cell rfl)
  have hv₄ : v ∈ (s₃.installNewState S).present := hv₃
  generalize s₃.installNewState S = s₄ at hs hK₄ hkept₄ hv₄
  have hrestore := revalued_mapOverObservations (S := S) .restore s₄
  have hkept₅ := hkept₄.trans (kept_mapOverObservations (S := S) (s := s₄) .restore
    (hK₄.not_mem_observations hv₄))
  have hK₅ := hK₄.revalued hrestore
  generalize s₄.mapOverObservations S .restore = s₅ at hs hkept₅ hK₅
  obtain rfl := Except.ok.inj hs
  split
  case h_1 => exact hkept₅.trans (Kept.of_cell rfl)
  case h_2 c cs hcs =>
    have hc : ∀ a ∈ c, (s₅.kindOf a.1).isAssumption = true := fun a ha =>
      (hK₅.candidates c (hcs ▸ List.mem_cons_self) a ha).2
    refine hkept₅.trans (Kept.of_cell (hK₅.cell_install hc ?_))
    rw [hkept₅.kindOf, hkind]

theorem truncate_current (h : Tidy K s) (hv : v ∈ s.present)
    (hkind : (s.kindOf v).isAssumption = false) (hs : s.truncate S horizon = .ok s') :
    (s'.cell v).current = (s.cell v).current := by
  by_cases hobs : s.kindOf v = .observable
  · obtain ⟨l, hl, -⟩ := h.history hv hobs
    have hmem : v ∈ s.observations :=
      mem_observations.mpr ⟨v, hv, hobs, hl ▸ List.mem_cons_self⟩
    have htime : ¬ s.timeOf v < horizon := (h.present v hv).2 ▸ not_now_lt horizon
    exact ((truncate_spec h hs).2 v hmem htime).2.2
  · obtain ⟨c, x, hcell, hc⟩ := truncate_kept h hv hkind hs
    rw [hcell]
    exact hc hobs

theorem truncate_fresh (h : Tidy K s) (hs : s.truncate S horizon = .ok s') :
    s.fresh ≤ s'.fresh := by
  rcases truncate_steps hs with ⟨-, rfl⟩ | ⟨-, s₁, s₂, h₁, h₂, halike, -⟩
  · exact le_rfl
  have hsave := revalued_mapOverObservations (S := S) .save s
  have hK := h.revalued hsave
  obtain ⟨t, cs, hg, rfl, -⟩ := summarizeState_grows hK h₁
  obtain ⟨hK₁, -⟩ := summarizeState_observations hK h₁
  obtain ⟨hK₂, hmodes, -⟩ := mapModes_removeOldModeTransition horizon hK₁
  obtain ⟨old, hremoves, -⟩ := removeOldVariables_removes h₂ hK₂.listed
  obtain ⟨f, hf⟩ := hmodes.rest
  have hremoved : s₂.fresh = t.fresh := by rw [hremoves.fresh, hf]
  calc s.fresh
    _ = (s.mapOverObservations S .save).fresh := hsave.alike.fresh.symm
    _ ≤ t.fresh := hg.fresh
    _ = s'.fresh := (halike.fresh.trans hremoved).symm

def Plain (s : TSystem σ) : Prop := ∀ v ∈ s.present, (s.kindOf v).isAssumption = false

theorem Plain.congr (h : Plain s) (hpresent : s'.presentVariables = s.presentVariables)
    (hkind : ∀ v ∈ s.present, s'.kindOf v = s.kindOf v) : Plain s' := by
  have heq : s'.present = s.present := by
    unfold TSystem.present
    rw [hpresent]
  intro v hv
  rw [heq] at hv
  rw [hkind v hv]
  exact h v hv

theorem Plain.same (h : Plain s) (hs : Same s s') : Plain s' :=
  h.congr hs.present fun v _ => (hs.cell v).1

theorem Plain.grows (h : Plain s) (hK : Tidy K s) (hg : Grows s s') : Plain s' :=
  h.congr hg.present fun v hv => (hg.cell v (hK.lt (hK.present v hv).1)).1

theorem Plain.adds (h : Plain s) (hK : Tidy K s) (ha : Adds s s') : Plain s' :=
  h.congr ha.present fun _ hv => ha.kindOf (hK.lt (hK.present _ hv).1)

theorem Plain.truncate (h : Plain s) (hK : Tidy K s) (hs : s.truncate S horizon = .ok s') :
    Plain s' := by
  obtain ⟨⟨-, -, hpresent⟩, -⟩ := truncate_spec hK hs
  exact h.congr hpresent fun v hv => (truncate_kept hK hv (h v hv) hs).kindOf

theorem Plain.truncateIfNeeded (h : Plain s) (hK : Tidy K s)
    (hs : s.truncateIfNeeded S = .ok s') : Plain s' := by
  unfold TSystem.truncateIfNeeded at hs
  split at hs
  · exact h.truncate hK hs
  · obtain rfl := Except.ok.inj hs
    exact h

end Transition
end Livingstone
