import Livingstone.Proofs.Observations
import Livingstone.Proofs.StateValues
import Livingstone.Transition.Present

/-! The candidates that a truncation of the transition system keeps are those that the truncation of
candidates and state values keeps, with the same weights. An assignment of the system is the one of
its variable's id and time step. -/

namespace Livingstone
namespace Transition

variable {σ : Type} {S : Solver σ} {s s₁ s' : TSystem σ} {horizon : UInt32} {limit i : ℕ}
  {c : Candidate} {cs cs' ks : List Candidate}

namespace TSystem

def assignmentOf (s : TSystem σ) (a : Ref × ℕ) : Livingstone.Assignment :=
  ⟨⟨(s.cell a.1).id.toNat, (s.timeOf a.1).toNat⟩, a.2⟩

def candidateOf (s : TSystem σ) (c : Candidate) : Livingstone.Candidate := c.map s.assignmentOf

def isOld (s : TSystem σ) (horizon : UInt32) (a : Ref × ℕ) : Bool :=
  s.timeOf a.1 < horizon ∨ s.timeOf a.1 = now

end TSystem

theorem isOld_assignmentOf (a : Ref × ℕ) :
    (s.assignmentOf a).isOld horizon.toNat = s.isOld horizon a := by
  have hnow : beforeHorizon = now.toNat := rfl
  unfold Assignment.isOld TSystem.isOld TSystem.assignmentOf
  rw [hnow]
  simp only [UInt32.toNat_inj, UInt32.lt_iff_toNat_lt]

theorem filter_candidateOf (c : Candidate) :
    (s.candidateOf c).filter (fun a => a.isOld horizon.toNat) =
      s.candidateOf (c.filter (s.isOld horizon)) := by
  unfold TSystem.candidateOf
  rw [List.filter_map]
  congr 1
  exact List.filter_congr fun a _ => isOld_assignmentOf a

/-- The same assignments with the same weights. -/
structure SameAssignments (s s' : TSystem σ) : Prop where
  stateVar : s'.stateVar = s.stateVar
  cell : ∀ r, (s'.cell r).id = (s.cell r).id ∧ (s'.cell r).timeStep = (s.cell r).timeStep ∧
    (s'.cell r).weights = (s.cell r).weights

namespace SameAssignments

theorem refl (s : TSystem σ) : SameAssignments s s := ⟨rfl, fun _ => ⟨rfl, rfl, rfl⟩⟩

theorem trans (h : SameAssignments s s₁) (h' : SameAssignments s₁ s') : SameAssignments s s' where
  stateVar := h'.stateVar.trans h.stateVar
  cell r := by
    obtain ⟨hid, htime, hweights⟩ := h.cell r
    obtain ⟨hid', htime', hweights'⟩ := h'.cell r
    exact ⟨hid'.trans hid, htime'.trans htime, hweights'.trans hweights⟩

theorem assignmentOf (h : SameAssignments s s') : s'.assignmentOf = s.assignmentOf := by
  funext a
  obtain ⟨hid, htime, -⟩ := h.cell a.1
  unfold TSystem.assignmentOf TSystem.timeOf
  rw [hid, htime]

theorem weightOf (h : SameAssignments s s') : s'.weightOf = s.weightOf := by
  funext a
  unfold TSystem.weightOf
  rw [(h.cell a.1).2.2]

theorem assign (r : Ref) (value : Option ℕ) : SameAssignments s (s.assign S r value) := by
  obtain ⟨t, ht⟩ := assign_eq (S := S) (s := s) r value
  rw [ht]
  refine ⟨rfl, fun q => ?_⟩
  by_cases hq : q = r
  · subst hq
    simp [TSystem.setVariable]
  · simp [TSystem.setVariable, hq]

theorem propagate : SameAssignments s (s.propagate S).2 := ⟨rfl, fun _ => ⟨rfl, rfl, rfl⟩⟩

theorem install (c : Candidate) : SameAssignments s (s.install S c) := by
  have hdefaults : SameAssignments s (s.restoreAssumptionDefaults S) :=
    Loop.foldl_left (fun _ => SameAssignments s) (fun r _ _ h => h.trans (assign r (some 0)))
      (refl s)
  have hcandidate : SameAssignments s ((s.restoreAssumptionDefaults S).assignCandidate S c) :=
    Loop.foldl_left (fun _ => SameAssignments s) (fun a _ _ h => h.trans (assign a.1 (some a.2)))
      hdefaults
  exact hcandidate.trans propagate

theorem constrains (h : Constrains s s') : SameAssignments s s' := by
  obtain ⟨t, f, cs, rfl⟩ := h.rest
  exact ⟨rfl, fun _ => ⟨rfl, rfl, rfl⟩⟩

end SameAssignments

/-- The loop comes to keep the candidates `ks`, the consistent ones, until there are enough. -/
inductive Takes (S : Solver σ) (horizon : UInt32) (limit : ℕ) :
    ℕ → List Candidate → TSystem σ → List Candidate → Prop
  | nil {i : ℕ} {s : TSystem σ} : Takes S horizon limit i [] s []
  | full {i : ℕ} {cs : List Candidate} {s : TSystem σ} : limit ≤ i →
    Takes S horizon limit i cs s []
  | deleted {i : ℕ} {c : Candidate} {cs ks : List Candidate} {s : TSystem σ} : i < limit →
    ((s.install S c).propagate S).1 = false →
    Takes S horizon limit i cs ((s.install S c).propagate S).2 ks →
    Takes S horizon limit i (c :: cs) s ks
  | kept {i : ℕ} {c : Candidate} {cs ks : List Candidate} {s s₁ : TSystem σ} : i < limit →
    ((s.install S c).propagate S).1 = true →
    ((s.install S c).propagate S).2.summarizeVariables S horizon i = .ok s₁ →
    Takes S horizon limit (i + 1) cs (s₁.truncateCandidate horizon (s₁.stateVar, i) c).2 ks →
    Takes S horizon limit i (c :: cs) s (c :: ks)

theorem Takes.sublist (h : Takes S horizon limit i cs s ks) : ks.Sublist cs := by
  induction h with
  | nil => exact List.Sublist.refl []
  | full => exact List.nil_sublist _
  | deleted _ _ _ ih => exact ih.cons _
  | kept _ _ _ _ ih => exact ih.cons_cons _

def Agrees (A : Set (Ref × ℕ)) (s : TSystem σ) (D : Assignables) : Prop :=
  ∀ a ∈ A, D.weight (s.assignmentOf a) = s.weightOf a

/-- No other assignment in `A` is taken for one of the state variable. -/
def NewState (A : Set (Ref × ℕ)) (s : TSystem σ) : Prop :=
  ∀ a ∈ A, ∀ k, s.assignmentOf a = s.assignmentOf (s.stateVar, k) → a = (s.stateVar, k)

section
variable {A : Set (Ref × ℕ)} {D : Assignables}

theorem Agrees.same (h : Agrees A s D) (hs : SameAssignments s s') : Agrees A s' D := by
  intro a ha
  rw [hs.assignmentOf, hs.weightOf]
  exact h a ha

theorem NewState.congr (h : NewState A s) (hvar : s'.stateVar = s.stateVar)
    (hs : s'.assignmentOf = s.assignmentOf) : NewState A s' := by
  unfold NewState
  rw [hvar, hs]
  exact h

theorem truncatedWeight_candidateOf (h : Agrees A s D) (hc : ∀ a ∈ c, a ∈ A) :
    StateSummary.truncatedWeight D horizon.toNat (s.candidateOf c) =
      ((c.filter (s.isOld horizon)).map s.weightOf).sum := by
  rw [StateSummary.truncatedWeight, filter_candidateOf, TSystem.candidateOf, List.map_map]
  congr 1
  exact List.map_congr_left fun a ha => h a (hc a (List.mem_of_mem_filter ha))

theorem truncateCandidate_eq (stateEqSi : Ref × ℕ) (c : Candidate) :
    s.truncateCandidate horizon stateEqSi c =
      (c.filter (fun a => !s.isOld horizon a) ++ [stateEqSi],
        s.setVariable stateEqSi.1 { s.cell stateEqSi.1 with
          weights := (s.cell stateEqSi.1).weights.set stateEqSi.2
            ((c.filter (s.isOld horizon)).map s.weightOf).sum }) := by
  unfold TSystem.truncateCandidate TSystem.isOld
  simp only [decide_not]

theorem assignmentOf_truncateCandidate (stateEqSi : Ref × ℕ) (c : Candidate) :
    (s.truncateCandidate horizon stateEqSi c).2.assignmentOf = s.assignmentOf := by
  funext a
  rw [truncateCandidate_eq]
  unfold TSystem.assignmentOf TSystem.timeOf TSystem.setVariable
  dsimp only
  by_cases ha : a.1 = stateEqSi.1
  · rw [ha, Function.update_self]
  · rw [Function.update_of_ne ha]

theorem Agrees.truncateCandidate (h : Agrees A s D) (hnew : NewState A s) (hc : ∀ a ∈ c, a ∈ A)
    (hi : i < (s.cell s.stateVar).weights.length) :
    Agrees A (s.truncateCandidate horizon (s.stateVar, i) c).2
      (D.setWeight (s.assignmentOf (s.stateVar, i))
        (StateSummary.truncatedWeight D horizon.toNat (s.candidateOf c))) := by
  intro a ha
  rw [assignmentOf_truncateCandidate, truncatedWeight_candidateOf h hc, truncateCandidate_eq]
  unfold TSystem.weightOf TSystem.setVariable
  dsimp only
  by_cases hai : a = (s.stateVar, i)
  · subst hai
    simp [Assignables.setWeight, hi]
  · rw [StateSummary.setWeight_of_ne _ fun heq => hai (hnew a ha i heq), h a ha, TSystem.weightOf]
    by_cases hvar : a.1 = s.stateVar
    · have hindex : i ≠ a.2 := fun heq => hai (Prod.ext hvar heq.symm)
      rw [hvar, Function.update_self, List.getElem?_set_ne hindex]
    · rw [Function.update_of_ne hvar]

theorem truncate_candidateOf (c : Candidate) :
    ((s.candidateOf c).truncate D horizon.toNat (s.assignmentOf (s.stateVar, i))).1.Perm
      (s.candidateOf (s.truncateCandidate horizon (s.stateVar, i) c).1) := by
  have hkept := Livingstone.Candidate.truncateLoop_kept horizon.toNat (s.candidateOf c)
  have hfilter : (s.candidateOf c).filter (fun a => !a.isOld horizon.toNat) =
      s.candidateOf (c.filter fun a => !s.isOld horizon a) := by
    unfold TSystem.candidateOf
    rw [List.filter_map]
    congr 1
    exact List.filter_congr fun a _ => congrArg not (isOld_assignmentOf a)
  rw [hfilter] at hkept
  have hstate : s.candidateOf (s.truncateCandidate horizon (s.stateVar, i) c).1 =
      s.candidateOf (c.filter fun a => !s.isOld horizon a) ++ [s.assignmentOf (s.stateVar, i)] := by
    rw [truncateCandidate_eq]
    exact List.map_append
  rw [hstate]
  exact hkept.append_right _

theorem constrains_summarize {m : ℕ} (h : s.summarizeVariables S horizon m = .ok s') :
    SameAssignments s s' := .constrains (constrains_summarizeVariables h)

theorem candidateOf_congr (h : s'.assignmentOf = s.assignmentOf) :
    s'.candidateOf = s.candidateOf := by
  funext c
  rw [TSystem.candidateOf, TSystem.candidateOf, h]

theorem length_weights_truncateCandidate (c : Candidate) :
    (((s.truncateCandidate horizon (s.stateVar, i) c).2.cell
      (s.truncateCandidate horizon (s.stateVar, i) c).2.stateVar).weights).length =
        (s.cell s.stateVar).weights.length := by
  rw [truncateCandidate_eq]
  simp [TSystem.setVariable]

/-- From the assignables that agree with `s`, the loop over the candidates `ks` leads to the
candidates `cs'` in another order of their assignments, and to the weights of `s'`. -/
def Summarizes (A : Set (Ref × ℕ)) (horizon : UInt32) (limit i : ℕ) (ks : List Candidate)
    (s : TSystem σ) (cs' : List Candidate) (s' : TSystem σ) : Prop :=
  ∀ D T kept D' T', Agrees A s D →
    (∀ k < limit, T.stateValues[k]? = some (s.assignmentOf (s.stateVar, k))) →
    StateSummary.summarizeCandidates (fun _ => true) horizon.toNat limit i (ks.map s.candidateOf)
      D T = .ok (kept, D', T') →
    List.Forall₂ List.Perm kept (cs'.map s.candidateOf) ∧ Agrees A s' D'

theorem summarizes_nil : Summarizes A horizon limit i [] s [] s := by
  intro D T kept D' T' hD _ hrun
  obtain ⟨rfl, rfl, -⟩ := Prod.mk.inj (Except.ok.inj hrun) |>.imp id Prod.mk.inj
  exact ⟨.nil, hD⟩

theorem Summarizes.same (hs : SameAssignments s s₁)
    (h : Summarizes A horizon limit i ks s₁ cs' s') : Summarizes A horizon limit i ks s cs' s' := by
  intro D T kept D' T' hD hT hrun
  unfold Summarizes at h
  rw [candidateOf_congr hs.assignmentOf, hs.stateVar, hs.assignmentOf] at h
  exact h D T kept D' T' (hD.same hs) hT hrun

theorem Summarizes.cons (hlt : i < limit) (hlimit : limit ≤ (s.cell s.stateVar).weights.length)
    (hnew : NewState A s) (hc : ∀ a ∈ c, a ∈ A)
    (h : Summarizes A horizon limit (i + 1) ks
      (s.truncateCandidate horizon (s.stateVar, i) c).2 cs' s') :
    Summarizes A horizon limit i (c :: ks) s
      ((s.truncateCandidate horizon (s.stateVar, i) c).1 :: cs') s' := by
  intro D T kept D' T' hD hT hrun
  have hnames : (s.truncateCandidate horizon (s.stateVar, i) c).2.assignmentOf = s.assignmentOf :=
    assignmentOf_truncateCandidate _ c
  obtain ⟨T₁, stateEqSi, kept', hput, hval, hrest, rfl⟩ := StateSummary.summarize_cons hlt hrun
  obtain rfl := Option.some.inj ((hT i hlt).symm.trans hval)
  unfold Summarizes at h
  rw [candidateOf_congr hnames, hnames] at h
  have hvalues := StateSummary.putCandidateInTrajectory_stateValues hput
  obtain ⟨hkept, hagrees⟩ := h _ T₁ kept' D' T'
    (hD.truncateCandidate hnew hc (hlt.trans_le hlimit)) (fun k hk => hvalues ▸ hT k hk) hrest
  exact ⟨.cons (truncate_candidateOf c) hkept, hagrees⟩

/-- The loops keep the same candidates and give the same weights, for those that are taken. -/
theorem summarizeCandidates_summarizes (hnew : NewState A s) (hcs : ∀ c ∈ cs, ∀ a ∈ c, a ∈ A)
    (hlimit : limit ≤ (s.cell s.stateVar).weights.length)
    (h : s.summarizeCandidates S horizon limit i cs = .ok (cs', s')) :
    ∃ ks, Takes S horizon limit i cs s ks ∧ s'.assignmentOf = s.assignmentOf ∧
      Summarizes A horizon limit i ks s cs' s' := by
  induction cs generalizing s i cs' with
  | nil =>
    obtain ⟨rfl, rfl⟩ := Prod.mk.inj (Except.ok.inj h)
    exact ⟨[], .nil, rfl, summarizes_nil⟩
  | cons c cs ih =>
    obtain ⟨hc, hcs⟩ := List.forall_mem_cons.mp hcs
    unfold TSystem.summarizeCandidates at h
    split at h
    case isFalse hfull =>
      obtain ⟨rfl, rfl⟩ := Prod.mk.inj (Except.ok.inj h)
      exact ⟨[], .full (not_lt.mp hfull), rfl, summarizes_nil⟩
    case isTrue hlt =>
      have hinstalled : SameAssignments s ((s.install S c).propagate S).2 :=
        (SameAssignments.install c).trans .propagate
      dsimp only at h
      split at h
      case isFalse hinconsistent =>
        obtain ⟨ks, htakes, hnames, hsummarizes⟩ := ih
          (hnew.congr hinstalled.stateVar hinstalled.assignmentOf) hcs
          (by rwa [hinstalled.stateVar, (hinstalled.cell _).2.2]) h
        exact ⟨ks, .deleted hlt (by simpa using hinconsistent) htakes,
          hnames.trans hinstalled.assignmentOf, hsummarizes.same hinstalled⟩
      case isTrue hconsistent =>
        obtain ⟨s₁, h₁, h⟩ := Loop.bind_eq_ok h
        obtain ⟨⟨cs₂, s₂⟩, h₂, h⟩ := Loop.bind_eq_ok h
        obtain ⟨rfl, rfl⟩ := Prod.mk.inj (Except.ok.inj h)
        have hsame := hinstalled.trans (constrains_summarize h₁)
        have hnew₁ := hnew.congr hsame.stateVar hsame.assignmentOf
        have hlimit₁ : limit ≤ (s₁.cell s₁.stateVar).weights.length := by
          rwa [hsame.stateVar, (hsame.cell _).2.2]
        have hnames₁ : (s₁.truncateCandidate horizon (s₁.stateVar, i) c).2.assignmentOf =
            s₁.assignmentOf := assignmentOf_truncateCandidate _ c
        obtain ⟨ks, htakes, hnames, hsummarizes⟩ := ih
          (s := (s₁.truncateCandidate horizon (s₁.stateVar, i) c).2) (hnew₁.congr rfl hnames₁) hcs
          (by rwa [length_weights_truncateCandidate]) h₂
        exact ⟨c :: ks, .kept hlt hconsistent h₁ htakes,
          (hnames.trans hnames₁).trans hsame.assignmentOf,
          (hsummarizes.cons hlt hlimit₁ hnew₁ hc).same hsame⟩

end

theorem createStateVar_cell {n : ℕ} (h : s.createStateVar S horizon n = .ok s') (k : ℕ) :
    s'.assignmentOf (s'.stateVar, k) = ⟨StateSummary.stateVarAt horizon.toNat, k⟩ ∧
      (s'.cell s'.stateVar).weights = List.replicate n 0 := by
  have hid := createStateVariable_id (S := S) (List.replicate n 0) horizon stateVarID
    (s.atHorizon horizon)
  have htime := (newAssignable_created (S := S) .stateVariable (List.replicate n 0) horizon
    stateVarID (s.atHorizon horizon)).time
  unfold TSystem.createStateVar at h
  split at h
  · cases h
  dsimp only at h
  split at h
  · obtain ⟨s₁, h₁, h⟩ := Loop.bind_eq_ok h
    exact absurd hid (registerNewVariable_eq h₁).2.2.1
  · obtain rfl := Except.ok.inj h
    constructor
    · unfold TSystem.assignmentOf TSystem.timeOf
      dsimp only
      rw [hid]
      exact congrArg
        (fun t : UInt32 => (⟨⟨stateVarId, t.toNat⟩, k⟩ : Livingstone.Assignment)) htime
    · simp [TSystem.createStateVariable, TSystem.newAssignable, TSystem.registerAssumption,
        TSystem.setVariable]

theorem getD_replicate_zero (n k : ℕ) : ((List.replicate n (0 : UInt32))[k]?).getD 0 = 0 := by
  rw [List.getElem?_replicate]
  split <;> rfl

/-- The assignments of the candidates are there, and none of them is one of the state variable that
is created. -/
def Precede (horizon : UInt32) (s : TSystem σ) : Prop :=
  ∀ c ∈ s.candidates, ∀ a ∈ c,
    a.1 < s.fresh ∧ (s.assignmentOf a).var ≠ StateSummary.stateVarAt horizon.toNat

/-- The assignments of the candidates and the first ones of the new state variable. -/
def TSystem.summarizing (limit : ℕ) (s s₁ : TSystem σ) : Set (Ref × ℕ) :=
  {a | (a.1 = s₁.stateVar ∧ a.2 < limit) ∨ ∃ c ∈ s.candidates, a ∈ c}

theorem assignmentOf_createStateVar {n : ℕ} {a : Ref × ℕ} (hcs : Precede horizon s)
    (h : s.createStateVar S horizon n = .ok s₁) (hc : c ∈ s.candidates) (ha : a ∈ c) :
    s₁.assignmentOf a = s.assignmentOf a := by
  unfold TSystem.assignmentOf TSystem.timeOf
  rw [cell_createStateVar (hcs c hc a ha).1 h]

theorem newState_createStateVar {n : ℕ} (hcs : Precede horizon s)
    (h : s.createStateVar S horizon n = .ok s₁) : NewState (s.summarizing limit s₁) s₁ := by
  have hvalue (k : ℕ) := (createStateVar_cell h k).1
  rintro ⟨r, j⟩ (⟨rfl, -⟩ | ⟨c, hc, ha⟩) k hk
  · rw [hvalue, hvalue] at hk
    have hjk : j = k := congrArg Assignment.index hk
    rw [hjk]
  · rw [assignmentOf_createStateVar hcs h hc ha, hvalue k] at hk
    exact absurd (congrArg Assignment.var hk) (hcs c hc _ ha).2

theorem agrees_createStateVar {D D₁ : Assignables} {T T₁ : StateSummary} (hcs : Precede horizon s)
    (h : s.createStateVar S horizon limit = .ok s₁)
    (hD : ∀ c ∈ s.candidates, ∀ a ∈ c, D.weight (s.assignmentOf a) = s.weightOf a)
    (hcreate : StateSummary.createStateVar D horizon.toNat limit T = .ok (D₁, T₁)) :
    Agrees (s.summarizing limit s₁) s₁ D₁ := by
  obtain ⟨-, hweights, hothers⟩ := StateSummary.weight_createStateVar hcreate
  rintro ⟨r, j⟩ (⟨rfl, hj⟩ | ⟨c, hc, ha⟩)
  · obtain ⟨hvalue, hzero⟩ := createStateVar_cell h j
    rw [hvalue, hweights j hj, TSystem.weightOf, hzero, getD_replicate_zero]
  · rw [assignmentOf_createStateVar hcs h hc ha, hothers _ (hcs c hc _ ha).2, hD c hc _ ha,
      TSystem.weightOf, TSystem.weightOf, cell_createStateVar (hcs c hc _ ha).1 h]

/-- What the state variable of the system weighs after a truncation, and which candidates are
left. -/
theorem summarizeState_agrees (hne : s.candidates ≠ []) (hcs : Precede horizon s)
    (h : s.summarizeState S horizon = .ok s') :
    let limit := StateSummary.truncationLimit s.maxTruncatedCandidates.toNat s.candidates.length
    ∃ s₁ ks, s.createStateVar S horizon limit = .ok s₁ ∧
      Takes S horizon limit 0 s.candidates s₁ ks ∧
      ∀ consistent D T D₁ T₁ kept D' T',
        (∀ c ∈ s.candidates, ∀ a ∈ c, D.weight (s.assignmentOf a) = s.weightOf a) →
        StateSummary.summarized consistent limit (s.candidates.map s.candidateOf) =
          ks.map s.candidateOf →
        StateSummary.createStateVar D horizon.toNat limit T = .ok (D₁, T₁) →
        StateSummary.summarizeCandidates consistent horizon.toNat limit 0
          (s.candidates.map s.candidateOf) D₁ T₁ = .ok (kept, D', T') →
        List.Forall₂ List.Perm kept (s'.candidates.map s'.candidateOf) ∧
          ∀ k < limit, D'.weight ⟨StateSummary.stateVarAt horizon.toNat, k⟩ =
            s'.weightOf (s'.stateVar, k) := by
  intro limit
  unfold TSystem.summarizeState at h
  rw [if_neg hne] at h
  obtain ⟨s₁, h₁, h⟩ := Loop.bind_eq_ok h
  obtain ⟨⟨cs, s₂⟩, h₂, h⟩ := Loop.bind_eq_ok h
  obtain rfl := Except.ok.inj h
  have hvalue (k : ℕ) := (createStateVar_cell h₁ k).1
  rw [(grows_createStateVar h₁).candidates] at h₂
  obtain ⟨ks, htakes, hsame, hsummarizes⟩ := summarizeCandidates_summarizes
    (newState_createStateVar hcs h₁) (fun c hc a ha => .inr ⟨c, hc, ha⟩)
    (by rw [(createStateVar_cell h₁ 0).2, List.length_replicate]) h₂
  refine ⟨s₁, ks, h₁, htakes, fun consistent D T D₁ T₁ kept D' T' hD hks hcreate hrun => ?_⟩
  have hks₁ : ks.map s₁.candidateOf = ks.map s.candidateOf := List.map_congr_left fun c hc =>
    List.map_congr_left fun a ha =>
      assignmentOf_createStateVar hcs h₁ (htakes.sublist.subset hc) ha
  rw [StateSummary.summarizeCandidates_eq, Nat.sub_zero] at hrun
  rw [StateSummary.summarized] at hks
  rw [hks, ← hks₁] at hrun
  obtain ⟨hvalues, -, -⟩ := StateSummary.weight_createStateVar hcreate
  obtain ⟨hkept, hagrees'⟩ := hsummarizes D₁ T₁ kept D' T'
    (agrees_createStateVar hcs h₁ hD hcreate)
    (fun k hk => by rw [hvalues, hvalue]; exact StateSummary.getElem?_stateValuesAt hk) hrun
  constructor
  · rw [← candidateOf_congr hsame] at hkept
    exact hkept
  · intro k hk
    have hweight := hagrees' (s₁.stateVar, k) (.inl ⟨rfl, hk⟩)
    rw [hsame, hvalue, ← (summarizeCandidates_same h₂).1.stateVar] at hweight
    exact hweight

end Transition
end Livingstone
