import Livingstone.Diagnosis.Examining
import Livingstone.Diagnosis.Searching

/-! Diagnosis from the search down to the solver. The answers that the truth maintenance system and
the conflict database give are sound, and so the candidates that the tracker keeps are consistent
with the clauses of the theory, in the order of their ranks, and none that is minimal is left out. -/

namespace Livingstone

open Engine (Searched SameGround)

variable {D : Assignables} {T : CbfsTracker} {e : Engine} {timestep : ℕ}

namespace Assignables

variable {Δ : Finset Assignment} {Consistent : Finset Assignment → Prop} {seed : Candidate}

/-- The selection without the defaults that the seed does not ask for. -/
def trim (D : Assignables) (seed : Candidate) (Δ : Finset Assignment) : Finset Assignment :=
  Δ.filter fun a => a ∈ seed ∨ D.isDefault a = false

theorem isDefault_eq {a : Assignment} (h : D.isDefault a = true) : a = D.defaultAssignment a.var := by
  unfold isDefault at h
  simp only [Bool.and_eq_true, decide_eq_true_eq] at h
  exact h.2

theorem holds_trim (h : D.IsSelection Δ) (seed : Candidate) (a : Assignment) :
    D.Holds (D.trim seed Δ) a ↔ D.Holds Δ a := by
  unfold trim
  constructor
  · rintro (hmem | ⟨hdefault, hnone⟩)
    · exact Or.inl (Finset.mem_filter.mp hmem).1
    · by_cases hex : ∃ b ∈ Δ, b.var = a.var
      · obtain ⟨b, hb, hvar⟩ := hex
        -- a value of the same variable was a default too
        have hb_default : D.isDefault b = true := by
          by_contra hnot
          exact hnone b (Finset.mem_filter.mpr ⟨hb, Or.inr (by simpa using hnot)⟩) hvar
        rw [isDefault_eq hdefault, ← hvar, ← isDefault_eq hb_default]
        exact Or.inl hb
      · push Not at hex
        exact Or.inr ⟨hdefault, hex⟩
  · rintro (hmem | ⟨hdefault, hnone⟩)
    · by_cases hkeep : a ∈ seed ∨ D.isDefault a = false
      · exact Or.inl (Finset.mem_filter.mpr ⟨hmem, hkeep⟩)
      · refine Or.inr ⟨by simpa using (not_or.mp hkeep).2, fun b hb hvar => hkeep ?_⟩
        obtain ⟨hb, hkept⟩ := Finset.mem_filter.mp hb
        exact h.unique b hb a hmem hvar ▸ hkept
    · exact Or.inr ⟨hdefault, fun b hb => hnone b (Finset.mem_filter.mp hb).1⟩

/-- When consistency depends on what holds alone, a consistent selection that extends the seed has a
part that is minimal. -/
theorem exists_isMinimal
    (hcongr : ∀ Γ Δ : Finset Assignment, (∀ a, D.Holds Γ a ↔ D.Holds Δ a) →
      (Consistent Γ ↔ Consistent Δ))
    (h : D.IsSelection Δ) (hseed : seed.toFinset ⊆ Δ) (hcons : Consistent Δ) :
    ∃ Γ ⊆ Δ, D.IsMinimal Consistent seed Γ := by
  have htrim : D.trim seed Δ ⊆ Δ := Finset.filter_subset _ _
  have hmem : seed.toFinset ⊆ D.trim seed Δ := fun a ha =>
    Finset.mem_filter.mpr ⟨hseed ha, Or.inl (List.mem_toFinset.mp ha)⟩
  obtain ⟨Γ, hΓ, ⟨hsub, hΓcons⟩, hmin⟩ := exists_minimal_le_of_wellFoundedLT
    (fun Γ => seed.toFinset ⊆ Γ ∧ Consistent Γ) (D.trim seed Δ)
    ⟨hmem, (hcongr _ _ (holds_trim h seed)).mpr hcons⟩
  have hΓΔ : Γ ⊆ Δ := Finset.Subset.trans hΓ htrim
  refine ⟨Γ, hΓΔ, ⟨fun a ha => h.known a (hΓΔ ha), fun a ha b hb => h.unique a (hΓΔ ha) b (hΓΔ hb)⟩,
    hΓcons, hsub, fun a ha hnew => ?_, fun Λ hlt hΛ hcons => ?_⟩
  · exact (Finset.mem_filter.mp (hΓ ha)).2.resolve_left hnew
  · exact hlt.2 (hmin ⟨hΛ, hcons⟩ hlt.1)

end Assignables

namespace Engine

theorem consistent_congr {Γ Δ : Finset Assignment} (h : ∀ a, D.Holds Γ a ↔ D.Holds Δ a) :
    e.Consistent D Γ ↔ e.Consistent D Δ := by
  unfold Consistent holding
  simp only [h]

end Engine

namespace CbfsTracker

theorem searchSystem_soundFrom (T : CbfsTracker) (hj : e.Justified D) (timestep : ℕ) :
    (T.searchSystem D timestep (e.space D)).SoundFrom
      (fun r => ∃ e', r = .ok e' ∧ Searched D e e') (e.Consistent D) := by
  rintro _ ⟨e', rfl, hs⟩ candidate hlegal
  obtain ⟨c, e'', he'', hs', -, hanswer⟩ := Engine.examine_spec hs.inv (hs.legal hlegal) timestep
  have hanswer := hanswer (hs.justified hj)
  have hcons : e'.Consistent D = e.Consistent D :=
    funext fun Δ => propext (hs.ground.consistent Δ)
  rw [hs.ground.space, hcons] at hanswer
  simp only [searchSystem, he'']
  exact ⟨hanswer, e'', rfl, hs.trans hs'⟩

/-- What the tracker keeps over a search, in terms of the engine before it. -/
structure Tracks (T : CbfsTracker) (D : Assignables) (e : Engine) (t : Tracked) : Prop where
  inv : t.engine.Inv D
  justified : t.engine.Justified D
  ground : SameGround D e t.engine
  others : ∀ v, v ∉ e.assumptions → t.engine.current v = e.current v
  partition : t.candidatePartition = T.partition t.engine.candidates
  sound : ∀ c ∈ t.engine.candidates, c.Legal (e.space D) ∧ e.Consistent D c.toFinset

theorem tracks_setCandidates {e' : Engine} (hs : Searched D e e') (hj : e.Justified D)
    {candidates : List Candidate} {candidatePartition : List (List Candidate)}
    (termination : SearchTermination)
    (hpartition : candidatePartition = T.partition candidates)
    (hsound : ∀ c ∈ candidates, c.Legal (e.space D) ∧ e.Consistent D c.toFinset) :
    T.Tracks D e ⟨{ e' with candidates := candidates }, candidatePartition, termination⟩ := by
  have hre : e'.Reassigned { e' with candidates := candidates } :=
    ⟨rfl, fun _ => rfl, fun _ => rfl, fun _ _ => Iff.rfl, rfl, rfl, rfl⟩
  have hground : SameGround D e' { e' with candidates := candidates } := ⟨hre, rfl⟩
  exact ⟨hre.inv hs.inv hs.inv.solver hs.inv.linked hs.inv.active hs.inv.current,
    (hground.justified rfl).mpr (hs.justified hj), hs.ground.trans hground, hs.others, hpartition,
    hsound⟩

/-- A candidate for the selection is among those kept, or one of them is why it is not. -/
def Accounts (T : CbfsTracker) (D : Assignables) (timestep : ℕ) (space : Assignables)
    (candidates : List Candidate) (Δ : Finset Assignment) : Prop :=
  ∃ c : Candidate, c.toFinset = Δ ∧ (c ∈ candidates ∨ ∃ r ∈ candidates,
    D.rank r.toFinset ≤ D.rank c.toFinset ∧
      Opsat.supersetWithState (T.searchSystem D timestep space) c r = true)

/-- What a search from the seeds finds. -/
structure Diagnosed (T : CbfsTracker) (D : Assignables) (timestep : ℕ) (e : Engine)
    (seeds : List Candidate) (t : Tracked) : Prop extends T.Tracks D e t where
  seeded : ∀ c ∈ t.engine.candidates, ∃ seed ∈ seeds, seed ⊆ c
  ordered : t.engine.candidates.Pairwise fun c d => D.rank c.toFinset ≤ D.rank d.toFinset
  complete : t.engine.candidates.length < T.numberTracked →
    (T.maxClassCount = 0 ∨ t.candidatePartition.length < T.maxClassCount) →
    t.termination ≠ .maxOverrun → ∀ seed ∈ seeds, ∀ Δ, (e.space D).IsMinimal (e.Consistent D) seed Δ →
      T.limits.Admits (D.rank Δ) → T.Accounts D timestep (e.space D) t.engine.candidates Δ

/-- A search that returns for every bound that is large enough, and finds what it should whenever it
does. -/
theorem extendCandidates_seeds (T : CbfsTracker) (h : e.Inv D) (hj : e.Justified D)
    (hfit : (e.space D).RanksFit 0) {seeds : List Candidate}
    (hseeds : ∀ c ∈ seeds, c.Legal (e.space D)) (timestep : ℕ) :
    (∃ K, ∀ fuel, K < fuel → ∃ t,
      T.extendCandidates D timestep fuel { e with candidates := seeds } = .ok t) ∧
    ∀ fuel t, T.extendCandidates D timestep fuel { e with candidates := seeds } = .ok t →
      T.Diagnosed D timestep e (CbfsAgenda.initialCandidates seeds) t := by
  set e₀ : Engine := { e with candidates := [] } with he₀
  have hground₀ : SameGround D e e₀ :=
    ⟨⟨rfl, fun _ => rfl, fun _ => rfl, fun _ _ => Iff.rfl, rfl, rfl, rfl⟩, rfl⟩
  have hinv₀ : e₀.Inv D := hground₀.reassigned.inv h h.solver h.linked h.active h.current
  have hj₀ : e₀.Justified D := (hground₀.justified rfl).mpr hj
  obtain ⟨⟨K, hK⟩, hright⟩ := FindCall.findConsistentCandidates_running
    (s := ⟨.ok e₀, CbfsAgenda.empty (e.space D) 0, 0, []⟩)
    (T.searchSystem_soundFrom hj₀ timestep) T.limits ⟨e₀, rfl, Searched.refl hinv₀⟩ rfl hfit hseeds
    T.maxClassCount T.numberTracked
  have hextend (fuel : ℕ) {call : FindCall (T.searchSystem D timestep (e.space D))} {e' : Engine}
      (hcall : T.search D timestep (some T.maxClassCount) fuel { e with candidates := seeds } =
        .ok call)
      (he' : call.opsat.system = .ok e') :
      T.extendCandidates D timestep fuel { e with candidates := seeds } =
        .ok ⟨{ e' with candidates := call.consistentCandidates }, call.candidatePartition,
          call.opsat.terminateSearch T.limits⟩ := by
    unfold extendCandidates extendFrom
    simp only [hcall, bind, Except.bind, he']
    rfl
  refine ⟨⟨K, fun fuel hfuel => ?_⟩, fun fuel t ht => ?_⟩
  · obtain ⟨call, hcall⟩ := hK fuel hfuel
    obtain ⟨⟨e', he', -⟩, -⟩ := hright fuel call hcall
    exact ⟨_, hextend fuel hcall he'⟩
  · obtain ⟨call, hcall, -⟩ := Loop.bind_eq_ok ht
    obtain ⟨⟨e', he', hs⟩, hbest, hclass⟩ := hright fuel call hcall
    obtain rfl := Except.ok.inj ((hextend fuel hcall he').symm.trans ht)
    have htracks := tracks_setCandidates hs hj₀
      (call.opsat.terminateSearch T.limits) hclass.partition
      fun c hc => ⟨(hbest.sound c hc).1, (hbest.sound c hc).2.1⟩
    refine ⟨⟨htracks.inv, htracks.justified, hground₀.trans htracks.ground, htracks.others,
      htracks.partition, htracks.sound⟩, fun c hc => (hbest.sound c hc).2.2, hbest.ordered,
      fun hnumber hlimit hmax seed hseed Δ hΔ hadmits => ?_⟩
    have hreached : call.classLimitReached = false := by
      rw [hclass.limit]
      rcases hlimit with hzero | hlt
      · simp [hzero]
      · simp [Nat.not_le.mpr hlt]
    obtain ⟨c, -, hc⟩ := hbest.complete hnumber hreached hmax seed hseed Δ hΔ hadmits
    exact ⟨c, hc⟩

/-- Whatever the engine searched before, a search from its candidates keeps the consistent ones, in
the order of their ranks, and leaves no minimal one within the limits unaccounted for. -/
theorem extendCandidates_diagnosed (T : CbfsTracker) (h : e.Inv D) (hj : e.Justified D)
    (hfit : (e.space D).RanksFit 0)
    (hlegal : ∀ c ∈ e.candidates, c.Legal (e.space D)) (timestep : ℕ) :
    (∃ K, ∀ fuel, K < fuel → ∃ t, T.extendCandidates D timestep fuel e = .ok t) ∧
    ∀ fuel t, T.extendCandidates D timestep fuel e = .ok t →
      T.Diagnosed D timestep e (CbfsAgenda.initialCandidates e.candidates) t :=
  T.extendCandidates_seeds h hj hfit hlegal timestep

theorem stateCandidates_eq (T : CbfsTracker) (D : Assignables) :
    T.stateCandidates D = ((D.assignments T.stateVariable).map fun a => [a]).reverse := by
  have hall (as : List Assignment) (acc : List Candidate) :
      as.foldl (fun candidates a => [a] :: candidates) acc = (as.map fun a => [a]).reverse ++ acc := by
    induction as generalizing acc with
    | nil => rfl
    | cons a as ih => simp [ih]
  exact (hall _ []).trans (List.append_nil _)

theorem mem_stateCandidates {c : Candidate} :
    c ∈ T.stateCandidates D ↔ ∃ a ∈ D.assignments T.stateVariable, c = [a] := by
  rw [stateCandidates_eq, List.mem_reverse, List.mem_map]
  simp only [eq_comm]

theorem stateCandidates_legal (hstate : T.stateVariable ∈ e.assumptions) :
    ∀ c ∈ T.stateCandidates D, c.Legal (e.space D) := by
  intro c hc
  obtain ⟨a, ha, rfl⟩ := mem_stateCandidates.mp hc
  refine ⟨List.nodup_singleton _, fun b hb => ?_⟩
  obtain rfl := List.mem_singleton.mp hb
  have hvar := D.var_eq _ _ ha
  exact ⟨hvar ▸ hstate, hvar ▸ ha⟩

theorem Diagnosed.of_searched {e' : Engine} (hs : Searched D e e') {seeds : List Candidate}
    {t : Tracked} (h : T.Diagnosed D timestep e' seeds t) : T.Diagnosed D timestep e seeds t := by
  have hcons : e'.Consistent D = e.Consistent D :=
    funext fun Δ => propext (hs.ground.consistent Δ)
  have hspace := hs.ground.space
  refine ⟨⟨h.inv, h.justified, hs.ground.trans h.ground, fun v hv => ?_, h.partition, ?_⟩, h.seeded,
    h.ordered, ?_⟩
  · exact (h.others v (hs.ground.reassigned.assumptions.symm ▸ hv)).trans (hs.others v hv)
  · rw [← hspace, ← hcons]
    exact h.sound
  · rw [← hspace, ← hcons]
    exact h.complete

/-- The candidates of the tracker after `prune_and_search`: those that are still consistent, or else
those that a search from the values of the state variable finds. -/
structure Pruned (T : CbfsTracker) (D : Assignables) (timestep : ℕ) (e : Engine) (t : Tracked) :
    Prop extends T.Tracks D e t where
  kept : e.consistentOnes D e.candidates ≠ [] →
    t.engine.candidates = e.consistentOnes D e.candidates
  fresh : e.consistentOnes D e.candidates = [] →
    T.Diagnosed D timestep e (CbfsAgenda.initialCandidates (T.stateCandidates D)) t

theorem pruneAndSearch_pruned (T : CbfsTracker) {t : Tracked} (h : t.engine.Inv D)
    (hj : t.engine.Justified D) (hfit : (t.engine.space D).RanksFit 0)
    (hlegal : ∀ c ∈ t.engine.candidates, c.Legal (t.engine.space D))
    (hstate : T.stateVariable ∈ t.engine.assumptions) (timestep : ℕ) :
    (∃ K, ∀ fuel, K < fuel → ∃ t', T.pruneAndSearch D timestep fuel t = .ok t') ∧
    ∀ fuel t', T.pruneAndSearch D timestep fuel t = .ok t' →
      T.Pruned D timestep t.engine t' := by
  obtain ⟨e', he', hs⟩ := Engine.pruneLoop_spec h hlegal timestep
  have hpruned : t.engine.pruneInconsistentCandidates D timestep =
      .ok { e' with candidates := t.engine.consistentOnes D t.engine.candidates } := by
    unfold Engine.pruneInconsistentCandidates
    rw [he']
    rfl
  by_cases hnil : t.engine.consistentOnes D t.engine.candidates = []
  · have hsearch (fuel : ℕ) : T.pruneAndSearch D timestep fuel t =
        T.extendCandidates D timestep fuel { e' with candidates := T.stateCandidates D } := by
      unfold pruneAndSearch
      rw [hpruned]
      simp only [hnil, bind, Except.bind]
      rfl
    obtain ⟨htotal, hright⟩ := T.extendCandidates_seeds hs.inv (hs.justified hj)
      (hs.ground.space.symm ▸ hfit) (fun c hc => hs.legal (stateCandidates_legal hstate c hc)) timestep
    simp only [hsearch]
    refine ⟨htotal, fun fuel t' ht' => ?_⟩
    have hdiagnosed := (hright fuel t' ht').of_searched hs
    exact ⟨hdiagnosed.toTracks, fun hne => absurd hnil hne, fun _ => hdiagnosed⟩
  · have hkept (fuel : ℕ) : T.pruneAndSearch D timestep fuel t =
        .ok ⟨{ e' with candidates := t.engine.consistentOnes D t.engine.candidates },
          T.partition (t.engine.consistentOnes D t.engine.candidates), t.termination⟩ := by
      unfold pruneAndSearch
      rw [hpruned]
      simp only [bind, Except.bind, List.isEmpty_iff, hnil, if_false]
      rfl
    refine ⟨⟨0, fun fuel _ => ⟨_, hkept fuel⟩⟩, fun fuel t' ht' => ?_⟩
    obtain rfl := Except.ok.inj ((hkept fuel).symm.trans ht')
    refine ⟨tracks_setCandidates hs hj t.termination rfl fun c hc => ?_, fun _ => rfl,
      fun hempty => absurd hempty hnil⟩
    obtain ⟨hmem, hcons⟩ := List.mem_filter.mp hc
    exact ⟨hlegal c hmem, by simpa using hcons⟩

theorem Diagnosed.not_consistent {seeds : List Candidate} {t : Tracked}
    (h : T.Diagnosed D timestep e seeds t) (hnil : t.engine.candidates = [])
    (hnumber : 0 < T.numberTracked) (hmax : t.termination ≠ .maxOverrun) {seed : Candidate}
    (hseed : seed ∈ seeds) {Δ : Finset Assignment} (hΔ : (e.space D).IsSelection Δ)
    (hsub : seed.toFinset ⊆ Δ) (hadmits : T.limits.Admits (D.rank Δ)) : ¬ e.Consistent D Δ := by
  intro hcons
  obtain ⟨Γ, hΓ, hmin⟩ := Assignables.exists_isMinimal
    (fun Γ Δ hiff => Engine.consistent_congr hiff) hΔ hsub hcons
  have hclasses : T.maxClassCount = 0 ∨ t.candidatePartition.length < T.maxClassCount := by
    rw [h.partition, hnil]
    exact Nat.eq_zero_or_pos _
  have hΓadmits : T.limits.Admits (D.rank Γ) :=
    hadmits.imp_right fun hle => (Assignables.rank_mono (D := D) hΓ).trans hle
  obtain ⟨c, -, hc⟩ := h.complete (by rw [hnil]; exact hnumber) hclasses hmax seed hseed Γ hmin
    hΓadmits
  rw [hnil] at hc
  rcases hc with hc | ⟨r, hr, -⟩
  · exact absurd hc List.not_mem_nil
  · exact absurd hr List.not_mem_nil

/-- The tracker is left without a candidate only when no history of the system within the limits
explains the clauses of the theory, and otherwise there is one. -/
theorem pruneAndSearch_explains (T : CbfsTracker) {t t' : Tracked} (h : t.engine.Inv D)
    (hj : t.engine.Justified D) (hfit : (t.engine.space D).RanksFit 0)
    (hlegal : ∀ c ∈ t.engine.candidates, c.Legal (t.engine.space D))
    (hstate : T.stateVariable ∈ t.engine.assumptions) (hnumber : 0 < T.numberTracked)
    {timestep fuel : ℕ} (ht' : T.pruneAndSearch D timestep fuel t = .ok t') :
    (t'.engine.candidates ≠ [] →
      ∃ Δ, (t.engine.space D).IsSelection Δ ∧ t.engine.Consistent D Δ) ∧
    (t'.engine.candidates = [] → t'.termination ≠ .maxOverrun →
      ∀ Δ, (t.engine.space D).IsSelection Δ → (∃ a ∈ Δ, a.var = T.stateVariable) →
        T.limits.Admits (D.rank Δ) → ¬ t.engine.Consistent D Δ) := by
  obtain ⟨htracks, hkept, hfresh⟩ :=
    (T.pruneAndSearch_pruned h hj hfit hlegal hstate timestep).2 fuel t' ht'
  refine ⟨fun hne => ?_, fun hnil hmax Δ hΔ hex hadmits => ?_⟩
  · obtain ⟨c, hc⟩ := List.exists_mem_of_ne_nil _ hne
    exact ⟨c.toFinset, (htracks.sound c hc).1.isSelection, (htracks.sound c hc).2⟩
  · have hnone : t.engine.consistentOnes D t.engine.candidates = [] := by
      by_contra hne
      exact hne ((hkept hne).symm.trans hnil)
    obtain ⟨a, ha, hvar⟩ := hex
    have hseed : [a] ∈ T.stateCandidates D :=
      mem_stateCandidates.mpr ⟨a, hvar ▸ (hΔ.known a ha).2, rfl⟩
    have hinitial : CbfsAgenda.initialCandidates (T.stateCandidates D) = T.stateCandidates D := by
      unfold CbfsAgenda.initialCandidates
      rw [if_neg]
      simpa using List.ne_nil_of_mem hseed
    exact (hfresh hnone).not_consistent hnil hnumber hmax (hinitial.symm ▸ hseed) hΔ
      (by simpa using ha) hadmits

/-- The search of the constructor, before it examines the empty candidate. -/
def firstCall (T : CbfsTracker) (D : Assignables) :
    FindCall (T.searchSystem D 0 (({} : Engine).space D)) :=
  .start (Opsat.initializeSearch [] ⟨.ok {}, CbfsAgenda.empty (({} : Engine).space D) 0, 0, []⟩) [] []

def firstCandidates (T : CbfsTracker) : List Candidate := if T.numberTracked = 0 then [] else [[]]

theorem stops_firstCall_iff (T : CbfsTracker) (D : Assignables) :
    (T.firstCall D).Stops T.limits T.numberTracked ↔ T.numberTracked = 0 := by
  have htop : (T.firstCall D).opsat.agenda.top = some {} := rfl
  have hconsidered : (T.firstCall D).opsat.candidatesConsidered = 0 := rfl
  have hcontinue : (T.firstCall D).opsat.terminateSearch T.limits = .searchContinue := by
    simp only [Opsat.terminateSearch, htop, hconsidered, UInt32.not_lt_zero, and_false, if_false]
  have hlength : (T.firstCall D).consistentCandidates.length = 0 := rfl
  have hlimit : (T.firstCall D).classLimitReached = false := rfl
  simp [FindCall.Stops, hcontinue, hlength, hlimit]

/-- What the search of the constructor finds: with nothing in the system the empty candidate is
consistent. -/
theorem reached_firstCall {out : FindCall (T.searchSystem D 0 (({} : Engine).space D))}
    (hreached : FindCall.Reached T.limits none T.numberTracked (T.firstCall D) out)
    (hstops : out.Stops T.limits T.numberTracked) : out.opsat.system = .ok {} ∧
      out.consistentCandidates = T.firstCandidates ∧ out.candidatePartition = [] := by
  obtain ⟨heq, hrunning⟩ := hreached
  unfold firstCandidates
  generalize out.opsat.examined.length = k at heq hrunning
  cases k with
  | zero =>
    obtain rfl := heq
    rw [if_pos ((T.stops_firstCall_iff D).mp hstops)]
    exact ⟨rfl, rfl, rfl⟩
  | succ k =>
    rw [Function.iterate_succ_apply, Function.iterate_fixed (FindCall.examine_idle none rfl)] at heq
    subst heq
    rw [if_neg fun hzero => hrunning 0 k.succ_pos ((T.stops_firstCall_iff D).mpr hzero)]
    exact ⟨rfl, rfl, rfl⟩

/-- The constructor returns, with nothing in the system but the empty candidate, which is in no
class. -/
theorem new_returns (T : CbfsTracker) (D : Assignables) :
    (∃ K, ∀ fuel, K < fuel → ∃ t, T.new D fuel = .ok t) ∧
    ∀ fuel t, T.new D fuel = .ok t →
      t.engine = { candidates := T.firstCandidates } ∧ t.candidatePartition = [] := by
  have hfirst : FindCall.FindInv T.limits none T.numberTracked (T.firstCall D) (T.firstCall D) :=
    FindCall.findInv_start _ _ _
  have hnew (fuel : ℕ) {out : FindCall (T.searchSystem D 0 (({} : Engine).space D))}
      (hout : T.search D 0 none fuel {} = .ok out) (hsystem : out.opsat.system = .ok {}) :
      T.new D fuel = .ok ⟨{ candidates := out.consistentCandidates }, out.candidatePartition,
        out.opsat.terminateSearch T.limits⟩ := by
    unfold new extendFrom
    simp only [hout, hsystem, bind, Except.bind]
    rfl
  refine ⟨⟨1, fun fuel hfuel => ?_⟩, fun fuel t ht => ?_⟩
  · obtain ⟨k, rfl⟩ : ∃ k, fuel = k + 1 + 1 := ⟨fuel - 2, by omega⟩
    have hempty : ((FindCall.examine none)^[k + 1] (T.firstCall D)).opsat.agenda.elements = [] := by
      rw [Function.iterate_succ_apply, Function.iterate_fixed (FindCall.examine_idle none rfl)]
      rfl
    obtain ⟨out, hout, hreached, hstops⟩ :=
      FindCall.findConsistentCandidates_total (FindCall.stops_of_empty _ hempty) hfirst
    exact ⟨_, hnew _ hout (reached_firstCall hreached hstops).1⟩
  · obtain ⟨out, hout, -⟩ := Loop.bind_eq_ok ht
    obtain ⟨hreached, hstops⟩ := FindCall.findConsistentCandidates_returns hfirst hout
    obtain ⟨hsystem, hcandidates, hpartition⟩ := reached_firstCall hreached hstops
    obtain rfl := Except.ok.inj ((hnew fuel hout hsystem).symm.trans ht)
    exact ⟨congrArg (fun cs => ({ candidates := cs } : Engine)) hcandidates, hpartition⟩

end CbfsTracker

end Livingstone
