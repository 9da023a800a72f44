import Livingstone.Diagnosis.Tracker
import Livingstone.Proofs.BestFirst

/-! A search whose answers depend on the state that the earlier ones left behind: they are sound as
long as an invariant of that state holds, and they preserve it. The classes of the candidates that it
returns are those of their list. -/

namespace Livingstone

variable {τ : Type} {S : SearchSystem τ} {limits : SearchLimits} {tracker : Option ℕ} {number : ℕ}

/-- From every state in the invariant the answer is sound, and so is the state after it. -/
def SearchSystem.SoundFrom (S : SearchSystem τ) (P : τ → Prop)
    (Consistent : Finset Assignment → Prop) : Prop :=
  ∀ system, P system → ∀ candidate : Candidate, candidate.Legal S.assignables →
    S.assignables.SoundAnswer Consistent candidate (S.conflict system candidate).1 ∧
      P (S.conflict system candidate).2

/-- The class of one candidate, without a limit on the classes. -/
def SearchSystem.partitionCandidate (S : SearchSystem τ) (candidatePartition : List (List Candidate))
    (candidate : Candidate) : List (List Candidate) :=
  let classIndex := candidatePartition.findIdx fun c => S.belongs c candidate
  if classIndex < candidatePartition.length then
    candidatePartition.modify classIndex (· ++ [candidate])
  else candidatePartition ++ [[candidate]]

namespace FindCall

/-- The classes are those of the candidates, and the limit on them is reached when it says so. -/
structure Classified (classLimit : ℕ) (call : FindCall S) : Prop where
  partition : call.candidatePartition = call.consistentCandidates.foldl S.partitionCandidate []
  limit : call.classLimitReached =
    (0 < classLimit && decide (classLimit ≤ call.candidatePartition.length))

theorem Classified.accept {classLimit : ℕ} {call : FindCall S} (h : call.Classified classLimit)
    (candidate : Candidate) : (call.accept (some classLimit) candidate).Classified classLimit := by
  unfold FindCall.accept
  split_ifs with hsup
  · exact h
  · have hfold : (call.consistentCandidates ++ [candidate]).foldl S.partitionCandidate [] =
        S.partitionCandidate call.candidatePartition candidate := by
      rw [List.foldl_append, ← h.partition]
      rfl
    have hlimit := h.limit
    unfold SearchSystem.partitionCandidate at hfold
    unfold classify
    dsimp only at hfold ⊢
    split_ifs with hclass
    · rw [if_pos hclass] at hfold
      refine ⟨hfold.symm, ?_⟩
      dsimp only
      rw [List.length_modify]
      exact hlimit
    · rw [if_neg hclass] at hfold
      exact ⟨hfold.symm, rfl⟩

theorem Classified.examine {classLimit : ℕ} {call : FindCall S} (h : call.Classified classLimit) :
    (examine (some classLimit) call).Classified classLimit := by
  unfold FindCall.examine
  split
  · exact h
  · rename_i e agenda _
    have hpopped : Classified classLimit { call with opsat := (call.opsat.examineElement e agenda).2 } :=
      ⟨h.partition, h.limit⟩
    dsimp only
    split
    · exact hpopped.accept _
    · exact hpopped

theorem examine_turn_system (tracker : Option ℕ) {call : FindCall S}
    (hne : call.opsat.agenda.elements ≠ []) :
    ∃ e, call.Turn e (S.conflict call.opsat.system e.generateCandidate).1 (examine tracker call) ∧
      (examine tracker call).opsat.system =
        (S.conflict call.opsat.system e.generateCandidate).2 := by
  obtain ⟨e, ht⟩ := examine_turn tracker hne
  refine ⟨e, ht, ?_⟩
  cases hpop : call.opsat.agenda.pop with
  | none => exact absurd (CbfsAgenda.pop_eq_none.mp hpop) hne
  | some p =>
    obtain ⟨d, agenda⟩ := p
    obtain rfl : d = e := Option.some.inj ((CbfsAgenda.pop_top hpop).1.symm.trans ht.top)
    unfold examine
    rw [hpop]
    dsimp only
    split
    · rw [accept_opsat]
      rfl
    · rfl

section
variable {P : τ → Prop} {Consistent : Finset Assignment → Prop} {w : Weight}
  {seeds : List Candidate} {call : FindCall S}

/-- What holds before each turn, of the search and of the state. -/
structure Running (P : τ → Prop) (Consistent : Finset Assignment → Prop) (w : Weight)
    (seeds : List Candidate) (call : FindCall S) : Prop where
  searching : Searching Consistent w seeds call
  system : P call.opsat.system

theorem Running.turn (hsound : S.SoundFrom P Consistent) (hfit : S.assignables.RanksFit w)
    (tracker : Option ℕ) (h : Running P Consistent w seeds call)
    (hne : call.opsat.agenda.elements ≠ []) :
    Running P Consistent w seeds (examine tracker call) ∧
      WorkList.Replaces call.bag (examine tracker call).bag := by
  obtain ⟨e, ht, hsystem⟩ := examine_turn_system tracker hne
  obtain ⟨hanswer, hP⟩ :=
    hsound _ h.system _ (h.searching.ready e ht.mem_agenda.1).legal
  exact ⟨⟨h.searching.turn hfit ht hanswer, hsystem ▸ hP⟩, h.searching.replaces ht⟩

theorem Running.examine (hsound : S.SoundFrom P Consistent) (hfit : S.assignables.RanksFit w)
    (tracker : Option ℕ) (h : Running P Consistent w seeds call) :
    Running P Consistent w seeds (examine tracker call) := by
  by_cases hnil : call.opsat.agenda.elements = []
  · rw [examine_idle tracker hnil]
    exact h
  · exact (h.turn hsound hfit tracker hnil).1

theorem Running.exists_empty (hsound : S.SoundFrom P Consistent) (hfit : S.assignables.RanksFit w)
    (tracker : Option ℕ) (h : Running P Consistent w seeds call) :
    ∃ K, ((FindCall.examine tracker)^[K] call).opsat.agenda.elements = [] :=
  WorkList.exists_iterate_stop (FindCall.examine tracker)
    (fun call => call.opsat.agenda.elements = []) bag (Running P Consistent w seeds)
    (fun _ h hne => h.turn hsound hfit tracker hne) h

end

/-- A search that was not cut short has emptied its agenda, or all that is left on it is heavier than
the cutoff. -/
theorem terminateSearch_exhausted {s : Opsat S} (hstop : s.terminateSearch limits ≠ .searchContinue)
    (hmax : s.terminateSearch limits ≠ .maxOverrun) :
    s.agenda.elements = [] ∨
      limits.cutoffWeight ≠ 0 ∧ ∀ e ∈ s.agenda.elements, limits.cutoffWeight < e.weight := by
  unfold Opsat.terminateSearch at hstop hmax
  cases htop : s.agenda.top with
  | none => exact Or.inl (List.head?_eq_none_iff.mp (List.head?_eq_getElem? ▸ htop))
  | some top =>
    simp only [htop] at hstop hmax
    split_ifs at hstop hmax with _ hcut
    · exact absurd rfl hmax
    · exact Or.inr ⟨hcut.1, fun e he => UInt32.lt_of_lt_of_le hcut.2 (CbfsAgenda.top_le htop e he)⟩
    · exact absurd rfl hstop

/-- What a search from the seeds promises of the state it leaves, whatever its limits. -/
structure Outcome (limits : SearchLimits) (Consistent : Finset Assignment → Prop)
    (seeds : List Candidate) (number : ℕ) (out : FindCall S) : Prop where
  sound : ∀ c ∈ out.consistentCandidates,
    c.Legal S.assignables ∧ Consistent c.toFinset ∧ ∃ seed ∈ seeds, seed ⊆ c
  ordered : out.consistentCandidates.Pairwise fun c d =>
    S.assignables.rank c.toFinset ≤ S.assignables.rank d.toFinset
  complete : out.consistentCandidates.length < number → out.classLimitReached = false →
    out.opsat.terminateSearch limits ≠ .maxOverrun → ∀ seed ∈ seeds, ∀ Δ,
      S.assignables.IsMinimal Consistent seed Δ → limits.Admits (S.assignables.rank Δ) →
        out.Answered Δ

theorem Searching.outcome {Consistent : Finset Assignment → Prop} {seeds : List Candidate}
    {out : FindCall S} (h : Searching Consistent 0 seeds out) (hfit : S.assignables.RanksFit 0)
    (hstops : out.Stops limits number) : Outcome limits Consistent seeds number out where
  sound := h.sound
  ordered := h.ordered
  complete hnumber hlimit hmax seed hseed Δ hΔ hadmits := by
    have hstop := (hstops.resolve_left (Nat.not_le.mpr hnumber)).resolve_left (by simp [hlimit])
    refine (h.complete seed hseed Δ hΔ).resolve_left fun ⟨e, he, hleads⟩ => ?_
    rcases terminateSearch_exhausted hstop hmax with hnil | ⟨hcut, hheavy⟩
    · exact absurd (hnil ▸ he) List.not_mem_nil
    · -- the element that leads to `Δ` is not heavier than the cutoff
      have hlt := UInt32.lt_iff_toNat_lt.mp (hheavy e he)
      rw [h.toNat_weight hfit he, UInt32.toNat_zero, Nat.zero_add] at hlt
      have hle := hleads.rank_le (h.ready e he)
      have hadmits := hadmits.resolve_left hcut
      omega

theorem initialCandidates_legal {D : Assignables} {seedCandidates : List Candidate}
    (hseeds : ∀ c ∈ seedCandidates, c.Legal D) :
    ∀ c ∈ CbfsAgenda.initialCandidates seedCandidates, c.Legal D := by
  unfold CbfsAgenda.initialCandidates
  split_ifs
  · intro c hc
    obtain rfl := List.mem_singleton.mp hc
    exact ⟨List.nodup_nil, fun a ha => absurd ha List.not_mem_nil⟩
  · exact hseeds

/-- The search comes to an end, and what it returns is as in a search whose answers do not depend
on its state. -/
theorem findConsistentCandidates_running {P : τ → Prop} {Consistent : Finset Assignment → Prop}
    (hsound : S.SoundFrom P Consistent) (limits : SearchLimits) {s : Opsat S} (hs : P s.system)
    (hweight : s.agenda.emptyElementWeight = 0) (hfit : S.assignables.RanksFit 0)
    {seedCandidates : List Candidate} (hseeds : ∀ c ∈ seedCandidates, c.Legal S.assignables)
    (classLimit number : ℕ) :
    (∃ K, ∀ fuel, K < fuel → ∃ out, findConsistentCandidates limits (some classLimit) number fuel
      (s.initializeSearch seedCandidates) [] [] = .ok out) ∧
    ∀ fuel out, findConsistentCandidates limits (some classLimit) number fuel
        (s.initializeSearch seedCandidates) [] [] = .ok out →
      P out.opsat.system ∧
        Outcome limits Consistent (CbfsAgenda.initialCandidates seedCandidates) number out ∧
        out.Classified classLimit := by
  have hstart : Running P Consistent 0 (CbfsAgenda.initialCandidates seedCandidates)
      (start (s.initializeSearch seedCandidates) [] []) :=
    ⟨hweight ▸ searching_start Consistent s (initialCandidates_legal hseeds) [], hs⟩
  have hfirst : FindInv limits (some classLimit) number _ _ :=
    findInv_start (s.initializeSearch seedCandidates) [] []
  constructor
  · obtain ⟨K, hK⟩ := hstart.exists_empty hsound hfit (some classLimit)
    refine ⟨K, fun fuel hfuel => ?_⟩
    obtain ⟨n, rfl⟩ : ∃ n, fuel = n + 1 := ⟨fuel - 1, by omega⟩
    have hempty := examine_iterate_idle (some classLimit) (Nat.le_of_lt_succ hfuel) hK
    obtain ⟨out, hout, -⟩ := findConsistentCandidates_total (stops_of_empty number hempty) hfirst
    exact ⟨out, hout⟩
  · intro fuel out hout
    obtain ⟨hreached, hstops⟩ := findConsistentCandidates_returns hfirst hout
    have hinv := hreached.inv
      (fun _ call => Running P Consistent 0 (CbfsAgenda.initialCandidates seedCandidates) call ∧
        call.Classified classLimit)
      ⟨hstart, rfl, by cases classLimit <;> rfl⟩
      fun _ call h _ => ⟨h.1.examine hsound hfit (some classLimit), h.2.examine⟩
    exact ⟨hinv.1.system, hinv.1.searching.outcome hfit hstops, hinv.2⟩

end FindCall

end Livingstone
