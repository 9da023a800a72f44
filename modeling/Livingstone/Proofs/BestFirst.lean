import Livingstone.Lib.WorkList
import Livingstone.Opsat.Frontier
import Livingstone.Proofs.SearchLimits

/-! The search is sound, best first and complete. Given sound answers to the candidates and ranks
whose sums do not overflow, it comes to an end, what it returns is consistent and in the order of
the ranks, and no minimal consistent selection within the cutoff is left out. -/

namespace Livingstone

open Assignables (rank_mono)

variable {τ : Type} {S : SearchSystem τ} {limits : SearchLimits} {tracker : Option ℕ} {number : ℕ}

/-- The answers to all candidates of values of different variables are sound. -/
def SearchSystem.Sound (S : SearchSystem τ) (Consistent : Finset Assignment → Prop) : Prop :=
  ∀ (system : τ) (candidate : Candidate), candidate.Legal S.assignables →
    S.assignables.SoundAnswer Consistent candidate (S.conflict system candidate).1

/-- The rank is within the cutoff, if there is one. -/
def SearchLimits.Admits (limits : SearchLimits) (rank : ℕ) : Prop :=
  limits.cutoffWeight = 0 ∨ rank ≤ limits.cutoffWeight.toNat

namespace FindCall

/-- `Δ` was examined. It was returned, or rejected for what had been returned before it. -/
def Answered (call : FindCall S) (Δ : Finset Assignment) : Prop :=
  ∃ c ∈ call.opsat.examined, c.toFinset = Δ ∧
    (c ∈ call.consistentCandidates ∨ ∃ r ∈ call.consistentCandidates,
      S.assignables.rank r.toFinset ≤ S.assignables.rank c.toFinset ∧
        Opsat.supersetWithState S c r = true)

/-- What a search from the seeds promises of the state it leaves. -/
structure BestFirst (limits : SearchLimits) (Consistent : Finset Assignment → Prop) (w : Weight)
    (seeds : List Candidate) (number : ℕ) (out : FindCall S) : Prop where
  sound : ∀ c ∈ out.consistentCandidates,
    c.Legal S.assignables ∧ Consistent c.toFinset ∧ ∃ seed ∈ seeds, seed ⊆ c
  ordered : out.consistentCandidates.Pairwise fun c d =>
    S.assignables.rank c.toFinset ≤ S.assignables.rank d.toFinset
  complete : out.consistentCandidates.length < number → out.classLimitReached = false →
    ∀ seed ∈ seeds, ∀ Δ, S.assignables.IsMinimal Consistent seed Δ →
      limits.Admits (w.toNat + S.assignables.rank Δ) → out.Answered Δ

/-- The element `e` was popped, and `conflict` was the answer to its candidate. The candidate is
returned when it has no conflict and contains none of those returned. -/
structure Turn (call : FindCall S) (e : CbfsElement) (conflict : Option Conflict)
    (call' : FindCall S) : Prop where
  top : call.opsat.agenda.top = some e
  elements : ∃ rest, call.opsat.agenda.elements.Perm (e :: rest) ∧
    call'.opsat.agenda.elements.Perm
      (e.successors S.assignables call.opsat.agenda.emptyElementWeight conflict ++ rest)
  emptyElementWeight :
    call'.opsat.agenda.emptyElementWeight = call.opsat.agenda.emptyElementWeight
  examined : call'.opsat.examined = e.generateCandidate :: call.opsat.examined
  returned : call'.consistentCandidates =
    if conflict = none ∧
        Opsat.supersetCandidate S e.generateCandidate call.consistentCandidates = false
      then call.consistentCandidates ++ [e.generateCandidate] else call.consistentCandidates

theorem examine_turn (tracker : Option ℕ) {call : FindCall S}
    (hne : call.opsat.agenda.elements ≠ []) :
    ∃ e, call.Turn e (S.conflict call.opsat.system e.generateCandidate).1 (examine tracker call) := by
  cases hpop : call.opsat.agenda.pop with
  | none => exact absurd (CbfsAgenda.pop_eq_none.mp hpop) hne
  | some p =>
    obtain ⟨e, agenda⟩ := p
    obtain ⟨htop, hweight⟩ := CbfsAgenda.pop_top hpop
    have hopsat : (examine tracker call).opsat = (call.opsat.examineElement e agenda).2 := by
      unfold examine
      rw [hpop]
      dsimp only
      split
      · rw [accept_opsat]
      · rfl
    refine ⟨e, htop, ⟨agenda.elements, CbfsAgenda.pop_perm hpop, ?_⟩, ?_, ?_, ?_⟩
    · rw [hopsat, ← hweight]
      exact CbfsAgenda.expandElement_perm agenda e _
    · rw [hopsat, ← hweight]
      exact CbfsAgenda.expandElement_emptyElementWeight agenda e _
    · rw [hopsat]
      rfl
    · unfold examine
      rw [hpop]
      cases hconflict : (S.conflict call.opsat.system e.generateCandidate).1 with
      | none =>
        simp only [Opsat.examineElement, hconflict, Option.isNone_none, if_true, true_and]
        rw [accept_consistentCandidates_eq]
        cases Opsat.supersetCandidate S e.generateCandidate call.consistentCandidates <;> rfl
      | some k => simp [Opsat.examineElement, hconflict]

theorem examine_idle (tracker : Option ℕ) {call : FindCall S}
    (hnil : call.opsat.agenda.elements = []) : examine tracker call = call := by
  unfold examine
  rw [CbfsAgenda.pop_eq_none.mpr hnil]

structure Searching (Consistent : Finset Assignment → Prop) (w : Weight) (seeds : List Candidate)
    (call : FindCall S) : Prop where
  emptyElementWeight : call.opsat.agenda.emptyElementWeight = w
  ready : ∀ e ∈ call.opsat.agenda.elements, e.Ready S.assignables seeds
  sound : ∀ c ∈ call.consistentCandidates,
    c.Legal S.assignables ∧ Consistent c.toFinset ∧ ∃ seed ∈ seeds, seed ⊆ c
  ordered : call.consistentCandidates.Pairwise fun c d =>
    S.assignables.rank c.toFinset ≤ S.assignables.rank d.toFinset
  below : ∀ c ∈ call.consistentCandidates, ∀ e ∈ call.opsat.agenda.elements,
    S.assignables.rank c.toFinset ≤ S.assignables.rank e.generateCandidate.toFinset
  complete : ∀ seed ∈ seeds, ∀ Δ, S.assignables.IsMinimal Consistent seed Δ →
    (∃ e ∈ call.opsat.agenda.elements, e.LeadsTo seed Δ) ∨ call.Answered Δ

section
variable {Consistent : Finset Assignment → Prop} {w : Weight} {seeds : List Candidate}
  {call : FindCall S} {e : CbfsElement} {agenda : CbfsAgenda S.assignables}

theorem Searching.toNat_weight (h : Searching Consistent w seeds call)
    (hfit : S.assignables.RanksFit w) (he : e ∈ call.opsat.agenda.elements) :
    e.weight.toNat = w.toNat + S.assignables.rank e.generateCandidate.toFinset := by
  rw [call.opsat.agenda.weighed e he, CbfsElement.computeElementWeight_eq, h.emptyElementWeight]
  exact (h.ready e he).legal.toNat_add_getWeight hfit

theorem Searching.top_rank_le (h : Searching Consistent w seeds call)
    (hfit : S.assignables.RanksFit w) (htop : call.opsat.agenda.top = some e) :
    ∀ d ∈ call.opsat.agenda.elements, S.assignables.rank e.generateCandidate.toFinset ≤
      S.assignables.rank d.generateCandidate.toFinset := by
  intro d hd
  have hle := UInt32.le_iff_toNat_le.mp (CbfsAgenda.top_le htop d hd)
  rw [h.toNat_weight hfit hd, h.toNat_weight hfit (List.mem_of_getElem? htop)] at hle
  omega

theorem Answered.mono {call' : FindCall S} {Δ : Finset Assignment} (h : call.Answered Δ)
    (hexamined : call.opsat.examined ⊆ call'.opsat.examined)
    (hcandidates : call.consistentCandidates ⊆ call'.consistentCandidates) : call'.Answered Δ := by
  obtain ⟨c, hc, hΔ, hreturned | ⟨r, hr, hsup⟩⟩ := h
  · exact ⟨c, hexamined hc, hΔ, Or.inl (hcandidates hreturned)⟩
  · exact ⟨c, hexamined hc, hΔ, Or.inr ⟨r, hcandidates hr, hsup⟩⟩

section
variable {call' : FindCall S} {conflict : Option Conflict}

theorem Turn.mem_returned (ht : call.Turn e conflict call') {c : Candidate}
    (hc : c ∈ call'.consistentCandidates) :
    c ∈ call.consistentCandidates ∨ conflict = none ∧ c = e.generateCandidate := by
  rw [ht.returned] at hc
  split_ifs at hc with hreturned
  · refine (List.mem_append.mp hc).imp_right fun hc => ⟨hreturned.1, List.mem_singleton.mp hc⟩
  · exact Or.inl hc

theorem Turn.returned_subset (ht : call.Turn e conflict call') :
    call.consistentCandidates ⊆ call'.consistentCandidates := by
  rw [ht.returned]
  split_ifs
  · exact List.subset_append_left _ _
  · exact List.Subset.refl _

theorem Turn.mem_agenda (ht : call.Turn e conflict call') :
    e ∈ call.opsat.agenda.elements ∧
      (∀ d ∈ call'.opsat.agenda.elements,
        d ∈ e.successors S.assignables call.opsat.agenda.emptyElementWeight conflict ∨
          d ∈ call.opsat.agenda.elements) ∧
      (∀ d ∈ e.successors S.assignables call.opsat.agenda.emptyElementWeight conflict,
        d ∈ call'.opsat.agenda.elements) ∧
      ∀ d ∈ call.opsat.agenda.elements, d = e ∨ d ∈ call'.opsat.agenda.elements := by
  obtain ⟨rest, hperm, hperm'⟩ := ht.elements
  refine ⟨hperm.mem_iff.mpr List.mem_cons_self, fun d hd => ?_, fun d hd => ?_, fun d hd => ?_⟩
  · refine (List.mem_append.mp (hperm'.mem_iff.mp hd)).imp_right fun hd => ?_
    exact hperm.mem_iff.mpr (List.mem_cons_of_mem e hd)
  · exact hperm'.mem_iff.mpr (List.mem_append_left _ hd)
  · refine (List.mem_cons.mp (hperm.mem_iff.mp hd)).imp_right fun hd => ?_
    exact hperm'.mem_iff.mpr (List.mem_append_right _ hd)

/-- The elements of the next turn are ready and rank no lower than the one popped. -/
theorem Searching.turn_ready (h : Searching Consistent w seeds call)
    (hfit : S.assignables.RanksFit w) (ht : call.Turn e conflict call')
    (hanswer : S.assignables.SoundAnswer Consistent e.generateCandidate conflict) :
    ∀ d ∈ call'.opsat.agenda.elements, d.Ready S.assignables seeds ∧
      S.assignables.rank e.generateCandidate.toFinset ≤
        S.assignables.rank d.generateCandidate.toFinset := by
  intro d hd
  obtain ⟨he, hagenda, -⟩ := ht.mem_agenda
  have hready := h.ready e he
  rcases hagenda d hd with hd | hd
  · have hd_ready := hready.successor hanswer hd
    exact ⟨hd_ready, CbfsElement.successor_rank_le hready hd hd_ready⟩
  · exact ⟨h.ready d hd, h.top_rank_le hfit ht.top d hd⟩

theorem Searching.answered (h : Searching Consistent w seeds call) (ht : call.Turn e none call') :
    call'.Answered e.generateCandidate.toFinset := by
  refine ⟨e.generateCandidate, ht.examined ▸ List.mem_cons_self, rfl, ?_⟩
  cases hsup : Opsat.supersetCandidate S e.generateCandidate call.consistentCandidates with
  | false =>
    rw [ht.returned, if_pos ⟨rfl, hsup⟩]
    exact Or.inl (List.mem_append_right _ List.mem_cons_self)
  | true =>
    obtain ⟨r, hr, hsup⟩ := List.any_eq_true.mp hsup
    exact Or.inr ⟨r, ht.returned_subset hr, h.below r hr e ht.mem_agenda.1, hsup⟩

theorem Searching.turn (h : Searching Consistent w seeds call) (hfit : S.assignables.RanksFit w)
    (ht : call.Turn e conflict call')
    (hanswer : S.assignables.SoundAnswer Consistent e.generateCandidate conflict) :
    Searching Consistent w seeds call' := by
  have hready := h.turn_ready hfit ht hanswer
  obtain ⟨he, -, hnew, hold⟩ := ht.mem_agenda
  constructor
  · exact ht.emptyElementWeight.trans h.emptyElementWeight
  · exact fun d hd => (hready d hd).1
  · intro c hc
    rcases ht.mem_returned hc with hc | ⟨rfl, rfl⟩
    · exact h.sound c hc
    · obtain ⟨seed, hseed, hsub⟩ := (h.ready e he).seeded
      exact ⟨(h.ready e he).legal, hanswer, seed, hseed,
        List.Subset.trans hsub (List.subset_append_left _ _)⟩
  · rw [ht.returned]
    split_ifs
    · refine List.pairwise_append.mpr ⟨h.ordered, List.pairwise_singleton _ _, fun c hc d hd => ?_⟩
      obtain rfl := List.mem_singleton.mp hd
      exact h.below c hc e he
    · exact h.ordered
  · intro c hc d hd
    rcases ht.mem_returned hc with hc | ⟨-, rfl⟩
    · exact (h.below c hc e he).trans (hready d hd).2
    · exact (hready d hd).2
  · intro seed hseed Δ hΔ
    rcases h.complete seed hseed Δ hΔ with ⟨d, hd, hleads⟩ | hanswered
    · rcases hold d hd with rfl | hd
      · rcases hleads.successor hΔ hanswer with ⟨rfl, rfl⟩ | ⟨d', hd', hleads'⟩
        · exact Or.inr (h.answered ht)
        · exact Or.inl ⟨d', hnew d' hd', hleads'⟩
      · exact Or.inl ⟨d, hd, hleads⟩
    · refine Or.inr (hanswered.mono ?_ ht.returned_subset)
      rw [ht.examined]
      exact List.subset_cons_self _ _

end

theorem Searching.examine (hsound : S.Sound Consistent) (hfit : S.assignables.RanksFit w)
    (tracker : Option ℕ) (h : Searching Consistent w seeds call) :
    Searching Consistent w seeds (examine tracker call) := by
  by_cases hnil : call.opsat.agenda.elements = []
  · rw [examine_idle tracker hnil]
    exact h
  · obtain ⟨e, ht⟩ := examine_turn tracker hnil
    exact h.turn hfit ht (hsound _ _ (h.ready e ht.mem_agenda.1).legal)

def bag (call : FindCall S) : Multiset (ℕ ×ₗ ℕ) :=
  (call.opsat.agenda.elements.map (CbfsElement.size S.assignables) : List (ℕ ×ₗ ℕ))

theorem Searching.replaces (h : Searching Consistent w seeds call) {call' : FindCall S}
    {conflict : Option Conflict} (ht : call.Turn e conflict call') :
    WorkList.Replaces call.bag call'.bag := by
  have hready := h.ready e ht.mem_agenda.1
  obtain ⟨rest, hperm, hperm'⟩ := ht.elements
  refine ⟨e.size S.assignables, (rest.map (CbfsElement.size S.assignables) : List (ℕ ×ₗ ℕ)),
    ((e.successors S.assignables call.opsat.agenda.emptyElementWeight conflict).map
      (CbfsElement.size S.assignables) : List (ℕ ×ₗ ℕ)), ?_, ?_, ?_⟩
  · exact Multiset.coe_eq_coe.mpr (hperm.map _)
  · have hmap := hperm'.map (CbfsElement.size S.assignables)
    rw [List.map_append] at hmap
    exact Multiset.coe_eq_coe.mpr hmap
  · intro b hb
    obtain ⟨d, hd, rfl⟩ := List.mem_map.mp (Multiset.mem_coe.mp hb)
    exact CbfsElement.successor_size_lt hready hd

theorem Searching.exists_empty (hsound : S.Sound Consistent) (hfit : S.assignables.RanksFit w)
    (tracker : Option ℕ) (h : Searching Consistent w seeds call) :
    ∃ K, ((FindCall.examine tracker)^[K] call).opsat.agenda.elements = [] := by
  refine WorkList.exists_iterate_stop (FindCall.examine tracker)
    (fun call => call.opsat.agenda.elements = []) bag (Searching Consistent w seeds)
    (fun call h hne => ?_) h
  obtain ⟨e, ht⟩ := examine_turn tracker hne
  exact ⟨h.examine hsound hfit tracker, h.replaces ht⟩

theorem examine_iterate_idle (tracker : Option ℕ) {K n : ℕ} (hle : K ≤ n)
    (hnil : ((FindCall.examine tracker)^[K] call).opsat.agenda.elements = []) :
    ((FindCall.examine tracker)^[n] call).opsat.agenda.elements = [] := by
  obtain ⟨m, rfl⟩ := Nat.exists_eq_add_of_le' hle
  rw [Function.iterate_add_apply, Function.iterate_fixed (examine_idle tracker hnil)]
  exact hnil

theorem stops_of_empty (number : ℕ) (hnil : call.opsat.agenda.elements = []) :
    call.Stops limits number := by
  refine Or.inr (Or.inr ?_)
  simp [Opsat.terminateSearch, CbfsAgenda.top, hnil]

end

theorem terminateSearch_ne_continue (hmax : limits.maxCandidates = 0) {s : Opsat S}
    (hstop : s.terminateSearch limits ≠ .searchContinue) :
    s.agenda.elements = [] ∨
      limits.cutoffWeight ≠ 0 ∧ ∀ e ∈ s.agenda.elements, limits.cutoffWeight < e.weight := by
  unfold Opsat.terminateSearch at hstop
  cases htop : s.agenda.top with
  | none => exact Or.inl (List.head?_eq_none_iff.mp (List.head?_eq_getElem? ▸ htop))
  | some top =>
    simp only [htop, hmax, ne_eq, not_true_eq_false, false_and, if_false] at hstop
    split_ifs at hstop with hcut
    · exact Or.inr ⟨hcut.1, fun e he => UInt32.lt_of_lt_of_le hcut.2 (CbfsAgenda.top_le htop e he)⟩
    · exact absurd rfl hstop

theorem searching_start (Consistent : Finset Assignment → Prop) (s : Opsat S)
    {seedCandidates : List Candidate}
    (hseeds : ∀ c ∈ CbfsAgenda.initialCandidates seedCandidates, c.Legal S.assignables)
    (candidatePartition : List (List Candidate)) :
    Searching Consistent s.agenda.emptyElementWeight (CbfsAgenda.initialCandidates seedCandidates)
      (start (s.initializeSearch seedCandidates) [] candidatePartition) where
  emptyElementWeight := CbfsAgenda.initializeAgenda_emptyElementWeight _ _ _
  ready e he := by
    obtain ⟨c, hc, rfl⟩ := CbfsAgenda.mem_initializeAgenda.mp he
    exact CbfsElement.ready_seedElement (hseeds c hc) hc
  sound c hc := absurd hc List.not_mem_nil
  ordered := List.Pairwise.nil
  below c hc := absurd hc List.not_mem_nil
  complete seed hseed Δ hΔ :=
    Or.inl ⟨_, CbfsAgenda.mem_initializeAgenda.mpr ⟨seed, hseed, rfl⟩,
      CbfsElement.leadsTo_seedElement hΔ⟩

theorem Searching.bestFirst {Consistent : Finset Assignment → Prop} {w : Weight}
    {seeds : List Candidate} {out : FindCall S} (h : Searching Consistent w seeds out)
    (hfit : S.assignables.RanksFit w) (hmax : limits.maxCandidates = 0)
    (hstops : out.Stops limits number) : BestFirst limits Consistent w seeds number out where
  sound := h.sound
  ordered := h.ordered
  complete hnumber hlimit seed hseed Δ hΔ hadmits := by
    have hstop := (hstops.resolve_left (Nat.not_le.mpr hnumber)).resolve_left (by simp [hlimit])
    rcases h.complete seed hseed Δ hΔ with ⟨e, he, hleads⟩ | hanswered
    · rcases terminateSearch_ne_continue hmax hstop with hnil | ⟨hcut, hheavy⟩
      · rw [hnil] at he
        cases he
      · -- the element that leads to `Δ` is not heavier than the cutoff
        have hlt := UInt32.lt_iff_toNat_lt.mp (hheavy e he)
        rw [h.toNat_weight hfit he] at hlt
        have hle := hleads.rank_le (h.ready e he)
        have hadmits := hadmits.resolve_left hcut
        omega
    · exact hanswered

theorem accept_classLimitReached (hclasses : ∀ n ∈ tracker, n = 0) (c : Candidate)
    {call : FindCall S} (h : call.classLimitReached = false) :
    (call.accept tracker c).classLimitReached = false := by
  unfold accept classify
  split
  · exact h
  · cases tracker with
    | none => exact h
    | some classLimit =>
      obtain rfl := hclasses classLimit rfl
      dsimp only
      split
      · exact h
      · rfl

theorem examine_classLimitReached (hclasses : ∀ n ∈ tracker, n = 0) {call : FindCall S}
    (h : call.classLimitReached = false) : (examine tracker call).classLimitReached = false := by
  unfold examine
  split
  · exact h
  · dsimp only
    split
    · exact accept_classLimitReached hclasses _ h
    · exact h

theorem examine_length_le (tracker : Option ℕ) (call : FindCall S) :
    (examine tracker call).consistentCandidates.length ≤ call.consistentCandidates.length + 1 := by
  by_cases hnil : call.opsat.agenda.elements = []
  · rw [examine_idle tracker hnil]
    exact Nat.le_succ _
  · obtain ⟨e, ht⟩ := examine_turn tracker hnil
    rw [ht.returned]
    split_ifs
    · rw [List.length_append, List.length_singleton]
    · exact Nat.le_succ _

/-- Whatever number of candidates is asked for, the search returns. It returns fewer when the
number is great enough and the classes are not limited. -/
theorem findConsistentCandidates_bestFirst {Consistent : Finset Assignment → Prop}
    (hsound : S.Sound Consistent) (limits : SearchLimits) (hmax : limits.maxCandidates = 0)
    (s : Opsat S) (hfit : S.assignables.RanksFit s.agenda.emptyElementWeight)
    (seedCandidates : List Candidate) (hseeds : ∀ c ∈ seedCandidates, c.Legal S.assignables)
    (tracker : Option ℕ) (candidatePartition : List (List Candidate)) :
    ∃ K, ∀ number fuel, K < fuel → ∃ out,
      findConsistentCandidates limits tracker number fuel (s.initializeSearch seedCandidates) []
          candidatePartition = .ok out ∧
        BestFirst limits Consistent s.agenda.emptyElementWeight
          (CbfsAgenda.initialCandidates seedCandidates) number out ∧
        (K < number → (∀ n ∈ tracker, n = 0) →
          out.consistentCandidates.length < number ∧ out.classLimitReached = false) := by
  have hseeds' : ∀ c ∈ CbfsAgenda.initialCandidates seedCandidates, c.Legal S.assignables := by
    unfold CbfsAgenda.initialCandidates
    split_ifs
    · intro c hc
      obtain rfl := List.mem_singleton.mp hc
      exact ⟨List.nodup_nil, fun a ha => absurd ha List.not_mem_nil⟩
    · exact hseeds
  have hstart := searching_start Consistent s hseeds' candidatePartition
  obtain ⟨K, hK⟩ := hstart.exists_empty hsound hfit tracker
  refine ⟨K, fun number fuel hfuel => ?_⟩
  obtain ⟨n, rfl⟩ : ∃ n, fuel = n + 1 := ⟨fuel - 1, by omega⟩
  have hempty := examine_iterate_idle tracker (Nat.le_of_lt_succ hfuel) hK
  have hfirst : FindInv limits tracker number _ _ :=
    findInv_start (s.initializeSearch seedCandidates) [] candidatePartition
  obtain ⟨out, hout, hreached, hstops⟩ :=
    findConsistentCandidates_total (stops_of_empty number hempty) hfirst
  have hinv := hreached.inv
    (fun k call => Searching Consistent s.agenda.emptyElementWeight
        (CbfsAgenda.initialCandidates seedCandidates) call ∧
      call.consistentCandidates.length ≤ k ∧
      ((∀ n ∈ tracker, n = 0) → call.classLimitReached = false))
    ⟨hstart, le_rfl, fun _ => rfl⟩
    fun k call h _ => ⟨h.1.examine hsound hfit tracker,
      (examine_length_le tracker call).trans (Nat.succ_le_succ h.2.1),
      fun hclasses => examine_classLimitReached hclasses (h.2.2 hclasses)⟩
  refine ⟨out, hout, hinv.1.bestFirst hfit hmax hstops, fun hnumber hclasses => ⟨?_, ?_⟩⟩
  · have hle := hreached.le (stops_of_empty number hK)
    exact hinv.2.1.trans_lt (hle.trans_lt hnumber)
  · exact hinv.2.2 hclasses

end FindCall

namespace SwitchSearch

open ConflictDb (switches switch₀ switch₁)

def OneOn (Δ : Finset Assignment) : Prop := ⟨switch₀, 1⟩ ∈ Δ ∨ ⟨switch₁, 1⟩ ∈ Δ

/-- Where both are off, that is the conflict. -/
def oneOn : SearchSystem Unit where
  assignables := switches
  conflict _ candidate :=
    if ⟨switch₀, 1⟩ ∈ candidate ∨ ⟨switch₁, 1⟩ ∈ candidate then (none, ())
    else (some ⟨[⟨switch₀, 0⟩, ⟨switch₁, 0⟩], 0⟩, ())
  trajectorySubsumes _ _ := false
  belongs _ _ := false

def unlimited : SearchLimits where
  cutoffWeight := 0
  maxCandidates := 0

theorem holds_off {v : VarId} {candidate : Candidate} (h : candidate.Legal switches)
    (hon : ⟨v, 1⟩ ∉ candidate) : switches.Holds candidate.toFinset ⟨v, 0⟩ := by
  by_cases hoff : ⟨v, 0⟩ ∈ candidate
  · exact Or.inl (List.mem_toFinset.mpr hoff)
  · refine Or.inr ⟨by simp [Assignables.isDefault, switches], fun b hb hvar => ?_⟩
    obtain rfl : b.var = v := hvar
    have hb := List.mem_toFinset.mp hb
    have hvalue : b = ⟨b.var, 0⟩ ∨ b = ⟨b.var, 1⟩ := by
      simpa [switches] using (h.known b hb).2
    rcases hvalue with hvalue | hvalue
    · exact hoff (hvalue ▸ hb)
    · exact hon (hvalue ▸ hb)

theorem not_holds_off {v : VarId} {Δ : Finset Assignment} (h : switches.IsSelection Δ)
    (hon : ⟨v, 1⟩ ∈ Δ) : ¬ switches.Holds Δ ⟨v, 0⟩ := by
  rintro (hoff | ⟨-, hnone⟩)
  · exact absurd (h.unique _ hoff _ hon rfl) (by simp)
  · exact hnone _ hon rfl

theorem sound_oneOn : oneOn.Sound OneOn := by
  intro _ candidate hlegal
  by_cases hon : ⟨switch₀, 1⟩ ∈ candidate ∨ ⟨switch₁, 1⟩ ∈ candidate
  · simp only [oneOn, if_pos hon]
    exact hon.imp List.mem_toFinset.mpr List.mem_toFinset.mpr
  · simp only [oneOn, if_neg hon]
    obtain ⟨hoff₀, hoff₁⟩ := not_or.mp hon
    refine ⟨fun a ha => ?_, fun Δ hΔ hOne => ?_⟩
    · rcases List.mem_cons.mp ha with rfl | ha
      · exact ⟨by decide, holds_off hlegal hoff₀⟩
      · obtain rfl := List.mem_singleton.mp ha
        exact ⟨by decide, holds_off hlegal hoff₁⟩
    · rcases hOne with hon | hon
      · exact ⟨⟨switch₀, 0⟩, by simp, not_holds_off hΔ hon⟩
      · exact ⟨⟨switch₁, 0⟩, by simp, not_holds_off hΔ hon⟩

theorem ranksFit_switches : switches.RanksFit 0 := by
  intro Δ hΔ
  have hsub : Δ ⊆ {⟨switch₀, 0⟩, ⟨switch₀, 1⟩, ⟨switch₁, 0⟩, ⟨switch₁, 1⟩} := by
    rintro ⟨v, i⟩ ha
    have hknown := hΔ.known _ ha
    simp only [Assignables.Known, switches, List.mem_cons, List.not_mem_nil, or_false,
      Assignment.mk.injEq, true_and] at hknown
    simp only [Finset.mem_insert, Finset.mem_singleton, Assignment.mk.injEq]
    tauto
  exact (Nat.add_le_add_left (rank_mono hsub) _).trans_lt (by decide)

theorem isMinimal_on {v : VarId} (hv : v ∈ switches.assignables) (hon : OneOn {⟨v, 1⟩}) :
    switches.IsMinimal OneOn [] {⟨v, 1⟩} where
  selection := by
    constructor
    · intro a ha
      obtain rfl := Finset.mem_singleton.mp ha
      exact ⟨hv, by simp [switches]⟩
    · intro a ha b hb _
      rw [Finset.mem_singleton.mp ha, Finset.mem_singleton.mp hb]
  consistent := hon
  seed_subset := Finset.empty_subset _
  not_default a ha _ := by
    obtain rfl := Finset.mem_singleton.mp ha
    simp [Assignables.isDefault, switches]
  minimal Γ hlt _ := by
    obtain rfl := Finset.ssubset_singleton_iff.mp hlt
    simp [OneOn]

/-- Both switches are turned on, one after the other. -/
theorem bestFirst_switches : ∃ fuel out,
    FindCall.findConsistentCandidates unlimited none fuel fuel
        (Opsat.initializeSearch [] ⟨(), CbfsAgenda.empty switches 0, 0, []⟩ : Opsat oneOn) [] [] =
      .ok out ∧
    FindCall.BestFirst unlimited OneOn 0 [[]] fuel out ∧
    out.Answered {⟨switch₀, 1⟩} ∧ out.Answered {⟨switch₁, 1⟩} := by
  obtain ⟨K, hK⟩ := FindCall.findConsistentCandidates_bestFirst sound_oneOn unlimited rfl
    ⟨(), CbfsAgenda.empty switches 0, 0, []⟩ ranksFit_switches []
    (fun c hc => absurd hc List.not_mem_nil) none []
  obtain ⟨out, hout, hbest, hfull⟩ := hK (K + 1) (K + 1) (Nat.lt_succ_self K)
  obtain ⟨hlen, hlimit⟩ := hfull (Nat.lt_succ_self K) (fun n hn => absurd hn (by simp))
  have hall := hbest.complete hlen hlimit [] List.mem_cons_self
  exact ⟨K + 1, out, hout, hbest,
    hall _ (isMinimal_on (by decide) (Or.inl (Finset.mem_singleton_self _))) (Or.inl rfl),
    hall _ (isMinimal_on (by decide) (Or.inr (Finset.mem_singleton_self _))) (Or.inl rfl)⟩

end SwitchSearch

end Livingstone
