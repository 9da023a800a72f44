import Livingstone.Opsat.Search

/-! One call of `find_consistent_candidates` keeps its limits if and only if it comes to an
end for another reason than `max_candidates` after at most that many candidates: the limit
is tested with `>`, which lets one candidate more through. -/

namespace Livingstone

variable {τ : Type} {S : SearchSystem τ} {limits : SearchLimits} {tracker : Option ℕ} {number : ℕ}

namespace FindCall

/-- One candidate is popped, tested and, when it is consistent, rejected or appended. -/
def examine (tracker : Option ℕ) (call : FindCall S) : FindCall S :=
  match call.opsat.agenda.pop with
  | none => call
  | some (e, agenda) =>
    let (conflict, s) := call.opsat.examineElement e agenda
    let call := { call with opsat := s }
    if conflict.isNone then call.accept tracker e.generateCandidate else call

def Stops (limits : SearchLimits) (number : ℕ) (call : FindCall S) : Prop :=
  number ≤ call.consistentCandidates.length ∨ call.classLimitReached = true ∨
    call.opsat.terminateSearch limits ≠ .searchContinue

instance (call : FindCall S) : Decidable (call.Stops limits number) :=
  inferInstanceAs (Decidable (_ ∨ _ ∨ _))

/-- The call stops, and not for the number of candidates examined. -/
def Ended (limits : SearchLimits) (number : ℕ) (call : FindCall S) : Prop :=
  number ≤ call.consistentCandidates.length ∨ call.classLimitReached = true ∨
    call.opsat.agenda.top = none ∨
      ∃ top, call.opsat.agenda.top = some top ∧ limits.cutoffWeight < top.weight

/-- What one call promises of the state it leaves. -/
structure WithinLimits (limits : SearchLimits) (number : ℕ) (consistentCandidates : List Candidate)
    (out : FindCall S) : Prop where
  examined : out.opsat.examined.length ≤ limits.maxCandidates.toNat
  length : out.consistentCandidates.length ≤ max consistentCandidates.length number
  appended : ∃ appended, out.consistentCandidates = consistentCandidates ++ appended ∧
    ∀ c ∈ appended,
      out.opsat.agenda.emptyElementWeight + c.getWeight S.assignables ≤ limits.cutoffWeight
  stopped : out.consistentCandidates.length < number → out.classLimitReached = false →
    out.opsat.agenda.elements = [] ∨
      out.opsat.examined.length = limits.maxCandidates.toNat ∨
      ∀ e ∈ out.opsat.agenda.elements, limits.cutoffWeight < e.weight

theorem terminateSearch_eq_continue {s : Opsat S} (hmax : limits.maxCandidates ≠ 0)
    (hcut : limits.cutoffWeight ≠ 0) :
    s.terminateSearch limits = .searchContinue ↔
      s.candidatesConsidered ≤ limits.maxCandidates ∧
        ∃ top, s.agenda.top = some top ∧ top.weight ≤ limits.cutoffWeight := by
  unfold Opsat.terminateSearch
  cases s.agenda.top with
  | none => simp
  | some top =>
    dsimp only
    split_ifs with h h'
    · simp [UInt32.not_le.mpr h.2]
    · simp [UInt32.not_le.mpr h'.2]
    · simp only [hmax, hcut, ne_eq, not_false_eq_true, true_and, UInt32.not_lt] at h h'
      simp [h, h']

theorem stops_iff (number : ℕ) {call : FindCall S} (hmax : limits.maxCandidates ≠ 0)
    (hcut : limits.cutoffWeight ≠ 0) :
    call.Stops limits number ↔ call.Ended limits number ∨
      limits.maxCandidates < call.opsat.candidatesConsidered := by
  unfold Stops Ended
  rw [ne_eq, terminateSearch_eq_continue hmax hcut]
  cases htop : call.opsat.agenda.top with
  | none => simp
  | some top =>
    simp only [Option.some.injEq, exists_eq_left', not_and_or, UInt32.not_le, reduceCtorEq, false_or]
    tauto

theorem accept_opsat (tracker : Option ℕ) (c : Candidate) (call : FindCall S) :
    (call.accept tracker c).opsat = call.opsat := by
  unfold accept classify
  split
  · rfl
  · cases tracker with
    | none => rfl
    | some classLimit =>
      dsimp only
      split <;> rfl

theorem accept_consistentCandidates_eq (tracker : Option ℕ) (c : Candidate) (call : FindCall S) :
    (call.accept tracker c).consistentCandidates =
      if Opsat.supersetCandidate S c call.consistentCandidates then call.consistentCandidates
      else call.consistentCandidates ++ [c] := by
  unfold accept classify
  split
  · rfl
  · cases tracker with
    | none => rfl
    | some classLimit =>
      dsimp only
      split <;> rfl

theorem accept_consistentCandidates (tracker : Option ℕ) (c : Candidate) (call : FindCall S) :
    (call.accept tracker c).consistentCandidates = call.consistentCandidates ∨
      (call.accept tracker c).consistentCandidates = call.consistentCandidates ++ [c] := by
  rw [accept_consistentCandidates_eq]
  split
  · exact Or.inl rfl
  · exact Or.inr rfl

theorem examine_spec (tracker : Option ℕ) {call : FindCall S} (hrun : ¬ call.Stops limits number) :
    ∃ e agenda, call.opsat.agenda.pop = some (e, agenda) ∧
      examine tracker call =
        let (conflict, s) := call.opsat.examineElement e agenda
        if conflict.isNone then { call with opsat := s }.accept tracker e.generateCandidate
        else { call with opsat := s } := by
  simp only [Stops, not_or, not_not] at hrun
  cases hpop : call.opsat.agenda.pop with
  | none =>
    have hnil := CbfsAgenda.pop_eq_none.mp hpop
    have hcont := hrun.2.2
    simp [Opsat.terminateSearch, CbfsAgenda.top, hnil] at hcont
  | some p =>
    refine ⟨p.1, p.2, rfl, ?_⟩
    unfold examine
    rw [hpop]

theorem examine_examined {call : FindCall S} (hrun : ¬ call.Stops limits number) :
    (examine tracker call).opsat.examined.length = call.opsat.examined.length + 1 ∧
      (examine tracker call).opsat.candidatesConsidered = call.opsat.candidatesConsidered + 1 := by
  obtain ⟨e, agenda, -, heq⟩ := examine_spec tracker hrun
  rw [heq]
  dsimp only
  split
  · rw [accept_opsat]
    exact ⟨rfl, rfl⟩
  · exact ⟨rfl, rfl⟩

section
variable {first : FindCall S}

/-- The state `call` of the call that began in `first` is reached by one step for each candidate
examined. -/
def Reached (limits : SearchLimits) (tracker : Option ℕ) (number : ℕ) (first call : FindCall S) :
    Prop :=
  Loop.StepsTo (examine tracker) (Stops limits number) first call.opsat.examined.length call

/-- What a call of `next_consistent_candidate` returns. -/
def NextReturns (limits : SearchLimits) (tracker : Option ℕ) (number : ℕ) (first call : FindCall S)
    (r : Option Candidate × Opsat S) : Prop :=
  match r with
  | (none, s) =>
    Reached limits tracker number first { call with opsat := s } ∧
      s.terminateSearch limits ≠ .searchContinue
  | (some c, s) =>
    Reached limits tracker number first ({ call with opsat := s }.accept tracker c) ∧
      call.opsat.examined.length < s.examined.length

theorem Reached.examine {call : FindCall S} (h : Reached limits tracker number first call)
    (hrun : ¬ call.Stops limits number) :
    Reached limits tracker number first (examine tracker call) := by
  have hstep := Loop.StepsTo.step h hrun
  unfold Reached
  rwa [(examine_examined hrun).1]

theorem nextTurn_step {call : FindCall S} (hnumber : call.consistentCandidates.length < number)
    (hlimit : call.classLimitReached = false) {s : Opsat S}
    (h : Reached limits tracker number first { call with opsat := s })
    (hle : call.opsat.examined.length ≤ s.examined.length) :
    (∃ s', s.nextTurn limits = .ok (.inl s') ∧
        (Reached limits tracker number first { call with opsat := s' } ∧
          call.opsat.examined.length ≤ s'.examined.length) ∧
        s'.examined.length = s.examined.length + 1) ∨
      ∃ r, s.nextTurn limits = .ok (.inr r) ∧ NextReturns limits tracker number first call r := by
  unfold Opsat.nextTurn
  by_cases hcont : s.terminateSearch limits = .searchContinue
  · have hrun : ¬ { call with opsat := s }.Stops limits number := by
      simp [Stops, hnumber, hlimit, hcont]
    obtain ⟨e, agenda, hpop, hexam⟩ := examine_spec tracker hrun
    have hnext := h.examine hrun
    rw [hexam] at hnext
    dsimp only at hpop hnext
    rw [if_pos hcont, hpop]
    dsimp only
    split_ifs with hnone
    · rw [if_pos hnone] at hnext
      exact Or.inr ⟨_, rfl, hnext, Nat.lt_succ_of_le hle⟩
    · rw [if_neg hnone] at hnext
      exact Or.inl ⟨_, rfl, ⟨hnext, Nat.le_succ_of_le hle⟩, rfl⟩
  · rw [if_neg hcont]
    exact Or.inr ⟨_, rfl, h, hcont⟩

theorem nextConsistentCandidate_total {K fuel : ℕ} (hK : ((examine tracker)^[K] first).Stops limits number)
    (hfuel : K < fuel) {call : FindCall S} (hnumber : call.consistentCandidates.length < number)
    (hlimit : call.classLimitReached = false) (h : Reached limits tracker number first call) :
    ∃ r, call.opsat.nextConsistentCandidate limits fuel = .ok r ∧
      NextReturns limits tracker number first call r := by
  apply Loop.whileM_total L2Error.outOfFuel (Opsat.nextTurn limits)
    (fun s => Reached limits tracker number first { call with opsat := s } ∧
      call.opsat.examined.length ≤ s.examined.length)
    (fun s => K - s.examined.length)
  · intro s hs
    rcases nextTurn_step hnumber hlimit hs.1 hs.2 with ⟨s', heq, hs', hlen⟩ | hr
    · have hle := Loop.StepsTo.le hs'.1 hK
      exact Or.inl ⟨s', heq, hs', by dsimp only at hle; omega⟩
    · exact Or.inr hr
  · exact ⟨h, le_rfl⟩
  · omega

theorem nextConsistentCandidate_returns {fuel : ℕ} {call : FindCall S}
    (hnumber : call.consistentCandidates.length < number)
    (hlimit : call.classLimitReached = false) (h : Reached limits tracker number first call)
    {r : Option Candidate × Opsat S}
    (hr : call.opsat.nextConsistentCandidate limits fuel = .ok r) :
    NextReturns limits tracker number first call r := by
  refine Loop.whileM_inv L2Error.outOfFuel (Opsat.nextTurn limits)
    (fun s => Reached limits tracker number first { call with opsat := s } ∧
      call.opsat.examined.length ≤ s.examined.length) _ ?_ ?_ ⟨h, le_rfl⟩ hr
  · intro s s' hs heq
    rcases nextTurn_step hnumber hlimit hs.1 hs.2 with ⟨s₁, h₁, hs₁, -⟩ | ⟨r₁, h₁, -⟩
    · rw [h₁] at heq
      obtain rfl := Sum.inl.inj (Except.ok.inj heq)
      exact hs₁
    · rw [h₁] at heq
      cases heq
  · intro s r hs heq
    rcases nextTurn_step hnumber hlimit hs.1 hs.2 with ⟨s₁, h₁, -, -⟩ | ⟨r₁, h₁, hr₁⟩
    · rw [h₁] at heq
      cases heq
    · rw [h₁] at heq
      obtain rfl := Sum.inr.inj (Except.ok.inj heq)
      exact hr₁

/-- What holds before each turn of the outer loop. -/
structure FindInv (limits : SearchLimits) (tracker : Option ℕ) (number : ℕ) (first call : FindCall S) :
    Prop where
  reached : Reached limits tracker number first call
  limit : call.classLimitReached = false

theorem findInv_start (s : Opsat S) (consistentCandidates : List Candidate)
    (candidatePartition : List (List Candidate)) :
    FindInv limits tracker number (start s consistentCandidates candidatePartition)
      (start s consistentCandidates candidatePartition) :=
  ⟨Loop.StepsTo.refl _ _ _, rfl⟩

theorem findTurn_step {fuel : ℕ} {call : FindCall S} (h : FindInv limits tracker number first call)
    (hnext : call.consistentCandidates.length < number →
      ∃ r, call.opsat.nextConsistentCandidate limits fuel = .ok r ∧
        NextReturns limits tracker number first call r) :
    (∃ call', findTurn limits tracker number fuel call = .ok (.inl call') ∧
        FindInv limits tracker number first call' ∧
        call.opsat.examined.length < call'.opsat.examined.length) ∨
      ∃ out, findTurn limits tracker number fuel call = .ok (.inr out) ∧
        Reached limits tracker number first out ∧ out.Stops limits number := by
  unfold findTurn
  by_cases hnumber : call.consistentCandidates.length < number
  · obtain ⟨⟨c, s⟩, heq, hr⟩ := hnext hnumber
    rw [if_pos hnumber, heq]
    cases c with
    | none => exact Or.inr ⟨_, rfl, hr.1, Or.inr (Or.inr hr.2)⟩
    | some c =>
      have hlen : call.opsat.examined.length <
          (accept tracker c { call with opsat := s }).opsat.examined.length := by
        rw [accept_opsat]
        exact hr.2
      cases hlimit : (accept tracker c { call with opsat := s }).classLimitReached with
      | false =>
        refine Or.inl ⟨_, ?_, ⟨hr.1, hlimit⟩, hlen⟩
        simp only [bind, Except.bind, pure, Except.pure, hlimit, Bool.false_eq_true, if_false]
      | true =>
        refine Or.inr ⟨_, ?_, hr.1, Or.inr (Or.inl hlimit)⟩
        simp only [bind, Except.bind, pure, Except.pure, hlimit, if_true]
  · rw [if_neg hnumber]
    exact Or.inr ⟨call, rfl, h.reached, Or.inl (Nat.le_of_not_lt hnumber)⟩

theorem findConsistentCandidates_total {K : ℕ}
    (hK : ((examine tracker)^[K] first).Stops limits number)
    (h : FindInv limits tracker number first first) :
    ∃ out, Loop.whileM .outOfFuel (findTurn limits tracker number (K + 1)) (K + 1) first = .ok out ∧
      Reached limits tracker number first out ∧ out.Stops limits number := by
  apply Loop.whileM_total L2Error.outOfFuel (findTurn limits tracker number (K + 1))
    (FindInv limits tracker number first) (fun call => K - call.opsat.examined.length)
  · intro call hcall
    rcases findTurn_step hcall fun hnumber => nextConsistentCandidate_total hK (Nat.lt_succ_self K)
      hnumber hcall.limit hcall.reached with ⟨call', heq, hcall', hlen⟩ | hout
    · have hle := Loop.StepsTo.le hcall'.reached hK
      exact Or.inl ⟨call', heq, hcall', by omega⟩
    · exact Or.inr hout
  · exact h
  · omega

theorem findConsistentCandidates_returns {fuel n : ℕ} {out : FindCall S}
    (h : FindInv limits tracker number first first)
    (hout : Loop.whileM .outOfFuel (findTurn limits tracker number fuel) n first = .ok out) :
    Reached limits tracker number first out ∧ out.Stops limits number := by
  have hstep : ∀ call x, FindInv limits tracker number first call →
      findTurn limits tracker number fuel call = .ok x →
      (∃ call', x = .inl call' ∧ FindInv limits tracker number first call') ∨
        ∃ out, x = .inr out ∧ Reached limits tracker number first out ∧ out.Stops limits number := by
    intro call x hcall hx
    have hnext : call.consistentCandidates.length < number →
        ∃ r, call.opsat.nextConsistentCandidate limits fuel = .ok r ∧
          NextReturns limits tracker number first call r := by
      intro hnumber
      unfold findTurn at hx
      rw [if_pos hnumber] at hx
      obtain ⟨r, hr, -⟩ := Loop.bind_eq_ok hx
      exact ⟨r, hr, nextConsistentCandidate_returns hnumber hcall.limit hcall.reached hr⟩
    rcases findTurn_step hcall hnext with ⟨call', heq, hcall', -⟩ | ⟨out, heq, hout⟩
    · rw [heq] at hx
      exact Or.inl ⟨call', (Except.ok.inj hx).symm, hcall'⟩
    · rw [heq] at hx
      exact Or.inr ⟨out, (Except.ok.inj hx).symm, hout⟩
  refine Loop.whileM_inv L2Error.outOfFuel (findTurn limits tracker number fuel)
    (FindInv limits tracker number first)
    (fun out => Reached limits tracker number first out ∧ out.Stops limits number) ?_ ?_ h hout
  · intro call call' hcall heq
    rcases hstep call _ hcall heq with ⟨call'', h', hcall''⟩ | ⟨out, h', -⟩
    · exact Sum.inl.inj h' ▸ hcall''
    · cases h'
  · intro call out hcall heq
    rcases hstep call _ hcall heq with ⟨call'', h', -⟩ | ⟨out', h', hout'⟩
    · cases h'
    · exact Sum.inr.inj h' ▸ hout'

end

/-- After `k` steps from the state in which a call starts. -/
structure Kept (limits : SearchLimits) (number : ℕ) (w : Weight)
    (consistentCandidates : List Candidate) (k : ℕ) (call : FindCall S) : Prop where
  examined : call.opsat.examined.length = k
  considered : call.opsat.candidatesConsidered = UInt32.ofNat k
  emptyElementWeight : call.opsat.agenda.emptyElementWeight = w
  length : call.consistentCandidates.length ≤ max consistentCandidates.length number
  appended : ∃ appended, call.consistentCandidates = consistentCandidates ++ appended ∧
    ∀ c ∈ appended, w + c.getWeight S.assignables ≤ limits.cutoffWeight

theorem kept_start (s : Opsat S) (consistentCandidates : List Candidate)
    (candidatePartition : List (List Candidate)) :
    Kept limits number s.agenda.emptyElementWeight consistentCandidates 0
      (start s consistentCandidates candidatePartition) where
  examined := rfl
  considered := rfl
  emptyElementWeight := rfl
  length := le_max_left _ _
  appended := ⟨[], (List.append_nil _).symm, fun _ hc => absurd hc List.not_mem_nil⟩

theorem Kept.accept {w : Weight} {cs : List Candidate} {k : ℕ} {call : FindCall S}
    (h : Kept limits number w cs k call) (hnumber : call.consistentCandidates.length < number)
    {c : Candidate} (hc : w + c.getWeight S.assignables ≤ limits.cutoffWeight) :
    Kept limits number w cs k (call.accept tracker c) := by
  rcases accept_consistentCandidates tracker c call with heq | heq
  · exact ⟨by rw [accept_opsat]; exact h.examined, by rw [accept_opsat]; exact h.considered,
      by rw [accept_opsat]; exact h.emptyElementWeight, by rw [heq]; exact h.length,
      by rw [heq]; exact h.appended⟩
  · obtain ⟨appended, happ, hweights⟩ := h.appended
    refine ⟨by rw [accept_opsat]; exact h.examined, by rw [accept_opsat]; exact h.considered,
      by rw [accept_opsat]; exact h.emptyElementWeight, ?_, appended ++ [c], ?_, ?_⟩
    · rw [heq, List.length_append, List.length_singleton]
      exact le_max_of_le_right hnumber
    · rw [heq, happ, List.append_assoc]
    · intro d hd
      rcases List.mem_append.mp hd with hd | hd
      · exact hweights d hd
      · exact List.mem_singleton.mp hd ▸ hc

theorem Kept.examine {w : Weight} {cs : List Candidate} {k : ℕ} {call : FindCall S}
    (hcut : limits.cutoffWeight ≠ 0) (hmax : limits.maxCandidates ≠ 0)
    (h : Kept limits number w cs k call) (hrun : ¬ call.Stops limits number) :
    Kept limits number w cs (k + 1) (examine tracker call) := by
  obtain ⟨e, agenda, hpop, heq⟩ := examine_spec tracker hrun
  simp only [Stops, not_or, not_not, Nat.not_le] at hrun
  obtain ⟨top, htop, hle⟩ := ((terminateSearch_eq_continue hmax hcut).mp hrun.2.2).2
  obtain ⟨htop', hweight⟩ := CbfsAgenda.pop_top hpop
  obtain rfl := Option.some.inj (htop.symm.trans htop')
  have hmid : Kept limits number w cs (k + 1)
      { call with opsat := (call.opsat.examineElement top agenda).2 } := by
    refine ⟨congrArg (· + 1) h.examined, ?_, ?_, h.length, h.appended⟩
    · simp only [Opsat.examineElement, h.considered, UInt32.ofNat_add]
      rfl
    · simp only [Opsat.examineElement, CbfsAgenda.expandElement_emptyElementWeight]
      rw [hweight, h.emptyElementWeight]
  rw [heq]
  dsimp only
  split
  · apply hmid.accept hrun.1
    -- the weight kept with the popped element is that of its candidate
    rw [← h.emptyElementWeight, ← CbfsElement.computeElementWeight_eq,
      ← call.opsat.agenda.weighed top (List.mem_of_getElem? htop)]
    exact hle
  · exact hmid

/-- A call with non-zero limits keeps to them if and only if, examining at most
`max_candidates` candidates one after another, it comes to enough candidates, to the class
limit, to an empty agenda or to a top element heavier than the cutoff. -/
theorem findConsistentCandidates_withinLimits_iff (hmax : limits.maxCandidates ≠ 0)
    (hcut : limits.cutoffWeight ≠ 0) (s : Opsat S) (consistentCandidates : List Candidate)
    (candidatePartition : List (List Candidate)) :
    (∃ fuel out, findConsistentCandidates limits tracker number fuel s consistentCandidates
        candidatePartition = .ok out ∧ WithinLimits limits number consistentCandidates out) ↔
      ∃ k ≤ limits.maxCandidates.toNat,
        Ended limits number
          ((examine tracker)^[k] (start s consistentCandidates candidatePartition)) := by
  have hinv : FindInv limits tracker number _ _ :=
    findInv_start s consistentCandidates candidatePartition
  have hkept := fun k call (hreached : Loop.StepsTo (examine tracker) _ _ k call) => hreached.inv
    (Kept limits number s.agenda.emptyElementWeight consistentCandidates)
    (kept_start s consistentCandidates candidatePartition)
    fun k call h hrun => h.examine hcut hmax hrun
  have hconsidered : ∀ k ≤ limits.maxCandidates.toNat,
      ¬ limits.maxCandidates < UInt32.ofNat k := by
    intro k hk
    rw [UInt32.not_lt, UInt32.le_iff_toNat_le,
      UInt32.toNat_ofNat_of_lt' (lt_of_le_of_lt hk limits.maxCandidates.toNat_lt)]
    exact hk
  constructor
  · rintro ⟨fuel, out, hout, hwithin⟩
    obtain ⟨hreached, hstops⟩ := findConsistentCandidates_returns hinv hout
    refine ⟨_, hwithin.examined, hreached.eq ▸ ?_⟩
    refine ((stops_iff number hmax hcut).mp hstops).resolve_right ?_
    rw [(hkept _ _ hreached).considered]
    exact hconsidered _ hwithin.examined
  · rintro ⟨k, hk, hended⟩
    obtain ⟨m, first, hfirst, hstops⟩ := Loop.StepsTo.exists_first (f := examine tracker)
      ⟨k, (stops_iff number hmax hcut).mpr (Or.inl hended)⟩
    obtain ⟨out, hout, hreached, hstops'⟩ :=
      findConsistentCandidates_total (hfirst.eq ▸ hstops) hinv
    have hle := hreached.le ((stops_iff number hmax hcut).mpr (Or.inl hended))
    have hout_kept := hkept _ _ hreached
    refine ⟨m + 1, out, hout, hle.trans hk, hout_kept.length, ?_, ?_⟩
    · rw [hout_kept.emptyElementWeight]
      exact hout_kept.appended
    · intro hnumber hlimit
      have hended' := ((stops_iff number hmax hcut).mp hstops').resolve_right
        (by rw [hout_kept.considered]; exact hconsidered _ (hle.trans hk))
      rcases hended' with h | h | h | ⟨top, htop, h⟩
      · omega
      · rw [hlimit] at h
        cases h
      · exact Or.inl (List.head?_eq_none_iff.mp (List.head?_eq_getElem? ▸ h))
      · exact Or.inr (Or.inr fun e he =>
          UInt32.lt_of_lt_of_le h (CbfsAgenda.top_le htop e he))

end FindCall

-- a switch `v` that is off or on at the cost of 3, and a search from two seeds
namespace SwitchSearch

theorem var_of_mem (v : VarId) : ∀ a ∈ ([⟨v, 0⟩, ⟨v, 1⟩] : List Assignment), a.var = v := by
  intro a ha
  rcases List.mem_cons.mp ha with rfl | ha
  · rfl
  · rw [List.mem_singleton.mp ha]

theorem off_mem (v : VarId) : true = true → (⟨v, 0⟩ : Assignment) ∈ [⟨v, 0⟩, ⟨v, 1⟩] :=
  fun _ => List.mem_cons_self

def switch : Assignables where
  assignables := [⟨1, 0⟩]
  assignments v := [⟨v, 0⟩, ⟨v, 1⟩]
  weight a := if a.index = 0 then 0 else 3
  isAssumption _ := true
  defaultAssignment v := ⟨v, 0⟩
  assignmentOf _ := ⟨⟨1, 0⟩, 0⟩
  var_eq := var_of_mem
  default_mem := off_mem

def consistent : SearchSystem Unit where
  assignables := switch
  conflict _ _ := (none, ())
  trajectorySubsumes _ _ := false
  belongs _ _ := false

/-- The agenda holds the candidate that turns the switch on at step 0 and the one that turns
it on at step 1. -/
def seeded : Opsat consistent where
  system := ()
  agenda := CbfsAgenda.initializeAgenda switch 0 [[⟨⟨1, 0⟩, 1⟩], [⟨⟨1, 1⟩, 1⟩]]
  candidatesConsidered := 0
  examined := []

def oneCandidate : SearchLimits where
  cutoffWeight := 10
  maxCandidates := 1

theorem withinLimits_of_one_sought :
    (1 : UInt32) ≠ 0 ∧ (10 : UInt32) ≠ 0 ∧
      ∃ fuel out, FindCall.findConsistentCandidates oneCandidate none 1 fuel seeded [] [] = .ok out ∧
        FindCall.WithinLimits oneCandidate 1 [] out :=
  ⟨by decide, by decide,
    (FindCall.findConsistentCandidates_withinLimits_iff (by decide) (by decide) seeded [] []).mpr
      ⟨1, by decide, Or.inl (by decide)⟩⟩

/-- Two are examined where one is allowed. -/
theorem two_examined :
    ¬ ∀ (limits : SearchLimits) (number : ℕ) (s : Opsat consistent) (cs : List Candidate),
      limits.maxCandidates ≠ 0 → limits.cutoffWeight ≠ 0 →
        ∃ fuel out, FindCall.findConsistentCandidates limits none number fuel s cs [] = .ok out ∧
          FindCall.WithinLimits limits number cs out := by
  intro h
  obtain ⟨fuel, out, hout, hwithin⟩ := h oneCandidate 2 seeded [] (by decide) (by decide)
  obtain ⟨hreached, hstops⟩ :=
    FindCall.findConsistentCandidates_returns (FindCall.findInv_start seeded [] []) hout
  have hle : out.opsat.examined.length ≤ 1 := hwithin.examined
  rw [hreached.eq] at hstops
  interval_cases out.opsat.examined.length
  · revert hstops
    decide
  · revert hstops
    decide

end SwitchSearch

end Livingstone
