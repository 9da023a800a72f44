import Livingstone.Proofs.CandidateInvariant
import Livingstone.Proofs.Database
import Livingstone.Transition.Trajectory

/-! The values of the state variable after a truncation. The loop that looks for the heaviest one
takes the last one, so that they stay in the order of the candidates. Where candidates were deleted,
values are left over, which weigh nothing and stand last. -/

namespace Livingstone

namespace StateSummary

variable {D D' : Assignables} {horizon limit i : ℕ} {candidate : Candidate}
  {candidates kept : List Candidate} {s s' : StateSummary}

theorem maxAssignment_zero {assignments : List Assignment} {n : ℕ} (h : n < assignments.length) :
    maxAssignment D 0 assignments (n + 1) = n := by
  unfold maxAssignment
  rw [List.range_succ, List.foldl_append, List.foldl_cons, List.foldl_nil]
  simp [h]

theorem sortByWeight_eq {n : ℕ} {assignments : List Assignment} (h : assignments.length = n)
    (vals : List Assignment) : sortByWeight D n assignments vals = .ok (assignments ++ vals) := by
  induction n generalizing assignments vals with
  | zero =>
    obtain rfl := List.length_eq_zero_iff.mp h
    rfl
  | succ n ih =>
    rcases List.eq_nil_or_concat assignments with rfl | ⟨as, a, rfl⟩
    · cases h
    · rw [List.concat_eq_append] at h ⊢
      have hn : as.length = n := by simpa using h
      unfold sortByWeight
      rw [if_pos h, maxAssignment_zero (by rw [h]; exact Nat.lt_succ_self n)]
      subst hn
      simp only [List.getElem?_concat_length, List.eraseIdx_append_of_length_le le_rfl, Nat.sub_self,
        List.eraseIdx_cons_zero, List.append_nil]
      rw [ih rfl, List.append_assoc, List.singleton_append]

theorem installNewState_eq (D : Assignables) (s : StateSummary) : installNewState D s = .ok s := by
  unfold installNewState
  rw [sortByWeight_eq rfl, List.append_nil]
  rfl

/-- What the candidate weighs where it is truncated. -/
def truncatedWeight (D : Assignables) (horizon : ℕ) (candidate : Candidate) : Weight :=
  ((candidate.filter fun a => a.isOld horizon).map D.weight).sum

theorem truncate_weight (stateEqSi : Assignment) (candidate : Candidate) :
    (candidate.truncate D horizon stateEqSi).2 =
      D.setWeight stateEqSi (truncatedWeight D horizon candidate) := by
  have hperm := Candidate.truncateLoop_perm horizon candidate.length candidate 0 []
  have hkept := Candidate.truncateLoop_kept horizon candidate
  unfold Candidate.truncate
  dsimp only
  generalize Candidate.truncateLoop horizon candidate.length candidate 0 [] = r at hperm hkept ⊢
  rw [List.append_nil] at hperm
  have hold : r.2.Perm (candidate.filter fun a => a.isOld horizon) := by
    have hsplit := (List.filter_append_perm (fun a => a.isOld horizon) candidate).symm
    have hboth : (r.1 ++ r.2).Perm
        (r.1 ++ candidate.filter fun a => a.isOld horizon) := by
      refine (hperm.trans hsplit).trans (List.perm_append_comm.trans ?_)
      exact hkept.symm.append_right _
    exact (List.perm_append_left_iff r.1).mp hboth
  rw [Candidate.sumAssignmentWeights_eq, (hold.map D.weight).sum_eq, truncatedWeight]

theorem setTrajectory_ok {newi oldi : ℕ} {old : List Assignment}
    (h : setTrajectory D candidate newi oldi old s = .ok s') :
    ∃ newTrajectory oldTrajectory, s.trajectories[newi]? = some newTrajectory ∧
      s.oldTrajectories[oldi]? = some oldTrajectory ∧
      s' =
        { s with
          trajectories := s.trajectories.set newi
            ((old.foldl (fun t a => t.insert (Parts.ofAssignment D candidate a))
              newTrajectory).prepend oldTrajectory) } := by
  unfold setTrajectory at h
  split at h
  · next newTrajectory oldTrajectory hnew hold =>
    exact ⟨newTrajectory, oldTrajectory, hnew, hold, (Except.ok.inj h).symm⟩
  · cases h

theorem putCandidateInTrajectory_ok
    (h : putCandidateInTrajectory D horizon i candidate s = .ok s') :
    ∃ r, candidate.foldlM (collectTruncated horizon) (0, []) = .ok r ∧
      setTrajectory D candidate i r.1 r.2 s = .ok s' := by
  obtain ⟨r, hr, hset⟩ := Loop.bind_eq_ok h
  exact ⟨r, hr, hset⟩

theorem putCandidateInTrajectory_stateValues
    (h : putCandidateInTrajectory D horizon i candidate s = .ok s') :
    s'.stateValues = s.stateValues := by
  obtain ⟨r, -, hset⟩ := putCandidateInTrajectory_ok h
  obtain ⟨_, _, -, -, rfl⟩ := setTrajectory_ok hset
  rfl

theorem summarize_cons (hlt : i < limit)
    (h : summarizeCandidates (fun _ => true) horizon limit i (candidate :: candidates) D s =
      .ok (kept, D', s')) :
    ∃ s₁ stateEqSi kept', putCandidateInTrajectory D horizon i candidate s = .ok s₁ ∧
      s.stateValues[i]? = some stateEqSi ∧
      summarizeCandidates (fun _ => true) horizon limit (i + 1) candidates
        (D.setWeight stateEqSi (truncatedWeight D horizon candidate)) s₁ = .ok (kept', D', s') ∧
      kept = (candidate.truncate D horizon stateEqSi).1 :: kept' := by
  unfold summarizeCandidates at h
  rw [if_pos hlt, if_pos rfl] at h
  obtain ⟨s₁, hput, h⟩ := Loop.bind_eq_ok h
  rw [putCandidateInTrajectory_stateValues hput] at h
  cases hval : s.stateValues[i]? with
  | none =>
    rw [hval] at h
    cases h
  | some stateEqSi =>
    rw [hval] at h
    obtain ⟨⟨kept', D₁, s₂⟩, hrest, h⟩ := Loop.bind_eq_ok h
    obtain ⟨hkept, rfl, rfl⟩ := Prod.mk.inj (Except.ok.inj h) |>.imp id Prod.mk.inj
    rw [truncate_weight] at hrest
    exact ⟨s₁, stateEqSi, kept', hput, rfl, hrest, hkept.symm⟩

theorem setWeight_of_ne {a b : Assignment} (w : Weight) (h : b ≠ a) :
    (D.setWeight a w).weight b = D.weight b :=
  Function.update_of_ne h _ _

theorem getElem?_stateValuesAt (hlt : i < limit) :
    (stateValuesAt horizon limit)[i]? = some ⟨stateVarAt horizon, i⟩ := by
  simp [stateValuesAt, hlt]

theorem summarizeCandidates_eq (consistent : Candidate → Bool) (D : Assignables)
    (s : StateSummary) : summarizeCandidates consistent horizon limit i candidates D s =
      summarizeCandidates (fun _ => true) horizon limit i
        ((candidates.filter consistent).take (limit - i)) D s := by
  induction candidates generalizing i D s with
  | nil => simp [summarizeCandidates]
  | cons candidate candidates ih =>
    by_cases hlt : i < limit
    · by_cases hc : consistent candidate = true
      · have hroom : limit - i = limit - (i + 1) + 1 := by omega
        rw [List.filter_cons_of_pos hc, hroom, List.take_succ_cons]
        simp only [summarizeCandidates, hlt, hc, if_true, ih]
      · rw [List.filter_cons_of_neg hc, ← ih]
        simp only [summarizeCandidates, hlt, hc, if_true, Bool.false_eq_true, if_false]
    · have hroom : limit - i = 0 := by omega
      rw [hroom, List.take_zero]
      simp only [summarizeCandidates, hlt, if_false]

theorem weight_createStateVar {D₁ : Assignables} {s₁ : StateSummary}
    (h : createStateVar D horizon limit s = .ok (D₁, s₁)) :
    s₁.stateValues = stateValuesAt horizon limit ∧
      (∀ k < limit, D₁.weight ⟨stateVarAt horizon, k⟩ = 0) ∧
      ∀ a, a.var ≠ stateVarAt horizon → D₁.weight a = D.weight a := by
  unfold createStateVar at h
  split_ifs at h
  obtain ⟨rfl, rfl⟩ := Prod.mk.inj (Except.ok.inj h)
  have hfold (as : List Assignment) (D : Assignables) (a : Assignment) :
      (as.foldl (fun D a => D.setWeight a 0) D).weight a = if a ∈ as then 0 else D.weight a := by
    induction as generalizing D with
    | nil => rfl
    | cons b as ih =>
      rw [List.foldl_cons, ih]
      by_cases hab : a = b
      · subst hab
        simp [Assignables.setWeight]
      · simp [List.mem_cons, hab, setWeight_of_ne]
  refine ⟨rfl, fun k hk => ?_, fun a ha => ?_⟩
  · exact (hfold _ D _).trans (if_pos (List.mem_map.mpr ⟨k, List.mem_range.mpr hk, rfl⟩))
  · rw [hfold, if_neg]
    intro hmem
    obtain ⟨k, -, rfl⟩ := List.mem_map.mp hmem
    exact ha rfl

/-- The candidates that get a value of the state variable. -/
def summarized (consistent : Candidate → Bool) (limit : ℕ) (candidates : List Candidate) :
    List Candidate := (candidates.filter consistent).take limit

open ConflictDb (switches switch₀)

end StateSummary

end Livingstone
