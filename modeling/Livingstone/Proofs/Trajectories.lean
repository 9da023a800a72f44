import Livingstone.Proofs.StateValues

/-! The trajectories over any number of truncations. The parts of the old trajectory are put before
the new ones one by one, each before the last, and so they come in the reverse order. -/

namespace Livingstone

namespace StateSummary

variable {D D' : Assignables} {horizon limit i : ℕ} {candidate : Candidate}
  {candidates kept : List Candidate} {s s' : StateSummary}

/-- What a truncation takes from the candidate for its trajectory. -/
def isTruncated (horizon : ℕ) (a : Assignment) : Bool := a.isOld horizon && !a.isStateVariable

/-- The value of the state variable that the candidate has, or else the first one. -/
def previousValue (horizon : ℕ) (candidate : Candidate) : ℕ :=
  ((candidate.filter fun a => a.isOld horizon && a.isStateVariable).getLast?.map (·.index)).getD 0

def partsOf (D : Assignables) (a : Assignment) : Parts :=
  ⟨a.var.timeStep, D.weight a, a.var.id, a.index⟩

def truncatedParts (D : Assignables) (horizon : ℕ) (candidate : Candidate) : List Parts :=
  (candidate.filter (isTruncated horizon)).map (partsOf D)

theorem collectTruncated_spec {p : ℕ} {e : List Assignment} {r : ℕ × List Assignment}
    (h : candidate.foldlM (collectTruncated horizon) (p, e) = .ok r) :
    r.1 = ((candidate.filter fun a => a.isOld horizon && a.isStateVariable).getLast?.map
        (·.index)).getD p ∧
      r.2 = (candidate.filter (isTruncated horizon)).reverse ++ e := by
  induction candidate generalizing p e with
  | nil =>
    obtain rfl := Except.ok.inj h
    exact ⟨rfl, rfl⟩
  | cons a candidate ih =>
    rw [List.foldlM_cons] at h
    obtain ⟨q, hq, hrest⟩ := Loop.bind_eq_ok h
    unfold collectTruncated at hq
    split_ifs at hq with hold hstate hp
    · obtain rfl := Except.ok.inj hq
      obtain ⟨h₁, h₂⟩ := ih hrest
      simp only [List.filter_cons, isTruncated, hold, hstate, Bool.and_self, if_true, Bool.not_true,
        Bool.and_false, Bool.false_eq_true, if_false, List.getLast?_cons, Option.map_some,
        Option.getD_some]
      refine ⟨?_, h₂⟩
      rw [h₁]
      cases (candidate.filter fun a => a.isOld horizon && a.isStateVariable).getLast? with
      | none => rfl
      | some b => rfl
    · obtain rfl := Except.ok.inj hq
      obtain ⟨h₁, h₂⟩ := ih hrest
      simp only [List.filter_cons, isTruncated, hold, hstate, Bool.and_false, Bool.not_false,
        Bool.and_self, if_true, Bool.false_eq_true, if_false, List.reverse_cons, List.append_assoc,
        List.singleton_append]
      exact ⟨h₁, h₂⟩
    · obtain rfl := Except.ok.inj hq
      obtain ⟨h₁, h₂⟩ := ih hrest
      simp only [List.filter_cons, isTruncated, hold, Bool.false_and, Bool.false_eq_true, if_false]
      exact ⟨h₁, h₂⟩

theorem prepend_eq (t old : Trajectory) : t.prepend old = old.reverse ++ t := by
  unfold Trajectory.prepend
  induction old generalizing t with
  | nil => rfl
  | cons p old ih =>
    rw [List.foldl_cons, ih, Trajectory.insert, List.reverse_cons, List.append_assoc,
      List.singleton_append]

/-- A candidate with one value for each variable has that value while it is installed. -/
theorem valueIndex_eq (h : candidate.WellFormed) {a : Assignment} (ha : a ∈ candidate) :
    candidate.valueIndex D a.var = a.index := by
  unfold Candidate.valueIndex
  cases hf : candidate.reverse.find? fun b => decide (b.var = a.var) with
  | none => simpa using List.find?_eq_none.mp hf a (List.mem_reverse.mpr ha)
  | some b =>
    have hb := List.mem_reverse.mp (List.mem_of_find?_eq_some hf)
    have hvar : b.var = a.var := by simpa using List.find?_some hf
    rw [h.eq_of_var hb ha hvar]

theorem putCandidateInTrajectory_spec (hwf : candidate.WellFormed)
    (h : putCandidateInTrajectory D horizon i candidate s = .ok s') :
    ∃ newTrajectory oldTrajectory, s.trajectories[i]? = some newTrajectory ∧
      s.oldTrajectories[previousValue horizon candidate]? = some oldTrajectory ∧
      s' =
        { s with
          trajectories := s.trajectories.set i
            (oldTrajectory.reverse ++ truncatedParts D horizon candidate ++ newTrajectory) } := by
  obtain ⟨r, hr, hset⟩ := putCandidateInTrajectory_ok h
  obtain ⟨hprevious, hexisting⟩ := collectTruncated_spec hr
  obtain ⟨newTrajectory, oldTrajectory, hnew, hold, rfl⟩ := setTrajectory_ok hset
  rw [hprevious] at hold
  refine ⟨newTrajectory, oldTrajectory, hnew, hold, ?_⟩
  have hparts : r.2.foldl (fun t a => Trajectory.insert t (Parts.ofAssignment D candidate a))
      newTrajectory = truncatedParts D horizon candidate ++ newTrajectory := by
    have hmap := prepend_eq newTrajectory (r.2.map (Parts.ofAssignment D candidate))
    rw [Trajectory.prepend, List.foldl_map] at hmap
    rw [hmap, hexisting, List.append_nil, ← List.map_reverse, List.reverse_reverse]
    congr 1
    apply List.map_congr_left
    intro a ha
    simp only [Parts.ofAssignment, partsOf, valueIndex_eq hwf (List.mem_of_mem_filter ha)]
  rw [hparts, prepend_eq, List.append_assoc]

/-- The trajectory of the value that stands for the candidate. -/
def newTrajectory (D : Assignables) (horizon : ℕ) (old : List Trajectory) (candidate : Candidate) :
    Trajectory :=
  (old.getD (previousValue horizon candidate) []).reverse ++ truncatedParts D horizon candidate

/-- Only values of the state variable weigh something else. -/
def SameWeights (D D' : Assignables) : Prop :=
  ∀ a : Assignment, a.isStateVariable = false → D'.weight a = D.weight a

theorem SameWeights.setWeight (h : SameWeights D D') {a : Assignment}
    (ha : a.isStateVariable = true) (w : Weight) : SameWeights D (D'.setWeight a w) := by
  intro b hb
  rw [setWeight_of_ne w (fun he => ?_), h b hb]
  rw [he, ha] at hb
  cases hb

theorem SameWeights.truncatedParts (h : SameWeights D D') :
    truncatedParts D' horizon candidate = truncatedParts D horizon candidate := by
  unfold StateSummary.truncatedParts
  apply List.map_congr_left
  intro a ha
  have hstate : a.isStateVariable = false := by
    have ht := (List.mem_filter.mp ha).2
    simp only [isTruncated, Bool.and_eq_true, Bool.not_eq_true'] at ht
    exact ht.2
  rw [partsOf, partsOf, h a hstate]

theorem isStateVariable_of_mem {a : Assignment} (h : a ∈ stateValuesAt horizon limit) :
    a.isStateVariable = true := by
  obtain ⟨i, -, rfl⟩ := List.mem_map.mp h
  rfl

theorem summarize_trajectories {done : List Trajectory} (hi : done.length = i)
    (hroom : i + candidates.length ≤ limit) (hwf : ∀ c ∈ candidates, c.WellFormed)
    (hvals : s.stateValues = stateValuesAt horizon limit)
    (htraj : s.trajectories = done ++ List.replicate (limit - i) [])
    (h : summarizeCandidates (fun _ => true) horizon limit i candidates D s = .ok (kept, D', s')) :
    s'.trajectories = done ++ candidates.map (newTrajectory D horizon s.oldTrajectories) ++
      List.replicate (limit - (i + candidates.length)) [] := by
  induction candidates generalizing i D s kept done with
  | nil =>
    obtain ⟨-, -, rfl⟩ := Prod.mk.inj (Except.ok.inj h) |>.imp id Prod.mk.inj
    simpa using htraj
  | cons candidate candidates ih =>
    rw [List.length_cons] at hroom
    rw [List.forall_mem_cons] at hwf
    obtain ⟨s₁, stateEqSi, kept', hput, hval, hrest, -⟩ := summarize_cons (by omega) h
    rw [hvals] at hval
    have hstate := isStateVariable_of_mem (List.mem_of_getElem? hval)
    have hsame : SameWeights D
        (D.setWeight stateEqSi (truncatedWeight D horizon candidate)) :=
      SameWeights.setWeight (fun _ _ => rfl) hstate _
    obtain ⟨newT, oldT, hnew, hold, hs₁⟩ := putCandidateInTrajectory_spec hwf.1 hput
    have hspace : limit - i = limit - (i + 1) + 1 := by omega
    rw [htraj, List.getElem?_append_right (by omega), hi, Nat.sub_self, hspace,
      List.replicate_succ, List.getElem?_cons_zero] at hnew
    obtain rfl := Option.some.inj hnew
    have hthis : oldT.reverse ++ truncatedParts D horizon candidate ++ [] =
        newTrajectory D horizon s.oldTrajectories candidate := by
      rw [newTrajectory, List.getD_eq_getElem?_getD, hold, Option.getD_some, List.append_nil]
    have hold₁ : s₁.oldTrajectories = s.oldTrajectories := by rw [hs₁]
    have hvals₁ : s₁.stateValues = stateValuesAt horizon limit := by
      rw [hs₁]
      exact hvals
    have htraj₁ : s₁.trajectories =
        (done ++ [newTrajectory D horizon s.oldTrajectories candidate]) ++
          List.replicate (limit - (i + 1)) [] := by
      rw [hs₁, hthis, htraj, hspace, List.replicate_succ, List.set_append_right _ _ (by omega), hi,
        Nat.sub_self, List.set_cons_zero, List.append_assoc, List.singleton_append]
    have hdone : (done ++ [newTrajectory D horizon s.oldTrajectories candidate]).length = i + 1 := by
      rw [List.length_append, hi, List.length_singleton]
    have hall := ih hdone (by omega) hwf.2 hvals₁ htraj₁ hrest
    rw [hold₁] at hall
    have hmap : candidates.map (newTrajectory
          (D.setWeight stateEqSi (truncatedWeight D horizon candidate)) horizon s.oldTrajectories) =
        candidates.map (newTrajectory D horizon s.oldTrajectories) := by
      apply List.map_congr_left
      intro c _
      rw [newTrajectory, newTrajectory, hsame.truncatedParts]
    rw [hall, hmap, List.length_cons, List.map_cons, List.append_assoc done,
      List.singleton_append]
    congr 3
    omega

end StateSummary

/-- One truncation: the candidates at that time, and which of them are consistent. -/
structure Truncation where
  consistent : Candidate → Bool
  maxTruncatedCandidates : ℕ
  assignables : Assignables
  horizon : ℕ
  candidates : List Candidate

namespace Truncation

open StateSummary

def apply (t : Truncation) (s : StateSummary) :
    Except L2Error (List Candidate × Assignables × StateSummary) :=
  StateSummary.truncate t.consistent t.maxTruncatedCandidates t.assignables t.horizon t.candidates s

/-- How many values the new state variable has. -/
def limit (t : Truncation) (s : StateSummary) : ℕ :=
  if t.candidates.isEmpty then s.stateValues.length
  else truncationLimit t.maxTruncatedCandidates t.candidates.length

def summarized (t : Truncation) (s : StateSummary) : List Candidate :=
  (t.candidates.filter t.consistent).take (t.limit s)

/-- The parts truncated so far from what each value stands for: what has been truncated from the old
value that the candidate has, and what is truncated now. -/
def record (t : Truncation) (s : StateSummary) (history : List (List Parts)) : List (List Parts) :=
  if t.horizon ≤ s.oldestTimestep then history
  else (t.summarized s).map
      (fun c => history.getD (previousValue t.horizon c) [] ++
        truncatedParts t.assignables t.horizon c) ++
    List.replicate (t.limit s - (t.summarized s).length) []

/-- The candidates give each variable one value. -/
def Valid (t : Truncation) : Prop := ∀ c ∈ t.candidates, c.WellFormed
  deriving Decidable

/-- The old parts are all of one time step, the new ones come in the order of their time steps, and
none of them is before an old one. -/
def Follow (old parts : List Parts) : Prop :=
  (∀ p ∈ old, ∀ q ∈ old, p.time = q.time) ∧ (parts.Pairwise fun p q => p.time ≤ q.time) ∧
    ∀ p ∈ old, ∀ q ∈ parts, p.time ≤ q.time
  deriving Decidable

/-- That is so of the assignments to be truncated of each candidate and of the trajectory of the
value that it has. -/
def KeepsOrder (t : Truncation) (s : StateSummary) : Prop :=
  t.horizon ≤ s.oldestTimestep ∨ ∀ c ∈ t.summarized s,
    Follow (s.trajectories.getD (previousValue t.horizon c) [])
      (truncatedParts t.assignables t.horizon c)
  deriving Decidable

variable {t : Truncation} {s s' : StateSummary} {kept : List Candidate} {D' : Assignables}
  {history : List (List Parts)} {n : ℕ}

theorem apply_ok (hlt : s.oldestTimestep < t.horizon) (h : t.apply s = .ok (kept, D', s')) :
    ∃ D₁ s₁ s₂, createStateVar t.assignables t.horizon (t.limit s) s = .ok (D₁, s₁) ∧
      summarizeCandidates t.consistent t.horizon (t.limit s) 0 t.candidates D₁ s₁ =
        .ok (kept, D', s₂) ∧
      s' = { s₂ with oldestTimestep := t.horizon } := by
  unfold apply StateSummary.truncate at h
  rw [if_neg (not_le.mpr hlt)] at h
  obtain ⟨⟨D₁, s₁⟩, hcreate, h⟩ := Loop.bind_eq_ok h
  obtain ⟨⟨kept', D₂, s₂⟩, hloop, h⟩ := Loop.bind_eq_ok h
  obtain ⟨s₃, hinstall, h⟩ := Loop.bind_eq_ok h
  rw [installNewState_eq] at hinstall
  obtain rfl := Except.ok.inj hinstall
  obtain ⟨rfl, hpair⟩ := Prod.mk.inj (Except.ok.inj h)
  obtain ⟨rfl, rfl⟩ := Prod.mk.inj hpair
  exact ⟨D₁, s₁, s₂, hcreate, hloop, rfl⟩

theorem createStateVar_ok {D D₁ : Assignables} {horizon nstates : ℕ}
    (h : createStateVar D horizon nstates s = .ok (D₁, s')) :
    SameWeights D D₁ ∧
      s' = startNewTrajectoriesMap nstates
        { s with stateValues := stateValuesAt horizon nstates } := by
  unfold createStateVar at h
  split_ifs at h
  obtain ⟨rfl, rfl⟩ := Prod.mk.inj (Except.ok.inj h)
  refine ⟨?_, rfl⟩
  have hfold (as : List Assignment) (has : ∀ a ∈ as, a.isStateVariable = true) (D' : Assignables)
      (hD : SameWeights D D') : SameWeights D (as.foldl (fun D a => D.setWeight a 0) D') := by
    induction as generalizing D' with
    | nil => exact hD
    | cons a as ih =>
      rw [List.forall_mem_cons] at has
      exact ih has.2 _ (hD.setWeight has.1 0)
  exact hfold _ (fun a ha => isStateVariable_of_mem ha) _ fun _ _ => rfl

theorem apply_trajectories (hv : t.Valid) (hlt : s.oldestTimestep < t.horizon)
    (h : t.apply s = .ok (kept, D', s')) :
    s'.trajectories =
      (t.summarized s).map (newTrajectory t.assignables t.horizon s.trajectories) ++
        List.replicate (t.limit s - (t.summarized s).length) [] := by
  obtain ⟨D₁, s₁, s₂, hcreate, hloop, rfl⟩ := apply_ok hlt h
  obtain ⟨hsame, rfl⟩ := createStateVar_ok hcreate
  rw [summarizeCandidates_eq, Nat.sub_zero] at hloop
  have hroom : 0 + (t.summarized s).length ≤ t.limit s := by
    rw [Nat.zero_add]
    exact List.length_take_le _ _
  have hwf : ∀ c ∈ t.summarized s, c.WellFormed := fun c hc =>
    hv c (List.mem_of_mem_filter (List.mem_of_mem_take hc))
  have hall := summarize_trajectories List.length_nil hroom hwf rfl rfl hloop
  rw [Nat.zero_add, List.nil_append] at hall
  refine hall.trans ?_
  congr 1
  apply List.map_congr_left
  intro c _
  rw [newTrajectory, newTrajectory, hsame.truncatedParts]
  rfl

/-- The trajectory has the parts that were truncated, each once, in the order of their time steps. -/
def IsHistory (trajectory : Trajectory) (truncated : List Parts) : Prop :=
  trajectory.Perm truncated ∧ trajectory.Pairwise fun p q => p.time ≤ q.time
  deriving Decidable

/-- That is so for every value of the state variable. -/
def Recorded (s : StateSummary) (history : List (List Parts)) : Prop :=
  List.Forall₂ IsHistory s.trajectories history

theorem Recorded.getD (h : Recorded s history) (i : ℕ) :
    IsHistory (s.trajectories.getD i []) (history.getD i []) := by
  unfold Recorded at h
  generalize s.trajectories = trajectories at h ⊢
  induction h generalizing i with
  | nil => exact ⟨List.Perm.refl _, List.Pairwise.nil⟩
  | cons hp _ ih =>
    cases i with
    | zero => exact hp
    | succ i => exact ih i

/-- A trajectory that is in order stays so when it is turned round only if it has no order. -/
theorem pairwise_newTrajectory {old parts : List Parts}
    (hold : old.Pairwise fun p q => p.time ≤ q.time) :
    (old.reverse ++ parts).Pairwise (fun p q => p.time ≤ q.time) ↔ Follow old parts := by
  have hreverse : (old.reverse.Pairwise fun p q => p.time ≤ q.time) ↔
      ∀ p ∈ old, ∀ q ∈ old, p.time = q.time := by
    rw [List.pairwise_reverse]
    constructor
    · intro hle
      have heq : old.Pairwise fun p q => p.time = q.time :=
        (hold.and hle).imp fun h => le_antisymm h.1 h.2
      have hsymm : Std.Symm fun p q : Parts => p.time = q.time := ⟨fun _ _ h => h.symm⟩
      intro p hp q hq
      exact List.Pairwise.forall_of_forall (R := fun p q : Parts => p.time = q.time)
        (fun _ _ => rfl) heq hp hq
    · intro heq
      rw [List.pairwise_iff_forall_sublist]
      intro p q hpq
      exact (heq q (hpq.subset (by simp)) p (hpq.subset (by simp))).le
  rw [List.pairwise_append, hreverse]
  simp only [List.mem_reverse, Follow]

theorem forall₂_map_append {α β γ : Type*} {R : β → γ → Prop} {f : α → β} {g : α → γ} {l : List α}
    {bs : List β} {cs : List γ} :
    List.Forall₂ R (l.map f ++ bs) (l.map g ++ cs) ↔
      (∀ a ∈ l, R (f a) (g a)) ∧ List.Forall₂ R bs cs := by
  induction l with
  | nil => simp
  | cons a l ih =>
    rw [List.map_cons, List.map_cons, List.cons_append, List.cons_append, List.forall₂_cons, ih,
      List.forall_mem_cons, and_assoc]

theorem recorded_apply_iff (hr : Recorded s history) (hv : t.Valid)
    (h : t.apply s = .ok (kept, D', s')) :
    Recorded s' (t.record s history) ↔ t.KeepsOrder s := by
  by_cases hle : t.horizon ≤ s.oldestTimestep
  · unfold apply StateSummary.truncate at h
    rw [if_pos hle] at h
    obtain ⟨-, hpair⟩ := Prod.mk.inj (Except.ok.inj h)
    obtain ⟨-, rfl⟩ := Prod.mk.inj hpair
    rw [record, if_pos hle]
    exact ⟨fun _ => Or.inl hle, fun _ => hr⟩
  · have hempty (k : ℕ) : List.Forall₂ IsHistory (List.replicate k []) (List.replicate k []) := by
      rw [List.forall₂_same]
      intro x hx
      rw [List.eq_of_mem_replicate hx]
      exact ⟨List.Perm.refl _, List.Pairwise.nil⟩
    have hone (c : Candidate) :
        IsHistory (newTrajectory t.assignables t.horizon s.trajectories c)
            (history.getD (previousValue t.horizon c) [] ++
              truncatedParts t.assignables t.horizon c) ↔
          Follow (s.trajectories.getD (previousValue t.horizon c) [])
            (truncatedParts t.assignables t.horizon c) := by
      obtain ⟨hperm, hsorted⟩ := hr.getD (previousValue t.horizon c)
      rw [← pairwise_newTrajectory hsorted]
      constructor
      · intro hh
        exact hh.2
      · intro hp
        exact ⟨((List.reverse_perm _).trans hperm).append_right _, hp⟩
    rw [Recorded, apply_trajectories hv (not_le.mp hle) h, record, if_neg hle, forall₂_map_append,
      KeepsOrder]
    simp only [hle, false_or, hone, hempty, and_true]

/-- The truncations of a run, each with the state before it and the parts truncated so far. -/
inductive Run (n : ℕ) : List (StateSummary × List (List Parts) × Truncation) → StateSummary →
    List (List Parts) → Prop
  | start {D D' : Assignables} {s : StateSummary}
    (h : createStateVar D 0 n ⟨0, [], [], []⟩ = .ok (D', s)) : Run n [] s (List.replicate n [])
  | truncate {steps : List (StateSummary × List (List Parts) × Truncation)} {s s' : StateSummary}
    {history : List (List Parts)} {t : Truncation} {kept : List Candidate} {D' : Assignables}
    (h : Run n steps s history) (hv : t.Valid) (hs : t.apply s = .ok (kept, D', s')) :
    Run n (steps ++ [(s, history, t)]) s' (t.record s history)

/-- In every state of a run the trajectories have what was truncated, each once and in the order of
the time steps, if and only if every truncation keeps the order. -/
theorem recorded_iff {steps : List (StateSummary × List (List Parts) × Truncation)}
    (h : Run n steps s history) :
    ((∀ x ∈ steps, Recorded x.1 x.2.1) ∧ Recorded s history) ↔
      ∀ x ∈ steps, x.2.2.KeepsOrder x.1 := by
  induction h with
  | start h =>
    obtain ⟨-, rfl⟩ := createStateVar_ok h
    simp only [List.not_mem_nil, false_implies, implies_true, true_and, iff_true]
    rw [Recorded, startNewTrajectoriesMap, List.forall₂_same]
    intro x hx
    rw [List.eq_of_mem_replicate hx]
    exact ⟨List.Perm.refl _, List.Pairwise.nil⟩
  | truncate _ hv hs ih =>
    rw [List.forall_mem_append, List.forall_mem_append, List.forall_mem_singleton,
      List.forall_mem_singleton, ih]
    constructor
    · intro h
      exact ⟨h.1, (recorded_apply_iff (ih.mpr h.1).2 hv hs).mp h.2⟩
    · intro h
      exact ⟨h.1, (recorded_apply_iff (ih.mpr h.1).2 hv hs).mpr h.2⟩

open ConflictDb (switches switch₀ switch₁)

/-- The truncation of one candidate of the switches. -/
def ofSwitches (horizon : ℕ) (candidate : Candidate) : Truncation where
  consistent _ := true
  maxTruncatedCandidates := 0
  assignables := switches
  horizon := horizon
  candidates := [candidate]

/-- The two switches are truncated one after the other. -/
theorem recorded_iff_switches : ∃ steps s history, Run 1 steps s history ∧
    s.trajectories = [[⟨0, 1, 0, 1⟩, ⟨1, 1, 0, 1⟩]] ∧ Recorded s history := by
  have h₀ : Run 1 [] _ [[]] := Run.start (D := switches) rfl
  have hv₁ : (ofSwitches 1 [⟨switch₀, 1⟩]).Valid := by decide
  have h₁ : Run 1 _ _ _ := h₀.truncate hv₁ rfl
  have hv₂ : (ofSwitches 2 [⟨stateVarAt 1, 0⟩, ⟨switch₁, 1⟩]).Valid := by decide
  have h₂ : Run 1 _ _ _ := h₁.truncate hv₂ rfl
  exact ⟨_, _, _, h₂, by decide, ((recorded_iff h₂).mpr (by decide)).2⟩

/-- They are truncated at once, and then something else: the trajectory is turned round. -/
theorem not_recorded : ∃ steps s history, Run 1 steps s history ∧
    s.trajectories = [[⟨1, 1, 0, 1⟩, ⟨0, 1, 0, 1⟩, ⟨2, 1, 0, 1⟩]] ∧ ¬ Recorded s history := by
  have h₀ : Run 1 [] _ [[]] := Run.start (D := switches) rfl
  have hv₁ : (ofSwitches 2 [⟨switch₀, 1⟩, ⟨switch₁, 1⟩]).Valid := by decide
  have h₁ : Run 1 _ _ _ := h₀.truncate hv₁ rfl
  have hv₂ : (ofSwitches 3 [⟨stateVarAt 2, 0⟩, ⟨⟨0, 2⟩, 1⟩]).Valid := by decide
  have h₂ : Run 1 _ _ _ := h₁.truncate hv₂ rfl
  refine ⟨_, _, _, h₂, by decide, ?_⟩
  intro h
  exact absurd (h.getD 0).2 (by decide)

end Truncation

end Livingstone
