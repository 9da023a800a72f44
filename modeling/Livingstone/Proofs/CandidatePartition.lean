import Livingstone.Lib.FirstFit
import Livingstone.Lib.Loop
import Livingstone.Transition.CandidateEqClass

/-! The equivalence of candidates and the classes that the tracker makes of it. The variables and
values of one candidate are looked up in the other, but not the other way round. -/

namespace Livingstone

namespace Triple

def pair (triple : Triple) : ℕ × ℕ := (triple.variableID, triple.valueIndex)

end Triple

namespace CandidateEqClass

variable {ct1 ct2 ct3 : List Triple}

theorem isEquivalent_iff : isEquivalent ct1 ct2 = true ↔
    ct1.length = ct2.length ∧ ∀ pair ∈ ct1.map Triple.pair, pair ∈ ct2.map Triple.pair := by
  have hone (triple1 triple2 : Triple) : (triple1.variableID = triple2.variableID ∧
      triple1.valueIndex = triple2.valueIndex) ↔ triple2.pair = triple1.pair := by
    rw [Triple.pair, Triple.pair, Prod.mk.injEq, eq_comm, and_congr_right_iff]
    exact fun _ => eq_comm
  rw [List.forall_mem_map]
  simp only [isEquivalent, Bool.and_eq_true, decide_eq_true_eq, List.all_eq_true, List.any_eq_true,
    hone, List.mem_map]

theorem isEquivalent_refl (ct : List Triple) : isEquivalent ct ct = true :=
  isEquivalent_iff.mpr ⟨rfl, fun _ h => h⟩

theorem isEquivalent_trans (h₁ : isEquivalent ct1 ct2 = true) (h₂ : isEquivalent ct2 ct3 = true) :
    isEquivalent ct1 ct3 = true := by
  rw [isEquivalent_iff] at h₁ h₂ ⊢
  exact ⟨h₁.1.trans h₂.1, fun pair h => h₂.2 pair (h₁.2 pair h)⟩

end CandidateEqClass

namespace Tracker

variable {T : Tracker} {c d : CandidateId} {candidates : List CandidateId}
  {candidatePartition : List (List CandidateId)}

/-- The candidate's value of the state variable has a trajectory. -/
def Known (T : Tracker) (c : CandidateId) : Prop :=
  ∀ a ∈ T.candidate c, a.isStateVariable = true → a.index < T.trajectories.length
  deriving Decidable

/-- What `createTriples` makes of the candidate. -/
def triples (T : Tracker) (c : CandidateId) : List Triple :=
  (T.candidate c).flatMap fun a =>
    if a.isStateVariable then (T.trajectories.getD a.index []).map Triple.ofParts
    else [Triple.ofAssignment a]

theorem createTriples_eq (h : T.Known c) : T.createTriples c = .ok (T.triples c) := by
  unfold createTriples triples
  unfold Known at h
  generalize T.candidate c = as at h ⊢
  have hall (ts : List Triple) : as.foldlM T.addTriples ts =
      .ok (ts ++ as.flatMap fun a =>
        if a.isStateVariable then (T.trajectories.getD a.index []).map Triple.ofParts
        else [Triple.ofAssignment a]) := by
    induction as generalizing ts with
    | nil => simp [pure, Except.pure]
    | cons a as ih =>
      rw [List.forall_mem_cons] at h
      rw [List.foldlM_cons, List.flatMap_cons]
      by_cases ha : a.isStateVariable = true
      · have hone : T.addTriples ts a =
            .ok (ts ++ (T.trajectories.getD a.index []).map Triple.ofParts) := by
          simp [addTriples, getTrajectory, ha, List.getElem?_eq_getElem (h.1 ha), bind, Except.bind,
            pure, Except.pure]
        rw [hone, if_pos ha, ← List.append_assoc]
        exact ih h.2 _
      · have hone : T.addTriples ts a = .ok (ts ++ [Triple.ofAssignment a]) := by
          simp [addTriples, ha, pure, Except.pure]
        rw [hone, if_neg ha, ← List.append_assoc]
        exact ih h.2 _
  exact hall []

/-- `c` is found equivalent to `d`. -/
def Equivalent (T : Tracker) (c d : CandidateId) : Prop :=
  CandidateEqClass.isEquivalent (T.triples c) (T.triples d) = true
  deriving Decidable

theorem belongs_eq (hc : T.Known c) (h : ∀ d ∈ candidates, T.Known d) :
    CandidateEqClass.belongs T candidates c =
      .ok (decide (FirstFit.Belongs T.Equivalent c candidates)) := by
  unfold CandidateEqClass.belongs
  rw [createTriples_eq hc]
  show CandidateEqClass.belongsTo T (T.triples c) candidates = _
  induction candidates with
  | nil => rfl
  | cons d candidates ih =>
    rw [List.forall_mem_cons] at h
    unfold CandidateEqClass.belongsTo
    rw [createTriples_eq h.1]
    by_cases hd : CandidateEqClass.isEquivalent (T.triples c) (T.triples d) = true
    · have hcons : FirstFit.Belongs T.Equivalent c (d :: candidates) ↔
          FirstFit.Belongs T.Equivalent c candidates := by
        simp [FirstFit.Belongs, Equivalent, hd]
      simp only [bind, Except.bind, hcons, hd, if_true]
      exact ih h.2
    · have hcons : ¬ FirstFit.Belongs T.Equivalent c (d :: candidates) := by
        simp [FirstFit.Belongs, Equivalent, hd]
      simp only [bind, Except.bind, hcons, hd]
      rfl

theorem partitionCandidate_eq (hc : T.Known c)
    (h : ∀ eqClass ∈ candidatePartition, ∀ d ∈ eqClass, T.Known d ∧ d ≠ c) :
    T.partitionCandidate candidatePartition c =
      .ok (FirstFit.place T.Equivalent c candidatePartition) := by
  have hindex : ∃ i, T.equivalenceClassIndex c candidatePartition = .ok i ∧
      FirstFit.place T.Equivalent c candidatePartition =
        if i < candidatePartition.length then
          candidatePartition.modify i fun eqClass => CandidateEqClass.add eqClass c
        else candidatePartition ++ [CandidateEqClass.add [] c] := by
    induction candidatePartition with
    | nil => exact ⟨0, rfl, rfl⟩
    | cons eqClass candidatePartition ih =>
      rw [List.forall_mem_cons] at h
      have hmember : c ∉ eqClass := fun hm => (h.1 c hm).2 rfl
      unfold equivalenceClassIndex FirstFit.place
      rw [belongs_eq hc fun d hd => (h.1 d hd).1]
      by_cases hb : FirstFit.Belongs T.Equivalent c eqClass
      · refine ⟨0, ?_, ?_⟩
        · simp [hb, bind, Except.bind, pure, Except.pure]
        · simp [hb, CandidateEqClass.add, hmember]
      · obtain ⟨i, hi, hplace⟩ := ih h.2
        refine ⟨i + 1, ?_, ?_⟩
        · simp [hb, hi, bind, Except.bind, pure, Except.pure]
        · rw [if_neg hb, hplace]
          by_cases hlt : i < candidatePartition.length
          · simp [hlt]
          · simp [hlt]
  obtain ⟨i, hi, hplace⟩ := hindex
  unfold partitionCandidate
  rw [hi, hplace]
  by_cases hlt : i < candidatePartition.length
  · simp [hlt, bind, Except.bind, pure, Except.pure]
  · simp [hlt, bind, Except.bind, pure, Except.pure]

theorem partition_eq (hn : candidates.Nodup) (h : ∀ c ∈ candidates, T.Known c) :
    T.partition candidates = .ok (FirstFit.classes T.Equivalent candidates) := by
  unfold partition
  induction candidates using List.reverseRecOn with
  | nil => rfl
  | append_singleton candidates c ih =>
    obtain ⟨hn, -, hd⟩ := List.nodup_append.mp hn
    rw [List.forall_mem_append, List.forall_mem_singleton] at h
    rw [List.foldlM_append, ih hn h.1, FirstFit.classes_concat]
    have hmem {eqClass : List CandidateId}
        (he : eqClass ∈ FirstFit.classes T.Equivalent candidates) {d : CandidateId}
        (hm : d ∈ eqClass) : d ∈ candidates :=
      (FirstFit.perm_flatMap_classes T.Equivalent candidates).mem_iff.mp
        (List.mem_flatMap.mpr ⟨eqClass, he, hm⟩)
    have hplace := partitionCandidate_eq h.2 fun eqClass he d hm =>
      ⟨h.1 d (hmem he hm), hd d (hmem he hm) c List.mem_cons_self⟩
    simp only [bind, Except.bind, List.foldlM_cons, hplace, List.foldlM_nil]
    rfl

/-- As many parts, and the variables and values of one are properly among those of the other. -/
def ProperlyAmong (T : Tracker) (c d : CandidateId) : Prop :=
  (T.triples c).length = (T.triples d).length ∧
    (∀ pair ∈ (T.triples c).map Triple.pair, pair ∈ (T.triples d).map Triple.pair) ∧
    ∃ pair ∈ (T.triples d).map Triple.pair, pair ∉ (T.triples c).map Triple.pair
  deriving Decidable

theorem symmetricOn_iff : FirstFit.SymmetricOn T.Equivalent candidates ↔
    ∀ c ∈ candidates, ∀ d ∈ candidates, ¬ T.ProperlyAmong c d := by
  unfold FirstFit.SymmetricOn
  refine forall₄_congr fun c _ d _ => ?_
  unfold Equivalent ProperlyAmong
  rw [CandidateEqClass.isEquivalent_iff, CandidateEqClass.isEquivalent_iff]
  push Not
  constructor
  · intro h hlen hsub
    exact (h ⟨hlen, hsub⟩).2
  · intro h ⟨hlen, hsub⟩
    exact ⟨hlen.symm, h hlen hsub⟩

/-- The partition of the list, and the one of the list in another order. -/
def SamePartition (T : Tracker) (candidates candidates' : List CandidateId) : Prop :=
  ∃ P P', T.partition candidates = .ok P ∧ T.partition candidates' = .ok P' ∧ FirstFit.Same P P'

/-- The test is an equivalence on the candidates of the list, and their partition does not depend on
their order. -/
structure Genuine (T : Tracker) (candidates : List CandidateId) : Prop where
  symmetric : ∀ c ∈ candidates, ∀ d ∈ candidates, T.Equivalent c d → T.Equivalent d c
  transitive : ∀ c ∈ candidates, ∀ d ∈ candidates, ∀ e ∈ candidates,
    T.Equivalent c d → T.Equivalent d e → T.Equivalent c e
  partition : ∀ candidates' : List CandidateId, candidates'.Perm candidates →
    T.SamePartition candidates' candidates

theorem equivalent_refl (T : Tracker) (c : CandidateId) : T.Equivalent c c :=
  CandidateEqClass.isEquivalent_refl (T.triples c)

theorem equivalent_trans (T : Tracker) (c d e : CandidateId) (h₁ : T.Equivalent c d)
    (h₂ : T.Equivalent d e) : T.Equivalent c e :=
  CandidateEqClass.isEquivalent_trans h₁ h₂

theorem samePartition_iff (hn : candidates.Nodup) (h : ∀ c ∈ candidates, T.Known c) :
    (∀ candidates' : List CandidateId, candidates'.Perm candidates →
      T.SamePartition candidates' candidates) ↔
    ∀ c ∈ candidates, ∀ d ∈ candidates, ¬ T.ProperlyAmong c d := by
  rw [← symmetricOn_iff,
    ← FirstFit.orderIndependent_iff T.equivalent_refl T.equivalent_trans hn]
  refine forall₂_congr fun candidates' hperm => ?_
  have heq := partition_eq hn h
  have heq' := partition_eq (hperm.nodup_iff.mpr hn) fun c hc => h c (hperm.mem_iff.mp hc)
  constructor
  · intro ⟨P, P', hP, hP', hsame⟩
    obtain rfl := Except.ok.inj (hP.symm.trans heq')
    obtain rfl := Except.ok.inj (hP'.symm.trans heq)
    exact hsame
  · intro hsame
    exact ⟨_, _, heq', heq, hsame⟩

/-- The test is an equivalence and the partition the same in every order if and only if no candidate
is properly among another; and for the partition alone it is so too. -/
theorem genuine_iff (hn : candidates.Nodup) (h : ∀ c ∈ candidates, T.Known c) :
    (T.Genuine candidates ↔ ∀ c ∈ candidates, ∀ d ∈ candidates, ¬ T.ProperlyAmong c d) ∧
      ((∀ candidates' : List CandidateId, candidates'.Perm candidates →
          T.SamePartition candidates' candidates) ↔
        ∀ c ∈ candidates, ∀ d ∈ candidates, ¬ T.ProperlyAmong c d) := by
  refine ⟨⟨fun hg => symmetricOn_iff.mp hg.symmetric, fun hp => ?_⟩, samePartition_iff hn h⟩
  exact ⟨symmetricOn_iff.mpr hp, fun c _ d _ e _ => T.equivalent_trans c d e,
    (samePartition_iff hn h).mpr hp⟩

/-- The first candidate has one failure twice, the second one that failure and another, and the third
one the first failure later. -/
def threeCandidates : Tracker where
  trajectories := [[]]
  candidate
    | 0 => [⟨⟨1, 0⟩, 1⟩, ⟨⟨1, 1⟩, 1⟩]
    | 1 => [⟨⟨1, 0⟩, 1⟩, ⟨⟨2, 0⟩, 1⟩]
    | _ => [⟨⟨1, 1⟩, 1⟩, ⟨⟨1, 2⟩, 1⟩]

theorem genuine_iff_threeCandidates : threeCandidates.Genuine [0, 2] :=
  (genuine_iff (by decide) (by decide)).1.mpr (by decide)

/-- The first one is equivalent to the second one, and not the other way round. -/
theorem not_genuine : ¬ threeCandidates.Genuine [0, 1] := by
  intro h
  exact absurd (h.symmetric 0 (by decide) 1 (by decide) (by decide)) (by decide)

end Tracker

end Livingstone
