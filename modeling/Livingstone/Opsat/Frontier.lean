import Livingstone.Opsat.Search
import Livingstone.Proofs.CandidateInvariant

/-! What the elements of the agenda stand for. An element stands for the selections that extend
its prefix by its current assignment or by one of the remaining ones. Every minimal consistent
selection is among those of its successors when it is among its own. -/

namespace Livingstone

namespace Assignables

variable (D : Assignables)

/-- `a` is a value of a variable of the database. -/
def Known (a : Assignment) : Prop := a.var ∈ D.assignables ∧ a ∈ D.assignments a.var

/-- Values of variables of the database, at most one for each. -/
structure IsSelection (Δ : Finset Assignment) : Prop where
  known : ∀ a ∈ Δ, D.Known a
  unique : ∀ a ∈ Δ, ∀ b ∈ Δ, a.var = b.var → a = b

def rank (Δ : Finset Assignment) : ℕ := ∑ a ∈ Δ, (D.weight a).toNat

/-- A variable that is not in the selection has its default. -/
def Holds (Δ : Finset Assignment) (a : Assignment) : Prop :=
  a ∈ Δ ∨ D.isDefault a = true ∧ ∀ b ∈ Δ, b.var ≠ a.var

/-- The sum of no selection overflows. -/
def RanksFit (w : Weight) : Prop := ∀ Δ, D.IsSelection Δ → w.toNat + D.rank Δ < 2 ^ 32

/-- A consistent selection that extends the seed by values that are not defaults, while none of its
proper subsets that extend the seed is consistent. -/
structure IsMinimal (Consistent : Finset Assignment → Prop) (seed : Candidate)
    (Δ : Finset Assignment) : Prop where
  selection : D.IsSelection Δ
  consistent : Consistent Δ
  seed_subset : seed.toFinset ⊆ Δ
  not_default : ∀ a ∈ Δ, a ∉ seed → D.isDefault a = false
  minimal : ∀ Γ ⊂ Δ, seed.toFinset ⊆ Γ → ¬ Consistent Γ

/-- What is asked of the answer for a candidate. A candidate without a conflict is consistent. A
conflict holds of the candidate, and of no consistent selection. -/
def SoundAnswer (Consistent : Finset Assignment → Prop) (candidate : Candidate) :
    Option Conflict → Prop
  | none => Consistent candidate.toFinset
  | some k =>
    (∀ a ∈ k.assignments, a.var ∈ D.assignables ∧ D.Holds candidate.toFinset a) ∧
      ∀ Δ, D.IsSelection Δ → Consistent Δ → ∃ a ∈ k.assignments, ¬ D.Holds Δ a

variable {D} {Γ Δ : Finset Assignment}

theorem rank_mono (h : Γ ⊆ Δ) : D.rank Γ ≤ D.rank Δ := Finset.sum_le_sum_of_subset h

theorem rank_add_le {b : Assignment} (h : Γ ⊆ Δ) (hb : b ∈ Δ) (hnew : b ∉ Γ) :
    D.rank Γ + (D.weight b).toNat ≤ D.rank Δ := by
  have hle : D.rank (insert b Γ) ≤ D.rank Δ := rank_mono (Finset.insert_subset hb h)
  rwa [rank, Finset.sum_insert hnew, add_comm] at hle

end Assignables

namespace Candidate

/-- The assignments are values of different variables of the database. -/
structure Legal (D : Assignables) (candidate : Candidate) : Prop where
  wellFormed : candidate.WellFormed
  known : ∀ a ∈ candidate, D.Known a

variable {D : Assignables} {candidate : Candidate} {a : Assignment}

theorem WellFormed.nodup (h : candidate.WellFormed) : candidate.Nodup := List.Nodup.of_map _ h

theorem Legal.isSelection (h : candidate.Legal D) : D.IsSelection candidate.toFinset where
  known a ha := h.known a (List.mem_toFinset.mp ha)
  unique _ ha _ hb hvar :=
    h.wellFormed.eq_of_var (List.mem_toFinset.mp ha) (List.mem_toFinset.mp hb) hvar

theorem legal_concat (h : candidate.Legal D) (ha : D.Known a)
    (hnew : candidate.consistentAssignment a = true) : (candidate ++ [a]).Legal D where
  wellFormed := (wellFormed_concat h.wellFormed).mpr hnew
  known b hb := by
    rcases List.mem_append.mp hb with hb | hb
    · exact h.known b hb
    · exact List.mem_singleton.mp hb ▸ ha

theorem toFinset_subset_append (candidate rest : Candidate) :
    candidate.toFinset ⊆ (candidate ++ rest).toFinset := by
  rw [List.toFinset_append]
  exact Finset.subset_union_left

theorem rank_eq_sum (D : Assignables) (h : candidate.Nodup) :
    D.rank candidate.toFinset = (candidate.map fun a => (D.weight a).toNat).sum :=
  List.sum_toFinset _ h

theorem rank_concat (h : (candidate ++ [a]).Nodup) :
    D.rank (candidate ++ [a]).toFinset = D.rank candidate.toFinset + (D.weight a).toNat := by
  rw [rank_eq_sum D h, rank_eq_sum D (List.nodup_append.mp h).1, List.map_append, List.sum_append]
  rfl

theorem toNat_add_sumAssignmentWeights {w : Weight} {assignments : List Assignment}
    (hfit : w.toNat + (assignments.map fun a => (D.weight a).toNat).sum < 2 ^ 32) :
    (w + sumAssignmentWeights D assignments).toNat =
      w.toNat + (assignments.map fun a => (D.weight a).toNat).sum := by
  induction assignments using List.reverseRecOn with
  | nil => simp [sumAssignmentWeights]
  | append_singleton assignments a ih =>
    rw [List.map_append, List.sum_append] at hfit ⊢
    simp only [List.map_cons, List.map_nil, List.sum_singleton] at hfit ⊢
    rw [CbfsElement.sumAssignmentWeights_append, ← UInt32.add_assoc, UInt32.toNat_add,
      ih (by omega), Nat.mod_eq_of_lt (by omega), Nat.add_assoc]

theorem Legal.toNat_add_getWeight {w : Weight} (hfit : D.RanksFit w) (h : candidate.Legal D) :
    (w + candidate.getWeight D).toNat = w.toNat + D.rank candidate.toFinset := by
  have hlt := hfit _ h.isSelection
  rw [rank_eq_sum D h.wellFormed.nodup] at hlt ⊢
  exact toNat_add_sumAssignmentWeights hlt

end Candidate

namespace CbfsAgenda

variable {D : Assignables} {assignments : List Assignment} {candidate : Candidate} {a b : Assignment}

def Ascending (D : Assignables) (assignments : List Assignment) : Prop :=
  assignments.Pairwise fun a b => (D.weight a).toNat ≤ (D.weight b).toNat

theorem popAll_spec {n : ℕ} {workheap : List Assignment}
    (ho : BinaryHeap.Ordered (fun a => (D.weight a).toNat) workheap) (hn : workheap.length ≤ n) :
    (popAll (D := D) n workheap).Perm workheap ∧ Ascending D (popAll (D := D) n workheap) := by
  induction n generalizing workheap with
  | zero =>
    obtain rfl := List.eq_nil_of_length_eq_zero (Nat.le_zero.mp hn)
    exact ⟨List.Perm.refl _, List.Pairwise.nil⟩
  | succ n ih =>
    unfold popAll
    cases hpop : BinaryHeap.pop (fun a => (D.weight a).toNat) workheap with
    | none =>
      rw [BinaryHeap.pop_eq_none.mp hpop]
      exact ⟨List.Perm.refl _, List.Pairwise.nil⟩
    | some p =>
      obtain ⟨a, rest⟩ := p
      have hperm := BinaryHeap.pop_perm hpop
      have hlen : rest.length ≤ n := by
        have hlen := hperm.length_eq
        rw [List.length_cons] at hlen
        omega
      obtain ⟨hrest, hasc⟩ := ih (BinaryHeap.ordered_pop ho hpop) hlen
      refine ⟨(hrest.cons a).trans hperm.symm, List.pairwise_cons.mpr ⟨fun b hb => ?_, hasc⟩⟩
      apply BinaryHeap.root_le ho (BinaryHeap.pop_top hpop)
      exact hperm.mem_iff.mpr (List.mem_cons_of_mem a (hrest.mem_iff.mp hb))

theorem workheap_spec (assignments : List Assignment) {heap : List Assignment}
    (ho : BinaryHeap.Ordered (fun a => (D.weight a).toNat) heap) :
    BinaryHeap.Ordered (fun a => (D.weight a).toNat)
        (assignments.foldl
          (fun heap a => BinaryHeap.insert (fun a => (D.weight a).toNat) a heap) heap) ∧
      ∀ b, b ∈ assignments.foldl
          (fun heap a => BinaryHeap.insert (fun a => (D.weight a).toNat) a heap) heap ↔
        b ∈ assignments ∨ b ∈ heap := by
  induction assignments generalizing heap with
  | nil => exact ⟨ho, fun b => by simp⟩
  | cons a assignments ih =>
    obtain ⟨ho', hmem⟩ := ih (BinaryHeap.ordered_insert ho a)
    refine ⟨ho', fun b => (hmem b).trans ?_⟩
    rw [(BinaryHeap.insert_perm a heap).mem_iff, List.mem_cons, List.mem_cons]
    tauto

theorem mem_resolvingAssignments {k : Conflict} :
    b ∈ k.resolvingAssignments D ↔ ∃ a ∈ k.assignments, b ∈ D.others a := by
  unfold Conflict.resolvingAssignments
  rw [← List.flatMap_eq_foldl, List.mem_flatMap]
  simp only [List.mem_reverse]

/-- The resolving assignments in the order of their weights, before any is popped. -/
def resolvers (D : Assignables) (k : Conflict) : List Assignment :=
  let workheap := (k.resolvingAssignments D).foldl
    (fun heap a => BinaryHeap.insert (fun a => (D.weight a).toNat) a heap) []
  popAll (D := D) workheap.length workheap

theorem getNewAssignments_eq (k : Conflict) :
    getNewAssignments D candidate k = popUselessAssignments D (resolvers D k) candidate := rfl

theorem resolvers_spec (k : Conflict) :
    Ascending D (resolvers D k) ∧
      ∀ b, b ∈ resolvers D k ↔ ∃ a ∈ k.assignments, b ∈ D.others a := by
  have hnil : BinaryHeap.Ordered (fun a => (D.weight a).toNat) ([] : List Assignment) :=
    fun _ _ _ _ hx => absurd hx (by simp)
  obtain ⟨ho, hmem⟩ := workheap_spec (k.resolvingAssignments D) hnil
  obtain ⟨hperm, hasc⟩ := popAll_spec ho le_rfl
  refine ⟨hasc, fun b => ?_⟩
  unfold resolvers
  rw [hperm.mem_iff, hmem b, mem_resolvingAssignments]
  simp

theorem resolvers_known {k : Conflict} (hk : ∀ a ∈ k.assignments, a.var ∈ D.assignables) :
    ∀ b ∈ resolvers D k, D.Known b := by
  intro b hb
  obtain ⟨a, ha, hb⟩ := ((resolvers_spec k).2 b).mp hb
  have hmem := (List.mem_filter.mp hb).1
  have hvar := D.var_eq a.var b hmem
  exact ⟨hvar ▸ hk a ha, hvar ▸ hmem⟩

/-- A consistent selection that extends a candidate resolves its conflict by an assignment that the
candidate does not have. -/
theorem exists_resolver {Consistent : Finset Assignment → Prop} {Δ : Finset Assignment} {k : Conflict}
    (hk : D.SoundAnswer Consistent candidate (some k)) (hΔ : D.IsSelection Δ) (hcons : Consistent Δ)
    (hsub : candidate.toFinset ⊆ Δ) : ∃ b ∈ resolvers D k, b ∈ Δ ∧ b ∉ candidate := by
  obtain ⟨a, ha, hnot⟩ := hk.2 Δ hΔ hcons
  obtain ⟨haΔ, hother⟩ := not_or.mp hnot
  have hdefault := (hk.1 a ha).2.resolve_left fun hmem => haΔ (hsub hmem)
  have hex : ∃ b ∈ Δ, b.var = a.var := by
    by_contra hall
    push Not at hall
    exact hother ⟨hdefault.1, hall⟩
  obtain ⟨b, hb, hvar⟩ := hex
  refine ⟨b, ((resolvers_spec k).2 b).mpr ⟨a, ha, ?_⟩, hb, fun hmem => ?_⟩
  · refine List.mem_filter.mpr ⟨hvar ▸ (hΔ.known b hb).2, ?_⟩
    have hne : b ≠ a := fun hba => haΔ (hba ▸ hb)
    simpa using hne
  · exact hdefault.2 b (List.mem_toFinset.mpr hmem) hvar

theorem mem_popUselessAssignments (hb : b ∈ assignments)
    (huseful : CbfsElement.isAssignmentUseful D candidate b = true) :
    b ∈ popUselessAssignments D assignments candidate := by
  have hsplit := List.takeWhile_append_dropWhile (l := assignments)
    (p := fun a => !CbfsElement.isAssignmentUseful D candidate a)
  rw [← hsplit, List.mem_append] at hb
  refine hb.resolve_left fun hb => ?_
  have huseless := List.all_eq_true.mp List.all_takeWhile b hb
  simp [huseful] at huseless

theorem popUselessAssignments_sublist (D : Assignables) (assignments : List Assignment)
    (candidate : Candidate) :
    (popUselessAssignments D assignments candidate).Sublist assignments :=
  List.dropWhile_sublist _

end CbfsAgenda

namespace CbfsElement

variable {D : Assignables} {w : Weight} {seeds : List Candidate} {seed : Candidate}
  {Δ : Finset Assignment} {Consistent : Finset Assignment → Prop} {e d : CbfsElement}
  {candidate : Candidate} {assignments : List Assignment}

/-- What the candidate of the element or of one after it adds to the prefix. -/
def choices (e : CbfsElement) : List Assignment :=
  e.currentAssignment.toList ++ e.remainingAssignments

structure Ready (D : Assignables) (seeds : List Candidate) (e : CbfsElement) : Prop where
  legal : e.generateCandidate.Legal D
  known : ∀ a ∈ e.remainingAssignments, D.Known a
  ascending : CbfsAgenda.Ascending D e.choices
  seeded : ∃ seed ∈ seeds, seed ⊆ e.candidatePrefix

/-- The element stands for a part of `Δ` that extends the seed. -/
structure LeadsTo (seed : Candidate) (Δ : Finset Assignment) (e : CbfsElement) : Prop where
  seed_subset : seed ⊆ e.candidatePrefix
  subset : e.candidatePrefix.toFinset ⊆ Δ
  choice : e.currentAssignment = none ∨ ∃ b ∈ e.choices, b ∈ Δ ∧ b ∉ e.candidatePrefix

/-- The element, if there is one, that extends a candidate by one of the assignments. -/
def choosing (D : Assignables) (w : Weight) (candidate : Candidate)
    (assignments : List Assignment) : List CbfsElement :=
  match CbfsAgenda.popUselessAssignments D assignments candidate with
  | [] => []
  | a :: remaining =>
    [{ candidatePrefix := candidate
       currentAssignment := some a
       remainingAssignments := remaining
       weight := w + candidate.getWeight D + D.weight a }]

/-- What takes the place of a popped element. -/
def successors (D : Assignables) (w : Weight) (e : CbfsElement) (conflict : Option Conflict) :
    List CbfsElement :=
  (match conflict with
    | none => []
    | some k => choosing D w e.generateCandidate (CbfsAgenda.resolvers D k)) ++
  choosing D w e.candidatePrefix e.remainingAssignments

theorem mem_choosing : d ∈ choosing D w candidate assignments ↔
    ∃ a remaining, CbfsAgenda.popUselessAssignments D assignments candidate = a :: remaining ∧
      d = { candidatePrefix := candidate, currentAssignment := some a,
            remainingAssignments := remaining,
            weight := w + candidate.getWeight D + D.weight a } := by
  unfold choosing
  cases CbfsAgenda.popUselessAssignments D assignments candidate with
  | nil => simp
  | cons a remaining => simp

theorem Ready.prefix_legal (h : e.Ready D seeds) : e.candidatePrefix.Legal D where
  wellFormed := CbfsAgenda.generateCandidate_wellFormed h.legal.wellFormed
  known a ha := h.legal.known a (List.mem_append_left _ ha)

theorem choosing_ready (hlegal : candidate.Legal D) (hknown : ∀ a ∈ assignments, D.Known a)
    (hasc : CbfsAgenda.Ascending D assignments) (hseed : ∃ seed ∈ seeds, seed ⊆ candidate)
    (hd : d ∈ choosing D w candidate assignments) : d.Ready D seeds := by
  obtain ⟨a, remaining, hpop, rfl⟩ := mem_choosing.mp hd
  have hsub := CbfsAgenda.popUselessAssignments_sublist D assignments candidate
  rw [hpop] at hsub
  constructor
  · exact Candidate.legal_concat hlegal (hknown a (hsub.subset List.mem_cons_self))
      (CbfsAgenda.useful_of_popUselessAssignments hpop)
  · intro b hb
    exact hknown b (hsub.subset (List.mem_cons_of_mem a hb))
  · exact hasc.sublist hsub
  · exact hseed

/-- An assignment that is not yet in the candidate is among the choices of the element. -/
theorem choosing_leadsTo {b : Assignment} (hb : b ∈ assignments)
    (hΔ : Assignables.IsMinimal D Consistent seed Δ) (hseed : seed ⊆ candidate)
    (hsub : candidate.toFinset ⊆ Δ) (hbΔ : b ∈ Δ) (hnew : b ∉ candidate) :
    ∃ d ∈ choosing D w candidate assignments, d.LeadsTo seed Δ := by
  have hcand : candidate.consistentAssignment b = true := by
    simp only [Candidate.consistentAssignment, List.all_eq_true, decide_eq_true_eq]
    intro c hc hvar
    exact hnew (hΔ.selection.unique c (hsub (List.mem_toFinset.mpr hc)) b hbΔ hvar ▸ hc)
  have huseful : isAssignmentUseful D candidate b = true := by
    simp [isAssignmentUseful, hcand, hnew, hΔ.not_default b hbΔ fun hb => hnew (hseed hb)]
  have hmem := CbfsAgenda.mem_popUselessAssignments hb huseful
  cases hpop : CbfsAgenda.popUselessAssignments D assignments candidate with
  | nil =>
    rw [hpop] at hmem
    cases hmem
  | cons a remaining =>
    rw [hpop] at hmem
    exact ⟨_, mem_choosing.mpr ⟨a, remaining, hpop, rfl⟩, hseed, hsub, Or.inr ⟨b, hmem, hbΔ, hnew⟩⟩

theorem Ready.successor (h : e.Ready D seeds) {conflict : Option Conflict}
    (hk : D.SoundAnswer Consistent e.generateCandidate conflict)
    (hd : d ∈ successors D w e conflict) : d.Ready D seeds := by
  obtain ⟨seed, hmem, hseed⟩ := h.seeded
  rcases List.mem_append.mp hd with hd | hd
  · cases conflict with
    | none => cases hd
    | some k =>
      have hknown := CbfsAgenda.resolvers_known fun a ha => (hk.1 a ha).1
      exact choosing_ready h.legal hknown (CbfsAgenda.resolvers_spec k).1
        ⟨seed, hmem, List.Subset.trans hseed (List.subset_append_left _ _)⟩ hd
  · exact choosing_ready h.prefix_legal h.known (List.pairwise_append.mp h.ascending).2.1
      ⟨seed, hmem, hseed⟩ hd

/-- When the candidate of the element is not `Δ` itself, a successor leads to `Δ`. -/
theorem LeadsTo.successor (h : e.LeadsTo seed Δ) (hΔ : D.IsMinimal Consistent seed Δ)
    {conflict : Option Conflict} (hk : D.SoundAnswer Consistent e.generateCandidate conflict) :
    conflict = none ∧ e.generateCandidate.toFinset = Δ ∨
      ∃ d ∈ successors D w e conflict, d.LeadsTo seed Δ := by
  by_cases hcur : ∀ a ∈ e.currentAssignment, a ∈ Δ
  · have hsub : e.generateCandidate.toFinset ⊆ Δ := by
      intro a ha
      rcases List.mem_append.mp (List.mem_toFinset.mp ha) with ha | ha
      · exact h.subset (List.mem_toFinset.mpr ha)
      · exact hcur a (Option.mem_toList.mp ha)
    have hseed : seed ⊆ e.generateCandidate := 
      List.Subset.trans h.seed_subset (List.subset_append_left _ _)
    cases conflict with
    | none =>
      refine Or.inl ⟨rfl, hsub.eq_of_not_ssubset fun hlt => hΔ.minimal _ hlt ?_ hk⟩
      intro a ha
      exact List.mem_toFinset.mpr (hseed (List.mem_toFinset.mp ha))
    | some k =>
      obtain ⟨b, hb, hbΔ, hnew⟩ :=
        CbfsAgenda.exists_resolver hk hΔ.selection hΔ.consistent hsub
      obtain ⟨d, hd, hleads⟩ := choosing_leadsTo hb hΔ hseed hsub hbΔ hnew
      exact Or.inr ⟨d, List.mem_append_left _ hd, hleads⟩
  · -- the current assignment is not in `Δ`, and so a remaining one is
    push Not at hcur
    obtain ⟨a, ha, haΔ⟩ := hcur
    rcases h.choice with hnone | ⟨b, hb, hbΔ, hnew⟩
    · rw [hnone] at ha
      cases ha
    · have hrest : b ∈ e.remainingAssignments := by
        refine (List.mem_append.mp hb).resolve_left fun hb => haΔ ?_
        exact Option.mem_unique (Option.mem_toList.mp hb) ha ▸ hbΔ
      obtain ⟨d, hd, hleads⟩ := choosing_leadsTo hrest hΔ h.seed_subset h.subset hbΔ hnew
      exact Or.inr ⟨d, List.mem_append_right _ hd, hleads⟩

theorem LeadsTo.rank_le (h : e.LeadsTo seed Δ) (hready : e.Ready D seeds) :
    D.rank e.generateCandidate.toFinset ≤ D.rank Δ := by
  have hnodup := hready.legal.wellFormed.nodup
  have hasc := hready.ascending
  have hchoice := h.choice
  unfold choices at hasc hchoice
  unfold generateCandidate at hnodup ⊢
  cases hcur : e.currentAssignment with
  | none =>
    rw [Option.toList_none, List.append_nil]
    exact Assignables.rank_mono h.subset
  | some a =>
    rw [hcur] at hnodup hasc hchoice
    obtain ⟨b, hb, hbΔ, hnew⟩ := hchoice.resolve_left (Option.some_ne_none a)
    have hle : (D.weight a).toNat ≤ (D.weight b).toNat := by
      rcases List.mem_cons.mp hb with rfl | hb
      · exact le_rfl
      · exact (List.pairwise_cons.mp hasc).1 b hb
    calc D.rank (e.candidatePrefix ++ [a]).toFinset
        = D.rank e.candidatePrefix.toFinset + (D.weight a).toNat := Candidate.rank_concat hnodup
      _ ≤ D.rank e.candidatePrefix.toFinset + (D.weight b).toNat := Nat.add_le_add_left hle _
      _ ≤ D.rank Δ :=
        Assignables.rank_add_le h.subset hbΔ fun hmem => hnew (List.mem_toFinset.mp hmem)

theorem successor_rank_le (h : e.Ready D seeds) {conflict : Option Conflict}
    (hd : d ∈ successors D w e conflict) (hready : d.Ready D seeds) :
    D.rank e.generateCandidate.toFinset ≤ D.rank d.generateCandidate.toFinset := by
  rcases List.mem_append.mp hd with hd | hd
  · cases conflict with
    | none => cases hd
    | some k =>
      obtain ⟨a, remaining, -, rfl⟩ := mem_choosing.mp hd
      exact Assignables.rank_mono (Candidate.toFinset_subset_append _ _)
  · obtain ⟨a, remaining, hpop, rfl⟩ := mem_choosing.mp hd
    have ha : a ∈ e.remainingAssignments := by
      apply (CbfsAgenda.popUselessAssignments_sublist D _ e.candidatePrefix).subset
      rw [hpop]
      exact List.mem_cons_self
    have hnodup := h.legal.wellFormed.nodup
    have hnodup' := hready.legal.wellFormed.nodup
    have hasc := h.ascending
    unfold choices at hasc
    unfold generateCandidate at hnodup hnodup' ⊢
    cases hcur : e.currentAssignment with
    | none =>
      rw [Option.toList_none, List.append_nil]
      exact Assignables.rank_mono (Candidate.toFinset_subset_append _ _)
    | some b =>
      rw [hcur] at hnodup hasc
      dsimp only [Option.toList_some] at hnodup hnodup' ⊢
      rw [Candidate.rank_concat hnodup, Candidate.rank_concat hnodup']
      exact Nat.add_le_add_left ((List.pairwise_cons.mp hasc).1 a ha) _

/-- How many variables have no value yet. -/
def unassigned (D : Assignables) (candidate : Candidate) : ℕ :=
  (D.assignables.toFinset \ (candidate.map (·.var)).toFinset).card

theorem unassigned_concat {a : Assignment} (h : Candidate.Legal D (candidate ++ [a])) :
    unassigned D (candidate ++ [a]) < unassigned D candidate := by
  have ha : a.var ∈ D.assignables := (h.known a (by simp)).1
  have hnew : a.var ∉ candidate.map (·.var) := by
    have hnodup := h.wellFormed
    rw [Candidate.WellFormed, List.map_append] at hnodup
    exact fun hmem => (List.nodup_append.mp hnodup).2.2 _ hmem _ (by simp) rfl
  apply Finset.card_lt_card
  refine (Finset.ssubset_iff_of_subset ?_).mpr ⟨a.var, by simpa [ha] using hnew, by simp⟩
  rw [List.map_append, List.toFinset_append]
  exact Finset.sdiff_subset_sdiff (Finset.Subset.refl _) Finset.subset_union_left

/-- The variables without a value count first, and then the assignments that remain. -/
def size (D : Assignables) (e : CbfsElement) : ℕ ×ₗ ℕ :=
  toLex (2 * unassigned D e.candidatePrefix + (if e.currentAssignment = none then 1 else 0),
    e.remainingAssignments.length)

theorem successor_size_lt (h : e.Ready D seeds) {conflict : Option Conflict}
    (hd : d ∈ successors D w e conflict) : d.size D < e.size D := by
  rcases List.mem_append.mp hd with hd | hd
  · cases conflict with
    | none => cases hd
    | some k =>
      obtain ⟨a, remaining, -, rfl⟩ := mem_choosing.mp hd
      have hlegal := h.legal
      unfold generateCandidate at hlegal
      apply Prod.Lex.left
      unfold generateCandidate
      cases hcur : e.currentAssignment with
      | none => simp
      | some b =>
        rw [hcur] at hlegal
        have hlt := unassigned_concat hlegal
        simp only [Option.toList_some, reduceCtorEq, if_false]
        omega
  · obtain ⟨a, remaining, hpop, rfl⟩ := mem_choosing.mp hd
    have hlen : remaining.length < e.remainingAssignments.length := by
      have hle := (CbfsAgenda.popUselessAssignments_sublist D e.remainingAssignments
        e.candidatePrefix).length_le
      rwa [hpop] at hle
    cases hcur : e.currentAssignment with
    | none =>
      apply Prod.Lex.left
      simp [hcur]
    | some b =>
      rw [Prod.Lex.lt_iff]
      simp [size, hcur, hlen]

end CbfsElement

namespace CbfsAgenda

variable {D : Assignables} {agenda agenda' : CbfsAgenda D} {e : CbfsElement}

theorem insert_choosing_perm (agenda : CbfsAgenda D) (candidate : Candidate)
    (assignments : List Assignment) {f : Assignment → List Assignment → CbfsElement}
    (hf : ∀ a remaining, (f a remaining).candidatePrefix = candidate ∧
      (f a remaining).currentAssignment = some a ∧
        (f a remaining).remainingAssignments = remaining) :
    (match popUselessAssignments D assignments candidate with
      | [] => agenda
      | a :: remaining => agenda.insert (f a remaining)).elements.Perm
      (CbfsElement.choosing D agenda.emptyElementWeight candidate assignments ++
        agenda.elements) := by
  unfold CbfsElement.choosing
  cases popUselessAssignments D assignments candidate with
  | nil => exact List.Perm.refl _
  | cons a remaining =>
    obtain ⟨hcandidate, hcur, hrest⟩ := hf a remaining
    have hperm := insert_perm agenda (f a remaining)
    simp only [CbfsElement.computeElementWeight, hcandidate, hcur, hrest] at hperm
    exact hperm

theorem expandElement_perm (agenda : CbfsAgenda D) (e : CbfsElement) (conflict : Option Conflict) :
    (agenda.expandElement e conflict).elements.Perm
      (e.successors D agenda.emptyElementWeight conflict ++ agenda.elements) := by
  have hconflict : (agenda.expandConflict e conflict).elements.Perm
      ((match conflict with
        | none => []
        | some k => CbfsElement.choosing D agenda.emptyElementWeight e.generateCandidate
            (resolvers D k)) ++ agenda.elements) := by
    cases conflict with
    | none => exact List.Perm.refl _
    | some k =>
      exact insert_choosing_perm agenda e.generateCandidate (resolvers D k)
        fun a remaining => ⟨rfl, rfl, rfl⟩
  have hrest := insert_choosing_perm (agenda.expandConflict e conflict) e.candidatePrefix
    e.remainingAssignments (f := fun a remaining => e.shiftAssignment a remaining)
    fun a remaining => ⟨rfl, rfl, rfl⟩
  rw [expandConflict_emptyElementWeight] at hrest
  unfold CbfsElement.successors
  refine hrest.trans ((hconflict.append_left _).trans ?_)
  rw [← List.append_assoc]
  exact List.perm_append_comm.append_right _

/-- The candidates with which a search begins. -/
def initialCandidates (candidates : List Candidate) : List Candidate :=
  if candidates.isEmpty then [[]] else candidates

def seedElement (D : Assignables) (w : Weight) (candidate : Candidate) : CbfsElement :=
  let e : CbfsElement := { candidatePrefix := candidate }
  { e with weight := e.computeElementWeight D w }

theorem mem_foldl_insert {candidates : List Candidate} :
    e ∈ (candidates.foldl (fun agenda c => agenda.insert { candidatePrefix := c }) agenda).elements ↔
      (∃ c ∈ candidates, e = seedElement D agenda.emptyElementWeight c) ∨ e ∈ agenda.elements := by
  induction candidates generalizing agenda with
  | nil => simp
  | cons c candidates ih =>
    have hperm : (agenda.insert { candidatePrefix := c }).elements.Perm
        (seedElement D agenda.emptyElementWeight c :: agenda.elements) := insert_perm agenda _
    rw [List.foldl_cons, ih, insert_emptyElementWeight, hperm.mem_iff, List.mem_cons,
      List.exists_mem_cons_iff, or_left_comm, or_assoc]

theorem initializeAgenda_emptyElementWeight (D : Assignables) (w : Weight)
    (candidates : List Candidate) :
    (initializeAgenda D w candidates).emptyElementWeight = w := by
  unfold initializeAgenda
  split_ifs
  · rfl
  · exact List.foldlRecOn (motive := fun agenda : CbfsAgenda D => agenda.emptyElementWeight = w)
      _ _ rfl fun agenda hagenda c _ => hagenda

theorem mem_initializeAgenda {w : Weight} {candidates : List Candidate} :
    e ∈ (initializeAgenda D w candidates).elements ↔
      ∃ c ∈ initialCandidates candidates, e = seedElement D w c := by
  unfold initializeAgenda initialCandidates
  split_ifs with hnil
  · rw [(insert_perm _ _).mem_iff]
    simp [empty, seedElement]
  · rw [mem_foldl_insert]
    simp [empty]

end CbfsAgenda

namespace CbfsElement

variable {D : Assignables} {w : Weight} {seeds : List Candidate} {seed : Candidate}

theorem ready_seedElement (h : seed.Legal D) (hseed : seed ∈ seeds) :
    (CbfsAgenda.seedElement D w seed).Ready D seeds where
  legal := by
    unfold generateCandidate CbfsAgenda.seedElement
    rwa [Option.toList_none, List.append_nil]
  known a ha := absurd ha List.not_mem_nil
  ascending := List.Pairwise.nil
  seeded := ⟨seed, hseed, List.Subset.refl seed⟩

theorem leadsTo_seedElement {Consistent : Finset Assignment → Prop} {Δ : Finset Assignment}
    (hΔ : D.IsMinimal Consistent seed Δ) :
    (CbfsAgenda.seedElement D w seed).LeadsTo seed Δ where
  seed_subset := List.Subset.refl seed
  subset := hΔ.seed_subset
  choice := Or.inl rfl

end CbfsElement

end Livingstone
