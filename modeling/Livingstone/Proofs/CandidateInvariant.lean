import Livingstone.ConflictDb.Candidate
import Livingstone.Proofs.Database
import Mathlib.Data.UInt

/-! A candidate gives each variable one value at most. What extends candidates keeps it so, but for
`add_consistently` with an assignment that the candidate has. -/

namespace Livingstone

open CbfsElement (sumAssignmentWeights_append)

namespace Candidate

/-- At most one assignment for each variable, and so none twice. -/
def WellFormed (candidate : Candidate) : Prop := (candidate.map (·.var)).Nodup

instance : DecidablePred WellFormed := fun _ => inferInstanceAs (Decidable (List.Nodup _))

variable {D : Assignables} {candidate : Candidate} {a b : Assignment}

theorem WellFormed.eq_of_var (h : candidate.WellFormed) (ha : a ∈ candidate) (hb : b ∈ candidate)
    (hv : a.var = b.var) : a = b :=
  List.inj_on_of_nodup_map h ha hb hv

theorem wellFormed_concat (h : candidate.WellFormed) :
    WellFormed (candidate ++ [a]) ↔ candidate.consistentAssignment a = true := by
  unfold WellFormed at h ⊢
  rw [List.map_append, List.nodup_append]
  simp only [h, consistentAssignment, List.map_cons, List.map_nil, List.nodup_singleton, true_and,
    List.mem_singleton, List.all_eq_true, List.mem_map, decide_eq_true_eq]
  constructor
  · intro hne b hb
    exact hne b.var ⟨b, hb, rfl⟩ a.var rfl
  · intro hne v ⟨b, hb, hbv⟩ w hw
    rw [← hbv, hw]
    exact hne b hb

theorem wellFormed_addConsistently (h : candidate.WellFormed) :
    (candidate.addConsistently a).WellFormed ↔ a ∉ candidate := by
  unfold addConsistently
  cases hi : candidate.findIdx? fun b => b.isInconsistent a with
  | some i =>
    obtain ⟨hlt, hinc, -⟩ := List.findIdx?_eq_some_iff_getElem.mp hi
    obtain ⟨hne, hvar⟩ : a ≠ candidate[i] ∧ a.var = candidate[i].var := by
      simpa [Assignment.isInconsistent] using hinc
    constructor
    · intro _ ha
      exact hne (h.eq_of_var ha (List.getElem_mem hlt) hvar)
    · intro _
      have hmap : (candidate.set i a).map (·.var) = candidate.map (·.var) := by
        rw [List.map_set, hvar, ← List.map_set, List.set_getElem_self]
      unfold WellFormed
      rw [hmap]
      exact h
  | none =>
    rw [wellFormed_concat h]
    have hall := List.findIdx?_eq_none_iff.mp hi
    simp only [Assignment.isInconsistent, decide_eq_false_iff_not, not_and] at hall
    simp only [consistentAssignment, List.all_eq_true, decide_eq_true_eq]
    constructor
    · intro hne ha
      exact hne a ha rfl
    · intro ha b hb hv
      exact hall b hb (fun he => ha (he ▸ hb)) hv.symm

theorem truncateLoop_perm (horizon n : ℕ) (assignments : List Assignment) (it : ℕ)
    (removed : List Assignment) :
    ((truncateLoop horizon n assignments it removed).1 ++
      (truncateLoop horizon n assignments it removed).2).Perm (assignments ++ removed) := by
  induction n generalizing assignments it removed with
  | zero => exact List.Perm.refl _
  | succ n ih =>
    unfold truncateLoop
    cases hit : assignments[it]? with
    | none => exact List.Perm.refl _
    | some a =>
      obtain ⟨hlt, hget⟩ := List.getElem?_eq_some_iff.mp hit
      by_cases hold : a.isOld horizon = true
      · have hswap : assignments.Perm (a :: SwapRemove.swapRemove assignments it) := by
          have hperm := SwapRemove.perm hlt
          rwa [hget] at hperm
        simp only [hold, if_true]
        refine (ih _ _ _).trans ?_
        rw [← List.append_assoc]
        refine (List.perm_append_singleton a _).trans ?_
        rw [← List.cons_append]
        exact (hswap.append_right removed).symm
      · simp only [hold]
        exact ih _ _ _

theorem truncateLoop_fst (horizon n : ℕ) (assignments : List Assignment) (it : ℕ)
    (removed : List Assignment) : (truncateLoop horizon n assignments it removed).1 =
      SwapRemove.sweepFrom (fun a => a.isOld horizon) n it assignments := by
  induction n generalizing assignments it removed with
  | zero => rfl
  | succ n ih =>
    unfold truncateLoop SwapRemove.sweepFrom
    cases assignments[it]? with
    | none => rfl
    | some a =>
      by_cases hold : a.isOld horizon = true
      · simp only [hold, if_true]
        exact ih _ _ _
      · simp only [hold, Bool.false_eq_true, if_false]
        exact ih _ _ _

theorem truncateLoop_kept (horizon : ℕ) (candidate : Candidate) :
    (truncateLoop horizon candidate.length candidate 0 []).1.Perm
      (candidate.filter fun a => !a.isOld horizon) := by
  rw [truncateLoop_fst]
  exact SwapRemove.sweep_perm _ candidate

theorem sumAssignmentWeights_eq (D : Assignables) (assignments : List Assignment) :
    sumAssignmentWeights D assignments = (assignments.map D.weight).sum := by
  rw [sumAssignmentWeights, List.sum_eq_foldl, List.foldl_map]

/-- The assignments before the horizon give their place and their weight to the state assignment. -/
theorem truncate_spec (horizon : ℕ) {stateEqSi : Assignment} (h : candidate.WellFormed)
    (hnew : ∀ b ∈ candidate, b.isOld horizon = false → b.var ≠ stateEqSi.var) :
    (truncate D horizon stateEqSi candidate).1.WellFormed ∧
      getWeight (truncate D horizon stateEqSi candidate).2
        (truncate D horizon stateEqSi candidate).1 = getWeight D candidate := by
  have hkept := truncateLoop_kept horizon candidate
  have hperm := truncateLoop_perm horizon candidate.length candidate 0 []
  unfold truncate
  dsimp only
  generalize truncateLoop horizon candidate.length candidate 0 [] = r at hkept hperm ⊢
  rw [List.append_nil] at hperm
  have hne : ∀ b ∈ r.1, b.var ≠ stateEqSi.var := by
    intro b hb
    obtain ⟨hb, hold⟩ := List.mem_filter.mp (hkept.mem_iff.mp hb)
    exact hnew b hb (by simpa using hold)
  constructor
  · have hwf : WellFormed r.1 := by
      have hnodup : ((r.1 ++ r.2).map (·.var)).Nodup := (hperm.map Assignment.var).nodup_iff.mpr h
      rw [List.map_append] at hnodup
      exact (List.nodup_append.mp hnodup).1
    rw [wellFormed_concat hwf]
    simpa [consistentAssignment] using hne
  · generalize hw : sumAssignmentWeights D r.2 = w
    have hsame : ∀ b ∈ r.1, (D.setWeight stateEqSi w).weight b = D.weight b := by
      intro b hb
      exact Function.update_of_ne (fun he => hne b hb (by rw [he])) _ _
    have hstate : (D.setWeight stateEqSi w).weight stateEqSi = w := Function.update_self _ _ _
    calc getWeight (D.setWeight stateEqSi w) (r.1 ++ [stateEqSi])
        = (r.1.map D.weight).sum + w := by
          rw [getWeight, sumAssignmentWeights_append, hstate, sumAssignmentWeights_eq,
            List.map_congr_left hsame]
      _ = ((r.1 ++ r.2).map D.weight).sum := by
          rw [← hw, sumAssignmentWeights_eq, List.map_append, List.sum_append]
      _ = getWeight D candidate := by
          rw [getWeight, sumAssignmentWeights_eq, (hperm.map D.weight).sum_eq]

end Candidate

namespace CbfsAgenda

variable {D : Assignables}

def WellFormed (agenda : CbfsAgenda D) : Prop :=
  ∀ e ∈ agenda.elements, e.generateCandidate.WellFormed

theorem wellFormed_insert {agenda : CbfsAgenda D} (h : agenda.WellFormed) {e : CbfsElement}
    (he : e.generateCandidate.WellFormed) : (agenda.insert e).WellFormed := by
  intro d hd
  rcases List.mem_cons.mp ((insert_perm agenda e).mem_iff.mp hd) with rfl | hd
  · exact he
  · exact h d hd

theorem wellFormed_pop {agenda agenda' : CbfsAgenda D} {e : CbfsElement} (h : agenda.WellFormed)
    (hpop : agenda.pop = some (e, agenda')) :
    e.generateCandidate.WellFormed ∧ agenda'.WellFormed := by
  have hmem (d : CbfsElement) := (pop_perm hpop).mem_iff (a := d)
  exact ⟨h e ((hmem e).mpr List.mem_cons_self),
    fun d hd => h d ((hmem d).mpr (List.mem_cons_of_mem e hd))⟩

theorem useful_of_popUselessAssignments {assignments rest : List Assignment} {candidate : Candidate}
    {a : Assignment} (h : popUselessAssignments D assignments candidate = a :: rest) :
    candidate.consistentAssignment a = true := by
  have huseful : CbfsElement.isAssignmentUseful D candidate a = true := by
    induction assignments with
    | nil => cases h
    | cons b assignments ih =>
      unfold popUselessAssignments at h ih
      by_cases hb : CbfsElement.isAssignmentUseful D candidate b = true
      · rw [List.dropWhile_cons_of_neg (by simp [hb])] at h
        obtain rfl := (List.cons.inj h).1
        exact hb
      · rw [List.dropWhile_cons_of_pos (by simp [hb])] at h
        exact ih h
  simp only [CbfsElement.isAssignmentUseful, Bool.and_eq_true] at huseful
  exact huseful.1.2

theorem generateCandidate_wellFormed {e : CbfsElement} (h : e.generateCandidate.WellFormed) :
    e.candidatePrefix.WellFormed := by
  unfold CbfsElement.generateCandidate Candidate.WellFormed at h
  rw [List.map_append] at h
  exact (List.nodup_append.mp h).1

theorem wellFormed_expandElement {agenda : CbfsAgenda D} (h : agenda.WellFormed) {e : CbfsElement}
    (he : e.generateCandidate.WellFormed) (k : Option Conflict) :
    (agenda.expandElement e k).WellFormed := by
  have hconflict : (agenda.expandConflict e k).WellFormed := by
    unfold expandConflict
    cases k with
    | none => exact h
    | some k =>
      dsimp only
      split
      · exact h
      · next a assignments hnew =>
        apply wellFormed_insert h
        exact (Candidate.wellFormed_concat he).mpr (useful_of_popUselessAssignments hnew)
  unfold expandElement
  dsimp only
  split
  · exact hconflict
  · next a remaining hpop =>
    apply wellFormed_insert hconflict
    exact (Candidate.wellFormed_concat (generateCandidate_wellFormed he)).mpr
      (useful_of_popUselessAssignments hpop)

theorem wellFormed_initializeAgenda (w : Weight) {candidates : List Candidate}
    (h : ∀ c ∈ candidates, c.WellFormed) : (initializeAgenda D w candidates).WellFormed := by
  have hempty : (empty D w).WellFormed := fun e he => absurd he List.not_mem_nil
  unfold initializeAgenda
  split
  · exact wellFormed_insert hempty (by decide)
  · have hfold (cs : List Candidate) (hcs : ∀ c ∈ cs, c.WellFormed) (agenda : CbfsAgenda D)
        (ha : agenda.WellFormed) :
        (cs.foldl (fun agenda c => agenda.insert { candidatePrefix := c }) agenda).WellFormed := by
      induction cs generalizing agenda with
      | nil => exact ha
      | cons c cs ih =>
        apply ih fun d hd => hcs d (List.mem_cons_of_mem c hd)
        apply wellFormed_insert ha
        simpa [CbfsElement.generateCandidate] using hcs c List.mem_cons_self
    exact hfold _ (fun c hc => h c (List.mem_reverse.mp hc)) _ hempty

/-- The agendas of a search that starts with well-formed candidates, whatever the conflicts. -/
inductive Searched (D : Assignables) : CbfsAgenda D → Prop
  | start (w : Weight) {candidates : List Candidate} (h : ∀ c ∈ candidates, c.WellFormed) :
    Searched D (initializeAgenda D w candidates)
  | expand {agenda agenda' : CbfsAgenda D} {e : CbfsElement} (k : Option Conflict) :
    Searched D agenda → agenda.pop = some (e, agenda') → Searched D (agenda'.expandElement e k)

theorem Searched.wellFormed {agenda : CbfsAgenda D} (h : Searched D agenda) :
    agenda.WellFormed := by
  induction h with
  | start w h => exact wellFormed_initializeAgenda w h
  | expand k _ hpop ih =>
    obtain ⟨he, hagenda⟩ := wellFormed_pop ih hpop
    exact wellFormed_expandElement hagenda he k

end CbfsAgenda

open Candidate in
/-- What extends or truncates candidates, and when it keeps them well formed. -/
theorem keeps_wellFormed (D : Assignables) :
    (∀ (c : Candidate) (a : Assignment), c.WellFormed →
      ((c.addConsistently a).WellFormed ↔ a ∉ c)) ∧
    (∀ (cs : List Candidate) (a : Assignment), (∀ c ∈ cs, c.WellFormed) →
      ((∀ c ∈ addAssumption cs a, c.WellFormed) ↔ ∀ c ∈ cs, a ∉ c)) ∧
    (∀ (c : Candidate) (horizon : ℕ) (stateEqSi : Assignment), c.WellFormed →
      (∀ b ∈ c, b.isOld horizon = false → b.var ≠ stateEqSi.var) →
      (c.truncate D horizon stateEqSi).1.WellFormed ∧
        getWeight (c.truncate D horizon stateEqSi).2 (c.truncate D horizon stateEqSi).1 =
          getWeight D c) ∧
    (∀ agenda : CbfsAgenda D, CbfsAgenda.Searched D agenda → ∀ e ∈ agenda.elements,
      e.generateCandidate.WellFormed ∧
        e.weight = agenda.emptyElementWeight + getWeight D e.generateCandidate) ∧
    ∀ c : Candidate, getWeight D c = (c.map D.weight).sum := by
  refine ⟨fun c a h => wellFormed_addConsistently h, fun cs a h => ?_,
    fun c horizon s h hnew => truncate_spec horizon h hnew, fun agenda h e he => ?_,
    fun c => sumAssignmentWeights_eq D c⟩
  · unfold addAssumption
    rw [List.forall_mem_map]
    exact forall₂_congr fun c hc => wellFormed_addConsistently (h c hc)
  · refine ⟨h.wellFormed e he, ?_⟩
    rw [agenda.weighed e he, CbfsElement.computeElementWeight_eq]

open ConflictDb (switches switch₀ switch₁) in
/-- The second switch is turned on, and then the first one is truncated. -/
theorem keeps_wellFormed_switches :
    (Candidate.addConsistently [⟨switch₀, 1⟩] ⟨switch₁, 1⟩).WellFormed ∧
      (Candidate.truncate switches 1 ⟨⟨0, 2⟩, 0⟩ [⟨switch₀, 1⟩, ⟨switch₁, 1⟩]).1.WellFormed := by
  obtain ⟨hadd, _, htruncate, _⟩ := keeps_wellFormed switches
  exact ⟨(hadd _ _ (by decide)).mpr (by decide), (htruncate _ _ _ (by decide) (by decide)).1⟩

/-- Adding the assignment that a candidate has makes two of it. -/
theorem not_wellFormed_addConsistently : ¬ ∀ (c : Candidate) (a : Assignment),
    c.WellFormed → (c.addConsistently a).WellFormed := by
  intro h
  have htwice := h [⟨⟨0, 0⟩, 1⟩] ⟨⟨0, 0⟩, 1⟩ (by decide)
  exact absurd htwice (by decide)

end Livingstone
