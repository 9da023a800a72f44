import Livingstone.Lib.Placement
import Livingstone.Readers.FromXmpl

/-! The clauses of an XMPL file. What is smaller than the first proposition is put after it, so the
list is in order only if the first proposition that is read is the least. -/

namespace Livingstone.FromXmpl

open Placement

variable {p c : ℕ} {ps qs l : List ℕ} {s : Clauses}

def LeastFirst (ps : List ℕ) : Prop := ∀ p ∈ ps.head?, ∀ q ∈ ps, p ≤ q

theorem addClauseProp_eq :
    addClauseProp p l = place id (min l.length (search id p l - 1 + 1)) p l := by
  cases l with
  | nil => rfl
  | cons q l =>
    have hle : search id p (q :: l) - 1 + 1 ≤ (q :: l).length := by
      have hsearch : search id p (q :: l) ≤ (q :: l).length := search_le
      rw [List.length_cons] at hsearch ⊢
      omega
    rw [min_eq_right hle]
    unfold addClauseProp place search
    dsimp only
    rw [if_neg (List.cons_ne_nil q l)]
    rfl

theorem mem_addClauseProp {q : ℕ} : q ∈ addClauseProp p l ↔ q = p ∨ q ∈ l := by
  rw [addClauseProp_eq, mem_place (min_le_left _ _)]

theorem head?_addClauseProp : (addClauseProp p l).head? = l.head?.or (some p) := by
  unfold addClauseProp
  cases l with
  | nil => rfl
  | cons q l =>
    dsimp only
    split
    · rfl
    · rw [if_neg (List.cons_ne_nil q l), List.insertIdx_succ_cons]
      rfl

theorem increasing_addClauseProp : Increasing id (addClauseProp p l) ↔
    Increasing id l ∧ (p ∈ l ∨ ∀ q ∈ l.head?, q < p) := by
  rw [addClauseProp_eq, increasing_place (min_le_left _ _)]
  refine and_congr_right fun hl => ?_
  cases l with
  | nil => simp
  | cons q l =>
    have hsearch : search id p (q :: l) ≤ (q :: l).length := search_le
    have hpos : min (q :: l).length (search id p (q :: l) - 1 + 1) =
        search id p (q :: l) - 1 + 1 := by
      rw [List.length_cons] at hsearch ⊢
      omega
    rw [hpos]
    by_cases hp : p ∈ q :: l
    · simp only [hp, true_or]
    simp only [hp, false_or, List.head?_cons, Option.mem_some, forall_eq']
    constructor
    · intro hparts
      exact hparts.1 q (by simp)
    · intro hlt
      have hne : search id p (q :: l) ≠ 0 := by
        intro hzero
        have hget : (q :: l)[search id p (q :: l)]? = some q := by
          rw [hzero]
          rfl
        have hfound : p = q ∨ id p < id q := of_getElem?_search hget
        rcases hfound with heq | hgt
        · exact hlt.ne' heq
        · exact (hlt.trans hgt).false
      rw [Nat.sub_add_cancel (Nat.pos_of_ne_zero hne)]
      refine ⟨fun b hb => ?_, fun b hb => lt_of_mem_drop hl hp hb⟩
      obtain ⟨hne, hle⟩ := le_of_mem_take hb
      exact lt_of_le_of_ne hle (Ne.symm hne)

theorem mem_addAll {q : ℕ} : q ∈ addAll ps ↔ q ∈ ps := by
  have hloop (l : List ℕ) : q ∈ ps.foldl (fun l p => addClauseProp p l) l ↔ q ∈ ps ∨ q ∈ l := by
    induction ps generalizing l with
    | nil => simp
    | cons p ps ih => rw [List.foldl_cons, ih, mem_addClauseProp, List.mem_cons, or_left_comm, or_assoc]
  rw [addAll, hloop]
  simp

theorem head?_addAll : (addAll ps).head? = ps.head? := by
  have hloop (l : List ℕ) :
      (ps.foldl (fun l p => addClauseProp p l) l).head? = l.head?.or ps.head? := by
    induction ps generalizing l with
    | nil => simp
    | cons p ps ih =>
      rw [List.foldl_cons, ih, head?_addClauseProp]
      cases l <;> simp
  exact hloop []

theorem increasing_addAll : Increasing id (addAll ps) ↔ LeastFirst ps := by
  refine (increasing_foldl (fun l p => increasing_addClauseProp) ps).trans ?_
  have hmem (ps₁ : List ℕ) (q : ℕ) :
      q ∈ ps₁.foldl (fun l p => addClauseProp p l) [] ↔ q ∈ ps₁ := mem_addAll
  have hhead (ps₁ : List ℕ) : (ps₁.foldl (fun l p => addClauseProp p l) []).head? = ps₁.head? :=
    head?_addAll
  simp only [hmem, hhead]
  unfold LeastFirst
  cases ps with
  | nil => simp
  | cons p ps =>
    simp only [List.head?_cons, Option.mem_some, forall_eq']
    constructor
    · intro hall q hq
      obtain ⟨ps₁, ps₂, heq, hnew⟩ := List.eq_append_cons_of_mem hq
      have hfirst := (hall ps₁ q ps₂ heq).resolve_left hnew
      cases ps₁ with
      | nil => exact (List.cons.inj heq).1.le
      | cons b ps₁ =>
        obtain ⟨rfl, -⟩ := List.cons.inj heq
        exact (hfirst p rfl).le
    · intro hleast ps₁ q ps₂ heq
      cases ps₁ with
      | nil => simp
      | cons b ps₁ =>
        obtain ⟨rfl, rfl⟩ := List.cons.inj heq
        rcases (hleast q (by simp)).eq_or_lt with rfl | hlt
        · exact Or.inl List.mem_cons_self
        · exact Or.inr (by simpa using hlt)

theorem findClause_readClause (h : s.findClause l = some c) :
    (readClause ps s).2.findClause l = some c := by
  unfold readClause findOrCreateClause
  split
  · exact h
  · split
    · exact h
    · next hnone =>
      have hne : addAll ps ≠ l := by
        rintro rfl
        rw [h] at hnone
        cases hnone
      unfold Clauses.findClause at h ⊢
      simpa [hne] using h

theorem findClause_readClauses (file : List (List ℕ)) (h : s.findClause l = some c) :
    (readClauses file s).findClause l = some c := by
  unfold readClauses
  induction file generalizing s with
  | nil => exact h
  | cons ps file ih => exact ih (findClause_readClause h)

theorem readClause_spec (hne : addAll ps ≠ []) : ∃ c, (readClause ps s).1 = some c ∧
    (readClause ps s).2.findClause (addAll ps) = some c := by
  unfold readClause findOrCreateClause
  rw [if_neg fun hlen => hne (List.eq_nil_of_length_eq_zero hlen)]
  split
  · next c hc => exact ⟨c, rfl, hc⟩
  · exact ⟨s.nclauses, rfl, by simp [Clauses.findClause]⟩

theorem readClause_nil (h : addAll ps = []) : readClause ps s = (none, s) := by
  unfold readClause findOrCreateClause
  rw [h]
  rfl

theorem readClause_found (hne : addAll ps ≠ []) (h : s.findClause (addAll ps) = some c) :
    readClause ps s = (some c, s) := by
  unfold readClause findOrCreateClause
  rw [if_neg fun hlen => hne (List.eq_nil_of_length_eq_zero hlen), h]

/-- Two orders give the same clause, whatever is read before, between and in whichever state. -/
def SameClause (ps qs : List ℕ) : Prop :=
  ∀ (s : Clauses) (between : List (List ℕ)),
    (readClause qs (readClauses between (readClause ps s).2)).1 = (readClause ps s).1

theorem sameClause_of_eq (h : addAll ps = addAll qs) : SameClause ps qs := by
  intro s between
  by_cases hnil : addAll ps = []
  · rw [readClause_nil hnil, readClause_nil (h ▸ hnil)]
  · obtain ⟨c, hc, hfound⟩ := readClause_spec (s := s) hnil
    have hlater := findClause_readClauses between hfound
    rw [h] at hlater hnil
    rw [readClause_found hnil hlater, hc]

/-- The lists are in order, and two orders of the same propositions give the same clause. -/
def SortedAndSame (ps qs : List ℕ) : Prop :=
  Increasing id (addAll ps) ∧ Increasing id (addAll qs) ∧ (ps.Perm qs → SameClause ps qs)

theorem sortedAndSame_iff (ps qs : List ℕ) :
    SortedAndSame ps qs ↔ LeastFirst ps ∧ LeastFirst qs := by
  unfold SortedAndSame
  rw [increasing_addAll, increasing_addAll, ← and_assoc]
  refine and_iff_left_of_imp fun ⟨hp, hq⟩ hperm => sameClause_of_eq ?_
  refine eq_of_increasing (increasing_addAll.mpr hp) (increasing_addAll.mpr hq) fun p => ?_
  rw [mem_addAll, mem_addAll, hperm.mem_iff]

theorem not_sortedAndSame : addAll [2, 1] = [2, 1] ∧ addAll [3, 1, 2, 1] = [3, 1, 2, 1] ∧
    (readClause [1, 2] (readClause [2, 1] {}).2).1 = some 1 ∧
    (readClause [2, 1] {}).1 = some 0 ∧ ¬ SortedAndSame [2, 1] [1, 2] := by
  refine ⟨by decide, by decide, by decide, by decide, fun h => ?_⟩
  have hbad : ¬ (addAll [2, 1]).Pairwise fun p q => id p < id q := by decide
  exact hbad h.1

end Livingstone.FromXmpl
