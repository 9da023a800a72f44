import Livingstone.Tms.Variable

/-! What the constructor of a clause stores of two lists of literals. Its sizes and indices are
signed characters, which the domain clause of a variable with many values exceeds. -/

namespace Livingstone
namespace Clause

def initializeClause (k : Clause) : Clause :=
  { k with
    numUnassigned := k.numLits
    satisfyingProp := none
    timeStamp := 0
    supports := noProposition
    inFringe := false
    unsatisfied := false }

theorem numUnassigned_initializeClause (k : Clause) :
    k.initializeClause.numUnassigned = k.numLits := rfl

/-- The clause holds the distinct propositions of both lists, and its sizes and indices are those
of the literals. -/
structure Exact (k : Clause) (pos neg : List PropId) : Prop where
  literals : k.literals = k.positiveProps ++ k.negativeProps
  positive : k.positiveProps.Nodup ∧ ∀ p, p ∈ k.positiveProps ↔ p ∈ pos
  negative : k.negativeProps.Nodup ∧ ∀ p, p ∈ k.negativeProps ↔ p ∈ neg
  numPosLits : k.numPosLits = pos.toFinset.card
  numLits : k.numLits = (pos.toFinset.card + neg.toFinset.card : ℕ)
  initialized : k.initializeClause.numUnassigned = k.numLits
  /-- The count that `Ptheory::add` makes while the propositions are unknown. -/
  added : ∀ s : Ltms, (∀ p ∈ pos ++ neg, s.value p = .unknown) → s.countUnassigned k = k.numLits
  supports : ∀ p ∈ k.literals, ∃ k', k.setSupports (some p) = .ok k' ∧ k'.getSupports = some p

variable {pos neg : List PropId} {v : Bool} {datum : Option ℕ}

theorem Exact.card_le (h : (construct datum pos neg v).Exact pos neg) :
    pos.toFinset.card + neg.toFinset.card ≤ 127 := by
  have hn := h.numLits
  have hlt : (construct datum pos neg v).numLits < 128 := by
    simp only [construct, lengthT]
    exact Int.bmod_lt (by norm_num)
  omega

theorem literals_construct (datum : Option ℕ) (v : Bool) (hfit : Fits pos neg) :
    (construct datum pos neg v).positiveProps = pos.eraseDups ∧
      (construct datum pos neg v).negativeProps = neg.eraseDups := by
  obtain ⟨hp, hn⟩ := construct_counts datum v hfit
  have hl : (construct datum pos neg v).literals = pos.eraseDups ++ neg.eraseDups := rfl
  simp only [positiveProps, negativeProps, hp, hn, hl, Int.toNat_natCast, List.take_left,
    List.take_length, List.drop_left, and_self]

theorem countUnassigned_construct (hfit : Fits pos neg) {s : Ltms}
    (hs : ∀ p ∈ pos ++ neg, s.value p = .unknown) :
    s.countUnassigned (construct datum pos neg v) = (construct datum pos neg v).numLits := by
  have hall : ∀ l ∈ (construct datum pos neg v).lits, decide (s.litVal l = none) = true := by
    intro l hl
    have hmem : l.1 ∈ pos ++ neg := by
      have hl' := (mem_lits_construct datum v hfit).mp hl
      cases hb : l.2 with
      | true => simp [hb] at hl'; exact List.mem_append_left _ hl'
      | false => simp [hb] at hl'; exact List.mem_append_right _ hl'
    simp [Ltms.litVal, hs l.1 hmem]
  have hlen : (construct datum pos neg v).lits.length = (pos.eraseDups ++ neg.eraseDups).length := by
    rw [lits_construct datum v hfit]
    simp
  rw [(construct_counts datum v hfit).2, Ltms.countUnassigned, List.countP_eq_length.mpr hall, hlen]
  exact lengthT_of_le (by omega) (by exact_mod_cast hfit)

theorem setSupports_construct (hfit : Fits pos neg) {p : PropId}
    (hp : p ∈ (construct datum pos neg v).literals) :
    ∃ k', (construct datum pos neg v).setSupports (some p) = .ok k' ∧ k'.getSupports = some p := by
  have hshape := clauseShape_construct datum v hfit
  obtain ⟨b, hl⟩ : ∃ b, (p, b) ∈ (construct datum pos neg v).lits := by
    rcases List.mem_append.mp hp with hp | hp
    · exact ⟨true, (mem_lits_construct datum v hfit).mpr (by simpa using hp)⟩
    · exact ⟨false, (mem_lits_construct datum v hfit).mpr (by simpa using hp)⟩
  obtain ⟨i, hset, hsup⟩ := hshape.setSupports hl
  exact ⟨_, hset, hsup⟩

theorem exact_construct_iff (datum : Option ℕ) (pos neg : List PropId) (v : Bool) :
    (construct datum pos neg v).Exact pos neg ↔ pos.toFinset.card + neg.toFinset.card ≤ 127 := by
  constructor
  · exact Exact.card_le
  · intro hle
    have hfit := (fits_iff pos neg).mpr hle
    obtain ⟨hp, hn⟩ := literals_construct datum v hfit
    obtain ⟨hpc, hnc⟩ := construct_counts datum v hfit
    refine ⟨?_, ?_, ?_, ?_, ?_, numUnassigned_initializeClause _, fun s hs => countUnassigned_construct hfit hs,
      fun p hp => setSupports_construct hfit hp⟩
    · rw [hp, hn]
      rfl
    · rw [hp]
      exact ⟨nodup_eraseDups pos, fun p => List.mem_eraseDups⟩
    · rw [hn]
      exact ⟨nodup_eraseDups neg, fun p => List.mem_eraseDups⟩
    · rw [hpc, length_eraseDups]
    · rw [hnc, List.length_append, length_eraseDups, length_eraseDups]

/-- The clauses that are stored as they are given, and the domain clauses among them. -/
theorem exact_iff (datum : Option ℕ) (pos neg : List PropId) (v : Bool) (s : Ltms)
    (domainCardinality : ℕ) :
    ((construct datum pos neg v).Exact pos neg ↔
      pos.toFinset.card + neg.toFinset.card ≤ 127) ∧
    ((construct none (s.createPropositions domainCardinality).1 [] false).Exact
      (s.createPropositions domainCardinality).1 [] ↔ domainCardinality ≤ 127) := by
  apply And.intro (exact_construct_iff datum pos neg v)
  rw [exact_construct_iff,
    List.toFinset_card_of_nodup (s.createPropositions_nodup domainCardinality),
    s.createPropositions_length]
  simp

/-- The domain clause of a variable with 128 values. -/
theorem not_exact_domain :
    ¬ (construct none (({} : Ltms).createPropositions 128).1 [] false).Exact
      (({} : Ltms).createPropositions 128).1 [] := by
  intro h
  have hle := h.card_le
  rw [List.toFinset_card_of_nodup (Ltms.createPropositions_nodup _ _),
    Ltms.createPropositions_length] at hle
  simp at hle

end Clause
end Livingstone
