import Livingstone.Tms.Run

/-! The clauses of a new variable (`variable.cpp`): one proposition for each value, of which one and
no two are true. -/

namespace Livingstone

theorem length_eraseDups {α : Type*} [DecidableEq α] (xs : List α) :
    xs.eraseDups.length = xs.toFinset.card := by
  rw [← List.toFinset_card_of_nodup (nodup_eraseDups xs)]
  congr 1
  ext x
  simp [List.mem_eraseDups]

theorem fits_iff (pos neg : List PropId) :
    Fits pos neg ↔ pos.toFinset.card + neg.toFinset.card ≤ 127 := by
  rw [Fits, List.length_append, length_eraseDups, length_eraseDups]

namespace Ltms

/-- The propositions of a new variable, and `all_props` too: the one created last comes first. -/
def createPropositions (s : Ltms) : ℕ → List PropId × Ltms
  | 0 => ([], s)
  | n + 1 =>
    let (propositions, s) := s.createPropositions n
    let (p, s) := s.createProposition
    (p :: propositions, s)

/-- The clauses that say that `p` and another of the propositions are not both true. -/
def mutexWith (p : PropId) (s : Ltms) (others : List PropId) : Except L2Error Ltms :=
  others.foldlM (fun s q => do return (← s.createClause none [] [q, p] false true).2) s

def mutexClauses : List PropId → Ltms → Except L2Error Ltms
  | [], s => .ok s
  | p :: propositions, s => do
    let s ← mutexWith p s propositions
    mutexClauses propositions s

/-- The constructor of `Variable`. -/
def newVariable (s : Ltms) (domainCardinality : ℕ) : Except L2Error (List PropId × Ltms) := do
  let (propositions, s) := s.createPropositions domainCardinality
  let (_, s) ← s.createClause none propositions [] false true
  let s ← mutexClauses propositions s
  return (propositions, s)

variable {s s' : Ltms}

theorem createPropositions_eq (s : Ltms) (n : ℕ) :
    (s.createPropositions n).1 = ((List.range n).map (s.nextProp + ·)).reverse ∧
      (s.createPropositions n).2.nextProp = s.nextProp + n ∧
      (s.createPropositions n).2.props = s.props ++ (List.range n).map (s.nextProp + ·) := by
  induction n with
  | zero => simp [createPropositions]
  | succ n ih =>
    obtain ⟨hp, hnext, hprops⟩ := ih
    simp only [createPropositions, createProposition, hp, hnext, hprops, List.range_succ,
      List.map_append, List.map_cons, List.map_nil, List.reverse_append, List.reverse_cons,
      List.reverse_nil, List.nil_append, List.singleton_append, List.append_assoc, true_and]
    exact ⟨Nat.add_assoc _ _ _, trivial⟩

theorem createPropositions_nodup (s : Ltms) (n : ℕ) : (s.createPropositions n).1.Nodup := by
  rw [(createPropositions_eq s n).1, List.nodup_reverse]
  exact List.nodup_range.map fun _ _ h => Nat.add_left_cancel h

theorem createPropositions_length (s : Ltms) (n : ℕ) : (s.createPropositions n).1.length = n := by
  simp [(createPropositions_eq s n).1]

theorem createPropositions_inv (h : s.Inv) (n : ℕ) : (s.createPropositions n).2.Inv := by
  induction n with
  | zero => exact h
  | succ n ih => exact createProposition_inv ih

theorem createClause_inv (h : s.Inv) {pos neg : List PropId} (hfit : Fits pos neg)
    (hp : ∀ p ∈ pos ++ neg, p ∈ s.props) :
    ∃ s', s.createClause none pos neg false true = .ok (s.nextClause, s') ∧ s'.Inv ∧
      s'.props = s.props := by
  have hinv := newClause_inv none false h hfit
    (fun p hm => hp p (List.mem_append_left _ hm)) (fun p hm => hp p (List.mem_append_right _ hm))
  have hc := newClause_created (s := s) none false hfit
  obtain ⟨s', hs', hinv', -, hsel⟩ := add_spec (c := s.nextClause) hinv
    (hc.mem_clauses.mpr (Or.inr rfl)) (by rw [hc.new]; rfl)
  refine ⟨s', ?_, hinv', hsel.props.trans hc.props⟩
  unfold createClause
  simp only [newClause_fst, if_true, hs']
  rfl

theorem mutexWith_inv (h : s.Inv) {p : PropId} (hp : p ∈ s.props) {others : List PropId}
    (ho : ∀ q ∈ others, q ∈ s.props) :
    ∃ s', mutexWith p s others = .ok s' ∧ s'.Inv ∧ s'.props = s.props := by
  induction others generalizing s with
  | nil => exact ⟨s, rfl, h, rfl⟩
  | cons q others ih =>
    have hfit : Fits [] [q, p] := by
      have hle := List.toFinset_card_le [q, p]
      rw [fits_iff]
      exact le_trans (Nat.add_le_add_left hle _) (by simp)
    have hq : ∀ x ∈ [] ++ [q, p], x ∈ s.props := by
      intro x hx
      rcases List.mem_pair.mp hx with rfl | rfl
      · exact ho x List.mem_cons_self
      · exact hp
    obtain ⟨s₁, hs₁, hinv, hprops⟩ := createClause_inv h hfit hq
    have ho' : ∀ x ∈ others, x ∈ s₁.props := fun x hx => hprops ▸ ho x (List.mem_cons_of_mem q hx)
    obtain ⟨s₂, hs₂, hinv₂, hprops₂⟩ := ih hinv (hprops ▸ hp) ho'
    refine ⟨s₂, ?_, hinv₂, hprops₂.trans hprops⟩
    unfold mutexWith at hs₂ ⊢
    rw [List.foldlM_cons, hs₁]
    exact hs₂

theorem mutexClauses_inv (h : s.Inv) {propositions : List PropId}
    (hp : ∀ p ∈ propositions, p ∈ s.props) :
    ∃ s', mutexClauses propositions s = .ok s' ∧ s'.Inv ∧ s'.props = s.props := by
  induction propositions generalizing s with
  | nil => exact ⟨s, rfl, h, rfl⟩
  | cons p propositions ih =>
    obtain ⟨s₁, hs₁, hinv, hprops⟩ := mutexWith_inv h (hp p List.mem_cons_self)
      fun q hq => hp q (List.mem_cons_of_mem p hq)
    obtain ⟨s₂, hs₂, hinv₂, hprops₂⟩ := ih hinv fun q hq =>
      hprops ▸ hp q (List.mem_cons_of_mem p hq)
    refine ⟨s₂, ?_, hinv₂, hprops₂.trans hprops⟩
    rw [mutexClauses, hs₁]
    exact hs₂

theorem newVariable_inv (h : s.Inv) {n : ℕ} (hn : n ≤ 127) :
    ∃ s', s.newVariable n = .ok ((s.createPropositions n).1, s') ∧ s'.Inv := by
  obtain ⟨hps, -, hprops⟩ := createPropositions_eq s n
  have hmem : ∀ p ∈ (s.createPropositions n).1, p ∈ (s.createPropositions n).2.props := by
    intro p hp
    rw [hps, List.mem_reverse] at hp
    rw [hprops]
    exact List.mem_append_right _ hp
  have hfit : Fits (s.createPropositions n).1 [] := by
    rw [fits_iff, List.toFinset_card_of_nodup (createPropositions_nodup s n),
      createPropositions_length]
    simpa using hn
  obtain ⟨s₁, hs₁, hinv, hprops₁⟩ := createClause_inv (createPropositions_inv h n) hfit
    (by simpa using hmem)
  obtain ⟨s₂, hs₂, hinv₂, -⟩ := mutexClauses_inv hinv fun p hp => hprops₁ ▸ hmem p hp
  refine ⟨s₂, ?_, hinv₂⟩
  unfold newVariable
  simp only [hs₁, bind, Except.bind, hs₂]
  rfl

end Ltms
end Livingstone
