import Livingstone.Tms.Trace

/-! Histories of an LTMS. A run is a sequence of calls, each with arguments its
caller may give; every such call returns, and every state it leads to meets the
representation invariant. -/

namespace Livingstone

open UnitProp (Literal Derives Contradicts)

inductive Op where
  | createProposition
  | createClause (datum : Option ℕ) (pos neg : List PropId) (isVolatile inTheory : Bool)
  | add (c : ClauseId)
  | remove (c : ClauseId)
  | propagate
  | lastConflict (predicate : ClauseId → Bool)

namespace Ltms

variable {s s' : Ltms} {ops : List Op} {op : Op}

/-- The clauses and propositions of a call exist, and a new clause has at most 127
distinct literals. -/
def Valid (s : Ltms) : Op → Prop
  | .createClause _ pos neg _ _ => Fits pos neg ∧ ∀ p ∈ pos ++ neg, p ∈ s.props
  | .add c => c ∈ s.clauses
  | .remove c => c ∈ s.clauses
  | _ => True

instance (s : Ltms) (op : Op) : Decidable (s.Valid op) := by
  cases op <;> (unfold Valid; infer_instance)

def apply (s : Ltms) : Op → Except L2Error Ltms
  | .createProposition => .ok s.createProposition.2
  | .createClause datum pos neg isVolatile inTheory => do
    return (← s.createClause datum pos neg isVolatile inTheory).2
  | .add c => s.add c
  | .remove c => s.remove c
  | .propagate => do return (← s.propagate).2
  | .lastConflict predicate => do return (← s.lastConflict predicate).2

/-- `Run ops s`: the calls `ops` on a new LTMS lead to `s`. -/
inductive Run : List Op → Ltms → Prop
  | nil : Run [] {}
  | snoc {ops : List Op} {op : Op} {s s' : Ltms} (h : Run ops s) (hv : s.Valid op)
      (hs : s.apply op = .ok s') : Run (ops ++ [op]) s'

theorem inv_empty : ({} : Ltms).Inv := by
  refine ⟨⟨List.nodup_nil, List.nodup_nil, by simp, by simp, by simp, by simp, ?_, ?_⟩,
    ⟨?_, ?_, ?_, by simp, List.nodup_nil⟩, ⟨?_, by simp⟩, ⟨fun _ => 0, ?_⟩, rfl,
    ⟨Nat.zero_le _, by simp⟩⟩
  · intro c p b
    cases b <;> simp [occurrences]
  · intro p b
    cases b <;> simp [occurrences]
  · intro v c
    cases v <;> simp [fringeOf]
  · intro v
    cases v <;> simp [fringeOf]
  · intro v i c
    cases v <;> simp [fringeOf]
  · intro c hc
    exact absurd hc.1 List.not_mem_nil
  · exact ⟨by simp [value], by simp [value], by simp, by simp, by simp, List.nodup_nil, by simp⟩

theorem Inv.unsatisfied_clause (h : s.Inv) {c : ClauseId} (hc : c ∈ s.unsatisfied) :
    s.Active c ∧ ∀ l ∈ (s.clause c).lits, s.litVal l = some false := by
  obtain ⟨hcc, hu⟩ := (h.containers.unsat_mem c).mp hc
  have ha : s.Active c := by
    refine ⟨hcc, ?_⟩
    by_contra hdel
    have := (h.marks.deleted c hcc (by simpa using hdel)).unsatisfied
    simp [Clause.mark, hu] at this
  have hb := h.marks.active c ha
  obtain ⟨hsat, h0⟩ := hb.unsatisfied.mp hu
  exact ⟨ha, hb.all_false hsat h0⟩

theorem lastConflict_spec (h : s.Inv) (predicate : ClauseId → Bool) :
    ∃ out s', s.lastConflict predicate = .ok (out, s') ∧ s.Restamped s' ∧ s'.Stamps ∧ out.Nodup ∧
      (∀ d ∈ out, predicate d = true ∧ s.Active d) ∧
      (s.unsatisfied ≠ [] →
        (∀ d, s.Active d → predicate d = true → ∃ l, (s.clause d).lits = [l]) →
          Contradicts (s.blamed predicate out)) := by
  cases hu : s.unsatisfied with
  | nil =>
    refine ⟨[], s, by simp only [lastConflict, hu], Restamped.refl s, h.stamps, List.nodup_nil,
      by simp, fun hne => absurd rfl hne⟩
  | cons c cs =>
    obtain ⟨hc, hf⟩ := h.unsatisfied_clause (c := c) (by simp [hu])
    obtain ⟨out, s', hs', hr, hst, hn, hp, hcon⟩ := getClauseSupport_spec h hc hf predicate
    exact ⟨out, s', by simp only [lastConflict, hu, hs'], hr, hst, hn, hp, fun _ => hcon⟩

theorem createClause_spec (datum : Option ℕ) {pos neg : List PropId} (v : Bool) (h : s.Inv)
    (hfit : Fits pos neg) (hp : ∀ p ∈ pos ++ neg, p ∈ s.props) (inTheory : Bool) :
    ∃ s', s.createClause datum pos neg v inTheory = .ok (s.nextClause, s') ∧ s'.Inv := by
  have hinv := newClause_inv datum v h hfit
    (fun p hm => hp p (List.mem_append_left _ hm)) (fun p hm => hp p (List.mem_append_right _ hm))
  have hc := newClause_created (s := s) datum v hfit
  unfold createClause
  cases inTheory with
  | false => exact ⟨(s.newClause datum pos neg v).2, rfl, hinv⟩
  | true =>
    obtain ⟨s', hs', hinv', -, -⟩ := add_spec (c := s.nextClause) hinv
      (hc.mem_clauses.mpr (Or.inr rfl)) (by rw [hc.new]; rfl)
    refine ⟨s', ?_, hinv'⟩
    simp only [newClause_fst, if_true, hs']
    rfl

theorem apply_spec (h : s.Inv) (hv : s.Valid op) : ∃ s', s.apply op = .ok s' ∧ s'.Inv := by
  cases op with
  | createProposition => exact ⟨_, rfl, createProposition_inv h⟩
  | createClause datum pos neg v inTheory =>
    obtain ⟨s', hs', hinv⟩ := createClause_spec datum v h hv.1 hv.2 inTheory
    exact ⟨s', by simp only [apply, hs']; rfl, hinv⟩
  | add c =>
    cases hdel : (s.clause c).deleted with
    | false => exact ⟨s, by simp [apply, add, hdel], h⟩
    | true =>
      obtain ⟨s', hs', hinv, -⟩ := add_spec h hv hdel
      exact ⟨s', hs', hinv⟩
  | remove c =>
    cases hdel : (s.clause c).deleted with
    | true => exact ⟨s, by simp [apply, remove, hdel], h⟩
    | false =>
      obtain ⟨s', hs', hinv, -⟩ := remove_spec h ⟨hv, hdel⟩
      exact ⟨s', hs', hinv⟩
  | propagate =>
    obtain ⟨b, s', hs', hinv, -⟩ := propagate_spec h
    exact ⟨s', by simp only [apply, hs']; rfl, hinv⟩
  | lastConflict predicate =>
    obtain ⟨out, s', hs', hr, hst, -⟩ := lastConflict_spec h predicate
    exact ⟨s', by simp only [apply, hs']; rfl, hr.inv h hst⟩

theorem Run.inv (h : Run ops s) : s.Inv := by
  induction h with
  | nil => exact inv_empty
  | snoc _ hv hs ih =>
    obtain ⟨s', hs', hinv⟩ := apply_spec ih hv
    exact Except.ok.inj (hs'.symm.trans hs) ▸ hinv

/-- The state after a history, if every call of it is valid. -/
def runOps (ops : List Op) : Except L2Error Ltms :=
  ops.foldlM (fun s op => if s.Valid op then s.apply op else .error .assertion) {}

theorem runOps_concat (ops : List Op) (op : Op) : runOps (ops ++ [op]) =
    runOps ops >>= fun s => if s.Valid op then s.apply op else .error .assertion := by
  simp [runOps, List.foldlM_append]

theorem run_of_runOps (h : runOps ops = .ok s) : Run ops s := by
  induction ops using List.reverseRecOn generalizing s with
  | nil => exact Except.ok.inj h ▸ Run.nil
  | append_singleton ops op ih =>
    rw [runOps_concat] at h
    cases hs : runOps ops with
    | error e => simp [hs, bind, Except.bind] at h
    | ok s₀ =>
      simp only [hs, bind, Except.bind] at h
      split_ifs at h with hv
      exact (ih hs).snoc hv h

/-- The state after a history, or a new LTMS where the history is not valid. -/
def stateAfter (ops : List Op) : Ltms :=
  match runOps ops with
  | .ok s => s
  | .error _ => {}

theorem run_stateAfter (h : (runOps ops).isOk = true) : Run ops (stateAfter ops) := by
  unfold stateAfter
  cases hs : runOps ops with
  | error e => simp [hs, Except.isOk, Except.toBool] at h
  | ok s => exact run_of_runOps hs

/-- Two propositions, a unit clause, a clause that carries it on and a volatile unit
clause against it. -/
def refutedChain : List Op :=
  [.createProposition, .createProposition, .createClause none [0] [] false true,
    .createClause none [1] [0] false true, .createClause none [] [1] true true, .propagate]

theorem run_refutedChain : Run refutedChain (stateAfter refutedChain) :=
  run_stateAfter (by decide)

end Ltms

end Livingstone
