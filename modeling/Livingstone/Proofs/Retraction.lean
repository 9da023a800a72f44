import Livingstone.Proofs.PartialPropagate
import Livingstone.Proofs.MoveSupport
import Livingstone.Tms.Finish

/-! What removal and batch destruction take back, after histories of every kind of call.
Both follow the links of the clauses, which a slice of `partial_propagate` does not set. -/

namespace Livingstone

open UnitProp (Derives Contradicts)

inductive Event where
  | call (op : Op)
  | slice (iterations : ℕ)
  | move (old : PropId) (moved : List ClauseId) (new : PropId)
  | destroy (ps : List PropId) (cs : List ClauseId)

namespace Ltms

variable {s s' : Ltms} {es : List Event} {e : Event} {c : ClauseId} {p : PropId}
  {ps : List PropId} {cs : List ClauseId}

/-- One event, with arguments its caller may give. -/
def Does (e : Event) (s s' : Ltms) : Prop :=
  match e with
  | .call op => s.Valid op ∧ s.apply op = .ok s'
  | .slice n => ∃ r, s.partialPropagate n = .ok (r, s')
  | .move old moved new => s.Fresh old moved new ∧ s.moveSupport old moved new = .ok s'
  | .destroy ps cs => (∀ p ∈ ps, p ∈ s.props) ∧ (∀ c ∈ cs, c ∈ s.clauses) ∧
      s.destroy ps cs = .ok s'

inductive History : List Event → Ltms → Prop
  | nil : History [] {}
  | snoc {es : List Event} {e : Event} {s s' : Ltms} (h : History es s) (hd : Does e s s') :
      History (es ++ [e]) s'

/-- A slice has nothing to propagate, and a move takes the supporter along or its
clauses stand the loss. -/
def Meets (s : Ltms) : Event → Prop
  | .slice n => s.Idle n
  | .move old moved _ => s.Movable old moved
  | _ => True

/-- A history whose events all meet the condition. -/
inductive Sound : List Event → Ltms → Prop
  | nil : Sound [] {}
  | snoc {es : List Event} {e : Event} {s s' : Ltms} (h : Sound es s) (hd : Does e s s')
      (hm : s.Meets e) : Sound (es ++ [e]) s'

theorem Sound.history (h : Sound es s) : History es s := by
  induction h with
  | nil => exact History.nil
  | snoc _ hd _ ih => exact ih.snoc hd

theorem unmarked_empty : ({} : Ltms).Unmarked :=
  ⟨fun _ => rfl, fun _ h => absurd h List.not_mem_nil⟩

/-- One event that meets the condition keeps the invariant, and nothing stays marked. -/
theorem Does.keeps (hd : Does e s s') (hm : s.Meets e) (h : s.Inv) (hun : s.Unmarked) :
    s'.Inv ∧ s'.Unmarked := by
  cases e with
  | call op =>
    obtain ⟨hv, hs⟩ := hd
    obtain ⟨t, ht, hinv⟩ := apply_spec h hv
    exact ⟨Except.ok.inj (ht.symm.trans hs) ▸ hinv, hun.apply hv hs⟩
  | slice n =>
    obtain ⟨r, hr⟩ := hd
    obtain ⟨r', hr', -⟩ := Idle.partialPropagate hm
    cases hr.symm.trans hr'
    exact ⟨h, hun⟩
  | move old moved new =>
    obtain ⟨hf, hs⟩ := hd
    obtain ⟨t, ht, hinv⟩ := (h.moveSupport_iff hf).mpr hm
    exact ⟨Except.ok.inj (ht.symm.trans hs) ▸ hinv, hun.same (SameFlags.moveSupport hs)⟩
  | destroy ps cs =>
    obtain ⟨hps, -, hs⟩ := hd
    obtain ⟨b, t, ht, hinv, hun', -⟩ := destroy_spec cs h hun hps
    obtain rfl := Except.ok.inj (ht.symm.trans hs)
    exact ⟨hinv, hun'⟩

theorem Sound.inv (h : Sound es s) : s.Inv ∧ s.Unmarked := by
  induction h with
  | nil => exact ⟨inv_empty, unmarked_empty⟩
  | snoc _ hd hm ih => exact hd.keeps hm ih.1 ih.2

/-- No proposition takes part in its own derivation. -/
def Acyclic (s : Ltms) : Prop :=
  ∀ p, ¬ Relation.TransGen (fun p q => p ≠ q ∧ s.Feeds p q) p p

theorem Inv.acyclic (h : s.Inv) : s.Acyclic := by
  obtain ⟨rank, hs⟩ := h.support
  have hstep {p q : PropId} (hpq : p ≠ q ∧ s.Feeds p q) : rank p < rank q := by
    obtain ⟨hne, d, hd, b, hb⟩ := hpq
    obtain ⟨ha, hg⟩ := hs.forth q d hd (Set.notMem_empty q)
    obtain ⟨x, -, -, hrest⟩ := hs.just d ha.1 q hg
    exact (hrest (p, b) hb fun he => hne (Prod.mk.inj he).1).2
  have hlt {p q : PropId} (hpq : Relation.TransGen (fun p q => p ≠ q ∧ s.Feeds p q) p q) :
      rank p < rank q := by
    induction hpq with
    | single h => exact hstep h
    | tail _ h ih => exact ih.trans (hstep h)
  intro p hp
  exact (hlt hp).false

/-- `s'` is `s` without the clause `c` and what was derived through it. -/
structure Removed (c : ClauseId) (s s' : Ltms) : Prop where
  active : ∀ d, s'.Active d ↔ s.Active d ∧ d ≠ c
  unassigned : ∀ p, s.value p ≠ .unknown → (s'.value p = .unknown ↔ s.DependsOn c p)
  kept : ∀ p, ¬ s.DependsOn c p →
    s'.value p = s.value p ∧ (s'.prop p).supportedBy = (s.prop p).supportedBy
  acyclic : s'.Acyclic

/-- After any history whose events meet the condition, `remove` returns and unassigns
exactly the propositions whose derivation passes through the clause. -/
theorem remove_removed (h : Sound es s) (ha : s.Active c) :
    ∃ s', s.remove c = .ok s' ∧ Removed c s s' := by
  obtain ⟨s', hs', hinv, hsel, hr⟩ := remove_retracts h.inv.1 ha
  refine ⟨s', hs', hsel.active, fun p hp => ⟨fun hv => ?_, hr.gone p⟩, hr.kept, hinv.acyclic⟩
  by_contra hn
  exact hp ((hr.kept p hn).1 ▸ hv)

theorem Run.sound {ops : List Op} (h : Run ops s) : Sound (ops.map .call) s := by
  induction h with
  | nil => exact Sound.nil
  | snoc _ hv hs ih =>
    rw [List.map_append]
    exact ih.snoc ⟨hv, hs⟩ trivial

theorem remove_removed_refutedChain : ∃ s s', Sound (refutedChain.map .call) s ∧
    s.remove 0 = .ok s' ∧ Removed 0 s s' := by
  have h := run_refutedChain.sound
  obtain ⟨s', hs', hr⟩ := remove_removed (c := 0) h ⟨by decide, by decide⟩
  exact ⟨_, s', h, hs', hr⟩

def unitSliced : List Event := [.call .createProposition,
  .call (.createClause none [0] [] false true), .slice 2]

theorem history_unitSliced : ∃ s, History unitSliced s ∧ s.value 0 = .ptrue ∧
    (s.prop 0).supportedBy = some 0 ∧ s.Active 0 ∧
    (∃ s', s.remove 0 = .ok s' ∧ s'.value 0 = .ptrue) ∧
    ∃ s', s.destroy [] [0] = .ok s' ∧ s'.value 0 = .ptrue ∧
      (s'.prop 0).supportedBy = some 0 ∧ s'.clauses = [] := by
  have h₁ : History [.call .createProposition] _ := History.nil.snoc ⟨trivial, rfl⟩
  have h₂ : History ([.call .createProposition] ++ [.call (.createClause none [0] [] false true)])
      _ := h₁.snoc ⟨by decide, rfl⟩
  have h₃ : History (_ ++ [.slice 2]) _ := h₂.snoc ⟨_, rfl⟩
  exact ⟨_, h₃, rfl, rfl, ⟨by decide, rfl⟩, ⟨_, rfl, rfl⟩, _, rfl, rfl, rfl, rfl⟩

/-- The slice leaves the clause without a link, and its removal takes nothing back. -/
theorem removed_clause_leaves_consequence : ∃ s s', History unitSliced s ∧ s.Active 0 ∧
    s.remove 0 = .ok s' ∧ ¬ Removed 0 s s' := by
  obtain ⟨s, h, hv, hsup, ha, ⟨s', hs', hv'⟩, -⟩ := history_unitSliced
  refine ⟨s, s', h, ha, hs', fun hr => ?_⟩
  have := (hr.unassigned 0 (by simp [hv])).mpr (DependsOn.supported hsup)
  rw [hv'] at this
  cases this

/-- Every reference is to a proposition or a clause that exists. -/
structure NoDangling (s : Ltms) : Prop where
  occurrences : ∀ p b, ∀ c ∈ s.occurrences p b, c ∈ s.clauses
  literals : ∀ c ∈ s.clauses, ∀ l ∈ (s.clause c).lits, l.1 ∈ s.props
  fringe : ∀ v, ∀ c ∈ s.fringeOf v, c ∈ s.clauses
  unsatisfied : ∀ c ∈ s.unsatisfied, c ∈ s.clauses
  supportedBy : ∀ p c, (s.prop p).supportedBy = some c → c ∈ s.clauses
  supports : ∀ c ∈ s.clauses, ∀ p, (s.clause c).getSupports = some p → p ∈ s.props
  satisfyingProp : ∀ c ∈ s.clauses, ∀ p, (s.clause c).satisfyingProp = some p → p ∈ s.props
  undoList : s.undoList = []

theorem Inv.noDangling (h : s.Inv) : s.NoDangling := by
  obtain ⟨rank, hs⟩ := h.support
  refine ⟨fun p b c hc => (h.wf.mem_occurrences.mp hc).1, h.wf.lits_props,
    fun v c hc => ((h.containers.fringe_mem v c).mp hc).1,
    fun c hc => ((h.containers.unsat_mem c).mp hc).1,
    fun p c hp => (hs.forth p c hp (Set.notMem_empty p)).1.1, fun c hc p hp => ?_,
    fun c hc p hp => ?_, h.undo⟩
  · obtain ⟨b, hb, -⟩ := hs.just c hc p hp
    exact h.wf.lits_props c hc _ hb
  · have hb : ∃ b, (p, b) ∈ (s.clause c).lits := by
      cases hdel : (s.clause c).deleted with
      | true => exact (h.marks.deleted c hc hdel).sat p hp
      | false =>
        obtain ⟨b, hb, -⟩ := (h.marks.active c ⟨hc, hdel⟩).sat p hp
        exact ⟨b, hb⟩
    obtain ⟨b, hb⟩ := hb
    exact h.wf.lits_props c hc _ hb

/-- `s'` is like an LTMS built from the clauses of `s` that stay: the values are their
closure unless they are contradictory, and then one of them is unsatisfied. -/
structure Rebuilt (ps : List PropId) (cs : List ClauseId) (s s' : Ltms) : Prop where
  destroyed : s.Destroyed ps cs s'
  noDangling : s'.NoDangling
  theory : s'.theory = {C | ∃ c, s.Active c ∧ ¬ s.Doomed ps cs c ∧ C = s.litSet c}
  consistent : s'.unsatisfied = [] ↔ ¬ Contradicts s'.theory
  closure : s'.unsatisfied = [] → ∀ p,
    (s'.value p = .ptrue ↔ Derives s'.theory (p, true)) ∧
      (s'.value p = .pfalse ↔ Derives s'.theory (p, false))
  same : ∀ es t, Sound es t → t.theory = s'.theory → ∃ b t', t.propagate = .ok (b, t') ∧
    (b = true ↔ s'.unsatisfied = []) ∧ (b = true → t'.value = s'.value)

theorem Destroyed.theory (h : s.Destroyed ps cs s') :
    s'.theory = {C | ∃ c, s.Active c ∧ ¬ s.Doomed ps cs c ∧ C = s.litSet c} := by
  ext C
  constructor
  · rintro ⟨c, ha, rfl⟩
    obtain ⟨ha', hd⟩ := (h.active c).mp ha
    exact ⟨c, ha', hd, by simp only [litSet, h.lits c ha.1]⟩
  · rintro ⟨c, ha, hd, rfl⟩
    have ha' := (h.active c).mpr ⟨ha, hd⟩
    exact ⟨c, ha', by simp only [litSet, h.lits c ha'.1]⟩

theorem Inv.not_contradicts_iff (h : s.Inv) (hfr : s.unsatisfied = [] → ∀ v, s.fringeOf v = []) :
    s.unsatisfied = [] ↔ ¬ Contradicts s.theory := by
  constructor
  · intro hu
    exact (h.saturated ⟨hu, hfr hu⟩).not_contradicts (coherent_litVal s)
  · intro hn
    by_contra hu
    exact hn (h.contradicts hu)

/-- After any history whose events meet the condition, destroying any propositions and
clauses leaves what an LTMS of the other clauses would be. -/
theorem destroy_rebuilt (h : Sound es s) (ps : List PropId) (cs : List ClauseId)
    (hps : ∀ p ∈ ps, p ∈ s.props) :
    ∃ s', s.destroy ps cs = .ok s' ∧ Rebuilt ps cs s s' := by
  obtain ⟨b, s', hs', hinv, -, hdes, hb, hfr⟩ := destroy_spec cs h.inv.1 h.inv.2 hps
  have hquiet (hu : s'.unsatisfied = []) : s'.Quiet := ⟨hu, hfr (hb.mpr hu)⟩
  have hcon := hinv.not_contradicts_iff fun hu => (hquiet hu).fringe
  refine ⟨s', hs', hdes, hinv.noDangling, hdes.theory, hcon, fun hu p => ?_,
    fun es t ht hth => ?_⟩
  · rw [← litVal_true_iff.1, ← litVal_true_iff.2]
    exact ⟨hinv.litVal_iff_derives (hquiet hu) _, hinv.litVal_iff_derives (hquiet hu) _⟩
  · obtain ⟨b₂, t', ht', hinv', ho', hq', hb'⟩ := ht.inv.1.propagate
    have hth' : t'.theory = s'.theory := ho'.theory.trans hth
    have hiff : b₂ = true ↔ s'.unsatisfied = [] := by
      rw [hb', hcon, hth]
    exact ⟨b₂, t', ht', hiff, fun ht =>
      value_eq_of_theory hinv (hquiet (hiff.mp ht)) hinv' (hq' ht) hth'⟩

theorem destroy_rebuilt_refutedChain : ∃ s s', Sound (refutedChain.map .call) s ∧
    s.destroy [0] [2] = .ok s' ∧ Rebuilt [0] [2] s s' := by
  have h := run_refutedChain.sound
  obtain ⟨s', hs', hr⟩ := destroy_rebuilt h [0] [2] (by decide)
  exact ⟨_, s', h, hs', hr⟩

/-- After such a slice the proposition stays true, supported by a clause that is gone. -/
theorem destroyed_clause_leaves_consequence : ∃ s s', History unitSliced s ∧
    s.destroy [] [0] = .ok s' ∧ ¬ s'.NoDangling ∧ s'.value 0 = .ptrue ∧
      ¬ Derives s'.theory (0, true) := by
  obtain ⟨s, h, -, -, -, -, s', hs', hv, hsup, hnil⟩ := history_unitSliced
  refine ⟨s, s', h, hs', fun hn => ?_, hv, fun hd => ?_⟩
  · have := hn.supportedBy 0 0 hsup
    rw [hnil] at this
    cases this
  · cases hd with
    | unit hC _ _ =>
      obtain ⟨c, ha, -⟩ := hC
      have := ha.1
      rw [hnil] at this
      cases this

end Ltms

end Livingstone
