import Livingstone.Diagnosis.Adopting
import Livingstone.Proofs.Closure

/-! What the solver is asked about a candidate: whether the clauses that stand for no assumption, with
those of the values that hold under the candidate, are contradictory. A conflict is a part of these
values that is so already. -/

namespace Livingstone
namespace Engine

open UnitProp (Literal Contradicts Derives)
open ConflictDb (isAssumptionClause)

variable {D : Assignables} {e e' : Engine} {a b : Assignment} {c : ClauseId}
  {candidate : Candidate} {A B : Set Assignment}

/-- The clauses of the theory that stand for no assumption. -/
def background (D : Assignables) (e : Engine) : Set (Set (Literal PropId)) :=
  {C | ∃ c, e.solver.Active c ∧ isAssumptionClause D e.solver c = false ∧ C = e.solver.litSet c}

def unit (e : Engine) (a : Assignment) : Set (Literal PropId) := e.solver.litSet (e.clauseOf a)

/-- The theory once the assumptions are those of the set. -/
def under (D : Assignables) (e : Engine) (A : Set Assignment) : Set (Set (Literal PropId)) :=
  e.background D ∪ {C | ∃ a ∈ A, C = e.unit a}

theorem under_mono (h : A ⊆ B) : e.under D A ⊆ e.under D B := by
  refine Set.union_subset_union_right _ ?_
  rintro C ⟨a, ha, rfl⟩
  exact ⟨a, h ha, rfl⟩

theorem isAssumptionClause_iff {s : Ltms} : isAssumptionClause D s c = true ↔
    ∃ d, (s.clause c).datum = some d ∧ D.isAssumption (D.assignmentOf d).var = true := by
  unfold isAssumptionClause
  split
  · next h => simp [h]
  · next h => simp [h]

theorem isAssumptionClause_congr {s s' : Ltms} (h : (s'.clause c).datum = (s.clause c).datum) :
    isAssumptionClause D s' c = isAssumptionClause D s c := by
  unfold isAssumptionClause
  rw [h]

theorem Inv.assumption_clause (h : e.Inv D) (ha : e.solver.Active c)
    (hassumption : isAssumptionClause D e.solver c = true) :
    ∃ a, a.var ∈ e.assumptions ∧ e.current a.var = some a ∧ e.clauseOf a = c ∧
      (e.solver.clause c).datum.map D.assignmentOf = some a := by
  obtain ⟨d, hd, hvar⟩ := isAssumptionClause_iff.mp hassumption
  obtain ⟨hknown, hclause⟩ := h.datum c ha.1 d hd
  refine ⟨D.assignmentOf d, (h.assumptions _).mpr ⟨hknown.1, hvar⟩, ?_, hclause, by rw [hd]; rfl⟩
  exact (h.active _ hknown).mp (hclause ▸ ha)

def assumed (e : Engine) : Set Assignment := {a | a.var ∈ e.assumptions ∧ e.current a.var = some a}

theorem Inv.assumed_clause (h : e.Inv D) (ha : a ∈ e.assumed) :
    e.solver.Active (e.clauseOf a) ∧ isAssumptionClause D e.solver (e.clauseOf a) = true := by
  obtain ⟨hmem, hcur⟩ := ha
  obtain ⟨-, hknown⟩ := h.current _ _ hcur
  refine ⟨(h.active a hknown).mpr hcur, isAssumptionClause_iff.mpr ?_⟩
  obtain ⟨d, hd, heq⟩ := (h.stands a hknown).datum
  exact ⟨d, hd, heq.symm ▸ ((h.assumptions _).mp hmem).2⟩

theorem Inv.space_known_of_assumed (h : e.Inv D) (ha : a ∈ e.assumed) : (e.space D).Known a :=
  ⟨ha.1, (h.current _ _ ha.2).2.2⟩

theorem Inv.theory_eq (h : e.Inv D) : e.solver.theory = e.under D e.assumed := by
  ext C
  constructor
  · rintro ⟨c, hc, rfl⟩
    cases hassumption : isAssumptionClause D e.solver c with
    | false => exact Or.inl ⟨c, hc, hassumption, rfl⟩
    | true =>
      obtain ⟨a, hmem, hcur, rfl, -⟩ := h.assumption_clause hc hassumption
      exact Or.inr ⟨a, ⟨hmem, hcur⟩, rfl⟩
  · rintro (⟨c, hc, -, rfl⟩ | ⟨a, ha, rfl⟩)
    · exact ⟨c, hc, rfl⟩
    · exact ⟨_, (h.assumed_clause ha).1, rfl⟩

theorem Reassigned.unit (h : e.Reassigned e') (a : Assignment) : e'.unit a = e.unit a := by
  unfold Engine.unit Ltms.litSet
  rw [h.clauseOf, h.lits]

theorem Reassigned.background (h : e.Reassigned e') (hinv : e.Inv D) (hinv' : e'.Inv D)
    (hothers : ∀ v, v ∉ e.assumptions → e'.current v = e.current v) :
    e'.background D = e.background D := by
  have hiff (c : ClauseId) : e'.solver.Active c ∧ isAssumptionClause D e'.solver c = false ↔
      e.solver.Active c ∧ isAssumptionClause D e.solver c = false := by
    rw [isAssumptionClause_congr (h.datum c)]
    refine and_congr_left fun hnot => ?_
    cases hd : (e.solver.clause c).datum with
    | none => exact h.others c hd
    | some d =>
      by_cases hc : c ∈ e.solver.clauses
      · obtain ⟨hknown, hclause⟩ := hinv.datum c hc d hd
        have hvar : (D.assignmentOf d).var ∉ e.assumptions := by
          intro hmem
          rw [isAssumptionClause_iff.mpr ⟨d, hd, ((hinv.assumptions _).mp hmem).2⟩] at hnot
          cases hnot
        have hact := hinv.active _ hknown
        have hact' := hinv'.active _ ((h.known _).mpr hknown)
        rw [h.clauseOf] at hact'
        rw [← hclause, hact, hact', hothers _ hvar]
      · exact iff_of_false (fun ha => hc (h.clauses ▸ ha.1)) fun ha => hc ha.1
  ext C
  unfold Engine.background Ltms.litSet
  simp only [Set.mem_ofPred_eq, ← and_assoc, hiff, h.lits]

/-- Engines with the same clauses outside the assumptions and the same ones for their values. -/
structure SameGround (D : Assignables) (e e' : Engine) : Prop where
  reassigned : e.Reassigned e'
  background : e'.background D = e.background D

namespace SameGround

theorem refl (D : Assignables) (e : Engine) : SameGround D e e := ⟨Reassigned.refl e, rfl⟩

theorem trans {e'' : Engine} (h : SameGround D e e') (h' : SameGround D e' e'') :
    SameGround D e e'' :=
  ⟨h.reassigned.trans h'.reassigned, h'.background.trans h.background⟩

theorem under (h : SameGround D e e') (A : Set Assignment) : e'.under D A = e.under D A := by
  unfold Engine.under
  rw [h.background]
  simp only [h.reassigned.unit]

theorem space (h : SameGround D e e') : e'.space D = e.space D :=
  space_eq h.reassigned.assumptions

end SameGround

theorem Adopted.sameGround (h : e.Adopted D candidate e') (hinv : e.Inv D) (hinv' : e'.Inv D) :
    SameGround D e e' := ⟨h.reassigned, h.reassigned.background hinv hinv' h.others⟩

/-- The values that hold under a selection. -/
def holding (D : Assignables) (e : Engine) (Δ : Finset Assignment) : Set Assignment :=
  {a | a.var ∈ e.assumptions ∧ D.Holds Δ a}

/-- No contradiction is derived from what holds under the selection. -/
def Consistent (D : Assignables) (e : Engine) (Δ : Finset Assignment) : Prop :=
  ¬ Contradicts (e.under D (e.holding D Δ))

theorem SameGround.holding (h : SameGround D e e') (Δ : Finset Assignment) :
    e'.holding D Δ = e.holding D Δ := by
  unfold Engine.holding
  rw [h.reassigned.assumptions]

theorem SameGround.consistent (h : SameGround D e e') (Δ : Finset Assignment) :
    e'.Consistent D Δ ↔ e.Consistent D Δ := by
  unfold Engine.Consistent
  rw [h.holding, h.under]

theorem Adopted.assumed (h : e.Adopted D candidate e') :
    e'.assumed = e.holding D candidate.toFinset := by
  ext a
  unfold Engine.assumed holding
  rw [h.reassigned.assumptions]
  exact and_congr_right fun ha => h.holds a ha

theorem Adopted.theory (h : e.Adopted D candidate e') (hinv : e.Inv D) (hinv' : e'.Inv D) :
    e'.solver.theory = e.under D (e.holding D candidate.toFinset) := by
  rw [hinv'.theory_eq, h.assumed, (h.sameGround hinv hinv').under]

/-- The values cannot hold together. -/
def Nogood (D : Assignables) (e : Engine) (assignments : List Assignment) : Prop :=
  (∀ a ∈ assignments, (e.space D).Known a) ∧ Contradicts (e.under D {a | a ∈ assignments})

/-- The stored conflicts are nogoods. -/
def Justified (D : Assignables) (e : Engine) : Prop :=
  ∀ c ∈ e.db.conflicts, e.Nogood D (e.db.conflict c).assignments

theorem SameGround.nogood (h : SameGround D e e') (assignments : List Assignment) :
    e'.Nogood D assignments ↔ e.Nogood D assignments := by
  unfold Nogood
  rw [h.under, h.space]

theorem SameGround.justified (h : SameGround D e e') (hdb : e'.db = e.db) :
    e'.Justified D ↔ e.Justified D := by
  unfold Justified
  simp only [hdb, h.nogood]

/-- The assignments for which the clauses stand, as `conflict` collects them. -/
def assignmentsOf (D : Assignables) (s : Ltms) (clauses : List ClauseId) : List Assignment :=
  clauses.foldl (fun as c => ((s.clause c).datum.map D.assignmentOf).toList ++ as) []

theorem mem_assignmentsOf {s : Ltms} {clauses : List ClauseId} : a ∈ assignmentsOf D s clauses ↔
    ∃ c ∈ clauses, (s.clause c).datum.map D.assignmentOf = some a := by
  have hall (as : List Assignment) : a ∈ clauses.foldl
      (fun as c => ((s.clause c).datum.map D.assignmentOf).toList ++ as) as ↔
      (∃ c ∈ clauses, (s.clause c).datum.map D.assignmentOf = some a) ∨ a ∈ as := by
    induction clauses generalizing as with
    | nil => simp
    | cons c clauses ih =>
      rw [List.foldl_cons, ih, List.mem_append, List.exists_mem_cons_iff, Option.mem_toList,
        or_left_comm, or_assoc]
  exact (hall []).trans (or_iff_left List.not_mem_nil)

theorem Inv.nogood_of_blamed (h : e.Inv D) {out : List ClauseId}
    (hout : ∀ c ∈ out, isAssumptionClause D e.solver c = true ∧ e.solver.Active c)
    (hcon : Contradicts (e.solver.blamed (isAssumptionClause D e.solver) out)) :
    (∀ a ∈ assignmentsOf D e.solver out, a ∈ e.assumed) ∧
      e.Nogood D (assignmentsOf D e.solver out) := by
  have hassumed : ∀ a ∈ assignmentsOf D e.solver out, a ∈ e.assumed := by
    intro a ha
    obtain ⟨c, hc, ha⟩ := mem_assignmentsOf.mp ha
    obtain ⟨hassumption, hact⟩ := hout c hc
    obtain ⟨b, hmem, hcur, -, hdatum⟩ := h.assumption_clause hact hassumption
    obtain rfl := Option.some.inj (hdatum.symm.trans ha)
    exact ⟨hmem, hcur⟩
  refine ⟨hassumed, fun a ha => h.space_known_of_assumed (hassumed a ha), Contradicts.mono ?_ hcon⟩
  rintro C ⟨c, hact, hc | hnot, rfl⟩
  · obtain ⟨b, -, -, rfl, hdatum⟩ := h.assumption_clause hact (hout c hc).1
    exact Or.inr ⟨b, mem_assignmentsOf.mpr ⟨_, hc, hdatum⟩, rfl⟩
  · exact Or.inl ⟨c, hact, hnot, rfl⟩

theorem Inv.setSolver (h : e.Inv D) {s : Ltms} (hs : s.Inv) (hclauses : s.clauses = e.solver.clauses)
    (hlits : ∀ c, (s.clause c).lits = (e.solver.clause c).lits)
    (hdatum : ∀ c, (s.clause c).datum = (e.solver.clause c).datum)
    (hactive : ∀ c, s.Active c ↔ e.solver.Active c) :
    ({ e with solver := s } : Engine).Inv D ∧ SameGround D e { e with solver := s } := by
  have hre : e.Reassigned { e with solver := s } :=
    ⟨hclauses, hlits, hdatum, fun c _ => hactive c, rfl, rfl, rfl⟩
  have hinv : ({ e with solver := s } : Engine).Inv D :=
    hre.inv h hs h.linked (fun a ha => (hactive _).trans (h.active a ha)) h.current
  exact ⟨hinv, hre, hre.background h hinv fun _ _ => rfl⟩

theorem Inv.outline (h : e.Inv D) {s : Ltms} (hs : s.Inv) (ho : e.solver.Outline s) :
    ({ e with solver := s } : Engine).Inv D ∧ SameGround D e { e with solver := s } :=
  h.setSolver hs ho.clauses ho.lits (ho.field Clause.datum fun _ => rfl) ho.active

theorem Inv.restamped (h : e.Inv D) {s : Ltms} (hr : e.solver.Restamped s) (hst : s.Stamps) :
    ({ e with solver := s } : Engine).Inv D ∧ SameGround D e { e with solver := s } :=
  h.setSolver (hr.inv h.solver hst) hr.clauses hr.lits (hr.field Clause.datum fun _ _ => rfl) hr.active

theorem Inv.addConflict (h : e.Inv D) {assignments : List Assignment}
    (hn : e.Nogood D assignments) (tag : ℕ) {c : ConflictId} {db : ConflictDb}
    (hadd : e.db.addConflict D assignments tag = (c, db)) :
    db.Linked D ∧ c ∈ db.conflicts ∧ (∀ a ∈ (db.conflict c).assignments, a ∈ assignments) ∧
      (e.Justified D → ∀ k ∈ db.conflicts, e.Nogood D (db.conflict k).assignments) := by
  have hlinked := h.linked.addConflict assignments tag
  rw [hadd] at hlinked
  rcases ConflictDb.addConflict_cases D e.db assignments tag with
    ⟨k, hk, hsub, heq⟩ | ⟨-, db', heq, hstored⟩
  · obtain ⟨rfl, rfl⟩ := Prod.mk.inj (hadd.symm.trans heq)
    exact ⟨hlinked, hk, by simpa [Conflict.subsumes] using hsub, fun hj => hj⟩
  · obtain ⟨rfl, rfl⟩ := Prod.mk.inj (hadd.symm.trans heq)
    have hnew : (db.conflict e.db.next).assignments = assignments := by
      rw [hstored.conflict, Function.update_self]
    refine ⟨hlinked, hstored.perm.mem_iff.mpr List.mem_cons_self, fun a ha => hnew ▸ ha,
      fun hj k hk => ?_⟩
    rcases List.mem_cons.mp (hstored.perm.mem_iff.mp hk) with rfl | hk
    · rw [hnew]
      exact hn
    · rw [hstored.conflict, Function.update_of_ne (h.linked.allocated k hk).ne]
      exact hj k hk

/-- What `conflict` answers. A conflict is stored, all of its values hold, and they cannot hold
together. -/
def Answers (e e' : Engine) : Option ConflictId → Prop
  | none => ¬ Contradicts e.solver.theory ∧ e'.solver.Quiet
  | some c => Contradicts e.solver.theory ∧ c ∈ e'.db.conflicts ∧
      ∀ a ∈ (e'.db.conflict c).assignments, a ∈ e.assumed

theorem conflict_spec (h : e.Inv D) (tag : ℕ) :
    ∃ c e', e.conflict D tag = .ok (c, e') ∧ e'.Inv D ∧ SameGround D e e' ∧
      e'.current = e.current ∧ e'.candidates = e.candidates ∧ Answers e e' c ∧
      (e.Justified D → e'.Justified D) := by
  obtain ⟨b, s, hs, hinv, ho, hquiet, hb⟩ := h.solver.propagate
  obtain ⟨hinv₁, hground₁⟩ := h.outline hinv ho
  set e₁ : Engine := { e with solver := s } with he₁
  have hj₁ : e₁.Justified D ↔ e.Justified D := hground₁.justified rfl
  cases b with
  | true =>
    refine ⟨none, e₁, ?_, hinv₁, hground₁, rfl, rfl, ⟨hb.mp rfl, hquiet rfl⟩, hj₁.mpr⟩
    unfold conflict ConflictDb.discover
    simp only [hs, bind, Except.bind]
    rfl
  | false =>
    have hcon : Contradicts e.solver.theory := by
      by_contra hnot
      cases hb.mpr hnot
    have hunsat : s.unsatisfied ≠ [] := by
      intro hnil
      obtain ⟨b', s', hs', -, -, hb', -⟩ := Ltms.propagate_spec h.solver
      obtain ⟨rfl, rfl⟩ := Prod.mk.inj (Except.ok.inj (hs.symm.trans hs'))
      cases hb'.mpr hnil
    obtain ⟨out, s₂, hs₂, hr, hst, -, hout, hblamed⟩ :=
      Ltms.lastConflict_spec hinv (isAssumptionClause D s)
    have hunit : ∀ c, s.Active c → isAssumptionClause D s c = true →
        ∃ l, (s.clause c).lits = [l] := by
      intro c hact hassumption
      obtain ⟨a, -, hcur, rfl, -⟩ := hinv₁.assumption_clause hact hassumption
      exact (hinv₁.stands a (hinv₁.current _ _ hcur).2).unit
    obtain ⟨hassumed, hnogood⟩ := hinv₁.nogood_of_blamed hout (hblamed hunsat hunit)
    obtain ⟨hinv₂, hground₂⟩ := hinv₁.restamped hr hst
    set e₂ : Engine := { e₁ with solver := s₂ } with he₂
    have hdatum : assignmentsOf D s₂ out = assignmentsOf D s out := by
      unfold assignmentsOf
      simp only [hr.field Clause.datum fun _ _ => rfl]
    cases hadd : e.db.addConflict D (assignmentsOf D s out) tag with
    | mk c db =>
      obtain ⟨hlinked, hmem, hsub, hall⟩ := hinv₁.addConflict hnogood tag hadd
      have hre : e₂.Reassigned { e₂ with db := db } :=
        ⟨rfl, fun _ => rfl, fun _ => rfl, fun _ _ => Iff.rfl, rfl, rfl, rfl⟩
      have hinv₃ : ({ e₂ with db := db } : Engine).Inv D :=
        hre.inv hinv₂ hinv₂.solver hlinked hinv₂.active hinv₂.current
      have hground : SameGround D e₁ { e₂ with db := db } :=
        hground₂.trans ⟨hre, rfl⟩
      refine ⟨some c, { e₂ with db := db }, ?_, hinv₃, hground₁.trans hground, rfl, rfl,
        ⟨hcon, hmem, fun a ha => ?_⟩, fun hj k hk => ?_⟩
      · unfold conflict ConflictDb.discover
        simp only [hs, hs₂, bind, Except.bind]
        unfold assignmentsOf at hdatum hadd
        simp only [hdatum, hadd]
        rfl
      · exact hassumed a (hsub a ha)
      · exact (hground.nogood _).mpr (hall (hj₁.mpr hj) k hk)

end Engine

end Livingstone
