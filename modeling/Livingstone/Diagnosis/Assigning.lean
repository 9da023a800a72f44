import Livingstone.ConflictDb.Agree
import Livingstone.Diagnosis.Engine
import Livingstone.Tms.Flags

/-! The invariant of the engine, and what assignments do to it. The clauses are always the same; those
in the theory are the clauses without a datum and those of the current assignments. -/

namespace Livingstone
namespace Engine

open Function (update update_self update_of_ne)
open Ltms (SameFlags)

variable {D : Assignables} {e e' e'' : Engine} {a b : Assignment} {v : VarId}

/-- `a` is a value of an assignable variable. -/
def Known (D : Assignables) (e : Engine) (a : Assignment) : Prop :=
  a.var ∈ e.assignables ∧ a ∈ D.assignments a.var

def memory (e : Engine) : ConflictDb × List Candidate := (e.db, e.candidates)

structure Stands (D : Assignables) (e : Engine) (a : Assignment) : Prop where
  mem : e.clauseOf a ∈ e.solver.clauses
  unit : ∃ l, (e.solver.clause (e.clauseOf a)).lits = [l]
  datum : ∃ d, (e.solver.clause (e.clauseOf a)).datum = some d ∧ D.assignmentOf d = a

structure Inv (D : Assignables) (e : Engine) : Prop where
  solver : e.solver.Inv
  linked : e.db.Linked D
  stands : ∀ a, e.Known D a → e.Stands D a
  datum : ∀ c ∈ e.solver.clauses, ∀ d, (e.solver.clause c).datum = some d →
    e.Known D (D.assignmentOf d) ∧ e.clauseOf (D.assignmentOf d) = c
  active : ∀ a, e.Known D a → (e.solver.Active (e.clauseOf a) ↔ e.current a.var = some a)
  current : ∀ v a, e.current v = some a → a.var = v ∧ e.Known D a
  assumptions : ∀ v, v ∈ e.assumptions ↔ v ∈ e.assignables ∧ D.isAssumption v = true

/-- The clauses are the same, and so are those in the theory that have no datum. -/
structure Reassigned (e e' : Engine) : Prop where
  clauses : e'.solver.clauses = e.solver.clauses
  lits : ∀ c, (e'.solver.clause c).lits = (e.solver.clause c).lits
  datum : ∀ c, (e'.solver.clause c).datum = (e.solver.clause c).datum
  others : ∀ c, (e.solver.clause c).datum = none → (e'.solver.Active c ↔ e.solver.Active c)
  clauseOf : e'.clauseOf = e.clauseOf
  assignables : e'.assignables = e.assignables
  assumptions : e'.assumptions = e.assumptions

namespace Reassigned

theorem refl (e : Engine) : e.Reassigned e :=
  ⟨rfl, fun _ => rfl, fun _ => rfl, fun _ _ => Iff.rfl, rfl, rfl, rfl⟩

theorem trans (h : e.Reassigned e') (h' : e'.Reassigned e'') : e.Reassigned e'' where
  clauses := h'.clauses.trans h.clauses
  lits c := (h'.lits c).trans (h.lits c)
  datum c := (h'.datum c).trans (h.datum c)
  others c hc := (h'.others c ((h.datum c).trans hc)).trans (h.others c hc)
  clauseOf := h'.clauseOf.trans h.clauseOf
  assignables := h'.assignables.trans h.assignables
  assumptions := h'.assumptions.trans h.assumptions

theorem known (h : e.Reassigned e') (a : Assignment) : e'.Known D a ↔ e.Known D a := by
  unfold Known
  rw [h.assignables]

theorem inv (h : e.Reassigned e') (hinv : e.Inv D) (hsolver : e'.solver.Inv)
    (hlinked : e'.db.Linked D)
    (hactive : ∀ a, e.Known D a → (e'.solver.Active (e.clauseOf a) ↔ e'.current a.var = some a))
    (hcurrent : ∀ v a, e'.current v = some a → a.var = v ∧ e.Known D a) : e'.Inv D where
  solver := hsolver
  linked := hlinked
  stands a ha := by
    obtain ⟨hmem, hunit, hdatum⟩ := hinv.stands a ((h.known a).mp ha)
    refine ⟨?_, ?_, ?_⟩
    · rw [h.clauseOf, h.clauses]
      exact hmem
    · rw [h.clauseOf, h.lits]
      exact hunit
    · rw [h.clauseOf, h.datum]
      exact hdatum
  datum c hc d hd := by
    rw [h.known, h.clauseOf]
    exact hinv.datum c (h.clauses ▸ hc) d ((h.datum c).symm.trans hd)
  active a ha := by
    rw [h.clauseOf]
    exact hactive a ((h.known a).mp ha)
  current v a ha := by
    rw [h.known]
    exact hcurrent v a ha
  assumptions v := by
    rw [h.assumptions, h.assignables]
    exact hinv.assumptions v

end Reassigned

theorem Inv.clauseOf_inj (h : e.Inv D) (ha : e.Known D a) (hb : e.Known D b)
    (heq : e.clauseOf a = e.clauseOf b) : a = b := by
  obtain ⟨d, hd, rfl⟩ := (h.stands a ha).datum
  obtain ⟨d', hd', rfl⟩ := (h.stands b hb).datum
  rw [heq] at hd
  rw [Option.some.inj (hd.symm.trans hd')]

theorem Inv.clauseOf_ne (h : e.Inv D) (ha : e.Known D a) {c : ClauseId}
    (hc : (e.solver.clause c).datum = none) : c ≠ e.clauseOf a := by
  rintro rfl
  obtain ⟨d, hd, -⟩ := (h.stands a ha).datum
  cases hc.symm.trans hd

/-- What is left in the theory once the variable has no value. -/
structure Retracted (e : Engine) (v : VarId) (s : Ltms) : Prop where
  inv : s.Inv
  clauses : s.clauses = e.solver.clauses
  lits : ∀ c, (s.clause c).lits = (e.solver.clause c).lits
  datum : ∀ c, (s.clause c).datum = (e.solver.clause c).datum
  active : ∀ c, s.Active c ↔ e.solver.Active c ∧ ∀ a, e.current v = some a → c ≠ e.clauseOf a

theorem retract_spec (h : e.Inv D) (v : VarId) :
    ∃ s, e.retract v = .ok s ∧ e.Retracted v s := by
  unfold retract
  cases hcur : e.current v with
  | none =>
    refine ⟨e.solver, rfl, h.solver, rfl, fun _ => rfl, fun _ => rfl, fun c => ?_⟩
    simp [hcur]
  | some a =>
    obtain ⟨rfl, hknown⟩ := h.current v a hcur
    have hact := (h.active a hknown).mpr hcur
    obtain ⟨s, hs, hinv, hsel⟩ := Ltms.remove_spec h.solver hact
    have hf := SameFlags.remove hs
    refine ⟨s, hs, hinv, hsel.clauses, hsel.lits, hf.datum, fun c => ?_⟩
    rw [hsel.active, hcur]
    simp

theorem Retracted.reassign {s s' : Ltms} {x : Option Assignment} (h : e.Inv D)
    (hr : e.Retracted v s) (hs' : s'.Inv) (hx : ∀ a ∈ x, a.var = v ∧ e.Known D a)
    (hclauses : s'.clauses = s.clauses) (hlits : ∀ c, (s'.clause c).lits = (s.clause c).lits)
    (hdatum : ∀ c, (s'.clause c).datum = (s.clause c).datum)
    (hactive : ∀ c, s'.Active c ↔ s.Active c ∨ ∃ a ∈ x, c = e.clauseOf a) :
    ({ e with solver := s', current := update e.current v x } : Engine).Inv D ∧
      e.Reassigned { e with solver := s', current := update e.current v x } := by
  have hre : e.Reassigned { e with solver := s', current := update e.current v x } := by
    refine ⟨hclauses.trans hr.clauses, fun c => (hlits c).trans (hr.lits c),
      fun c => (hdatum c).trans (hr.datum c), fun c hc => ?_, rfl, rfl, rfl⟩
    have hnew : ¬ ∃ a ∈ x, c = e.clauseOf a := fun ⟨a, ha, hca⟩ =>
      h.clauseOf_ne (hx a ha).2 hc hca
    have hold : ∀ a, e.current v = some a → c ≠ e.clauseOf a := fun a ha =>
      h.clauseOf_ne (h.current v a ha).2 hc
    rw [hactive, hr.active, or_iff_left hnew, and_iff_left hold]
  refine ⟨hre.inv h hs' h.linked (fun a ha => ?_) (fun w a hw => ?_), hre⟩
  · dsimp only
    rw [hactive, hr.active, h.active a ha]
    have hnew : (∃ b ∈ x, e.clauseOf a = e.clauseOf b) ↔ a ∈ x := by
      refine ⟨fun ⟨b, hb, hab⟩ => ?_, fun hmem => ⟨a, hmem, rfl⟩⟩
      rw [h.clauseOf_inj ha (hx b hb).2 hab]
      exact hb
    rw [hnew]
    by_cases hv : a.var = v
    · subst hv
      have hold : ¬ (e.current a.var = some a ∧
          ∀ b, e.current a.var = some b → e.clauseOf a ≠ e.clauseOf b) :=
        fun ⟨hcur, hne⟩ => hne a hcur rfl
      rw [or_iff_right hold, update_self]
      rfl
    · have hax : a ∉ x := fun hmem => hv (hx a hmem).1
      have hold : ∀ b, e.current v = some b → e.clauseOf a ≠ e.clauseOf b := by
        intro b hb hab
        obtain ⟨hbv, hbk⟩ := h.current v b hb
        exact hv (h.clauseOf_inj ha hbk hab ▸ hbv)
      rw [or_iff_left hax, and_iff_left hold, update_of_ne hv]
  · by_cases hwv : w = v
    · subst hwv
      simp only [update_self] at hw
      exact hx a hw
    · simp only [update_of_ne hwv] at hw
      exact h.current w a hw

theorem assign_spec (h : e.Inv D) (ha : e.Known D a) :
    ∃ e', e.assign a = .ok e' ∧ e'.Inv D ∧ e.Reassigned e' ∧ e'.memory = e.memory ∧
      e'.current = update e.current a.var (some a) := by
  unfold assign
  split_ifs with hcur
  · exact ⟨e, rfl, h, Reassigned.refl e, rfl, by rw [← hcur, Function.update_eq_self]⟩
  · obtain ⟨s, hs, hr⟩ := retract_spec h a.var
    have hmem : e.clauseOf a ∈ s.clauses := by
      rw [hr.clauses]
      exact (h.stands a ha).mem
    have hnot : ¬ s.Active (e.clauseOf a) := by
      rw [hr.active, h.active a ha]
      exact fun hact => hcur hact.1
    have hdel : (s.clause (e.clauseOf a)).deleted = true := by
      by_contra hdel
      exact hnot ⟨hmem, by simpa using hdel⟩
    obtain ⟨s', hs', hinv, -, hsel⟩ := Ltms.add_spec hr.inv hmem hdel
    have hspec := hr.reassign (x := some a) h hinv (fun b hb => Option.some.inj hb ▸ ⟨rfl, ha⟩)
      hsel.clauses hsel.lits (SameFlags.add hs').datum (fun c => by simp [hsel.active])
    refine ⟨{ e with solver := s', current := update e.current a.var (some a) }, ?_, hspec.1,
      hspec.2, rfl, rfl⟩
    simp only [hs, hs', bind, Except.bind]
    rfl

theorem unassign_spec (h : e.Inv D) (v : VarId) :
    ∃ e', e.unassign v = .ok e' ∧ e'.Inv D ∧ e.Reassigned e' ∧ e'.memory = e.memory ∧
      e'.current = update e.current v none := by
  obtain ⟨s, hs, hr⟩ := retract_spec h v
  have hspec := hr.reassign (x := none) h hr.inv (fun b hb => by cases hb) rfl (fun _ => rfl)
    (fun _ => rfl) (fun c => by simp)
  refine ⟨{ e with solver := s, current := update e.current v none }, ?_, hspec.1, hspec.2, rfl, rfl⟩
  unfold unassign
  rw [hs]
  rfl

end Engine

end Livingstone
