import Livingstone.Tms.Ltms

/-! The representation invariant of an LTMS, in four parts: the shape of clauses
and back pointers, the fringes and the unsatisfied list, the counters and flags
of each active clause, and the support links. The last two are stated for a
valuation of literals, which lags behind that of the state while an assignment
reaches the clauses one by one. -/

namespace Livingstone

open UnitProp (Literal)

/-- A clause as the constructor builds it. -/
structure ClauseShape (k : Clause) : Prop where
  numLits : k.numLits = k.literals.length
  numPos_nonneg : 0 ≤ k.numPosLits
  numPos_le : k.numPosLits ≤ k.numLits
  bound : k.literals.length ≤ 127
  nodup : k.lits.Nodup

/-- What the LTMS keeps about a clause and changes as propositions change. -/
structure Mark where
  numUnassigned : ℤ
  satisfyingProp : Option PropId
  inFringe : Bool
  unsatisfied : Bool

def Clause.mark (k : Clause) : Mark :=
  ⟨k.numUnassigned, k.satisfyingProp, k.inFringe, k.unsatisfied⟩

/-- The mark of a clause outside the theory. Its counter and the proposition that
satisfied it are left as they were. -/
structure Mark.Stale (ls : List (Literal PropId)) (m : Mark) : Prop where
  sat : ∀ p, m.satisfyingProp = some p → ∃ b, (p, b) ∈ ls
  inFringe : m.inFringe = false
  unsatisfied : m.unsatisfied = false
  nonneg : 0 ≤ m.numUnassigned
  le : m.numUnassigned ≤ 127

/-- The rest of a clause, without its support link. -/
def Clause.core (k : Clause) : Clause :=
  { k with
    supports := noProposition
    numUnassigned := 0
    satisfyingProp := none
    inFringe := false
    unsatisfied := false
    fringeIndex := 0 }

/-- The mark of an active clause with literals `ls` under the valuation `lv`. -/
structure Bookkeeping (lv : Literal PropId → Option Bool) (ls : List (Literal PropId))
    (m : Mark) : Prop where
  count : m.numUnassigned = (ls.countP fun l => lv l = none : ℕ)
  sat : ∀ p, m.satisfyingProp = some p → ∃ b, (p, b) ∈ ls ∧ lv (p, b) = some true
  unsat : m.satisfyingProp = none → ∀ l ∈ ls, lv l ≠ some true
  fringe : m.inFringe = true ↔ m.satisfyingProp = none ∧ m.numUnassigned = 1
  unsatisfied : m.unsatisfied = true ↔ m.satisfyingProp = none ∧ m.numUnassigned = 0

namespace Ltms

/-- In the theory: created and not deleted. -/
def Active (s : Ltms) (c : ClauseId) : Prop := c ∈ s.clauses ∧ (s.clause c).deleted = false

def litSet (s : Ltms) (c : ClauseId) : Set (Literal PropId) := {l | l ∈ (s.clause c).lits}

def theory (s : Ltms) : Set (Set (Literal PropId)) := {C | ∃ c, s.Active c ∧ C = s.litSet c}

structure WellFormed (s : Ltms) : Prop where
  props_nodup : s.props.Nodup
  clauses_nodup : s.clauses.Nodup
  prop_lt : ∀ p ∈ s.props, p < s.nextProp
  clause_lt : ∀ c ∈ s.clauses, c < s.nextClause
  shape : ∀ c ∈ s.clauses, ClauseShape (s.clause c)
  lits_props : ∀ c ∈ s.clauses, ∀ l ∈ (s.clause c).lits, l.1 ∈ s.props
  occurs : ∀ c p b, c ∈ s.occurrences p b ↔ c ∈ s.clauses ∧ (p, b) ∈ (s.clause c).lits
  occurs_nodup : ∀ p b, (s.occurrences p b).Nodup

structure Containers (s : Ltms) : Prop where
  fringe_mem : ∀ v c, c ∈ s.fringeOf v ↔
    c ∈ s.clauses ∧ (s.clause c).inFringe = true ∧ (s.clause c).isVolatile = v
  fringe_nodup : ∀ v, (s.fringeOf v).Nodup
  fringe_index : ∀ v i c, (s.fringeOf v)[i]? = some c → (s.clause c).fringeIndex = i
  unsat_mem : ∀ c, c ∈ s.unsatisfied ↔ c ∈ s.clauses ∧ (s.clause c).unsatisfied = true
  unsat_nodup : s.unsatisfied.Nodup

/-- Each active clause has a mark that suits it; a deleted one is in neither list. -/
structure Marks (B : ClauseId → Mark → Prop) (s : Ltms) : Prop where
  active : ∀ c, s.Active c → B c (s.clause c).mark
  deleted : ∀ c ∈ s.clauses, (s.clause c).deleted = true →
    (s.clause c).mark.Stale (s.clause c).lits

/-- The marks suit the valuation `lv`. -/
def Marked (s : Ltms) (lv : Literal PropId → Option Bool) : Prop :=
  s.Marks fun c => Bookkeeping lv (s.clause c).lits

/-- The support links. `pend` holds the propositions whose supporting clause does
not point back: those waiting to be unassigned, or just assigned. -/
structure Support (pend : Set PropId) (lv : Literal PropId → Option Bool)
    (rank : PropId → ℕ) (s : Ltms) : Prop where
  unknown : ∀ p, s.value p = .unknown ↔ (s.prop p).supportedBy = none
  alloc : ∀ p, s.value p ≠ .unknown → p ∈ s.props
  forth : ∀ p c, (s.prop p).supportedBy = some c → p ∉ pend →
    s.Active c ∧ (s.clause c).getSupports = some p
  back : ∀ c ∈ s.clauses, ∀ p, (s.clause c).getSupports = some p →
    s.Active c ∧ (s.prop p).supportedBy = some c
  just : ∀ c ∈ s.clauses, ∀ p, (s.clause c).getSupports = some p →
    ∃ b, (p, b) ∈ (s.clause c).lits ∧ lv (p, b) = some true ∧
      ∀ l ∈ (s.clause c).lits, l ≠ (p, b) → lv l = some false ∧ rank l.1 < rank p
  undo_nodup : s.undoList.Nodup
  undo : ∀ p ∈ s.undoList, p ∈ pend ∧ s.value p ≠ .unknown ∧
    ∀ c ∈ s.clauses, (s.clause c).getSupports ≠ some p

/-- No clause is newer than the time stamp of the theory. -/
structure Stamps (s : Ltms) : Prop where
  theory_le : s.timeStamp ≤ maxTimeStamp
  clause_le : ∀ c ∈ s.clauses, (s.clause c).timeStamp ≤ s.timeStamp

/-- The representation invariant between calls. -/
structure Inv (s : Ltms) : Prop where
  wf : s.WellFormed
  containers : s.Containers
  marks : s.Marked s.litVal
  support : ∃ rank, s.Support ∅ s.litVal rank
  undo : s.undoList = []
  stamps : s.Stamps

/-- Nothing but the values and the support links of propositions, the links and the
marks of clauses and the lists that follow them differs. -/
structure Outline (s s' : Ltms) : Prop where
  occurrences : ∀ p b, s'.occurrences p b = s.occurrences p b
  props : s'.props = s.props
  clauses : s'.clauses = s.clauses
  nextProp : s'.nextProp = s.nextProp
  nextClause : s'.nextClause = s.nextClause
  timeStamp : s'.timeStamp = s.timeStamp
  core : ∀ c, (s'.clause c).core = (s.clause c).core

structure Skeleton (s s' : Ltms) : Prop extends Outline s s' where
  prop : s'.prop = s.prop

/-- Only the marks, the fringes and the unsatisfied list differ. -/
structure Frame (s s' : Ltms) : Prop extends Skeleton s s' where
  undoList : s'.undoList = s.undoList
  supports : ∀ c, (s'.clause c).supports = (s.clause c).supports

/-- Only the mark of `c` changes, to `m`, and the lists follow. -/
structure Remarks (s s' : Ltms) (c : ClauseId) (m : Mark) : Prop where
  frame : s.Frame s'
  containers : s'.Containers
  mark : (s'.clause c).mark = m
  others : ∀ d, d ≠ c → (s'.clause d).mark = (s.clause d).mark

section
variable {s s' s'' : Ltms}

namespace Outline

theorem refl (s : Ltms) : s.Outline s := ⟨fun _ _ => rfl, rfl, rfl, rfl, rfl, rfl, fun _ => rfl⟩

theorem trans (h : s.Outline s') (h' : s'.Outline s'') : s.Outline s'' :=
  ⟨fun p b => (h'.occurrences p b).trans (h.occurrences p b), h'.props.trans h.props,
    h'.clauses.trans h.clauses, h'.nextProp.trans h.nextProp, h'.nextClause.trans h.nextClause,
    h'.timeStamp.trans h.timeStamp, fun c => (h'.core c).trans (h.core c)⟩

theorem field {β : Type*} (h : s.Outline s') (f : Clause → β) (hf : ∀ k, f k.core = f k)
    (c : ClauseId) : f (s'.clause c) = f (s.clause c) := by
  rw [← hf, h.core c, hf]

theorem lits (h : s.Outline s') (c : ClauseId) : (s'.clause c).lits = (s.clause c).lits :=
  h.field Clause.lits (fun _ => rfl) c

theorem literals (h : s.Outline s') (c : ClauseId) :
    (s'.clause c).literals = (s.clause c).literals :=
  h.field Clause.literals (fun _ => rfl) c

theorem numLits (h : s.Outline s') (c : ClauseId) :
    (s'.clause c).numLits = (s.clause c).numLits :=
  h.field Clause.numLits (fun _ => rfl) c

theorem deleted (h : s.Outline s') (c : ClauseId) :
    (s'.clause c).deleted = (s.clause c).deleted :=
  h.field Clause.deleted (fun _ => rfl) c

theorem isVolatile (h : s.Outline s') (c : ClauseId) :
    (s'.clause c).isVolatile = (s.clause c).isVolatile :=
  h.field Clause.isVolatile (fun _ => rfl) c

theorem clauseStamp (h : s.Outline s') (c : ClauseId) :
    (s'.clause c).timeStamp = (s.clause c).timeStamp :=
  h.field Clause.timeStamp (fun _ => rfl) c

theorem clauseShape (h : s.Outline s') {c : ClauseId} (hs : ClauseShape (s.clause c)) :
    ClauseShape (s'.clause c) := by
  have hp := h.field Clause.numPosLits (fun _ => rfl) c
  refine ⟨?_, ?_, ?_, ?_, h.lits c ▸ hs.nodup⟩
  · rw [h.numLits, h.literals]
    exact hs.numLits
  · rw [hp]
    exact hs.numPos_nonneg
  · rw [h.numLits, hp]
    exact hs.numPos_le
  · rw [h.literals]
    exact hs.bound

theorem active (h : s.Outline s') (c : ClauseId) : s'.Active c ↔ s.Active c := by
  simp only [Ltms.Active, h.clauses, h.deleted c]

theorem theory (h : s.Outline s') : s'.theory = s.theory := by
  simp only [Ltms.theory, Ltms.litSet, h.active, h.lits]

theorem wellFormed (h : s.Outline s') (hw : s.WellFormed) : s'.WellFormed where
  props_nodup := h.props ▸ hw.props_nodup
  clauses_nodup := h.clauses ▸ hw.clauses_nodup
  prop_lt := by rw [h.props, h.nextProp]; exact hw.prop_lt
  clause_lt := by rw [h.clauses, h.nextClause]; exact hw.clause_lt
  shape := by rw [h.clauses]; exact fun c hc => h.clauseShape (hw.shape c hc)
  lits_props := by
    rw [h.clauses, h.props]
    intro c hc l hl
    exact hw.lits_props c hc l (h.lits c ▸ hl)
  occurs := by
    intro c p b
    rw [h.occurrences, h.clauses, h.lits]
    exact hw.occurs c p b
  occurs_nodup := fun p b => h.occurrences p b ▸ hw.occurs_nodup p b

theorem stamps (h : s.Outline s') (hs : s.Stamps) : s'.Stamps := by
  refine ⟨h.timeStamp ▸ hs.theory_le, ?_⟩
  rw [h.clauses, h.timeStamp]
  exact fun c hc => h.clauseStamp c ▸ hs.clause_le c hc

end Outline

namespace Skeleton

theorem refl (s : Ltms) : s.Skeleton s := ⟨Outline.refl s, rfl⟩

theorem trans (h : s.Skeleton s') (h' : s'.Skeleton s'') : s.Skeleton s'' :=
  ⟨h.toOutline.trans h'.toOutline, h'.prop.trans h.prop⟩

theorem value (h : s.Skeleton s') (p : PropId) : s'.value p = s.value p := by
  simp only [Ltms.value, h.prop]

theorem litVal (h : s.Skeleton s') : s'.litVal = s.litVal := by
  funext l
  simp only [Ltms.litVal, h.value]

end Skeleton

namespace Frame

theorem refl (s : Ltms) : s.Frame s := ⟨Skeleton.refl s, rfl, fun _ => rfl⟩

theorem trans (h : s.Frame s') (h' : s'.Frame s'') : s.Frame s'' :=
  ⟨h.toSkeleton.trans h'.toSkeleton, h'.undoList.trans h.undoList,
    fun c => (h'.supports c).trans (h.supports c)⟩

theorem getSupports (h : s.Frame s') (c : ClauseId) :
    (s'.clause c).getSupports = (s.clause c).getSupports := by
  simp only [Clause.getSupports, h.supports, h.literals]

theorem support (h : s.Frame s') {pend : Set PropId} {lv : Literal PropId → Option Bool}
    {rank : PropId → ℕ} (hs : s.Support pend lv rank) : s'.Support pend lv rank where
  unknown := by simpa only [h.value, h.prop] using hs.unknown
  alloc := by simpa only [h.value, h.props] using hs.alloc
  forth := by simpa only [h.active, h.prop, h.getSupports] using hs.forth
  back := by simpa only [h.active, h.prop, h.getSupports, h.clauses] using hs.back
  just := by simpa only [h.lits, h.getSupports, h.clauses] using hs.just
  undo_nodup := h.undoList ▸ hs.undo_nodup
  undo := by simpa only [h.undoList, h.value, h.getSupports, h.clauses] using hs.undo

end Frame

end

theorem Remarks.trans {s s' s'' : Ltms} {c : ClauseId} {m m' : Mark}
    (h : s.Remarks s' c m) (h' : s'.Remarks s'' c m') : s.Remarks s'' c m' :=
  ⟨h.frame.trans h'.frame, h'.containers, h'.mark,
    fun d hd => (h'.others d hd).trans (h.others d hd)⟩

theorem Outline.marked {s s' : Ltms} {lv : Literal PropId → Option Bool} (h : s.Outline s')
    (hm : s'.Marks fun c => Bookkeeping lv (s.clause c).lits) : s'.Marked lv := by
  simpa only [Marked, h.lits] using hm

theorem Marks.of_step {s s' : Ltms} {c : ClauseId} {B B' : ClauseId → Mark → Prop}
    (hm : s.Marks B) (h : s.Outline s') (hc : s.Active c)
    (hothers : ∀ d, d ≠ c → (s'.clause d).mark = (s.clause d).mark)
    (hB : ∀ d, d ≠ c → ∀ m, B d m → B' d m) (hb : B' c (s'.clause c).mark) : s'.Marks B' := by
  refine ⟨fun d hd => ?_, fun d hd hdel => ?_⟩
  · by_cases hdc : d = c
    · exact hdc ▸ hb
    · rw [hothers d hdc]
      exact hB d hdc _ (hm.active d ((h.active d).mp hd))
  · rw [h.clauses] at hd
    rw [h.deleted] at hdel
    have hdc : d ≠ c := by
      rintro rfl
      exact absurd hc.2 (by simp [hdel])
    rw [hothers d hdc, h.lits]
    exact hm.deleted d hd hdel

end Ltms

end Livingstone
