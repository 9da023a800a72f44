import Livingstone.ConflictDb.Agree
import Livingstone.Tms.Run

/-! The conflict database over whole histories. The one deletion that does not go
through `destroy_conflict` leaves the back pointers of the assignments behind, for good. -/

namespace Livingstone

/-- What adds conflicts and what deletes them. -/
inductive DbOp where
  | conflict (s : Ltms) (tag : ℕ)
  | addConflict (assignments : List Assignment) (tag : ℕ)
  | destroyConflict (c : ConflictId)
  | deleteNewestConflicts (timestep : ℕ)
  | removeOldConflicts (horizon : ℕ)

namespace ConflictDb

variable {D : Assignables} {db db' : ConflictDb} {ops : List DbOp} {op : DbOp}

/-- The solver is in one of its reachable states, and a conflict to be destroyed is in
the database. -/
def Valid (db : ConflictDb) : DbOp → Prop
  | .conflict s _ => s.Inv
  | .destroyConflict c => c ∈ db.conflicts
  | _ => True

def apply (D : Assignables) (db : ConflictDb) : DbOp → Except L2Error ConflictDb
  | .conflict s tag => do return (← db.discover D s tag).2.1
  | .addConflict assignments tag => .ok (db.addConflict D assignments tag).2
  | .destroyConflict c => .ok (db.destroyConflict D c)
  | .deleteNewestConflicts timestep => .ok (db.deleteNewestConflicts timestep)
  | .removeOldConflicts horizon => .ok (db.removeOldConflicts D horizon)

inductive DbRun (D : Assignables) : List DbOp → ConflictDb → Prop
  | nil : DbRun D [] {}
  | snoc {ops : List DbOp} {op : DbOp} {db db' : ConflictDb} (h : DbRun D ops db)
      (hv : db.Valid op) (hs : db.apply D op = .ok db') : DbRun D (ops ++ [op]) db'

/-- `deleteNewestConflicts` finds no conflict that has an assignment. -/
def Unhooks (db : ConflictDb) : DbOp → Prop
  | .deleteNewestConflicts timestep =>
    ∀ c ∈ db.conflicts, (db.conflict c).tag = timestep → (db.conflict c).assignments = []
  | _ => True

/-- A run in which that is so at every step. -/
inductive UnhookedRun (D : Assignables) : List DbOp → ConflictDb → Prop
  | nil : UnhookedRun D [] {}
  | snoc {ops : List DbOp} {op : DbOp} {db db' : ConflictDb} (h : UnhookedRun D ops db)
      (hv : db.Valid op) (hu : db.Unhooks op) (hs : db.apply D op = .ok db') :
      UnhookedRun D (ops ++ [op]) db'

/-- A list of assignments that a stored conflict subsumes is not stored. -/
def AddsUnsubsumed (D : Assignables) (db : ConflictDb) : Prop :=
  ∀ assignments tag, (∃ c ∈ db.conflicts, (db.conflict c).subsumes assignments = true) →
    (db.addConflict D assignments tag).2 = db

theorem addsUnsubsumed (D : Assignables) (db : ConflictDb) : db.AddsUnsubsumed D := by
  intro as tag ⟨c, hc, hsub⟩
  rcases addConflict_cases D db as tag with ⟨d, -, -, hd⟩ | ⟨hnone, -⟩
  · rw [hd]
  · simp [hnone c hc] at hsub

theorem discover_spec (D : Assignables) (db : ConflictDb) {s : Ltms} (h : s.Inv) (tag : ℕ) :
    ∃ r, db.discover D s tag = .ok r ∧
      (r.2.1 = db ∨ ∃ assignments, r.2.1 = (db.addConflict D assignments tag).2) := by
  obtain ⟨b, s₁, hs₁, hinv, -⟩ := Ltms.propagate_spec h
  unfold discover
  simp only [hs₁, bind, Except.bind]
  cases b with
  | true => exact ⟨_, rfl, Or.inl rfl⟩
  | false =>
    obtain ⟨out, s₂, hs₂, -⟩ := Ltms.lastConflict_spec hinv (isAssumptionClause D s₁)
    simp only [hs₂]
    exact ⟨_, rfl, Or.inr ⟨_, rfl⟩⟩

theorem linked_empty (D : Assignables) : ({} : ConflictDb).Linked D :=
  ⟨by simp, List.nodup_nil, by simp, by simp, by simp, List.Pairwise.nil, by simp⟩

theorem noDangling_empty : ({} : ConflictDb).NoDangling := by
  intro a c hc
  simp at hc

theorem apply_linked (h : db.Linked D) (hv : db.Valid op) (hs : db.apply D op = .ok db') :
    db'.Linked D := by
  cases op with
  | conflict s tag =>
    obtain ⟨r, hr, hs⟩ := Loop.bind_eq_ok hs
    obtain ⟨r', hr', hcases⟩ := discover_spec D db hv tag
    cases hr.symm.trans hr'
    obtain rfl := Except.ok.inj hs
    rcases hcases with hdb | ⟨as, hdb⟩
    · exact hdb ▸ h
    · exact hdb ▸ h.addConflict as tag
  | addConflict as tag => exact Except.ok.inj hs ▸ h.addConflict as tag
  | destroyConflict c => exact Except.ok.inj hs ▸ h.destroyConflict c
  | deleteNewestConflicts t =>
    exact Except.ok.inj hs ▸ (shrunk_deleteNewestConflicts db t).linked h
  | removeOldConflicts t =>
    exact Except.ok.inj hs ▸ removeOldConflicts_induct (fun _ c h => h.destroyConflict c) h t

theorem apply_noDangling (h : db.NoDangling) (hl : db.Linked D) (hv : db.Valid op)
    (hu : db.Unhooks op) (hs : db.apply D op = .ok db') : db'.NoDangling := by
  cases op with
  | conflict s tag =>
    obtain ⟨r, hr, hs⟩ := Loop.bind_eq_ok hs
    obtain ⟨r', hr', hcases⟩ := discover_spec D db hv tag
    cases hr.symm.trans hr'
    obtain rfl := Except.ok.inj hs
    rcases hcases with hdb | ⟨as, hdb⟩
    · exact hdb ▸ h
    · exact hdb ▸ h.addConflict as tag
  | addConflict as tag => exact Except.ok.inj hs ▸ h.addConflict as tag
  | destroyConflict c => exact Except.ok.inj hs ▸ h.destroyConflict hl c
  | deleteNewestConflicts t => exact Except.ok.inj hs ▸ h.deleteNewestConflicts hl hu
  | removeOldConflicts t =>
    exact Except.ok.inj hs ▸ (removeOldConflicts_induct (P := fun db => db.NoDangling ∧ db.Linked D)
      (fun _ c h => ⟨h.1.destroyConflict h.2 c, h.2.destroyConflict c⟩) ⟨h, hl⟩ t).1

theorem DbRun.linked (h : DbRun D ops db) : db.Linked D := by
  induction h with
  | nil => exact linked_empty D
  | snoc _ hv hs ih => exact apply_linked ih hv hs

theorem UnhookedRun.dbRun (h : UnhookedRun D ops db) : DbRun D ops db := by
  induction h with
  | nil => exact DbRun.nil
  | snoc _ hv _ hs ih => exact ih.snoc hv hs

theorem UnhookedRun.noDangling (h : UnhookedRun D ops db) : db.NoDangling := by
  induction h with
  | nil => exact noDangling_empty
  | snoc h hv hu hs ih => exact apply_noDangling ih h.dbRun.linked hv hu hs

theorem apply_dangling {a : Assignment} {c : ConflictId} (h : db.Dangling a c)
    (hv : db.Valid op) (hs : db.apply D op = .ok db') : db'.Dangling a c := by
  cases op with
  | conflict s tag =>
    obtain ⟨r, hr, hs⟩ := Loop.bind_eq_ok hs
    obtain ⟨r', hr', hcases⟩ := discover_spec D db hv tag
    cases hr.symm.trans hr'
    obtain rfl := Except.ok.inj hs
    rcases hcases with hdb | ⟨as, hdb⟩
    · exact hdb ▸ h
    · exact hdb ▸ h.addConflict as tag
  | addConflict as tag => exact Except.ok.inj hs ▸ h.addConflict as tag
  | destroyConflict d =>
    refine Except.ok.inj hs ▸ h.destroyConflict ?_
    rintro rfl
    exact h.gone hv
  | deleteNewestConflicts t => exact Except.ok.inj hs ▸ h.deleteNewestConflicts t
  | removeOldConflicts t => exact Except.ok.inj hs ▸ h.removeOldConflicts t

/-- A run in which a conflict with an assignment is deleted without being unhooked
leaves a dangling pointer at its end. -/
theorem DbRun.unhooked_or_dangling (h : DbRun D ops db) :
    UnhookedRun D ops db ∨ ∃ a c, db.Dangling a c := by
  induction h with
  | nil => exact Or.inl UnhookedRun.nil
  | snoc h hv hs ih =>
    rename_i ops op db db'
    rcases ih with ih | ⟨a, c, ih⟩
    · by_cases hu : db.Unhooks op
      · exact Or.inl (ih.snoc hv hu hs)
      · right
        cases op with
        | deleteNewestConflicts t =>
          simp only [Unhooks, not_forall] at hu
          obtain ⟨c, hc, ht, hne⟩ := hu
          obtain ⟨a, ha⟩ := List.exists_mem_of_ne_nil _ hne
          exact ⟨a, c, Except.ok.inj hs ▸ dangling_of_delete h.linked hc ht ha⟩
        | conflict s tag => exact absurd trivial hu
        | addConflict as tag => exact absurd trivial hu
        | destroyConflict c => exact absurd trivial hu
        | removeOldConflicts t => exact absurd trivial hu
    · exact Or.inr ⟨a, c, apply_dangling ih hv hs⟩

/-- After any history the database and the assignments agree, and conflicts that are
subsumed are not stored, if and only if `deleteNewestConflicts` never deleted a conflict
that has an assignment. -/
theorem database_agrees_iff (h : DbRun D ops db) :
    (db.Agree D ∧ db.AddsUnsubsumed D) ↔ UnhookedRun D ops db := by
  constructor
  · intro ⟨hagree, _⟩
    rcases h.unhooked_or_dangling with hrun | ⟨a, c, hdang⟩
    · exact hrun
    · exact absurd hagree hdang.not_agree
  · intro hrun
    exact ⟨h.linked.agree hrun.noDangling, addsUnsubsumed D db⟩

def switch₀ : VarId := ⟨0, 0⟩
def switch₁ : VarId := ⟨0, 1⟩

def switches : Assignables where
  assignables := [switch₀, switch₁]
  assignments v := [⟨v, 0⟩, ⟨v, 1⟩]
  weight a := UInt32.ofNat a.index
  isAssumption _ := true
  defaultAssignment v := ⟨v, 0⟩
  assignmentOf d := ⟨⟨0, d / 2⟩, d % 2⟩
  var_eq v a ha := by
    simp only [List.mem_cons, List.not_mem_nil, or_false] at ha
    rcases ha with rfl | rfl
    · rfl
    · rfl
  default_mem v _ := List.mem_cons_self

/-- Two conflicts are found and the one from before the horizon goes. -/
theorem database_agrees_iff_switches : ∃ db, DbRun switches [.addConflict [⟨switch₀, 0⟩,
    ⟨switch₁, 0⟩] 1, .addConflict [⟨switch₁, 1⟩] 2, .removeOldConflicts 1] db ∧
    db.conflicts = [1] ∧ db.Agree switches := by
  have h₁ : DbRun switches [.addConflict [⟨switch₀, 0⟩, ⟨switch₁, 0⟩] 1] _ :=
    DbRun.nil.snoc trivial rfl
  have h₂ : DbRun switches (_ ++ [.addConflict [⟨switch₁, 1⟩] 2]) _ := h₁.snoc trivial rfl
  have h₃ : DbRun switches (_ ++ [.removeOldConflicts 1]) _ := h₂.snoc trivial rfl
  have u₁ : UnhookedRun switches [.addConflict [⟨switch₀, 0⟩, ⟨switch₁, 0⟩] 1] _ :=
    UnhookedRun.nil.snoc trivial trivial rfl
  have u₂ : UnhookedRun switches (_ ++ [.addConflict [⟨switch₁, 1⟩] 2]) _ :=
    u₁.snoc trivial trivial rfl
  have u₃ : UnhookedRun switches (_ ++ [.removeOldConflicts 1]) _ := u₂.snoc trivial trivial rfl
  exact ⟨_, h₃, by decide, ((database_agrees_iff h₃).mpr u₃).1⟩

/-- The newest conflict is deleted and its assignment still refers to it. -/
theorem newest_conflict_dangling : ∃ db, DbRun switches
    [.addConflict [⟨switch₀, 1⟩] 1, .deleteNewestConflicts 1] db ∧
    db.conflicts = [] ∧ db.conflictsOf ⟨switch₀, 1⟩ = [0] ∧
    db.resolvedConflicts ⟨switch₀, 0⟩ = [0] := by
  have h₁ : DbRun switches [.addConflict [⟨switch₀, 1⟩] 1] _ := DbRun.nil.snoc trivial rfl
  have h₂ : DbRun switches (_ ++ [.deleteNewestConflicts 1]) _ := h₁.snoc trivial rfl
  exact ⟨_, h₂, by decide, by decide, by decide⟩

end ConflictDb

end Livingstone
