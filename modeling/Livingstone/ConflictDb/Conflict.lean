import Livingstone.Lib.Backlinks
import Livingstone.Tms.Ltms

/-! Assignments, conflicts and the database that holds them (`assignment.cpp`,
`conflict.cpp`, `conflict_db.cpp`, and the parts of `T_system.cpp` that delete
conflicts). An assignable variable is named by its id and its time step, an
`Assignment` object by its variable and its place in the domain, a `Conflict` object
by the address of a heap. -/

namespace Livingstone

structure VarId where
  id : ℕ
  timeStep : ℕ
  deriving DecidableEq, Repr

abbrev ConflictId := ℕ

/-- `weight_t`, unsigned. -/
abbrev Weight := UInt32

structure Assignment where
  var : VarId
  index : ℕ
  deriving DecidableEq, Repr

structure Conflict where
  assignments : List Assignment
  tag : ℕ := 0
  deriving Repr

namespace Conflict

def size (k : Conflict) : ℕ := k.assignments.length

/-- Whether the assignments of the conflict are a subset of the given ones. -/
def subsumes (k : Conflict) (assignments : List Assignment) : Bool :=
  k.assignments.all (· ∈ assignments)

end Conflict

/-- The assignable variables of a database and their domains. An assumption has a
default. `assignmentOf` reads the datum of a clause. -/
structure Assignables where
  assignables : List VarId
  assignments : VarId → List Assignment
  weight : Assignment → Weight
  isAssumption : VarId → Bool
  defaultAssignment : VarId → Assignment
  assignmentOf : ℕ → Assignment
  var_eq : ∀ v, ∀ a ∈ assignments v, a.var = v
  default_mem : ∀ v, isAssumption v = true → defaultAssignment v ∈ assignments v

/-- The database and the back pointers of the assignments. -/
structure ConflictDb where
  conflict : ConflictId → Conflict := fun _ => ⟨[], 0⟩
  conflicts : List ConflictId := []
  next : ConflictId := 0
  conflictsOf : Assignment → List ConflictId := fun _ => []
  resolvedConflicts : Assignment → List ConflictId := fun _ => []

/-- `Assignable::is_default`, which is false, and `Assumption::is_default`. -/
def Assignables.isDefault (D : Assignables) (a : Assignment) : Bool :=
  D.isAssumption a.var && decide (a = D.defaultAssignment a.var)

/-- The assignments of the same variable but `a`. -/
def Assignables.others (D : Assignables) (a : Assignment) : List Assignment :=
  (D.assignments a.var).filter fun b => b ≠ a

namespace ConflictDb

def assignmentAddConflict (D : Assignables) (c : ConflictId) (db : ConflictDb) (a : Assignment) :
    ConflictDb :=
  { db with
    conflictsOf := if c ∈ db.conflictsOf a then db.conflictsOf
      else Backlinks.link c db.conflictsOf a
    resolvedConflicts := (D.others a).foldl (Backlinks.link c) db.resolvedConflicts }

def assignmentRemoveConflict (D : Assignables) (c : ConflictId) (db : ConflictDb)
    (a : Assignment) : ConflictDb :=
  { db with
    conflictsOf := Backlinks.unlink c db.conflictsOf a
    resolvedConflicts := (D.others a).foldl (Backlinks.unlink c) db.resolvedConflicts }

/-- The constructor of `Conflict`. -/
def newConflict (D : Assignables) (db : ConflictDb) (assignments : List Assignment) (tag : ℕ) :
    ConflictId × ConflictDb :=
  let c := db.next
  let db := { db with
    conflict := Function.update db.conflict c ⟨assignments, tag⟩
    next := c + 1 }
  (c, assignments.foldl (assignmentAddConflict D c) db)

def findSubsumingConflict (db : ConflictDb) (assignments : List Assignment) : Option ConflictId :=
  db.conflicts.find? fun c => (db.conflict c).subsumes assignments

def conflictIsSmaller (db : ConflictDb) (c d : ConflictId) : Bool :=
  (db.conflict c).size < (db.conflict d).size

def addConflict (D : Assignables) (db : ConflictDb) (assignments : List Assignment) (tag : ℕ) :
    ConflictId × ConflictDb :=
  match db.findSubsumingConflict assignments with
  | some c => (c, db)
  | none =>
    let (c, db) := db.newConflict D assignments tag
    (c, { db with conflicts := SortedList.insertSorted db.conflictIsSmaller c db.conflicts })

def destroyConflict (D : Assignables) (db : ConflictDb) (c : ConflictId) : ConflictDb :=
  let db := (db.conflict c).assignments.foldl (assignmentRemoveConflict D c) db
  { db with conflicts := db.conflicts.erase c }

def deleteNewestConflicts (db : ConflictDb) (timestep : ℕ) : ConflictDb :=
  { db with conflicts := db.conflicts.filter fun c => (db.conflict c).tag ≠ timestep }

/-- An assignment of the conflict is from before the horizon. -/
def conflictIsOld (db : ConflictDb) (horizon : ℕ) (c : ConflictId) : Bool :=
  (db.conflict c).assignments.any fun a => a.var.timeStep < horizon

/-- The first loop of `T_system::remove_old_variables`. -/
def removeOldConflicts (D : Assignables) (db : ConflictDb) (horizon : ℕ) : ConflictDb :=
  db.conflicts.foldl
    (fun db c => if db.conflictIsOld horizon c then db.destroyConflict D c else db) db

def isAssumptionClause (D : Assignables) (s : Ltms) (c : ClauseId) : Bool :=
  match (s.clause c).datum with
  | none => false
  | some d => D.isAssumption (D.assignmentOf d).var

/-- `Conflict_db::conflict`: the conflict of the assumptions made, if there is one. -/
def discover (D : Assignables) (db : ConflictDb) (s : Ltms) (tag : ℕ) :
    Except L2Error (Option ConflictId × ConflictDb × Ltms) := do
  let (consistent, s) ← s.propagate
  if consistent then return (none, db, s)
  else do
    let (clauses, s) ← s.lastConflict (isAssumptionClause D s)
    let assignments := clauses.foldl
      (fun as c => ((s.clause c).datum.map D.assignmentOf).toList ++ as) []
    let (c, db) := db.addConflict D assignments tag
    return (some c, db, s)

end ConflictDb

end Livingstone
