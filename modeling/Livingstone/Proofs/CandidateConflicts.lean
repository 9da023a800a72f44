import Livingstone.ConflictDb.Candidate
import Livingstone.Lib.Insertion
import Livingstone.Proofs.Database

/-! The conflicts that a candidate leaves unresolved. An assignment that is the best of its variable
is taken for a value of the candidate unless the candidate has it, and the first conflict is not
looked at. Then the assignments of a candidate that a conflict has, which are put into a list after
the first one that is not lighter. -/

namespace Livingstone

namespace ConflictDb

/-- The databases that `add_conflict` builds. -/
inductive Built (D : Assignables) : ConflictDb → Prop
  | empty : Built D {}
  | addConflict {db : ConflictDb} (h : Built D db) (assignments : List Assignment) (tag : ℕ) :
    Built D (db.addConflict D assignments tag).2

theorem Built.agree {D : Assignables} {db : ConflictDb} (h : Built D db) : db.Agree D := by
  have hrun : ∃ ops, UnhookedRun D ops db := by
    induction h with
    | empty => exact ⟨[], UnhookedRun.nil⟩
    | @addConflict db h as tag ih =>
      obtain ⟨ops, hops⟩ := ih
      have hvalid : db.Valid (.addConflict as tag) := trivial
      have hunhooks : db.Unhooks (.addConflict as tag) := trivial
      exact ⟨ops ++ [.addConflict as tag], hops.snoc hvalid hunhooks rfl⟩
  obtain ⟨ops, hops⟩ := hrun
  exact hops.dbRun.linked.agree hops.noDangling

end ConflictDb

namespace Candidate

variable {D : Assignables} {db : ConflictDb} {candidate : Candidate} {a : Assignment}
  {k : Conflict} {c d : ConflictId}

def Mentions (candidate : Candidate) (v : VarId) : Prop := ∃ a ∈ candidate, a.var = v
  deriving Decidable

/-- The assignment that a variable has where nothing else is said. -/
def IsDefault (D : Assignables) (a : Assignment) : Prop := bestWeightAssignment D a.var = some a
  deriving Decidable

/-- The explicit assignment, or the default of a variable that the candidate does not mention. -/
def IsValue (D : Assignables) (candidate : Candidate) (a : Assignment) : Prop :=
  a ∈ candidate ∨ (¬ candidate.Mentions a.var ∧ IsDefault D a)
  deriving Decidable

def Unresolved (D : Assignables) (candidate : Candidate) (k : Conflict) : Prop :=
  ∀ a ∈ k.assignments, IsValue D candidate a
  deriving Decidable

/-- The candidate has the default, which is then no value of it to `conflict_not_resolved`. -/
def Explicit (D : Assignables) (candidate : Candidate) (a : Assignment) : Prop :=
  IsDefault D a ∧ a ∈ candidate
  deriving Decidable

/-- The candidate has another value for the variable, which is not looked for. -/
def Overridden (D : Assignables) (candidate : Candidate) (a : Assignment) : Prop :=
  IsDefault D a ∧ a ∉ candidate ∧ candidate.Mentions a.var
  deriving Decidable

/-- Some other assignment resolves the conflict, or the two mistakes agree. -/
def Judged (D : Assignables) (candidate : Candidate) (k : Conflict) : Prop :=
  (∃ a ∈ k.assignments, ¬ IsDefault D a ∧ a ∉ candidate) ∨
    ((∃ a ∈ k.assignments, Explicit D candidate a) ↔
      ∃ a ∈ k.assignments, Overridden D candidate a)
  deriving Decidable

theorem conflictNotResolved_iff : conflictNotResolved D candidate k = true ↔
    ¬ (∃ a ∈ k.assignments, ¬ IsDefault D a ∧ a ∉ candidate) ∧
      ¬ ∃ a ∈ k.assignments, Explicit D candidate a := by
  have hone (a : Assignment) : leavesUnresolved D candidate a = true ↔
      ¬ (¬ IsDefault D a ∧ a ∉ candidate) ∧ ¬ Explicit D candidate a := by
    unfold leavesUnresolved Explicit IsDefault
    by_cases ha : a ∈ candidate
    · simp [ha]
    · simp [ha]
  unfold conflictNotResolved
  rw [List.all_eq_true]
  simp only [hone]
  push Not
  exact forall₂_and

theorem unresolved_iff : Unresolved D candidate k ↔
    ¬ (∃ a ∈ k.assignments, ¬ IsDefault D a ∧ a ∉ candidate) ∧
      ¬ ∃ a ∈ k.assignments, Overridden D candidate a := by
  have hone (a : Assignment) : IsValue D candidate a ↔
      ¬ (¬ IsDefault D a ∧ a ∉ candidate) ∧ ¬ Overridden D candidate a := by
    have hmentions : a ∈ candidate → candidate.Mentions a.var := fun ha => ⟨a, ha, rfl⟩
    unfold IsValue Overridden
    generalize candidate.Mentions a.var = mentions at hmentions ⊢
    tauto
  unfold Unresolved
  simp only [hone]
  push Not
  exact forall₂_and

theorem judged_iff : (conflictNotResolved D candidate k = true ↔ Unresolved D candidate k) ↔
    Judged D candidate k := by
  rw [conflictNotResolved_iff, unresolved_iff]
  unfold Judged
  generalize (∃ a ∈ k.assignments, ¬ IsDefault D a ∧ a ∉ candidate) = p
  generalize (∃ a ∈ k.assignments, Explicit D candidate a) = q
  by_cases hp : p
  · simp [hp]
  · simp only [hp, not_false_eq_true, true_and, false_or]
    exact not_iff_not

/-- A conflict of one of the assignments of the candidate. -/
def Attached (db : ConflictDb) (candidate : Candidate) (c : ConflictId) : Prop :=
  ∃ a ∈ candidate, c ∈ db.conflictsOf a
  deriving Decidable

/-- The conflicts that are looked at: the first of each assignment. -/
def heads (db : ConflictDb) (candidate : Candidate) : List ConflictId :=
  candidate.filterMap fun a => (db.conflictsOf a).head?

theorem attached_of_mem_heads (h : c ∈ heads db candidate) : Attached db candidate c := by
  obtain ⟨a, ha, hc⟩ := List.mem_filterMap.mp h
  exact ⟨a, ha, List.mem_of_head? hc⟩

theorem not_mem_of_heads_nil (h : heads db candidate = []) (ha : a ∈ candidate) :
    c ∉ db.conflictsOf a := by
  intro hc
  have hnone := List.filterMap_eq_nil_iff.mp h a ha
  rw [List.head?_eq_none_iff] at hnone
  rw [hnone] at hc
  exact List.not_mem_nil hc

/-- The loop once it has a conflict. -/
def smaller (D : Assignables) (db : ConflictDb) (candidate : Candidate) (d c : ConflictId) :
    ConflictId :=
  if conflictNotResolved D candidate (db.conflict c) ∧ db.conflictIsSmaller c d then c else d

theorem smallestUnresolvedConflict_eq : smallestUnresolvedConflict D db candidate =
    match heads db candidate with
    | [] => none
    | c :: cs => some (cs.foldl (smaller D db candidate) c) := by
  have hsome (as : List Assignment) (d : ConflictId) :
      as.foldl (smallerConflict D db candidate) (some d) =
        some ((heads db as).foldl (smaller D db candidate) d) := by
    induction as generalizing d with
    | nil => rfl
    | cons a as ih =>
      rw [List.foldl_cons, heads, List.filterMap_cons]
      cases hc : (db.conflictsOf a).head? with
      | none =>
        simp only [smallerConflict, hc]
        exact ih d
      | some c =>
        simp only [smallerConflict, hc, ← apply_ite some, List.foldl_cons]
        exact ih _
  have hnone (as : List Assignment) : as.foldl (smallerConflict D db candidate) none =
      match heads db as with
      | [] => none
      | c :: cs => some (cs.foldl (smaller D db candidate) c) := by
    induction as with
    | nil => rfl
    | cons a as ih =>
      rw [List.foldl_cons, heads, List.filterMap_cons]
      cases hc : (db.conflictsOf a).head? with
      | none =>
        simp only [smallerConflict, hc]
        exact ih
      | some c =>
        simp only [smallerConflict, hc]
        exact hsome as c
  exact hnone candidate

/-- What is kept is the first one or an unresolved one that is smaller, and no unresolved one is
smaller still. -/
theorem foldl_smaller_spec (D : Assignables) (db : ConflictDb) (candidate : Candidate)
    (cs : List ConflictId) (d : ConflictId) :
    (cs.foldl (smaller D db candidate) d = d ∨
      (cs.foldl (smaller D db candidate) d ∈ cs ∧
        conflictNotResolved D candidate (db.conflict (cs.foldl (smaller D db candidate) d)) = true ∧
        (db.conflict (cs.foldl (smaller D db candidate) d)).size < (db.conflict d).size)) ∧
    ∀ c ∈ cs, conflictNotResolved D candidate (db.conflict c) = true →
      (db.conflict (cs.foldl (smaller D db candidate) d)).size ≤ (db.conflict c).size := by
  induction cs generalizing d with
  | nil => exact ⟨Or.inl rfl, by simp⟩
  | cons c cs ih =>
    obtain ⟨hkept, hle⟩ := ih (smaller D db candidate d c)
    rw [List.foldl_cons]
    generalize cs.foldl (smaller D db candidate) (smaller D db candidate d c) = r at hkept hle ⊢
    unfold smaller at hkept
    rw [List.forall_mem_cons, List.mem_cons]
    simp only [ConflictDb.conflictIsSmaller, decide_eq_true_eq] at hkept
    split_ifs at hkept with hc
    · obtain ⟨hnot, hsize⟩ := hc
      rcases hkept with rfl | ⟨hr, hrnot, hrsize⟩
      · exact ⟨Or.inr ⟨Or.inl rfl, hnot, hsize⟩, fun _ => le_rfl, hle⟩
      · exact ⟨Or.inr ⟨Or.inr hr, hrnot, hrsize.trans hsize⟩, fun _ => hrsize.le, hle⟩
    · have hlarger (h : conflictNotResolved D candidate (db.conflict c) = true) :
          (db.conflict d).size ≤ (db.conflict c).size := not_lt.mp fun hsize => hc ⟨h, hsize⟩
      rcases hkept with rfl | ⟨hr, hrnot, hrsize⟩
      · exact ⟨Or.inl rfl, hlarger, hle⟩
      · exact ⟨Or.inr ⟨Or.inr hr, hrnot, hrsize⟩, fun h => hrsize.le.trans (hlarger h), hle⟩

/-- No conflict of an assignment of the candidate is unresolved and smaller. -/
def Minimal (D : Assignables) (db : ConflictDb) (candidate : Candidate) (c : ConflictId) : Prop :=
  ∀ a ∈ candidate, ∀ d ∈ db.conflictsOf a, Unresolved D candidate (db.conflict d) →
    (db.conflict c).size ≤ (db.conflict d).size
  deriving Decidable

/-- An unresolved conflict of the least size, if there is an unresolved one. -/
def IsSmallest (D : Assignables) (db : ConflictDb) (candidate : Candidate) :
    Option ConflictId → Prop
  | none => ∀ a ∈ candidate, ∀ c ∈ db.conflictsOf a, ¬ Unresolved D candidate (db.conflict c)
  | some c => Attached db candidate c ∧ Unresolved D candidate (db.conflict c) ∧
    Minimal D db candidate c

/-- `conflict_not_resolved` decides which conflicts of the database are unresolved. -/
def Decides (D : Assignables) (db : ConflictDb) (candidate : Candidate) : Prop :=
  ∀ c ∈ db.conflicts, conflictNotResolved D candidate (db.conflict c) = true ↔
    Unresolved D candidate (db.conflict c)
  deriving Decidable

/-- A smallest unresolved conflict is the first one of its assignment, and the conflict that is met
first is unresolved or larger than it. -/
def SmallestFirst (D : Assignables) (db : ConflictDb) (candidate : Candidate) : Prop :=
  ∀ first ∈ (heads db candidate).head?, ∃ c ∈ heads db candidate,
    Unresolved D candidate (db.conflict c) ∧ Minimal D db candidate c ∧
    (Unresolved D candidate (db.conflict first) ∨
      (db.conflict c).size < (db.conflict first).size)
  deriving Decidable

theorem isSmallest_iff (hdb : db.Agree D) (hdec : Decides D db candidate) :
    IsSmallest D db candidate (smallestUnresolvedConflict D db candidate) ↔
      SmallestFirst D db candidate := by
  have hjudge (c : ConflictId) (hc : c ∈ heads db candidate) :
      conflictNotResolved D candidate (db.conflict c) = true ↔
        Unresolved D candidate (db.conflict c) := by
    obtain ⟨a, -, hac⟩ := attached_of_mem_heads hc
    exact hdec c ((hdb.conflictsOf a c).mp hac).1
  rw [smallestUnresolvedConflict_eq]
  unfold SmallestFirst
  cases hheads : heads db candidate with
  | nil =>
    simp only [List.head?_nil, Option.not_mem_none, false_implies, implies_true, iff_true]
    intro a ha c hc
    exact absurd hc (not_mem_of_heads_nil hheads ha)
  | cons first cs =>
    rw [hheads] at hjudge
    obtain ⟨hkept, hle⟩ := foldl_smaller_spec D db candidate cs first
    dsimp only
    generalize cs.foldl (smaller D db candidate) first = r at hkept hle ⊢
    have hr : r ∈ first :: cs := by
      rcases hkept with rfl | ⟨hr, -⟩
      · exact List.mem_cons_self
      · exact List.mem_cons_of_mem first hr
    simp only [List.head?_cons, Option.mem_def, Option.some.injEq, forall_eq']
    constructor
    · intro ⟨_, hunres, hmin⟩
      refine ⟨r, hr, hunres, hmin, ?_⟩
      rcases hkept with rfl | ⟨-, -, hsize⟩
      · exact Or.inl hunres
      · exact Or.inr hsize
    · intro ⟨c, hc, hunres, hmin, hfirst⟩
      have hrc : (db.conflict r).size ≤ (db.conflict c).size := by
        rcases List.mem_cons.mp hc with rfl | hcs
        · rcases hkept with rfl | ⟨-, -, hsize⟩
          · exact le_rfl
          · exact hsize.le
        · exact hle c hcs ((hjudge c hc).mpr hunres)
      have hrun : Unresolved D candidate (db.conflict r) := by
        rcases hkept with rfl | ⟨-, hnot, -⟩
        · exact hfirst.resolve_right (not_lt.mpr hrc)
        · exact (hjudge r hr).mp hnot
      exact ⟨attached_of_mem_heads (hheads ▸ hr), hrun,
        fun a ha d hd hdun => hrc.trans (hmin a ha d hd hdun)⟩

/-- The smallest unresolved conflict is found, and the conflicts are judged right, if and only if in
each conflict the mistakes agree and a smallest one is met first. -/
theorem findsSmallest_iff (h : ConflictDb.Built D db) (candidate : Candidate) :
    (IsSmallest D db candidate (smallestUnresolvedConflict D db candidate) ∧
      Decides D db candidate) ↔
    (∀ c ∈ db.conflicts, Judged D candidate (db.conflict c)) ∧ SmallestFirst D db candidate := by
  have hdec : Decides D db candidate ↔ ∀ c ∈ db.conflicts, Judged D candidate (db.conflict c) :=
    forall₂_congr fun c _ => judged_iff
  rw [← hdec]
  constructor
  · intro ⟨hsmallest, hd⟩
    exact ⟨hd, (isSmallest_iff h.agree hd).mp hsmallest⟩
  · intro ⟨hd, hfirst⟩
    exact ⟨(isSmallest_iff h.agree hd).mpr hfirst, hd⟩

open ConflictDb (switches switch₀ switch₁)

/-- The candidate turns the first switch on, and the second one is off by default. -/
theorem findsSmallest_iff_switches : ∃ db, ConflictDb.Built switches db ∧
    IsSmallest switches db [⟨switch₀, 1⟩] (some 0) ∧ Decides switches db [⟨switch₀, 1⟩] := by
  have hbuilt : ConflictDb.Built switches _ :=
    ConflictDb.Built.empty.addConflict [⟨switch₀, 1⟩, ⟨switch₁, 0⟩] 0
  exact ⟨_, hbuilt, (findsSmallest_iff hbuilt [⟨switch₀, 1⟩]).mpr ⟨by decide, by decide⟩⟩

/-- The candidate turns both switches on. The conflict in which the first one is off is resolved, and
is returned. -/
theorem not_findsSmallest : ¬ ∀ (D : Assignables) (db : ConflictDb), ConflictDb.Built D db →
    ∀ candidate : Candidate,
      IsSmallest D db candidate (smallestUnresolvedConflict D db candidate) ∧
        Decides D db candidate := by
  intro h
  have hbuilt : ConflictDb.Built switches _ :=
    ConflictDb.Built.empty.addConflict [⟨switch₀, 0⟩, ⟨switch₁, 1⟩] 0
  obtain ⟨_, hunresolved, _⟩ : IsSmallest switches _ [⟨switch₀, 1⟩, ⟨switch₁, 1⟩] (some 0) :=
    (h switches _ hbuilt [⟨switch₀, 1⟩, ⟨switch₁, 1⟩]).1
  exact absurd hunresolved (by decide)

/-- The assignments whose conflicts contain the conflict. -/
def conflictAssignments (db : ConflictDb) (candidate : Candidate) (c : ConflictId) :
    List Assignment :=
  candidate.filter fun a => c ∈ db.conflictsOf a

/-- Each of them once, in the order of their weight. -/
def IsSortedBy (D : Assignables) (assignments conflictList : List Assignment) : Prop :=
  conflictList.Perm assignments ∧ conflictList.Pairwise fun a b => D.weight a ≤ D.weight b

/-- Each one is heavier than all before it, or as heavy as one of them. -/
def ArriveSorted (D : Assignables) (assignments : List Assignment) : Prop :=
  ∀ before a after, assignments = before ++ a :: after →
    (∀ b ∈ before, D.weight b < D.weight a) ∨ ∃ b ∈ before, D.weight b = D.weight a

theorem insertByWeight_eq (a : Assignment) (conflictList : List Assignment) :
    insertByWeight D a conflictList =
      Insertion.insertAfter (fun a => (D.weight a).toNat) a conflictList := by
  induction conflictList with
  | nil => rfl
  | cons b conflictList ih =>
    simp only [insertByWeight, Insertion.insertAfter, ih, UInt32.lt_iff_toNat_lt]

theorem getConflictAssignments_eq (db : ConflictDb) (candidate : Candidate) (c : ConflictId)
    (conflictList : List Assignment) :
    getConflictAssignments D db candidate (some c) conflictList =
      Insertion.insertAll (fun a => (D.weight a).toNat) (conflictAssignments db candidate c)
        conflictList := by
  unfold getConflictAssignments conflictAssignments Insertion.insertAll
  rw [List.foldl_filter]
  simp only [insertByWeight_eq, decide_eq_true_eq]

/-- The assignments of the conflict are all there, and in the order of their weight if and only if
the candidate gives them so that the insertion puts none after a heavier one. -/
theorem getConflictAssignments_iff (D : Assignables) (db : ConflictDb) (candidate : Candidate)
    (c : ConflictId) :
    IsSortedBy D (conflictAssignments db candidate c)
        (getConflictAssignments D db candidate (some c) []) ↔
      ArriveSorted D (conflictAssignments db candidate c) := by
  have hperm : (getConflictAssignments D db candidate (some c) []).Perm
      (conflictAssignments db candidate c) := by
    rw [getConflictAssignments_eq]
    exact Insertion.perm_insertAll.trans (List.Perm.of_eq (List.append_nil _))
  have hsorted : (getConflictAssignments D db candidate (some c) []).Pairwise
      (fun a b => D.weight a ≤ D.weight b) ↔ ArriveSorted D (conflictAssignments db candidate c) := by
    simp only [UInt32.le_iff_toNat_le, getConflictAssignments_eq]
    refine Insertion.sorted_insertAll.trans ?_
    simp only [ArriveSorted, Insertion.Fits, UInt32.lt_iff_toNat_lt, UInt32.toNat_inj]
  constructor
  · intro h
    exact hsorted.mp h.2
  · intro h
    exact ⟨hperm, hsorted.mpr h⟩

/-- A lighter assignment after a heavier one stays there. -/
theorem not_sortedBy_getConflictAssignments : ¬ ∀ (D : Assignables) (db : ConflictDb)
    (candidate : Candidate) (c : ConflictId),
    IsSortedBy D (conflictAssignments db candidate c)
      (getConflictAssignments D db candidate (some c) []) := by
  intro h
  have hsorted := (h switches
    (({} : ConflictDb).addConflict switches [⟨switch₀, 1⟩, ⟨switch₁, 0⟩] 0).2
    [⟨switch₀, 1⟩, ⟨switch₁, 0⟩] 0).2
  have hlist : getConflictAssignments switches
      (({} : ConflictDb).addConflict switches [⟨switch₀, 1⟩, ⟨switch₁, 0⟩] 0).2
      [⟨switch₀, 1⟩, ⟨switch₁, 0⟩] (some 0) [] = [⟨switch₀, 1⟩, ⟨switch₁, 0⟩] := by decide
  rw [hlist] at hsorted
  exact absurd hsorted (by decide)

end Candidate

end Livingstone
