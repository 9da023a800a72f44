import Livingstone.ConflictDb.Conflict

/-! The agreement of the database with the back pointers of the assignments, and what
each operation on the database does to the two. -/

namespace Livingstone.ConflictDb

open Backlinks
open Function (update update_of_ne)

variable {D : Assignables} {db db' : ConflictDb} {a b : Assignment} {c d : ConflictId}

/-- `a` is an assignment of a variable of `c` other than the one that `c` has. -/
def Resolves (D : Assignables) (db : ConflictDb) (a : Assignment) (c : ConflictId) : Prop :=
  ∃ b ∈ (db.conflict c).assignments, a ∈ D.others b

/-- What holds of the database after any history. The back pointers to the stored
conflicts are right, and no stored conflict makes a later one redundant. -/
structure Linked (D : Assignables) (db : ConflictDb) : Prop where
  allocated : ∀ c ∈ db.conflicts, c < db.next
  nodup : db.conflicts.Nodup
  conflictsOf : ∀ c ∈ db.conflicts, ∀ a, c ∈ db.conflictsOf a ↔ a ∈ (db.conflict c).assignments
  resolvedConflicts : ∀ c ∈ db.conflicts, ∀ a,
    c ∈ db.resolvedConflicts a ↔ Resolves D db a c
  referred : ∀ a c, c ∈ db.conflictsOf a ∨ c ∈ db.resolvedConflicts a → c < db.next
  sorted : db.conflicts.Pairwise fun c d => (db.conflict c).size ≤ (db.conflict d).size
  unsubsumed : ∀ c ∈ db.conflicts, ∀ d ∈ db.conflicts, c < d →
    (db.conflict c).subsumes (db.conflict d).assignments = false

/-- The database and the back pointers agree: there are no others. -/
structure Agree (D : Assignables) (db : ConflictDb) : Prop where
  conflictsOf : ∀ a c, c ∈ db.conflictsOf a ↔
    c ∈ db.conflicts ∧ a ∈ (db.conflict c).assignments
  resolvedConflicts : ∀ a c, c ∈ db.resolvedConflicts a ↔ c ∈ db.conflicts ∧ Resolves D db a c
  sorted : db.conflicts.Pairwise fun c d => (db.conflict c).size ≤ (db.conflict d).size
  unsubsumed : ∀ c ∈ db.conflicts, ∀ d ∈ db.conflicts, c < d →
    (db.conflict c).subsumes (db.conflict d).assignments = false

/-- Every conflict an assignment refers to is stored. -/
def NoDangling (db : ConflictDb) : Prop :=
  ∀ a c, c ∈ db.conflictsOf a ∨ c ∈ db.resolvedConflicts a → c ∈ db.conflicts

theorem Linked.agree (h : db.Linked D) (hd : db.NoDangling) : db.Agree D :=
  ⟨fun a c => ⟨fun hc => ⟨hd a c (Or.inl hc), (h.conflictsOf c (hd a c (Or.inl hc)) a).mp hc⟩,
      fun hc => (h.conflictsOf c hc.1 a).mpr hc.2⟩,
    fun a c => ⟨fun hc => ⟨hd a c (Or.inr hc), (h.resolvedConflicts c (hd a c (Or.inr hc)) a).mp hc⟩,
      fun hc => (h.resolvedConflicts c hc.1 a).mpr hc.2⟩,
    h.sorted, h.unsubsumed⟩

theorem mem_others : a ∈ D.others b ↔ a ∈ D.assignments b.var ∧ a ≠ b := by
  simp [Assignables.others]

structure Repointed (db db' : ConflictDb) : Prop where
  conflict : db'.conflict = db.conflict
  conflicts : db'.conflicts = db.conflicts
  next : db'.next = db.next

theorem Repointed.trans {db'' : ConflictDb} (h : db.Repointed db') (h' : db'.Repointed db'') :
    db.Repointed db'' :=
  ⟨h'.conflict.trans h.conflict, h'.conflicts.trans h.conflicts, h'.next.trans h.next⟩

theorem addConflict_back (as : List Assignment) (db : ConflictDb) :
    db.Repointed (as.foldl (assignmentAddConflict D c) db) ∧
      (∀ a d, d ∈ (as.foldl (assignmentAddConflict D c) db).conflictsOf a ↔
        d ∈ db.conflictsOf a ∨ (d = c ∧ a ∈ as)) ∧
      ∀ a d, d ∈ (as.foldl (assignmentAddConflict D c) db).resolvedConflicts a ↔
        d ∈ db.resolvedConflicts a ∨ (d = c ∧ ∃ b ∈ as, a ∈ D.others b) := by
  induction as generalizing db with
  | nil => exact ⟨⟨rfl, rfl, rfl⟩, by simp, by simp⟩
  | cons b as ih =>
    obtain ⟨hr, hc, hs⟩ := ih (assignmentAddConflict D c db b)
    have hb : db.Repointed (assignmentAddConflict D c db b) := ⟨rfl, rfl, rfl⟩
    refine ⟨hb.trans hr, fun a d => ?_, fun a d => ?_⟩
    · rw [List.foldl_cons, hc]
      have hstep : d ∈ (assignmentAddConflict D c db b).conflictsOf a ↔
          d ∈ db.conflictsOf a ∨ (d = c ∧ a = b) := by
        unfold assignmentAddConflict
        split_ifs with hm
        · constructor
          · exact Or.inl
          · rintro (h | ⟨rfl, rfl⟩)
            · exact h
            · exact hm
        · exact mem_link
      rw [hstep, List.mem_cons]
      tauto
    · rw [List.foldl_cons, hs]
      have hstep : d ∈ (assignmentAddConflict D c db b).resolvedConflicts a ↔
          d ∈ db.resolvedConflicts a ∨ (d = c ∧ a ∈ D.others b) := mem_foldl_link
      rw [hstep, List.exists_mem_cons_iff]
      tauto

theorem removeConflict_back (as : List Assignment) (db : ConflictDb) :
    db.Repointed (as.foldl (assignmentRemoveConflict D c) db) ∧
      (∀ a d, d ∈ (as.foldl (assignmentRemoveConflict D c) db).conflictsOf a ↔
        d ∈ db.conflictsOf a ∧ ¬ (d = c ∧ a ∈ as)) ∧
      ∀ a d, d ∈ (as.foldl (assignmentRemoveConflict D c) db).resolvedConflicts a ↔
        d ∈ db.resolvedConflicts a ∧ ¬ (d = c ∧ ∃ b ∈ as, a ∈ D.others b) := by
  induction as generalizing db with
  | nil => exact ⟨⟨rfl, rfl, rfl⟩, by simp, by simp⟩
  | cons b as ih =>
    obtain ⟨hr, hc, hs⟩ := ih (assignmentRemoveConflict D c db b)
    have hb : db.Repointed (assignmentRemoveConflict D c db b) := ⟨rfl, rfl, rfl⟩
    refine ⟨hb.trans hr, fun a d => ?_, fun a d => ?_⟩
    · rw [List.foldl_cons, hc]
      have hstep : d ∈ (assignmentRemoveConflict D c db b).conflictsOf a ↔
          d ∈ db.conflictsOf a ∧ ¬ (d = c ∧ a = b) := mem_unlink
      rw [hstep, List.mem_cons]
      tauto
    · rw [List.foldl_cons, hs]
      have hstep : d ∈ (assignmentRemoveConflict D c db b).resolvedConflicts a ↔
          d ∈ db.resolvedConflicts a ∧ ¬ (d = c ∧ a ∈ D.others b) := mem_foldl_unlink
      rw [hstep, List.exists_mem_cons_iff, and_or_left, not_or, and_assoc]

theorem findSubsumingConflict_some {as : List Assignment}
    (h : db.findSubsumingConflict as = some c) :
    c ∈ db.conflicts ∧ (db.conflict c).subsumes as = true :=
  ⟨List.mem_of_find?_eq_some h, by simpa using List.find?_some h⟩

theorem findSubsumingConflict_none {as : List Assignment} (h : db.findSubsumingConflict as = none) :
    ∀ c ∈ db.conflicts, (db.conflict c).subsumes as = false := by
  simpa [findSubsumingConflict] using h

/-- The state after a new conflict was stored. -/
structure Stored (D : Assignables) (db : ConflictDb) (as : List Assignment) (tag : ℕ)
    (db' : ConflictDb) : Prop where
  conflict : db'.conflict = update db.conflict db.next ⟨as, tag⟩
  next : db'.next = db.next + 1
  perm : db'.conflicts.Perm (db.next :: db.conflicts)
  sorted : (∀ c ∈ db.conflicts, c < db.next) →
    (db.conflicts.Pairwise fun c d => (db.conflict c).size ≤ (db.conflict d).size) →
      db'.conflicts.Pairwise fun c d => (db'.conflict c).size ≤ (db'.conflict d).size
  conflictsOf : ∀ a d, d ∈ db'.conflictsOf a ↔ d ∈ db.conflictsOf a ∨ (d = db.next ∧ a ∈ as)
  resolvedConflicts : ∀ a d, d ∈ db'.resolvedConflicts a ↔
    d ∈ db.resolvedConflicts a ∨ (d = db.next ∧ ∃ b ∈ as, a ∈ D.others b)

/-- Either a stored conflict subsumes the assignments and nothing changes, or none does
and a new one is stored. -/
theorem addConflict_cases (D : Assignables) (db : ConflictDb) (as : List Assignment) (tag : ℕ) :
    (∃ c ∈ db.conflicts, (db.conflict c).subsumes as = true ∧
        db.addConflict D as tag = (c, db)) ∨
      ((∀ c ∈ db.conflicts, (db.conflict c).subsumes as = false) ∧
        ∃ db', db.addConflict D as tag = (db.next, db') ∧ Stored D db as tag db') := by
  unfold addConflict
  cases h : db.findSubsumingConflict as with
  | some c =>
    obtain ⟨hc, hs⟩ := findSubsumingConflict_some h
    exact Or.inl ⟨c, hc, hs, rfl⟩
  | none =>
    refine Or.inr ⟨findSubsumingConflict_none h, _, rfl, ?_⟩
    set db₀ := { db with
      conflict := update db.conflict db.next ⟨as, tag⟩
      next := db.next + 1 } with hdb₀
    obtain ⟨hr, hc, hs⟩ := addConflict_back (D := D) (c := db.next) as db₀
    refine ⟨hr.conflict, hr.next, ?_, fun hlt hsort => ?_, hc, hs⟩
    · simp only [hr.conflicts]
      exact SortedList.perm_insertSorted _ _ _
    · simp only [hr.conflicts]
      refine SortedList.pairwise_insertSorted _ _ (fun x y => rfl) ?_
      have hold {x : ConflictId} (hx : x ∈ db.conflicts) : db₀.conflict x = db.conflict x :=
        update_of_ne (hlt x hx).ne _ _
      refine hsort.imp_of_mem fun {x y} hx hy hle => ?_
      rw [hr.conflict, hold hx, hold hy]
      exact hle

theorem Stored.linked {as : List Assignment} {tag : ℕ} (hs : Stored D db as tag db')
    (h : db.Linked D) (hsub : ∀ c ∈ db.conflicts, (db.conflict c).subsumes as = false) :
    db'.Linked D := by
  have hmem (d : ConflictId) : d ∈ db'.conflicts ↔ d = db.next ∨ d ∈ db.conflicts := by
    rw [hs.perm.mem_iff, List.mem_cons]
  have hold {d : ConflictId} (hd : d ∈ db.conflicts) : db'.conflict d = db.conflict d := by
    rw [hs.conflict, update_of_ne (h.allocated d hd).ne]
  have hnew : db'.conflict db.next = ⟨as, tag⟩ := by
    rw [hs.conflict, Function.update_self]
  have hfresh : db.next ∉ db.conflicts := fun hm => lt_irrefl _ (h.allocated _ hm)
  have hunused (a : Assignment) :
      ¬ (db.next ∈ db.conflictsOf a ∨ db.next ∈ db.resolvedConflicts a) := fun hm =>
    lt_irrefl _ (h.referred a _ hm)
  refine ⟨fun d hd => ?_, ?_, fun d hd a => ?_, fun d hd a => ?_, fun a d hd => ?_,
    hs.sorted h.allocated h.sorted, fun d hd e he hde => ?_⟩
  · rw [hs.next]
    rcases (hmem d).mp hd with rfl | hd
    · exact Nat.lt_succ_self _
    · exact Nat.lt_succ_of_lt (h.allocated d hd)
  · exact hs.perm.nodup_iff.mpr (List.nodup_cons.mpr ⟨hfresh, h.nodup⟩)
  · rw [hs.conflictsOf]
    rcases (hmem d).mp hd with rfl | hd
    · simp [hnew, (not_or.mp (hunused a)).1]
    · have : d ≠ db.next := fun he => hfresh (he ▸ hd)
      simp [this, hold hd, h.conflictsOf d hd]
  · rw [hs.resolvedConflicts]
    rcases (hmem d).mp hd with rfl | hd
    · simp [Resolves, hnew, (not_or.mp (hunused a)).2]
    · have : d ≠ db.next := fun he => hfresh (he ▸ hd)
      simp [this, Resolves, hold hd, h.resolvedConflicts d hd]
  · rw [hs.next]
    rw [hs.conflictsOf, hs.resolvedConflicts] at hd
    rcases hd with (hd | ⟨rfl, -⟩) | (hd | ⟨rfl, -⟩)
    · exact Nat.lt_succ_of_lt (h.referred a d (Or.inl hd))
    · exact Nat.lt_succ_self _
    · exact Nat.lt_succ_of_lt (h.referred a d (Or.inr hd))
    · exact Nat.lt_succ_self _
  · rcases (hmem e).mp he with rfl | he
    · rcases (hmem d).mp hd with rfl | hd
      · exact absurd hde (lt_irrefl _)
      · rw [hold hd, hnew]
        exact hsub d hd
    · rcases (hmem d).mp hd with rfl | hd
      · exact absurd (hde.trans (h.allocated e he)) (lt_irrefl _)
      · rw [hold hd, hold he]
        exact h.unsubsumed d hd e he hde

theorem Stored.noDangling {as : List Assignment} {tag : ℕ} (hs : Stored D db as tag db')
    (h : db.NoDangling) : db'.NoDangling := by
  intro a d hd
  rw [hs.perm.mem_iff, List.mem_cons]
  rw [hs.conflictsOf, hs.resolvedConflicts] at hd
  rcases hd with (hd | ⟨rfl, -⟩) | (hd | ⟨rfl, -⟩)
  · exact Or.inr (h a d (Or.inl hd))
  · exact Or.inl rfl
  · exact Or.inr (h a d (Or.inr hd))
  · exact Or.inl rfl

theorem Linked.addConflict (h : db.Linked D) (as : List Assignment) (tag : ℕ) :
    (db.addConflict D as tag).2.Linked D := by
  rcases addConflict_cases D db as tag with ⟨c, -, -, hc⟩ | ⟨hsub, db', hdb', hs⟩
  · rw [hc]
    exact h
  · rw [hdb']
    exact hs.linked h hsub

theorem NoDangling.addConflict (h : db.NoDangling) (as : List Assignment) (tag : ℕ) :
    (db.addConflict D as tag).2.NoDangling := by
  rcases addConflict_cases D db as tag with ⟨c, -, -, hc⟩ | ⟨-, db', hdb', hs⟩
  · rw [hc]
    exact h
  · rw [hdb']
    exact hs.noDangling h

/-- Some conflicts are no longer stored; the back pointers to the others are as before. -/
structure Shrunk (db db' : ConflictDb) : Prop where
  conflict : db'.conflict = db.conflict
  next : db'.next = db.next
  sublist : db'.conflicts.Sublist db.conflicts
  conflictsOf : ∀ a, db'.conflictsOf a ⊆ db.conflictsOf a
  resolvedConflicts : ∀ a, db'.resolvedConflicts a ⊆ db.resolvedConflicts a
  kept : ∀ c ∈ db'.conflicts, ∀ a, (c ∈ db.conflictsOf a → c ∈ db'.conflictsOf a) ∧
    (c ∈ db.resolvedConflicts a → c ∈ db'.resolvedConflicts a)

theorem Shrunk.linked (hs : Shrunk db db') (h : db.Linked D) : db'.Linked D := by
  have hmem {d : ConflictId} (hd : d ∈ db'.conflicts) : d ∈ db.conflicts := hs.sublist.subset hd
  refine ⟨fun d hd => hs.next ▸ h.allocated d (hmem hd), hs.sublist.nodup h.nodup,
    fun d hd a => ?_, fun d hd a => ?_, fun a d hd => ?_, ?_, fun d hd e he => ?_⟩
  · rw [hs.conflict, ← h.conflictsOf d (hmem hd)]
    exact ⟨fun hm => hs.conflictsOf a hm, (hs.kept d hd a).1⟩
  · simp only [Resolves, hs.conflict]
    refine Iff.trans ?_ (h.resolvedConflicts d (hmem hd) a)
    exact ⟨fun hm => hs.resolvedConflicts a hm, (hs.kept d hd a).2⟩
  · rw [hs.next]
    exact h.referred a d (hd.imp (fun hm => hs.conflictsOf a hm) fun hm => hs.resolvedConflicts a hm)
  · rw [hs.conflict]
    exact h.sorted.sublist hs.sublist
  · rw [hs.conflict]
    exact h.unsubsumed d (hmem hd) e (hmem he)

theorem shrunk_destroyConflict (h : db.conflicts.Nodup) (c : ConflictId) :
    Shrunk db (db.destroyConflict D c) ∧
      (∀ d, d ∈ (db.destroyConflict D c).conflicts ↔ d ≠ c ∧ d ∈ db.conflicts) ∧
      ∀ a d, (d ∈ (db.destroyConflict D c).conflictsOf a ↔
          d ∈ db.conflictsOf a ∧ ¬ (d = c ∧ a ∈ (db.conflict c).assignments)) ∧
        (d ∈ (db.destroyConflict D c).resolvedConflicts a ↔
          d ∈ db.resolvedConflicts a ∧ ¬ (d = c ∧ Resolves D db a c)) := by
  obtain ⟨hr, hc, hs⟩ := removeConflict_back (D := D) (c := c) (db.conflict c).assignments db
  have hconf : (db.destroyConflict D c).conflicts = db.conflicts.erase c := by
    change List.erase _ c = _
    rw [hr.conflicts]
  have hmem (d : ConflictId) :
      d ∈ (db.destroyConflict D c).conflicts ↔ d ≠ c ∧ d ∈ db.conflicts := by
    rw [hconf]
    exact h.mem_erase_iff
  refine ⟨⟨hr.conflict, hr.next, ?_, fun a d hd => ((hc a d).mp hd).1,
    fun a d hd => ((hs a d).mp hd).1, fun d hd a => ⟨fun hm => (hc a d).mpr ⟨hm, ?_⟩,
      fun hm => (hs a d).mpr ⟨hm, ?_⟩⟩⟩, hmem, fun a d => ⟨hc a d, hs a d⟩⟩
  · rw [hconf]
    exact List.erase_sublist
  · exact fun he => ((hmem d).mp hd).1 he.1
  · exact fun he => ((hmem d).mp hd).1 he.1

theorem Linked.destroyConflict (h : db.Linked D) (c : ConflictId) :
    (db.destroyConflict D c).Linked D :=
  (shrunk_destroyConflict h.nodup c).1.linked h

theorem NoDangling.destroyConflict (h : db.NoDangling) (hl : db.Linked D) (c : ConflictId) :
    (db.destroyConflict D c).NoDangling := by
  obtain ⟨-, hmem, hback⟩ := shrunk_destroyConflict (D := D) hl.nodup c
  intro a d hd
  rw [(hback a d).1, (hback a d).2] at hd
  have hd' : d ∈ db.conflicts := h a d (hd.imp And.left And.left)
  rw [hmem]
  refine ⟨?_, hd'⟩
  rintro rfl
  rcases hd with ⟨hm, hn⟩ | ⟨hm, hn⟩
  · exact hn ⟨rfl, (hl.conflictsOf d hd' a).mp hm⟩
  · exact hn ⟨rfl, (hl.resolvedConflicts d hd' a).mp hm⟩

theorem removeOldConflicts_induct {P : ConflictDb → Prop}
    (hstep : ∀ db c, P db → P (db.destroyConflict D c)) (h : P db) (horizon : ℕ) :
    P (db.removeOldConflicts D horizon) := by
  unfold removeOldConflicts
  generalize db.conflicts = cs
  induction cs generalizing db with
  | nil => exact h
  | cons c cs ih =>
    rw [List.foldl_cons]
    split_ifs
    · exact ih (hstep db c h)
    · exact ih h

theorem shrunk_deleteNewestConflicts (db : ConflictDb) (timestep : ℕ) :
    Shrunk db (db.deleteNewestConflicts timestep) :=
  ⟨rfl, rfl, List.filter_sublist, fun _ => List.Subset.refl _, fun _ => List.Subset.refl _,
    fun _ _ _ => ⟨id, id⟩⟩

theorem NoDangling.deleteNewestConflicts (h : db.NoDangling) (hl : db.Linked D) {timestep : ℕ}
    (hold : ∀ c ∈ db.conflicts, (db.conflict c).tag = timestep → (db.conflict c).assignments = []) :
    (db.deleteNewestConflicts timestep).NoDangling := by
  intro a d hd
  have hd' : d ∈ db.conflicts := h a d hd
  refine List.mem_filter.mpr ⟨hd', ?_⟩
  rw [decide_eq_true_eq]
  intro ht
  have hnil := hold d hd' ht
  rcases hd with hm | hm
  · have ha := (hl.conflictsOf d hd' a).mp hm
    rw [hnil] at ha
    cases ha
  · obtain ⟨b, hb, -⟩ := (hl.resolvedConflicts d hd' a).mp hm
    rw [hnil] at hb
    cases hb

/-- `a` refers to a conflict that has left the database. -/
structure Dangling (db : ConflictDb) (a : Assignment) (c : ConflictId) : Prop where
  gone : c ∉ db.conflicts
  allocated : c < db.next
  refers : c ∈ db.conflictsOf a

theorem Dangling.not_agree (h : db.Dangling a c) : ¬ db.Agree D :=
  fun hdb => h.gone ((hdb.conflictsOf a c).mp h.refers).1

theorem dangling_of_delete (h : db.Linked D) {timestep : ℕ} (hc : c ∈ db.conflicts)
    (ht : (db.conflict c).tag = timestep) (ha : a ∈ (db.conflict c).assignments) :
    (db.deleteNewestConflicts timestep).Dangling a c := by
  refine ⟨?_, h.allocated c hc, (h.conflictsOf c hc a).mpr ha⟩
  simp [deleteNewestConflicts, ht]

theorem Dangling.addConflict (h : db.Dangling a c) (as : List Assignment) (tag : ℕ) :
    (db.addConflict D as tag).2.Dangling a c := by
  rcases addConflict_cases D db as tag with ⟨d, -, -, hd⟩ | ⟨-, db', hdb', hs⟩
  · rw [hd]
    exact h
  · rw [hdb']
    refine ⟨?_, ?_, (hs.conflictsOf a c).mpr (Or.inl h.refers)⟩
    · rw [hs.perm.mem_iff, List.mem_cons, not_or]
      exact ⟨h.allocated.ne, h.gone⟩
    · rw [hs.next]
      exact Nat.lt_succ_of_lt h.allocated

theorem Dangling.destroyConflict (h : db.Dangling a c) (hd : d ≠ c) :
    (db.destroyConflict D d).Dangling a c := by
  obtain ⟨hr, hc, -⟩ := removeConflict_back (D := D) (c := d) (db.conflict d).assignments db
  refine ⟨fun hm => h.gone ?_, lt_of_lt_of_eq h.allocated hr.next.symm,
    (hc a c).mpr ⟨h.refers, fun he => hd he.1.symm⟩⟩
  have hm := List.mem_of_mem_erase hm
  rwa [hr.conflicts] at hm

theorem Dangling.deleteNewestConflicts (h : db.Dangling a c) (timestep : ℕ) :
    (db.deleteNewestConflicts timestep).Dangling a c :=
  ⟨fun hm => h.gone (List.mem_filter.mp hm).1, h.allocated, h.refers⟩

theorem Dangling.removeOldConflicts (h : db.Dangling a c) (horizon : ℕ) :
    (db.removeOldConflicts D horizon).Dangling a c := by
  unfold ConflictDb.removeOldConflicts
  have hcs : c ∉ db.conflicts := h.gone
  generalize db.conflicts = cs at hcs
  induction cs generalizing db with
  | nil => exact h
  | cons d cs ih =>
    obtain ⟨hd, hcs⟩ := not_or.mp (mt List.mem_cons.mpr hcs)
    rw [List.foldl_cons]
    split_ifs
    · exact ih (h.destroyConflict (Ne.symm hd)) hcs
    · exact ih h hcs

end Livingstone.ConflictDb
