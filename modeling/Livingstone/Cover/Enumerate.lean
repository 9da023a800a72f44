import Livingstone.ConflictDb.Agree
import Livingstone.Cover.Cover
import Livingstone.Lib.HittingSet
import Livingstone.Lib.Loop
import Mathlib.Data.UInt

/-! What `rho_coverage_aux` finds: the covering sequences of the conflicts no proper
beginning of which uses up the budget, modulo the width of a weight. -/

namespace Livingstone.ConflictDb

open HittingSet
open scoped UInt32.CommRing

variable {D : Assignables} {db : ConflictDb} {a b : Assignment} {c : ConflictId}
  {conflicts : List ConflictId} {marked : List VarId} {as : List Assignment}

/-- `a` may be chosen for the conflict `c`. -/
def Meets (D : Assignables) (db : ConflictDb) (a : Assignment) (c : ConflictId) : Prop :=
  (∃ b ∈ (db.conflict c).assignments, a ∈ D.assignments b.var) ∧ a ∉ (db.conflict c).assignments

theorem Meets.resolves (h : Meets D db a c) : Resolves D db a c := by
  obtain ⟨⟨b, hb, ha⟩, hn⟩ := h
  exact ⟨b, hb, mem_others.mpr ⟨ha, fun heq => hn (heq ▸ hb)⟩⟩

/-- Choices made conflict by conflict until all the conflicts are covered. -/
abbrev Covering (D : Assignables) (db : ConflictDb) :
    List ConflictId → List VarId → List Assignment → Prop :=
  HittingSet.Covering Assignment.var (Meets D db) (Resolves D db)

/-- The variables of the stored conflicts are in the database. -/
def Registered (D : Assignables) (db : ConflictDb) : Prop :=
  ∀ c ∈ db.conflicts, ∀ b ∈ (db.conflict c).assignments, b.var ∈ D.assignables

instance (D : Assignables) (db : ConflictDb) : Decidable (db.Registered D) :=
  inferInstanceAs
    (Decidable (∀ c ∈ db.conflicts, ∀ b ∈ (db.conflict c).assignments, b.var ∈ D.assignables))

/-- The table in which the `marked` variables are set. -/
def marks (D : Assignables) (marked : List VarId) : MarkTable := fun v =>
  if v ∈ D.assignables then some (decide (v ∈ marked)) else none

theorem marks_nil (D : Assignables) :
    (D.assignables.foldl MarkTable.insert fun _ => none) = marks D [] := by
  have h (l : List VarId) (mark : MarkTable) :
      l.foldl MarkTable.insert mark = fun v => if v ∈ l then some false else mark v := by
    induction l generalizing mark with
    | nil => rfl
    | cons u l ih =>
      rw [List.foldl_cons, ih]
      funext v
      by_cases hv : v = u
      · simp [hv, MarkTable.insert]
      · simp [hv, MarkTable.insert]
  rw [h]
  funext v
  simp [marks]

theorem isSet_marks {v : VarId} (hv : v ∈ D.assignables) :
    (marks D marked).isSet v = .ok (decide (v ∈ marked)) := by
  simp [MarkTable.isSet, marks, hv]

theorem set_marks {v : VarId} (hv : v ∈ D.assignables) :
    (marks D marked).set v = marks D (v :: marked) := by
  funext u
  by_cases hu : u = v
  · subst hu
    simp [MarkTable.set, marks, hv]
  · simp [MarkTable.set, marks, hu]

theorem unset_marks {v : VarId} (hv : v ∈ D.assignables) (hm : v ∉ marked) :
    (marks D (v :: marked)).unset v = marks D marked := by
  funext u
  by_cases hu : u = v
  · subst hu
    simp [MarkTable.unset, marks, hv, hm]
  · simp [MarkTable.unset, marks, hu]

/-- The candidate of a covering sequence. -/
def protoOf (D : Assignables) (as : List Assignment) : ProtoCandidate :=
  as.foldr (fun a p => if D.isDefault a then p else ProtoCandidate.add a p) []

theorem protoOf_cons (D : Assignables) (a : Assignment) (as : List Assignment) :
    protoOf D (a :: as) =
      if D.isDefault a then protoOf D as else ProtoCandidate.add a (protoOf D as) := rfl

theorem compare_eq_iff : ProtoCandidate.compare a b = .eq ↔ a = b := by
  unfold ProtoCandidate.compare
  rw [Ordering.then_eq_eq, Ordering.then_eq_eq, compare_eq_iff_eq, compare_eq_iff_eq,
    compare_eq_iff_eq]
  constructor
  · intro ⟨hid, hindex, htime⟩
    obtain ⟨⟨_, _⟩, _⟩ := a
    obtain ⟨⟨_, _⟩, _⟩ := b
    simp_all
  · rintro rfl
    exact ⟨rfl, rfl, rfl⟩

theorem perm_add {p : ProtoCandidate} (h : a ∉ p) : (ProtoCandidate.add a p).Perm (a :: p) := by
  induction p with
  | nil => exact List.Perm.refl _
  | cons b p ih =>
    obtain ⟨hab, hp⟩ := not_or.mp (mt List.mem_cons.mpr h)
    unfold ProtoCandidate.add
    cases hc : ProtoCandidate.compare b a with
    | eq => exact absurd (compare_eq_iff.mp hc).symm hab
    | gt => exact List.Perm.refl _
    | lt => exact ((ih hp).cons b).trans (List.Perm.swap a b p)

theorem protoOf_perm (h : as.Nodup) :
    (protoOf D as).Perm (as.filter fun a => D.isDefault a = false) := by
  induction as with
  | nil => exact List.Perm.refl _
  | cons a as ih =>
    obtain ⟨ha, h⟩ := List.nodup_cons.mp h
    rw [protoOf_cons]
    cases hd : D.isDefault a with
    | true =>
      rw [if_pos rfl, List.filter_cons_of_neg (by simp [hd])]
      exact ih h
    | false =>
      rw [if_neg Bool.false_ne_true, List.filter_cons_of_pos (by simp [hd])]
      refine (perm_add fun hmem => ha ?_).trans ((ih h).cons a)
      exact (List.mem_filter.mp ((ih h).mem_iff.mp hmem)).1

theorem mem_protoOf (h : as.Nodup) : a ∈ protoOf D as ↔ a ∈ as ∧ D.isDefault a = false := by
  simp [(protoOf_perm h).mem_iff]

theorem Linked.rest_eq (h : db.Linked D) (hsub : conflicts ⊆ db.conflicts) (a : Assignment) :
    (conflicts.filter fun d => d ∉ db.resolvedConflicts a) =
      rest (Resolves D db) a conflicts := by
  unfold rest
  refine List.filter_congr fun d hd => ?_
  exact decide_eq_decide.mpr (not_congr (h.resolvedConflicts d (hsub hd) a))

theorem tryAssignment_spec (h : db.Linked D) (hc : c ∈ db.conflicts)
    (hsub : conflicts ⊆ db.conflicts) (rho : Weight)
    {aux : List ConflictId → Weight → MarkTable → Except L2Error (List ProtoCandidate × MarkTable)}
    (haux : ∀ rest' rho' marked', rest' ⊆ db.conflicts → rest' ≠ [] →
      rest'.length ≤ conflicts.length → ∃ new,
        aux rest' rho' (marks D marked') = .ok (new, marks D marked') ∧
        ∀ p, p ∈ new ↔ ∃ as, Covering D db rest' marked' as ∧ Unspent D.weight rho' as ∧
          p = protoOf D as)
    (hb : b ∈ (db.conflict c).assignments) (ha : a ∈ D.assignments b.var)
    (hv : b.var ∈ D.assignables) (hm : b.var ∉ marked) (acc : List ProtoCandidate) :
    ∃ new, tryAssignment D db aux c conflicts rho (acc, marks D marked) a =
        .ok (acc ++ new, marks D marked) ∧
      ∀ p, p ∈ new ↔ ∃ as, Covering D db (c :: conflicts) marked (a :: as) ∧
        Unspent D.weight rho (a :: as) ∧ p = protoOf D (a :: as) := by
  have hvar : a.var = b.var := D.var_eq _ a ha
  have hback : (marks D (b.var :: marked)).unset b.var = marks D marked := unset_marks hv hm
  unfold tryAssignment
  simp only [UInt32.not_lt_zero, if_false]
  by_cases hac : c ∈ db.conflictsOf a
  · refine ⟨[], by simp [hac], fun p => ⟨fun hp => absurd hp List.not_mem_nil, ?_⟩⟩
    intro ⟨as, hcov, _⟩
    have hmeets : Meets D db a c := by
      cases hcov with
      | last ha _ _ => exact ha
      | more ha _ _ _ => exact ha
    exact absurd ((h.conflictsOf c hc a).mp hac) hmeets.2
  · have hmeets : Meets D db a c := ⟨⟨b, hb, ha⟩, mt (h.conflictsOf c hc a).mpr hac⟩
    rw [if_neg hac, h.rest_eq hsub a, hvar, set_marks hv]
    by_cases hr : rest (Resolves D db) a conflicts = []
    · refine ⟨[protoOf D [a]], ?_, fun p => ?_⟩
      · rw [if_pos hr, hback]
        rfl
      · rw [List.mem_singleton]
        simp only [Covering, Covering.cons_of_last hr]
        constructor
        · intro hp
          exact ⟨[], ⟨hmeets, hvar ▸ hm, rfl⟩, unspent_singleton _ _ _, hp⟩
        · rintro ⟨as, ⟨_, _, rfl⟩, _, hp⟩
          exact hp
    · have hsub' : rest (Resolves D db) a conflicts ⊆ db.conflicts := fun d hd =>
        hsub (mem_rest.mp hd).1
      rw [if_neg hr]
      simp only [Covering, Covering.cons_of_more hr]
      by_cases hz : rho - D.weight a = 0
      · refine ⟨[], ?_, fun p => ⟨fun hp => absurd hp List.not_mem_nil, ?_⟩⟩
        · rw [if_pos (UInt32.lt_one_iff.mpr hz), hback, List.append_nil]
          rfl
        · intro ⟨as, ⟨_, _, hcov⟩, hun, _⟩
          exact absurd hz ((unspent_cons _ _ _ hcov.ne_nil).mp hun).1
      · obtain ⟨new, hnew, hmem⟩ := haux _ (rho - D.weight a) (b.var :: marked) hsub' hr
          (length_rest_le a conflicts)
        refine ⟨if D.isDefault a then new else ProtoCandidate.mapAdd a new, ?_, fun p => ?_⟩
        · rw [if_neg (mt UInt32.lt_one_iff.mp hz), hnew]
          simp only [bind, Except.bind, pure, Except.pure, hback]
        · have hp : (p ∈ if D.isDefault a then new else ProtoCandidate.mapAdd a new) ↔
              ∃ as, Covering D db (rest (Resolves D db) a conflicts) (b.var :: marked) as ∧
                Unspent D.weight (rho - D.weight a) as ∧ p = protoOf D (a :: as) := by
            cases hd : D.isDefault a with
            | true =>
              rw [if_pos rfl, hmem]
              simp only [protoOf_cons, hd, if_true]
            | false =>
              rw [if_neg Bool.false_ne_true, ProtoCandidate.mapAdd, List.mem_map]
              simp only [hmem, protoOf_cons, hd, Bool.false_eq_true, if_false]
              constructor
              · rintro ⟨_, ⟨as, hcov, hun, rfl⟩, rfl⟩
                exact ⟨as, hcov, hun, rfl⟩
              · rintro ⟨as, hcov, hun, rfl⟩
                exact ⟨_, ⟨as, hcov, hun, rfl⟩, rfl⟩
          rw [hp]
          refine exists_congr fun as => ?_
          rw [hvar]
          constructor
          · intro ⟨hcov, hun, hp⟩
            exact ⟨⟨hmeets, hm, hcov⟩, (unspent_cons _ _ _ hcov.ne_nil).mpr ⟨hz, hun⟩, hp⟩
          · intro ⟨⟨_, _, hcov⟩, hun, hp⟩
            exact ⟨hcov, ((unspent_cons _ _ _ hcov.ne_nil).mp hun).2, hp⟩

theorem tryVariable_spec (h : db.Linked D) (hc : c ∈ db.conflicts)
    (hsub : conflicts ⊆ db.conflicts) (rho : Weight) (marked : List VarId)
    (hv : b.var ∈ D.assignables)
    {aux : List ConflictId → Weight → MarkTable → Except L2Error (List ProtoCandidate × MarkTable)}
    (haux : ∀ rest' rho' marked', rest' ⊆ db.conflicts → rest' ≠ [] →
      rest'.length ≤ conflicts.length → ∃ new,
        aux rest' rho' (marks D marked') = .ok (new, marks D marked') ∧
        ∀ p, p ∈ new ↔ ∃ as, Covering D db rest' marked' as ∧ Unspent D.weight rho' as ∧
          p = protoOf D as)
    (hb : b ∈ (db.conflict c).assignments) (acc : List ProtoCandidate) :
    ∃ new, tryVariable D db aux c conflicts rho (acc, marks D marked) b =
        .ok (acc ++ new, marks D marked) ∧
      ∀ p, p ∈ new ↔ b.var ∉ marked ∧ ∃ a ∈ D.assignments b.var,
        ∃ as, Covering D db (c :: conflicts) marked (a :: as) ∧
          Unspent D.weight rho (a :: as) ∧ p = protoOf D (a :: as) := by
  unfold tryVariable
  simp only [isSet_marks hv, bind, Except.bind, decide_eq_true_eq]
  by_cases hm : b.var ∈ marked
  · exact ⟨[], by simp [hm, pure, Except.pure], by simp [hm]⟩
  · obtain ⟨new, hnew, hmem⟩ := Loop.foldlM_collect
      (fun a ha acc => tryAssignment_spec h hc hsub rho haux hb ha hv hm acc) acc
    refine ⟨new, ?_, fun p => ?_⟩
    · rw [if_neg hm]
      exact hnew
    · rw [hmem, and_iff_right hm]

/-- The candidates of `rho_coverage_aux` are those of the covering sequences no proper
beginning of which uses up the budget. -/
theorem rhoCoverageAux_spec (h : db.Linked D) (hreg : db.Registered D) {fuel : ℕ}
    (hfuel : conflicts.length ≤ fuel) (hsub : conflicts ⊆ db.conflicts) (hne : conflicts ≠ [])
    (rho : Weight) (marked : List VarId) :
    ∃ new, db.rhoCoverageAux D fuel conflicts rho (marks D marked) = .ok (new, marks D marked) ∧
      ∀ p, p ∈ new ↔ ∃ as, Covering D db conflicts marked as ∧ Unspent D.weight rho as ∧
        p = protoOf D as := by
  induction fuel generalizing conflicts rho marked with
  | zero => exact absurd (List.length_eq_zero_iff.mp (Nat.le_zero.mp hfuel)) hne
  | succ fuel ih =>
    cases conflicts with
    | nil => exact absurd rfl hne
    | cons c conflicts =>
      have hc : c ∈ db.conflicts := hsub List.mem_cons_self
      have hsub' : conflicts ⊆ db.conflicts := fun d hd => hsub (List.mem_cons_of_mem _ hd)
      have hlen : conflicts.length ≤ fuel := Nat.le_of_succ_le_succ hfuel
      obtain ⟨new, hnew, hmem⟩ := Loop.foldlM_collect (fun b hb acc =>
        tryVariable_spec h hc hsub' rho marked (hreg c hc b hb)
          (fun rest' rho' marked' hs hn hl => ih (hl.trans hlen) hs hn rho' marked') hb acc) []
      refine ⟨new, hnew, fun p => ?_⟩
      rw [hmem]
      constructor
      · intro ⟨b, _, _, a, _, as, has⟩
        exact ⟨a :: as, has⟩
      · intro ⟨as, hcov, hun, hp⟩
        cases as with
        | nil => exact absurd rfl hcov.ne_nil
        | cons a as =>
          have hm : a.var ∉ marked := hcov.unmarked a List.mem_cons_self
          have hmeets : Meets D db a c := by
            cases hcov with
            | last ha _ _ => exact ha
            | more ha _ _ _ => exact ha
          obtain ⟨⟨b, hb, ha⟩, _⟩ := hmeets
          exact ⟨b, hb, D.var_eq _ a ha ▸ hm, a, ha, as, hcov, hun, hp⟩

theorem protoCandidates_spec (h : db.Linked D) (hreg : db.Registered D)
    (hne : db.conflicts ≠ []) (rho : Weight) :
    ∃ new, db.protoCandidates D rho = .ok new ∧
      ∀ p, p ∈ new ↔ ∃ as, Covering D db db.conflicts [] as ∧ Unspent D.weight rho as ∧
        p = protoOf D as := by
  obtain ⟨new, hnew, hmem⟩ := rhoCoverageAux_spec h hreg (Nat.le_succ _)
    (List.Subset.refl db.conflicts) hne rho []
  refine ⟨new, ?_, hmem⟩
  unfold protoCandidates
  simp only [marks_nil, Nat.add_one, hnew]
  rfl

theorem protoCandidates_nil (hnil : db.conflicts = []) (rho : Weight) :
    db.protoCandidates D rho = .error .assertion := by
  unfold protoCandidates
  rw [hnil]
  rfl

end Livingstone.ConflictDb
