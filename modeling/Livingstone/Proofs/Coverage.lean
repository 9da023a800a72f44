import Livingstone.Cover.Enumerate
import Livingstone.Proofs.Database

/-! What `rho_coverage` promises of its candidates and what it finds. Both fail at the
budget: an unsigned budget never runs below zero, and the recursion stops when it is
exactly used up although conflicts are left that cost nothing. -/

namespace Livingstone.ConflictDb

open HittingSet

variable {D : Assignables} {db : ConflictDb} {ops : List DbOp} {rho : Weight}
  {as : List Assignment} {S : Finset Assignment} {c : ConflictId}

/-- The conflict does not hold when the assignments `S` are made and the other
assumptions have their defaults. -/
def ResolvedBy (D : Assignables) (db : ConflictDb) (S : Set Assignment) (c : ConflictId) : Prop :=
  ∃ b ∈ (db.conflict c).assignments,
    (∃ a ∈ S, a.var = b.var ∧ a ≠ b) ∨
      ((∀ a ∈ S, a.var ≠ b.var) ∧ D.isAssumption b.var = true ∧ D.defaultAssignment b.var ≠ b)

def totalWeight (D : Assignables) (p : List Assignment) : ℕ :=
  (p.map fun a => (D.weight a).toNat).sum

structure IsCover (D : Assignables) (db : ConflictDb) (rho : Weight) (p : List Assignment) :
    Prop where
  resolves : ∀ c ∈ db.conflicts, ResolvedBy D db {a | a ∈ p} c
  once : (p.map Assignment.var).Nodup
  within : totalWeight D p ≤ rho.toNat

/-- `rho_coverage` returns, whatever the consistency test answers, and its candidates are
covers within the bound. -/
def FindsCovers (D : Assignables) (db : ConflictDb) (rho : Weight) : Prop :=
  ∀ (σ : Type) (conflict : σ → List Assignment → Bool × σ) (s : σ),
    (db.conflicts ≠ [] → ∃ candidates, db.rhoCoverage D rho conflict s = .ok candidates) ∧
      db.rhoCoverage D rho conflict s ≠ .error .outOfFuel ∧
      ∀ candidates, db.rhoCoverage D rho conflict s = .ok candidates →
        ∀ p ∈ candidates, IsCover D db rho p

/-- A subset-minimal set of assignments other than defaults that resolves the conflicts,
within the bound. -/
structure MinimalCover (D : Assignables) (db : ConflictDb) (rho : Weight)
    (S : Finset Assignment) : Prop where
  domain : ∀ a ∈ S, a ∈ D.assignments a.var
  nondefault : ∀ a ∈ S, D.isDefault a = false
  once : ∀ a ∈ S, ∀ b ∈ S, a.var = b.var → a = b
  resolves : ∀ c ∈ db.conflicts, ResolvedBy D db S c
  within : ∑ a ∈ S, (D.weight a).toNat ≤ rho.toNat
  minimal : ∀ T ⊂ S, ¬ ∀ c ∈ db.conflicts, ResolvedBy D db T c

def FindsMinimalCovers (D : Assignables) (db : ConflictDb) (rho : Weight) : Prop :=
  ∃ candidates, db.protoCandidates D rho = .ok candidates ∧
    ∀ S, MinimalCover D db rho S → ∃ p ∈ candidates, p.toFinset = S

theorem Covering.nodup_assignments (h : Covering D db db.conflicts [] as) : as.Nodup :=
  List.Nodup.of_map _ (HittingSet.Covering.nodup h)

theorem Covering.resolvedBy (h : Covering D db db.conflicts [] as) (hc : c ∈ db.conflicts) :
    ResolvedBy D db {a | a ∈ protoOf D as} c := by
  have hnodup := h.nodup_assignments
  obtain ⟨a, ha, b, hb, hab⟩ := h.covers (fun _ _ => Meets.resolves) c hc
  obtain ⟨hdom, hne⟩ := mem_others.mp hab
  have hvar : a.var = b.var := D.var_eq _ a hdom
  refine ⟨b, hb, ?_⟩
  cases hd : D.isDefault a with
  | false => exact Or.inl ⟨a, (mem_protoOf hnodup).mpr ⟨ha, hd⟩, hvar, hne⟩
  | true =>
    obtain ⟨hassum, heq⟩ : D.isAssumption a.var = true ∧ a = D.defaultAssignment a.var := by
      simpa [Assignables.isDefault] using hd
    refine Or.inr ⟨fun a' ha' hvar' => ?_, hvar ▸ hassum, ?_⟩
    · obtain ⟨ha', hd'⟩ := (mem_protoOf hnodup).mp ha'
      have : a' = a := List.inj_on_of_nodup_map (HittingSet.Covering.nodup h) ha' ha
        (hvar'.trans hvar.symm)
      rw [this, hd] at hd'
      cases hd'
    · rw [← hvar, ← heq]
      exact hne

theorem Covering.isCover (h : Covering D db db.conflicts [] as)
    (hw : totalWeight D (protoOf D as) ≤ rho.toNat) : IsCover D db rho (protoOf D as) := by
  refine ⟨fun c hc => h.resolvedBy hc, ?_, hw⟩
  refine ((protoOf_perm h.nodup_assignments).map _).nodup_iff.mpr ?_
  exact (HittingSet.Covering.nodup h).sublist (List.filter_sublist.map _)

/-- Each minimal cover is the candidate of any covering sequence that uses only its
assignments and defaults. -/
theorem MinimalCover.eq_proto (hS : MinimalCover D db rho S)
    (h : Covering D db db.conflicts [] as) (hsub : ∀ a ∈ as, D.isDefault a = false → a ∈ S) :
    (protoOf D as).toFinset = S := by
  have hle : (protoOf D as).toFinset ⊆ S := by
    intro a ha
    obtain ⟨ha, hd⟩ := (mem_protoOf h.nodup_assignments).mp (List.mem_toFinset.mp ha)
    exact hsub a ha hd
  by_contra hne
  refine hS.minimal _ (hle.ssubset_of_ne hne) fun c hc => ?_
  have hset : ((protoOf D as).toFinset : Set Assignment) = {a | a ∈ protoOf D as} := by
    ext a
    simp
  rw [hset]
  exact h.resolvedBy hc

section
variable {σ : Type} {conflict : σ → List Assignment → Bool × σ}

theorem filterConsistent_sublist (conflict : σ → List Assignment → Bool × σ) (s : σ)
    (ps : List (List Assignment)) : (filterConsistent conflict s ps).Sublist ps := by
  induction ps generalizing s with
  | nil => exact List.Sublist.refl _
  | cons p ps ih =>
    unfold filterConsistent
    split
    · exact (ih _).cons _
    · exact (ih _).cons_cons _

theorem filterConsistent_self (ps : List (List Assignment)) :
    filterConsistent (fun s _ => (false, s)) () ps = ps := by
  induction ps with
  | nil => rfl
  | cons p ps ih =>
    unfold filterConsistent
    exact congrArg (p :: ·) ih

theorem rhoCoverage_ok {ps : List ProtoCandidate} (h : db.protoCandidates D rho = .ok ps) (s : σ) :
    db.rhoCoverage D rho conflict s = .ok (filterConsistent conflict s ps.reverse) := by
  unfold rhoCoverage
  rw [h]
  rfl

end

/-- A bound keeps every candidate of `rho_coverage` below it if and only if a covering
sequence that weighs more always has a proper beginning that weighs exactly the bound. -/
theorem rhoCoverage_covers_iff (h : DbRun D ops db) (hreg : db.Registered D) (rho : Weight) :
    FindsCovers D db rho ↔ ∀ as, Covering D db db.conflicts [] as →
      rho.toNat < totalWeight D (as.filter fun a => D.isDefault a = false) →
        ¬ Unspent D.weight rho as := by
  have hweight {as : List Assignment} (hcov : Covering D db db.conflicts [] as) :
      totalWeight D (protoOf D as) = totalWeight D (as.filter fun a => D.isDefault a = false) :=
    ((protoOf_perm hcov.nodup_assignments).map _).sum_eq
  by_cases hne : db.conflicts = []
  · constructor
    · intro _ as hcov
      rw [hne] at hcov
      cases hcov
    · intro _ σ conflict s
      have herr : db.rhoCoverage D rho conflict s = .error .assertion := by
        unfold rhoCoverage
        rw [protoCandidates_nil hne]
        rfl
      refine ⟨fun hn => absurd hne hn, ?_, fun candidates hok => ?_⟩
      · rw [herr]
        exact fun heq => by cases heq
      · rw [herr] at hok
        cases hok
  · obtain ⟨ps, hps, hmem⟩ := protoCandidates_spec h.linked hreg hne rho
    constructor
    · intro hfind as hcov hover hun
      obtain ⟨_, _, hall⟩ := hfind Unit (fun s _ => (false, s)) ()
      have hp : protoOf D as ∈ filterConsistent (fun s _ => (false, s)) () ps.reverse := by
        rw [filterConsistent_self, List.mem_reverse]
        exact (hmem _).mpr ⟨as, hcov, hun, rfl⟩
      have hle := (hall _ (rhoCoverage_ok hps ()) _ hp).within
      rw [hweight hcov] at hle
      exact absurd hle (not_le.mpr hover)
    · intro hbound σ conflict s
      rw [rhoCoverage_ok hps s]
      refine ⟨fun _ => ⟨_, rfl⟩, ⟨fun heq => ?_, fun candidates hok p hp => ?_⟩⟩
      · cases heq
      · obtain rfl := Except.ok.inj hok
        have hp' : p ∈ ps :=
          List.mem_reverse.mp ((filterConsistent_sublist conflict s _).subset hp)
        obtain ⟨as, hcov, hun, rfl⟩ := (hmem p).mp hp'
        refine Covering.isCover hcov ?_
        rw [hweight hcov]
        by_contra hover
        exact hbound as hcov (not_le.mp hover) hun

/-- One conflict, and a bound that its only cover meets. -/
theorem rhoCoverage_covers_iff_switches : ∃ db,
    DbRun switches [.addConflict [⟨switch₀, 0⟩] 1] db ∧ FindsCovers switches db 1 := by
  have h : DbRun switches [.addConflict [⟨switch₀, 0⟩] 1] _ := DbRun.nil.snoc trivial rfl
  refine ⟨_, h, (rhoCoverage_covers_iff h (by decide) 1).mpr ?_⟩
  intro as hcov hover
  exfalso
  cases hcov with
  | last ha _ _ =>
    obtain ⟨⟨b, hb, ha⟩, hn⟩ := ha
    obtain rfl := List.mem_singleton.mp hb
    rcases List.mem_cons.mp ha with rfl | ha
    · exact hn hb
    · obtain rfl := List.mem_singleton.mp ha
      exact absurd hover (by decide)
  | more _ _ hr _ => exact hr rfl

/-- Two assumptions whose failures weigh two each. -/
def heavySwitches : Assignables :=
  { switches with weight := fun a => UInt32.ofNat (2 * a.index) }

/-- A candidate of weight two within the bound one. -/
theorem rhoCoverage_over_bound : ∃ db,
    DbRun heavySwitches [.addConflict [⟨switch₀, 0⟩] 1] db ∧
    db.rhoCoverage heavySwitches 1 (fun s _ => (false, s)) () = .ok [[⟨switch₀, 1⟩]] ∧
    totalWeight heavySwitches [⟨switch₀, 1⟩] = 2 ∧ ¬ FindsCovers heavySwitches db 1 := by
  have h : DbRun heavySwitches [.addConflict [⟨switch₀, 0⟩] 1] _ := DbRun.nil.snoc trivial rfl
  refine ⟨_, h, rfl, rfl, fun hfind => ?_⟩
  have hle := ((hfind Unit (fun s _ => (false, s)) ()).2.2 _ rfl [⟨switch₀, 1⟩]
    List.mem_cons_self).within
  exact absurd hle (by decide)

/-- The enumeration finds all minimal covers if and only if there is a conflict and each
minimal cover has a covering sequence, of its own assignments and defaults, no proper
beginning of which weighs exactly the bound. -/
theorem protoCandidates_complete_iff (h : DbRun D ops db) (hreg : db.Registered D)
    (rho : Weight) :
    FindsMinimalCovers D db rho ↔ db.conflicts ≠ [] ∧ ∀ S, MinimalCover D db rho S →
      ∃ as, Covering D db db.conflicts [] as ∧ (∀ a ∈ as, D.isDefault a = false → a ∈ S) ∧
        Unspent D.weight rho as := by
  constructor
  · intro ⟨ps, hps, hfound⟩
    have hne : db.conflicts ≠ [] := by
      intro hnil
      rw [protoCandidates_nil hnil] at hps
      cases hps
    obtain ⟨ps', hps', hmem⟩ := protoCandidates_spec h.linked hreg hne rho
    obtain rfl := Except.ok.inj (hps.symm.trans hps')
    refine ⟨hne, fun S hS => ?_⟩
    obtain ⟨p, hp, hpS⟩ := hfound S hS
    obtain ⟨as, hcov, hun, rfl⟩ := (hmem p).mp hp
    refine ⟨as, hcov, fun a ha hd => ?_, hun⟩
    rw [← hpS, List.mem_toFinset]
    exact (mem_protoOf (Covering.nodup_assignments hcov)).mpr ⟨ha, hd⟩
  · intro ⟨hne, hpath⟩
    obtain ⟨ps, hps, hmem⟩ := protoCandidates_spec h.linked hreg hne rho
    refine ⟨ps, hps, fun S hS => ?_⟩
    obtain ⟨as, hcov, hsub, hun⟩ := hpath S hS
    exact ⟨protoOf D as, (hmem _).mpr ⟨as, hcov, hun, rfl⟩, hS.eq_proto hcov hsub⟩

/-- One conflict with one cover. -/
theorem protoCandidates_complete_iff_switches : ∃ db,
    DbRun switches [.addConflict [⟨switch₀, 0⟩] 1] db ∧ FindsMinimalCovers switches db 1 := by
  have h : DbRun switches [.addConflict [⟨switch₀, 0⟩] 1] _ := DbRun.nil.snoc trivial rfl
  refine ⟨_, h, (protoCandidates_complete_iff h (by decide) 1).mpr ⟨by decide, fun S hS => ?_⟩⟩
  obtain ⟨b, hb, hres⟩ := hS.resolves 0 List.mem_cons_self
  obtain rfl := List.mem_singleton.mp hb
  rcases hres with ⟨a, ha, hvar, hne⟩ | ⟨_, _, hne⟩
  · have hmeets : Meets switches _ a 0 :=
      ⟨⟨_, hb, hvar ▸ hS.domain a ha⟩, fun hmem => hne (List.mem_singleton.mp hmem)⟩
    refine ⟨[a], .last hmeets List.not_mem_nil rfl, fun b hb _ => ?_, unspent_singleton _ _ _⟩
    rw [List.mem_singleton.mp hb]
    exact ha
  · exact absurd rfl hne

/-- The first choice uses up the bound and the default that covers the other conflict is
not reached. -/
theorem cover_missed : ∃ db, DbRun switches
    [.addConflict [⟨switch₀, 0⟩] 1, .addConflict [⟨switch₁, 1⟩] 1] db ∧
    db.protoCandidates switches 1 = .ok [] ∧
    MinimalCover switches db 1 {⟨switch₀, 1⟩} ∧ ¬ FindsMinimalCovers switches db 1 := by
  have h₁ : DbRun switches [.addConflict [⟨switch₀, 0⟩] 1] _ := DbRun.nil.snoc trivial rfl
  have h₂ : DbRun switches (_ ++ [.addConflict [⟨switch₁, 1⟩] 1]) _ := h₁.snoc trivial rfl
  have hS : MinimalCover switches ((({} : ConflictDb).addConflict switches [⟨switch₀, 0⟩] 1).2.addConflict
      switches [⟨switch₁, 1⟩] 1).2 1 {⟨switch₀, 1⟩} := by
    refine ⟨by decide, by decide, by decide, fun c hc => ?_, by decide, fun T hT hres => ?_⟩
    · rcases List.mem_cons.mp hc with rfl | hc
      · exact ⟨⟨switch₀, 0⟩, List.mem_cons_self,
          Or.inl ⟨⟨switch₀, 1⟩, by simp, rfl, by decide⟩⟩
      · obtain rfl := List.mem_singleton.mp hc
        refine ⟨⟨switch₁, 1⟩, List.mem_cons_self, Or.inr ⟨fun a ha => ?_, rfl, by decide⟩⟩
        rw [show a = ⟨switch₀, 1⟩ by simpa using ha]
        decide
    · obtain rfl := Finset.ssubset_singleton_iff.mp hT
      obtain ⟨b, hb, hres⟩ := hres 0 List.mem_cons_self
      obtain rfl := List.mem_singleton.mp hb
      rcases hres with ⟨a, ha, _⟩ | ⟨_, _, hne⟩
      · simp at ha
      · exact absurd rfl hne
  refine ⟨_, h₂, rfl, hS, ?_⟩
  intro ⟨ps, hps, hfound⟩
  obtain rfl := Except.ok.inj hps
  obtain ⟨p, hp, _⟩ := hfound _ hS
  cases hp

theorem MinimalCover.exists_covering (hS : MinimalCover D db rho S) (hne : db.conflicts ≠ [])
    (hone : ∀ c ∈ db.conflicts, ∀ a ∈ (db.conflict c).assignments,
      ∀ b ∈ (db.conflict c).assignments, a.var = b.var → a = b) :
    ∃ as, Covering D db db.conflicts [] as ∧ ∀ a ∈ as, D.isDefault a = false → a ∈ S := by
  let T : Set Assignment := {a | a ∈ S ∨ (D.isDefault a = true ∧ ∀ b ∈ S, b.var ≠ a.var)}
  have hdefault {a : Assignment} (ha : D.isDefault a = true) :
      a = D.defaultAssignment a.var := by
    simp only [Assignables.isDefault, Bool.and_eq_true, decide_eq_true_eq] at ha
    exact ha.2
  have hinj : ∀ a ∈ T, ∀ b ∈ T, a.var = b.var → a = b := by
    intro a ha b hb hvar
    rcases ha with ha | ⟨hda, ha⟩
    · rcases hb with hb | ⟨_, hb⟩
      · exact hS.once a ha b hb hvar
      · exact absurd hvar (hb a ha)
    · rcases hb with hb | ⟨hdb, _⟩
      · exact absurd hvar.symm (ha b hb)
      · rw [hdefault hda, hdefault hdb, hvar]
  have hmeet : ∀ c ∈ db.conflicts, ∃ a ∈ T, Meets D db a c ∧ a.var ∉ ([] : List VarId) := by
    intro c hc
    obtain ⟨b, hb, ⟨a, ha, hvar, hab⟩ | ⟨hfree, hassum, hab⟩⟩ := hS.resolves c hc
    · exact ⟨a, Or.inl ha, ⟨⟨b, hb, hvar ▸ hS.domain a ha⟩,
        fun hmem => hab (hone c hc a hmem b hb hvar)⟩, List.not_mem_nil⟩
    · have hdom := D.default_mem b.var hassum
      have hvar : (D.defaultAssignment b.var).var = b.var := D.var_eq _ _ hdom
      have hfree' (a : Assignment) (ha : a ∈ S) : a.var ≠ (D.defaultAssignment b.var).var := by
        rw [hvar]
        exact hfree a ha
      refine ⟨D.defaultAssignment b.var, Or.inr ⟨?_, hfree'⟩,
        ⟨⟨b, hb, hdom⟩, fun hmem => hab (hone c hc _ hmem b hb hvar)⟩, List.not_mem_nil⟩
      simp [Assignables.isDefault, hvar, hassum]
  obtain ⟨as, hcov, hsub⟩ := HittingSet.exists_covering (fun _ _ => Meets.resolves) hinj
    le_rfl hne hmeet
  refine ⟨as, hcov, fun a ha hd => ?_⟩
  rcases hsub a ha with haS | ⟨hda, _⟩
  · exact haS
  · rw [hd] at hda
    cases hda

theorem toNat_sum_le (D : Assignables) (as : List Assignment) :
    (as.map D.weight).sum.toNat ≤ totalWeight D as := by
  induction as with
  | nil => exact Nat.zero_le _
  | cons a as ih =>
    simp only [totalWeight, List.map_cons, List.sum_cons, UInt32.toNat_add]
    exact (Nat.mod_le _ _).trans (Nat.add_le_add_left ih _)

theorem totalWeight_filter (hzero : ∀ v, D.isAssumption v = true →
    D.weight (D.defaultAssignment v) = 0) (as : List Assignment) :
    totalWeight D (as.filter fun a => D.isDefault a = false) = totalWeight D as := by
  induction as with
  | nil => rfl
  | cons a as ih =>
    cases hd : D.isDefault a with
    | false => simpa [totalWeight, hd] using ih
    | true =>
      have hw : D.weight a = 0 := by
        simp only [Assignables.isDefault, Bool.and_eq_true, decide_eq_true_eq] at hd
        rw [hd.2]
        exact hzero _ hd.1
      simpa [totalWeight, hd, hw] using ih

/-- When defaults weigh nothing, a minimal cover that weighs less than the bound is found. -/
theorem MinimalCover.found_of_lt (h : DbRun D ops db) (hreg : db.Registered D)
    (hS : MinimalCover D db rho S) (hne : db.conflicts ≠ [])
    (hone : ∀ c ∈ db.conflicts, ∀ a ∈ (db.conflict c).assignments,
      ∀ b ∈ (db.conflict c).assignments, a.var = b.var → a = b)
    (hzero : ∀ v, D.isAssumption v = true → D.weight (D.defaultAssignment v) = 0)
    (hlt : ∑ a ∈ S, (D.weight a).toNat < rho.toNat) :
    ∃ ps, db.protoCandidates D rho = .ok ps ∧ ∃ p ∈ ps, p.toFinset = S := by
  obtain ⟨ps, hps, hmem⟩ := protoCandidates_spec h.linked hreg hne rho
  obtain ⟨as, hcov, hsub⟩ := hS.exists_covering hne hone
  have heq := hS.eq_proto hcov hsub
  have hperm := protoOf_perm (D := D) (Covering.nodup_assignments hcov)
  have htotal : totalWeight D as < rho.toNat := by
    have hnodup : (protoOf D as).Nodup :=
      hperm.nodup_iff.mpr ((Covering.nodup_assignments hcov).filter _)
    rw [← heq, List.sum_toFinset _ hnodup] at hlt
    rw [← totalWeight_filter hzero, totalWeight, ← (hperm.map _).sum_eq]
    exact hlt
  refine ⟨ps, hps, protoOf D as, (hmem _).mpr ⟨as, hcov, ?_, rfl⟩, heq⟩
  intro l hl _ _ hspent
  have hle : totalWeight D l ≤ totalWeight D as :=
    (hl.sublist.map _).sum_le_sum fun _ _ => Nat.zero_le _
  have hsum := toNat_sum_le D l
  rw [hspent] at hsum
  exact absurd (hsum.trans hle) (not_le.mpr htotal)

end Livingstone.ConflictDb
