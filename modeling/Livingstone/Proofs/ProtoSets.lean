import Livingstone.Cover.Enumerate
import Livingstone.Cover.ProtoSet

/-! Sets of candidates as sets of sets of assignments. A set looks for the address of a candidate
and not for an equal one, so both of two equal candidates stay in it. -/

namespace Livingstone

namespace ProtoCandidate

variable {a b c : Assignment} {p q : ProtoCandidate}

def Before (a b : Assignment) : Prop := compare a b = .lt

theorem before_iff : Before a b ↔ a.var.id < b.var.id ∨ a.var.id = b.var.id ∧
    (a.index < b.index ∨ a.index = b.index ∧ a.var.timeStep < b.var.timeStep) := by
  simp only [Before, compare, Ordering.then_eq_lt, compare_lt_iff_lt, compare_eq_iff_eq]

theorem Before.trans (hab : Before a b) (hbc : Before b c) : Before a c := by
  rw [before_iff] at *
  omega

theorem Before.asymm (hab : Before a b) : ¬ Before b a := by
  rw [before_iff] at *
  omega

theorem before_of_gt (h : compare a b = .gt) : Before b a := by
  have hn : ¬ Before a b := fun hab => Ordering.noConfusion (hab.symm.trans h)
  have hne : a ≠ b := fun hab =>
    Ordering.noConfusion ((ConflictDb.compare_eq_iff.mpr hab).symm.trans h)
  obtain ⟨⟨i, t⟩, x⟩ := a
  obtain ⟨⟨j, u⟩, y⟩ := b
  rw [before_iff] at *
  simp only [ne_eq, Assignment.mk.injEq, VarId.mk.injEq] at hne
  simp only at hn ⊢
  omega

def Sorted (p : ProtoCandidate) : Prop := p.Pairwise Before

theorem mem_add : b ∈ add a p ↔ b = a ∨ b ∈ p := by
  induction p with
  | nil => simp [add]
  | cons c p ih =>
    unfold add
    cases hc : compare c a with
    | eq =>
      obtain rfl := ConflictDb.compare_eq_iff.mp hc
      simp
    | gt => exact List.mem_cons
    | lt => rw [List.mem_cons, ih, List.mem_cons, or_left_comm]

theorem toFinset_add (a : Assignment) (p : ProtoCandidate) :
    (add a p).toFinset = insert a p.toFinset := by
  ext b
  rw [List.mem_toFinset, mem_add, Finset.mem_insert, List.mem_toFinset]

theorem Sorted.add (h : p.Sorted) (a : Assignment) : (add a p).Sorted := by
  induction p with
  | nil => exact List.pairwise_singleton _ _
  | cons c p ih =>
    obtain ⟨hfirst, hp⟩ := List.pairwise_cons.mp h
    unfold ProtoCandidate.add
    cases hc : compare c a with
    | eq => exact h
    | gt =>
      apply List.Pairwise.cons _ h
      intro b hb
      rcases List.mem_cons.mp hb with rfl | hb
      · exact before_of_gt hc
      · exact (before_of_gt hc).trans (hfirst b hb)
    | lt =>
      apply List.Pairwise.cons _ (ih hp)
      intro b hb
      rcases mem_add.mp hb with rfl | hb
      · exact hc
      · exact hfirst b hb

theorem Sorted.toFinset_inj (hp : p.Sorted) (hq : q.Sorted) : p.toFinset = q.toFinset ↔ p = q := by
  have hnodup {r : ProtoCandidate} (hr : r.Sorted) : r.Nodup := by
    apply hr.imp
    rintro a _ hab rfl
    exact hab.asymm hab
  constructor
  · intro h
    apply (List.perm_of_nodup_nodup_toFinset_eq (hnodup hp) (hnodup hq) h).eq_of_pairwise _ hp hq
    intro a b _ _ hab hba
    exact absurd hba hab.asymm
  · intro h
    rw [h]

end ProtoCandidate

namespace ProtoSets

open Function (update update_self update_of_ne update_eq_self)

variable {s s' : ProtoSets} {σ τ : SetId} {p q : ℕ} {rest : List ℕ}
  {g : ProtoCandidate → ProtoCandidate}

def contents (s : ProtoSets) (σ : SetId) : List ProtoCandidate :=
  (s.table σ).elements.filterMap s.heap

/-- Each address is in one place of one set, and a candidate is there. -/
structure Owned (s : ProtoSets) : Prop where
  filed : ∀ σ, (s.table σ).Filed (hash s.heap)
  nodup : ∀ σ, (s.table σ).elements.Nodup
  live : ∀ σ, ∀ p ∈ (s.table σ).elements, p < s.next ∧ (s.heap p).isSome
  apart : ∀ σ τ, σ ≠ τ → (s.table σ).elements.Disjoint (s.table τ).elements

structure Loose (s : ProtoSets) (ps : List ℕ) : Prop where
  nodup : ps.Nodup
  live : ∀ p ∈ ps, p < s.next ∧ (s.heap p).isSome
  apart : ∀ p ∈ ps, ∀ τ, p ∉ (s.table τ).elements

theorem hash_congr {heap heap' : ℕ → Option ProtoCandidate} (h : heap' p = heap p) :
    hash heap' p = hash heap p := by
  unfold hash
  rw [h]

theorem contents_congr (htable : s'.table σ = s.table σ)
    (hheap : ∀ p ∈ (s.table σ).elements, s'.heap p = s.heap p) :
    s'.contents σ = s.contents σ := by
  unfold contents
  rw [htable]
  exact List.filterMap_congr hheap

def take (τ : SetId) (s : ProtoSets) : ProtoSets :=
  { s with table := update s.table τ (.empty tableSize tableSize_pos) }

theorem take_table_self (τ : SetId) (s : ProtoSets) :
    (s.take τ).table τ = .empty tableSize tableSize_pos := update_self _ _ _

theorem take_table_of_ne (h : σ ≠ τ) : (s.take τ).table σ = s.table σ := update_of_ne h _ _

theorem elements_take (σ τ : SetId) (s : ProtoSets) :
    ((s.take τ).table σ).elements = if σ = τ then [] else (s.table σ).elements := by
  split_ifs with h
  · rw [h, take_table_self, HashTable.elements_empty]
  · rw [take_table_of_ne h]

theorem contents_take (σ τ : SetId) (s : ProtoSets) :
    (s.take τ).contents σ = if σ = τ then [] else s.contents σ := by
  unfold contents
  rw [elements_take]
  split_ifs with h
  · rfl
  · rfl

theorem Owned.take (h : s.Owned) (τ : SetId) : (s.take τ).Owned where
  filed := by
    intro σ
    by_cases hσ : σ = τ
    · subst hσ
      rw [take_table_self]
      exact HashTable.filed_empty _
    · rw [take_table_of_ne hσ]
      exact h.filed σ
  nodup := by
    intro σ
    rw [elements_take]
    split_ifs with hσ
    · exact List.nodup_nil
    · exact h.nodup σ
  live := by
    intro σ p hp
    rw [elements_take] at hp
    split_ifs at hp with hσ
    · exact absurd hp List.not_mem_nil
    · exact h.live σ p hp
  apart := by
    intro σ ρ hσρ
    rw [elements_take, elements_take]
    split_ifs with hσ hρ
    · exact absurd (hσ.trans hρ.symm) hσρ
    · exact List.disjoint_nil_left _
    · exact List.disjoint_nil_right _
    · exact h.apart σ ρ hσρ

theorem Owned.loose_take (h : s.Owned) (τ : SetId) : Loose (s.take τ) (s.table τ).elements where
  nodup := h.nodup τ
  live := h.live τ
  apart := by
    intro p hp σ hpσ
    rw [elements_take] at hpσ
    split_ifs at hpσ with hσ
    · exact List.not_mem_nil hpσ
    · exact h.apart σ τ hσ hpσ hp

def put (g : ProtoCandidate → ProtoCandidate) (σ : SetId) (s : ProtoSets) (p : ℕ) : ProtoSets :=
  insert σ p { s with heap := update s.heap p ((s.heap p).map g) }

theorem put_id (σ : SetId) (s : ProtoSets) (p : ℕ) : put id σ s p = insert σ p s := by
  rw [put, Option.map_id, id_eq, update_eq_self]

theorem put_table_self : (put g σ s p).table σ =
    (s.table σ).insert (hash (update s.heap p ((s.heap p).map g))) p := update_self _ _ _

theorem put_table_of_ne (h : τ ≠ σ) : (put g σ s p).table τ = s.table τ := update_of_ne h _ _

theorem put_heap_self : (put g σ s p).heap p = (s.heap p).map g := update_self _ _ _

theorem put_heap_of_ne (h : q ≠ p) : (put g σ s p).heap q = s.heap q := update_of_ne h _ _

theorem elements_put (h : Loose s (p :: rest)) :
    ((put g σ s p).table σ).elements.Perm (p :: (s.table σ).elements) := by
  rw [put_table_self]
  exact HashTable.elements_insert (h.apart p List.mem_cons_self σ)

theorem mem_put (h : Loose s (p :: rest)) :
    q ∈ ((put g σ s p).table τ).elements ↔ τ = σ ∧ q = p ∨ q ∈ (s.table τ).elements := by
  by_cases hτ : τ = σ
  · subst hτ
    rw [(elements_put h).mem_iff, List.mem_cons]
    simp
  · rw [put_table_of_ne hτ]
    simp [hτ]

theorem Owned.put (h : s.Owned) (hp : Loose s (p :: rest)) : (put g σ s p).Owned where
  filed := by
    intro τ
    have hold : (s.table τ).Filed (hash (ProtoSets.put g σ s p).heap) := by
      apply (h.filed τ).congr
      intro q hq
      exact hash_congr (put_heap_of_ne fun heq => hp.apart p List.mem_cons_self τ (heq ▸ hq))
    by_cases hτ : τ = σ
    · subst hτ
      rw [put_table_self]
      exact HashTable.filed_insert hold (hp.apart p List.mem_cons_self τ)
    · rw [put_table_of_ne hτ]
      exact hold
  nodup := by
    intro τ
    by_cases hτ : τ = σ
    · subst hτ
      rw [(elements_put hp).nodup_iff, List.nodup_cons]
      exact ⟨hp.apart p List.mem_cons_self τ, h.nodup τ⟩
    · rw [put_table_of_ne hτ]
      exact h.nodup τ
  live := by
    intro τ q hq
    have hlive : q < s.next ∧ (s.heap q).isSome := by
      rcases (mem_put hp).mp hq with ⟨_, rfl⟩ | hq
      · exact hp.live q List.mem_cons_self
      · exact h.live τ q hq
    apply And.intro hlive.1
    by_cases hqp : q = p
    · rw [hqp, put_heap_self, Option.isSome_map, ← hqp]
      exact hlive.2
    · rw [put_heap_of_ne hqp]
      exact hlive.2
  apart := by
    intro τ ρ hτρ q hqτ hqρ
    rcases (mem_put hp).mp hqτ with ⟨hτ, heq⟩ | hmem
    · subst heq
      rcases (mem_put hp).mp hqρ with ⟨hρ, _⟩ | hmemρ
      · exact hτρ (hτ.trans hρ.symm)
      · exact hp.apart q List.mem_cons_self ρ hmemρ
    · rcases (mem_put hp).mp hqρ with ⟨_, heq⟩ | hmemρ
      · subst heq
        exact hp.apart q List.mem_cons_self τ hmem
      · exact h.apart τ ρ hτρ hmem hmemρ

theorem Loose.put (hp : Loose s (p :: rest)) : Loose (put g σ s p) rest where
  nodup := (List.nodup_cons.mp hp.nodup).2
  live := by
    intro q hq
    obtain ⟨hlt, hsome⟩ := hp.live q (List.mem_cons_of_mem p hq)
    have hne : q ≠ p := fun heq => (List.nodup_cons.mp hp.nodup).1 (heq ▸ hq)
    apply And.intro hlt
    rw [put_heap_of_ne hne]
    exact hsome
  apart := by
    intro q hq τ hqτ
    rcases (mem_put hp).mp hqτ with ⟨_, rfl⟩ | hqτ
    · exact (List.nodup_cons.mp hp.nodup).1 hq
    · exact hp.apart q (List.mem_cons_of_mem p hq) τ hqτ

theorem contents_put (hp : Loose s (p :: rest)) :
    ((put g σ s p).contents σ).Perm ((s.heap p).toList.map g ++ s.contents σ) := by
  have helse : (s.table σ).elements.filterMap (put g σ s p).heap = s.contents σ := by
    apply List.filterMap_congr
    intro q hq
    exact put_heap_of_ne fun heq => hp.apart p List.mem_cons_self σ (heq ▸ hq)
  have hself : (put g σ s p).heap p = (s.heap p).map g := put_heap_self
  apply ((elements_put hp).filterMap _).trans
  rw [List.filterMap_cons, hself, helse]
  cases s.heap p with
  | none => exact List.Perm.refl _
  | some r => exact List.Perm.refl _

theorem contents_put_of_ne (hp : Loose s (p :: rest)) (h : τ ≠ σ) :
    (put g σ s p).contents τ = s.contents τ := by
  apply contents_congr (put_table_of_ne h)
  intro q hq
  exact put_heap_of_ne fun heq => hp.apart p List.mem_cons_self τ (heq ▸ hq)

structure Puts (g : ProtoCandidate → ProtoCandidate) (σ : SetId) (ps : List ℕ)
    (s s' : ProtoSets) : Prop where
  owned : s'.Owned
  contents : (s'.contents σ).Perm ((ps.filterMap s.heap).map g ++ s.contents σ)
  others : ∀ τ, τ ≠ σ → s'.contents τ = s.contents τ

theorem puts (g : ProtoCandidate → ProtoCandidate) (σ : SetId) (h : s.Owned) {ps : List ℕ}
    (hps : Loose s ps) : Puts g σ ps s (ps.foldl (put g σ) s) := by
  induction ps generalizing s with
  | nil => exact ⟨h, List.Perm.refl _, fun τ _ => rfl⟩
  | cons p ps ih =>
    have hrest : ps.filterMap (put g σ s p).heap = ps.filterMap s.heap := by
      apply List.filterMap_congr
      intro q hq
      exact put_heap_of_ne fun heq => (List.nodup_cons.mp hps.nodup).1 (heq ▸ hq)
    have hih := ih (h.put hps) (Loose.put (g := g) (σ := σ) hps)
    refine ⟨hih.owned, ?_, ?_⟩
    · have hall := hih.contents.trans ((contents_put hps).append_left _)
      rw [hrest] at hall
      apply hall.trans
      rw [List.filterMap_cons]
      cases s.heap p with
      | none => exact List.Perm.refl _
      | some r => exact List.perm_middle
    · intro τ hτ
      rw [List.foldl_cons, hih.others τ hτ, contents_put_of_ne hps hτ]

theorem add_of_loose (h : s.Owned) (hp : Loose s (p :: rest)) :
    s.add σ p = (p, put id σ s p) := by
  have hfind := (HashTable.find_eq_none (h.filed σ)).mpr (hp.apart p List.mem_cons_self σ)
  rw [put_id, add, hfind]

theorem foldl_add_of_loose (h : s.Owned) {ps : List ℕ} (hps : Loose s ps) :
    ps.foldl (fun s p => (s.add σ p).2) s = ps.foldl (put id σ) s := by
  induction ps generalizing s with
  | nil => rfl
  | cons p ps ih =>
    rw [List.foldl_cons, List.foldl_cons, add_of_loose h hps]
    exact ih (h.put hps) hps.put

theorem take_add (h : σ ≠ τ) (p : ℕ) (s : ProtoSets) :
    take τ (s.add σ p).2 = ((take τ s).add σ p).2 := by
  have hfind : ((take τ s).table σ).find (hash (take τ s).heap) p =
      (s.table σ).find (hash s.heap) p := by
    rw [take_table_of_ne h]
    rfl
  unfold add
  rw [hfind]
  cases (s.table σ).find (hash s.heap) p with
  | none =>
    simp only [insert, take, Function.update_comm h, update_of_ne h]
  | some found => rfl

theorem take_foldl_add (h : σ ≠ τ) (ps : List ℕ) (s : ProtoSets) :
    take τ (ps.foldl (fun s p => (s.add σ p).2) s) =
      ps.foldl (fun s p => (s.add σ p).2) (take τ s) := by
  induction ps generalizing s with
  | nil => rfl
  | cons p ps ih => rw [List.foldl_cons, ih, take_add h, List.foldl_cons]

theorem foldl_add_of_mem {ps : List ℕ} (hn : ps.Nodup)
    (hfind : ∀ p ∈ ps, (s.table σ).find (hash s.heap) p = some p) :
    (ps.foldl (fun s p => (s.add σ p).2) s).table = s.table ∧
      (ps.foldl (fun s p => (s.add σ p).2) s).next = s.next ∧
      ∀ q, q ∉ ps → (ps.foldl (fun s p => (s.add σ p).2) s).heap q = s.heap q := by
  induction ps generalizing s with
  | nil => exact ⟨rfl, rfl, fun q _ => rfl⟩
  | cons p ps ih =>
    obtain ⟨hp, hn⟩ := List.nodup_cons.mp hn
    have hadd : (s.add σ p).2 = s.delete p := by
      rw [add, hfind p List.mem_cons_self]
    rw [List.foldl_cons, hadd]
    obtain ⟨htable, hnext, hheap⟩ := ih (s := s.delete p) hn (by
      intro q hq
      have hne : q ≠ p := fun heq => hp (heq ▸ hq)
      have hhash : hash (s.delete p).heap q = hash s.heap q := hash_congr (update_of_ne hne _ _)
      rw [HashTable.find_congr hhash]
      exact hfind q (List.mem_cons_of_mem p hq))
    refine ⟨htable, hnext, ?_⟩
    intro q hq
    rw [List.mem_cons, not_or] at hq
    rw [hheap q hq.2]
    exact update_of_ne hq.1 _ _

theorem Owned.congr (h : s.Owned) (htable : s'.table = s.table) (hnext : s.next ≤ s'.next)
    (hheap : ∀ σ, ∀ p ∈ (s.table σ).elements, s'.heap p = s.heap p) : s'.Owned where
  filed := by
    intro σ
    rw [htable]
    exact (h.filed σ).congr fun p hp => hash_congr (hheap σ p hp)
  nodup := by
    rw [htable]
    exact h.nodup
  live := by
    intro σ p hp
    rw [htable] at hp
    rw [hheap σ p hp]
    exact ⟨(h.live σ p hp).1.trans_le hnext, (h.live σ p hp).2⟩
  apart := by
    rw [htable]
    exact h.apart

def contentsAfter (s : ProtoSets) : SetOp → SetId → List ProtoCandidate
  | .add σ assignments, τ =>
    if τ = σ then built assignments :: s.contents τ else s.contents τ
  | .mapAdd σ a, τ => if τ = σ then (s.contents τ).map (ProtoCandidate.add a) else s.contents τ
  | .acquire σ other, τ =>
    if τ = other then [] else if τ = σ then s.contents other ++ s.contents τ else s.contents τ

/-- The sets own their candidates after the operation, and have those. -/
def Leaves (s : ProtoSets) (op : SetOp) : Prop :=
  (s.apply op).Owned ∧ ∀ τ, ((s.apply op).contents τ).Perm (s.contentsAfter op τ)

theorem Puts.leaves {op : SetOp} {ps : List ℕ} (h : Puts g σ ps s (s'.apply op))
    (hself : (s'.contentsAfter op σ).Perm ((ps.filterMap s.heap).map g ++ s.contents σ))
    (hothers : ∀ τ, τ ≠ σ → s'.contentsAfter op τ = s.contents τ) : Leaves s' op := by
  apply And.intro h.owned
  intro τ
  by_cases hτ : τ = σ
  · subst hτ
    exact h.contents.trans hself.symm
  · rw [h.others τ hτ, hothers τ hτ]

theorem new_heap_self (s : ProtoSets) (p : ProtoCandidate) :
    (s.new p).2.heap (s.new p).1 = some p := update_self _ _ _

theorem Owned.new (h : s.Owned) (p : ProtoCandidate) :
    (s.new p).2.Owned ∧ Loose (s.new p).2 [(s.new p).1] ∧
      ∀ τ, (s.new p).2.contents τ = s.contents τ := by
  have hheap (τ : SetId) : ∀ q ∈ (s.table τ).elements, (s.new p).2.heap q = s.heap q := by
    intro q hq
    exact update_of_ne (Nat.ne_of_lt (h.live τ q hq).1) _ _
  refine ⟨h.congr rfl (Nat.le_succ _) hheap, ⟨List.nodup_singleton _, ?_, ?_⟩,
    fun τ => contents_congr rfl (hheap τ)⟩
  · intro q hq
    obtain rfl := List.mem_singleton.mp hq
    apply And.intro (Nat.lt_succ_self _)
    rw [new_heap_self]
    rfl
  · intro q hq τ hqτ
    obtain rfl := List.mem_singleton.mp hq
    exact Nat.lt_irrefl _ (h.live τ _ hqτ).1

theorem leaves_add (h : s.Owned) (σ : SetId) (assignments : List Assignment) :
    Leaves s (.add σ assignments) := by
  obtain ⟨howned, hloose, hcontents⟩ := h.new (built assignments)
  have hputs := puts id σ howned hloose
  rw [← foldl_add_of_loose howned hloose] at hputs
  apply hputs.leaves
  · rw [List.filterMap_cons_some (new_heap_self s _), hcontents, contentsAfter, if_pos rfl]
    exact List.Perm.refl _
  · intro τ hτ
    rw [contentsAfter, if_neg hτ, hcontents]

theorem leaves_mapAdd (h : s.Owned) (σ : SetId) (a : Assignment) : Leaves s (.mapAdd σ a) := by
  apply (puts (ProtoCandidate.add a) σ (h.take σ) (h.loose_take σ)).leaves
  · rw [contentsAfter, if_pos rfl, contents_take, if_pos rfl, List.append_nil]
    exact List.Perm.refl _
  · intro τ hτ
    rw [contentsAfter, if_neg hτ, contents_take, if_neg hτ]

theorem leaves_acquire (h : s.Owned) {other : SetId} (hne : σ ≠ other) :
    Leaves s (.acquire σ other) := by
  have hputs := puts id σ (h.take other) (h.loose_take other)
  rw [← foldl_add_of_loose (h.take other) (h.loose_take other), ← take_foldl_add hne] at hputs
  apply hputs.leaves
  · rw [contentsAfter, if_neg hne, if_pos rfl, contents_take, if_neg hne, List.map_id]
    exact List.Perm.refl _
  · intro τ hτ
    rw [contentsAfter, contents_take, if_neg hτ]

theorem leaves_acquire_self (h : s.Owned) (σ : SetId) : Leaves s (.acquire σ σ) := by
  have hfind : ∀ p ∈ (s.table σ).elements, (s.table σ).find (hash s.heap) p = some p :=
    fun p hp => HashTable.find_of_mem (h.filed σ) hp
  obtain ⟨htable, hnext, hheap⟩ := foldl_add_of_mem (h.nodup σ) hfind
  have htaken : (s.acquire σ σ).table = (s.take σ).table := by
    rw [acquire, htable]
    rfl
  have hsame (τ : SetId) :
      ∀ p ∈ ((s.take σ).table τ).elements, (s.acquire σ σ).heap p = (s.take σ).heap p := by
    intro p hp
    rw [elements_take] at hp
    split_ifs at hp with hτ
    · exact absurd hp List.not_mem_nil
    · exact hheap p fun hpσ => h.apart τ σ hτ hp hpσ
  apply And.intro ((h.take σ).congr htaken hnext.ge hsame)
  intro τ
  have hcontents := contents_congr (congrFun htaken τ) (hsame τ)
  rw [contents_take] at hcontents
  rw [apply, hcontents, contentsAfter]
  split_ifs with hτ
  · exact List.Perm.refl _
  · exact List.Perm.refl _

theorem leaves (h : s.Owned) (op : SetOp) : Leaves s op := by
  cases op with
  | add σ assignments => exact leaves_add h σ assignments
  | mapAdd σ a => exact leaves_mapAdd h σ a
  | acquire σ other =>
    by_cases hne : σ = other
    · subst hne
      exact leaves_acquire_self h σ
    · exact leaves_acquire h hne

end ProtoSets

abbrev Families := SetId → Finset (Finset Assignment)

namespace SetOp

def onFamilies (F : Families) : SetOp → Families
  | .add σ assignments => Function.update F σ (insert assignments.toFinset (F σ))
  | .mapAdd σ a => Function.update F σ ((F σ).image (insert a))
  | .acquire σ other => Function.update (Function.update F other ∅) σ (F σ ∪ F other)

/-- No two equal candidates come together in a set. -/
def Fresh (F : Families) : SetOp → Prop
  | .add σ assignments => assignments.toFinset ∉ F σ
  | .mapAdd σ a => Set.InjOn (insert a) (F σ : Set (Finset Assignment))
  | .acquire σ other => Disjoint (F σ) (F other)

end SetOp

namespace ProtoSets

variable {s : ProtoSets} {σ τ : SetId} {op : SetOp} {a : Assignment}

def families (s : ProtoSets) : Families := fun σ => ((s.contents σ).map List.toFinset).toFinset

def Unique (s : ProtoSets) : Prop := ∀ σ, (s.contents σ).Nodup

def Sorted (s : ProtoSets) : Prop := ∀ σ, ∀ p ∈ s.contents σ, ProtoCandidate.Sorted p

theorem mem_families {x : Finset Assignment} :
    x ∈ s.families σ ↔ ∃ p ∈ s.contents σ, p.toFinset = x := by
  rw [families, List.mem_toFinset, List.mem_map]

theorem Sorted.mem_families (h : s.Sorted) {p : ProtoCandidate} (hp : p.Sorted) :
    p.toFinset ∈ s.families σ ↔ p ∈ s.contents σ := by
  rw [ProtoSets.mem_families]
  constructor
  · intro ⟨q, hq, heq⟩
    exact ((h σ q hq).toFinset_inj hp).mp heq ▸ hq
  · intro hmem
    exact ⟨p, hmem, rfl⟩

theorem foldl_add_spec (assignments : List Assignment) {p : ProtoCandidate} (hp : p.Sorted) :
    (assignments.foldl (fun p a => ProtoCandidate.add a p) p).Sorted ∧
      (assignments.foldl (fun p a => ProtoCandidate.add a p) p).toFinset =
        p.toFinset ∪ assignments.toFinset := by
  induction assignments generalizing p with
  | nil => simpa using hp
  | cons a assignments ih =>
    obtain ⟨hsorted, hset⟩ := ih (hp.add a)
    apply And.intro hsorted
    rw [List.foldl_cons, hset, ProtoCandidate.toFinset_add, List.toFinset_cons,
      Finset.insert_union, Finset.union_insert]

theorem built_sorted (assignments : List Assignment) : (built assignments).Sorted :=
  (foldl_add_spec assignments List.Pairwise.nil).1

theorem built_toFinset (assignments : List Assignment) :
    (built assignments).toFinset = assignments.toFinset := by
  rw [built, (foldl_add_spec assignments List.Pairwise.nil).2]
  exact Finset.empty_union _

theorem Sorted.apply (h : s.Sorted) (howned : s.Owned) (op : SetOp) : (s.apply op).Sorted := by
  intro τ p hp
  rw [((leaves howned op).2 τ).mem_iff] at hp
  cases op with
  | add σ assignments =>
    simp only [contentsAfter] at hp
    split_ifs at hp with hτ
    · rcases List.mem_cons.mp hp with rfl | hp
      · exact built_sorted assignments
      · exact h τ p hp
    · exact h τ p hp
  | mapAdd σ a =>
    simp only [contentsAfter] at hp
    split_ifs at hp with hτ
    · obtain ⟨q, hq, rfl⟩ := List.mem_map.mp hp
      exact (h τ q hq).add a
    · exact h τ p hp
  | acquire σ other =>
    simp only [contentsAfter] at hp
    split_ifs at hp with hother hτ
    · exact absurd hp List.not_mem_nil
    · rcases List.mem_append.mp hp with hp | hp
      · exact h other p hp
      · exact h τ p hp
    · exact h τ p hp

theorem families_apply (h : s.Owned) (op : SetOp) (τ : SetId) :
    (s.apply op).families τ = ((s.contentsAfter op τ).map List.toFinset).toFinset :=
  List.toFinset_eq_of_perm _ _ (((leaves h op).2 τ).map _)

theorem unique_apply (h : s.Owned) (hothers : ∀ τ, τ ≠ σ → (s.contentsAfter op τ).Nodup) :
    (s.apply op).Unique ↔ (s.contentsAfter op σ).Nodup := by
  constructor
  · intro hu
    exact ((leaves h op).2 σ).nodup_iff.mp (hu σ)
  · intro hσ τ
    rw [((leaves h op).2 τ).nodup_iff]
    by_cases hτ : τ = σ
    · rw [hτ]
      exact hσ
    · exact hothers τ hτ

theorem families_add (h : s.Owned) (σ : SetId) (assignments : List Assignment) :
    (s.apply (.add σ assignments)).families =
      SetOp.onFamilies s.families (.add σ assignments) := by
  funext τ
  rw [families_apply h, contentsAfter, SetOp.onFamilies, Function.update_apply]
  split_ifs with hτ
  · rw [List.map_cons, List.toFinset_cons, built_toFinset, hτ]
    rfl
  · rfl

theorem families_mapAdd (h : s.Owned) (σ : SetId) (a : Assignment) :
    (s.apply (.mapAdd σ a)).families = SetOp.onFamilies s.families (.mapAdd σ a) := by
  funext τ
  rw [families_apply h, contentsAfter, SetOp.onFamilies, Function.update_apply]
  split_ifs with hτ
  · subst hτ
    ext x
    simp only [List.map_map, List.mem_toFinset, List.mem_map, Finset.mem_image, mem_families,
      Function.comp_apply, ProtoCandidate.toFinset_add, exists_exists_and_eq_and]
  · rfl

theorem families_acquire (h : s.Owned) {other : SetId} (hne : σ ≠ other) :
    (s.apply (.acquire σ other)).families =
      SetOp.onFamilies s.families (.acquire σ other) := by
  funext τ
  rw [families_apply h, contentsAfter, SetOp.onFamilies, Function.update_apply,
    Function.update_apply]
  split_ifs with hother hτ hτ
  · exact absurd (hτ.symm.trans hother) hne
  · rfl
  · subst hτ
    rw [List.map_append, List.toFinset_append, Finset.union_comm]
    rfl
  · rfl

theorem families_acquire_self (h : s.Owned) :
    (s.apply (.acquire σ σ)).families = SetOp.onFamilies s.families (.acquire σ σ) ↔
      s.families σ = ∅ := by
  have hafter (τ : SetId) : (s.apply (.acquire σ σ)).families τ =
      if τ = σ then ∅ else s.families τ := by
    rw [families_apply h, contentsAfter]
    split_ifs with hτ
    · rfl
    · rfl
  constructor
  · intro heq
    have hσ := congrFun heq σ
    rw [hafter, if_pos rfl, SetOp.onFamilies, Function.update_self, Finset.union_self] at hσ
    exact hσ.symm
  · intro hempty
    funext τ
    rw [hafter, SetOp.onFamilies, Function.update_apply, Function.update_apply, hempty]
    split_ifs with hτ
    · rfl
    · rfl

/-- Candidates stay different when they get one more assignment if their sets do. -/
theorem injOn_add (h : s.Sorted) : (∀ p ∈ s.contents σ, ∀ q ∈ s.contents σ,
    ProtoCandidate.add a p = ProtoCandidate.add a q → p = q) ↔
      Set.InjOn (Insert.insert a) (s.families σ : Set (Finset Assignment)) := by
  have hadd {p q : ProtoCandidate} (hp : p.Sorted) (hq : q.Sorted) :
      ProtoCandidate.add a p = ProtoCandidate.add a q ↔
        Insert.insert a p.toFinset = Insert.insert a q.toFinset := by
    rw [← (hp.add a).toFinset_inj (hq.add a), ProtoCandidate.toFinset_add,
      ProtoCandidate.toFinset_add]
  constructor
  · intro hinj x hx y hy hxy
    obtain ⟨p, hp, rfl⟩ := mem_families.mp hx
    obtain ⟨q, hq, rfl⟩ := mem_families.mp hy
    rw [hinj p hp q hq ((hadd (h σ p hp) (h σ q hq)).mpr hxy)]
  · intro hinj p hp q hq hpq
    apply ((h σ p hp).toFinset_inj (h σ q hq)).mp
    exact hinj (mem_families.mpr ⟨p, hp, rfl⟩) (mem_families.mpr ⟨q, hq, rfl⟩)
      ((hadd (h σ p hp) (h σ q hq)).mp hpq)

theorem disjoint_contents (h : s.Sorted) :
    (s.contents σ).Disjoint (s.contents τ) ↔ Disjoint (s.families σ) (s.families τ) := by
  rw [Finset.disjoint_left]
  constructor
  · intro hd x hσ hτ
    obtain ⟨p, hp, rfl⟩ := mem_families.mp hσ
    exact hd hp ((h.mem_families (h σ p hp)).mp hτ)
  · intro hd p hpσ hpτ
    exact hd (mem_families.mpr ⟨p, hpσ, rfl⟩) (mem_families.mpr ⟨p, hpτ, rfl⟩)

theorem apply_iff (howned : s.Owned) (hsorted : s.Sorted) (hu : s.Unique) (op : SetOp) :
    (s.apply op).Unique ∧ (s.apply op).families = op.onFamilies s.families ↔
      op.Fresh s.families := by
  cases op with
  | add σ assignments =>
    rw [unique_apply (σ := σ) howned fun τ hτ => by rw [contentsAfter, if_neg hτ]; exact hu τ,
      contentsAfter, if_pos rfl, List.nodup_cons, SetOp.Fresh, ← built_toFinset,
      hsorted.mem_families (built_sorted assignments)]
    constructor
    · intro h
      exact h.1.1
    · intro h
      exact ⟨⟨h, hu σ⟩, families_add howned σ assignments⟩
  | mapAdd σ a =>
    rw [unique_apply (σ := σ) howned fun τ hτ => by rw [contentsAfter, if_neg hτ]; exact hu τ,
      contentsAfter, if_pos rfl, List.nodup_map_iff_inj_on (hu σ), injOn_add hsorted, SetOp.Fresh]
    constructor
    · intro h
      exact h.1
    · intro h
      exact ⟨h, families_mapAdd howned σ a⟩
  | acquire σ other =>
    by_cases hne : σ = other
    · subst hne
      rw [families_acquire_self howned, SetOp.Fresh, disjoint_self, Finset.bot_eq_empty]
      constructor
      · intro h
        exact h.2
      · intro h
        refine ⟨?_, h⟩
        rw [unique_apply (σ := σ) howned fun τ hτ => by
          rw [contentsAfter, if_neg hτ, if_neg hτ]; exact hu τ, contentsAfter, if_pos rfl]
        exact List.nodup_nil
    · have hothers : ∀ τ, τ ≠ σ → (s.contentsAfter (.acquire σ other) τ).Nodup := by
        intro τ hτ
        rw [contentsAfter, if_neg hτ]
        split_ifs with hother
        · exact List.nodup_nil
        · exact hu τ
      rw [unique_apply howned hothers, contentsAfter, if_neg hne, if_pos rfl, List.nodup_append',
        SetOp.Fresh, disjoint_comm, ← disjoint_contents hsorted]
      constructor
      · intro h
        exact h.1.2.2
      · intro h
        exact ⟨⟨hu other, hu σ, h⟩, families_acquire howned hne⟩

def run (ops : List SetOp) : ProtoSets := ops.foldl apply {}

def runFamilies (ops : List SetOp) : Families := ops.foldl SetOp.onFamilies fun _ => ∅

variable {ops : List SetOp}

theorem run_concat (ops : List SetOp) (op : SetOp) : run (ops ++ [op]) = (run ops).apply op :=
  List.foldl_concat ..

theorem runFamilies_concat (ops : List SetOp) (op : SetOp) :
    runFamilies (ops ++ [op]) = op.onFamilies (runFamilies ops) := List.foldl_concat ..

theorem contents_run_nil (σ : SetId) : (run []).contents σ = [] := by
  have hempty : ((run []).table σ).elements = [] := HashTable.elements_empty tableSize_pos
  rw [contents, hempty]
  rfl

theorem run_owned (ops : List SetOp) : (run ops).Owned := by
  induction ops using List.reverseRecOn with
  | nil =>
    have hempty (σ : SetId) : ((run []).table σ).elements = [] :=
      HashTable.elements_empty tableSize_pos
    refine ⟨fun σ => HashTable.filed_empty tableSize_pos, ?_, ?_, ?_⟩
    · intro σ
      rw [hempty]
      exact List.nodup_nil
    · intro σ p hp
      rw [hempty] at hp
      exact absurd hp List.not_mem_nil
    · intro σ τ _
      rw [hempty]
      exact List.disjoint_nil_left _
  | append_singleton ops op ih =>
    rw [run_concat]
    exact (leaves ih op).1

theorem run_sorted (ops : List SetOp) : (run ops).Sorted := by
  induction ops using List.reverseRecOn with
  | nil =>
    intro σ p hp
    rw [contents_run_nil] at hp
    exact absurd hp List.not_mem_nil
  | append_singleton ops op ih =>
    rw [run_concat]
    exact ih.apply (run_owned ops) op

/-- The sets have no two equal candidates, and are what the operations are for. -/
def Proper (ops : List SetOp) : Prop :=
  (run ops).Unique ∧ (run ops).families = runFamilies ops

theorem proper_nil : Proper [] := by
  constructor
  · intro σ
    rw [contents_run_nil]
    exact List.nodup_nil
  · funext σ
    rw [families, contents_run_nil]
    rfl

theorem proper_concat (h : Proper ops) (op : SetOp) :
    Proper (ops ++ [op]) ↔ op.Fresh (runFamilies ops) := by
  rw [Proper, run_concat, runFamilies_concat, ← h.2]
  exact apply_iff (run_owned ops) (run_sorted ops) h.1 op

theorem proper_iff_fresh (ops : List SetOp) :
    (∀ before, before <+: ops → Proper before) ↔
      ∀ before op, before ++ [op] <+: ops → op.Fresh (runFamilies before) := by
  induction ops using List.reverseRecOn with
  | nil =>
    constructor
    · intro _ before op hop
      exact absurd (List.prefix_nil.mp hop) (by simp)
    · intro _ before hbefore
      rw [List.prefix_nil.mp hbefore]
      exact proper_nil
  | append_singleton ops op ih =>
    constructor
    · intro h before op' hop
      rcases List.prefix_concat_iff.mp hop with heq | hop
      · obtain ⟨rfl, hop'⟩ := List.append_inj' heq rfl
        obtain rfl := List.singleton_injective hop'
        exact (proper_concat (h before (List.prefix_append _ _)) op').mp
          (h _ (List.prefix_refl _))
      · exact ih.mp (fun before hb => h before (hb.trans (List.prefix_append _ _))) before op' hop
    · intro h before hbefore
      have hall := ih.mpr fun before op' hop => h before op' (hop.trans (List.prefix_append _ _))
      rcases List.prefix_concat_iff.mp hbefore with rfl | hbefore
      · exact (proper_concat (hall ops (List.prefix_refl _)) op).mpr
          (h ops op (List.prefix_refl _))
      · exact hall before hbefore

/-- The same candidate, built twice. -/
theorem not_proper : ¬ ∀ ops before : List SetOp, before <+: ops → Proper before := by
  intro h
  have hu := (h [.add 0 [⟨⟨0, 0⟩, 1⟩], .add 0 [⟨⟨0, 0⟩, 1⟩]] _ (List.prefix_refl _)).1 0
  revert hu
  decide +kernel

end ProtoSets

end Livingstone
