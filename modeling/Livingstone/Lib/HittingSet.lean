import Mathlib.Tactic

/-! Covering a list of conflicts choice by choice: each choice meets the first conflict
that is left and takes away all the conflicts it resolves. No two choices have the
same key. -/

namespace HittingSet

variable {α κ ν β : Type*}

section
variable (key : α → ν) (meets resolves : α → κ → Prop)

open Classical in
/-- The conflicts that are left after a choice. -/
noncomputable def rest (a : α) (cs : List κ) : List κ := cs.filter fun c => ¬ resolves a c

/-- A covering sequence that uses none of the `marked` keys. -/
inductive Covering : List κ → List ν → List α → Prop
  | last {c : κ} {cs : List κ} {marked : List ν} {a : α} (ha : meets a c)
      (hm : key a ∉ marked) (hr : rest resolves a cs = []) : Covering (c :: cs) marked [a]
  | more {c : κ} {cs : List κ} {marked : List ν} {a : α} {as : List α} (ha : meets a c)
      (hm : key a ∉ marked) (hr : rest resolves a cs ≠ [])
      (h : Covering (rest resolves a cs) (key a :: marked) as) :
      Covering (c :: cs) marked (a :: as)

end

variable {key : α → ν} {meets resolves : α → κ → Prop} {cs : List κ} {marked : List ν}
  {as : List α}

theorem mem_rest {a : α} {c : κ} : c ∈ rest resolves a cs ↔ c ∈ cs ∧ ¬ resolves a c := by
  simp [rest]

theorem length_rest_le (a : α) (cs : List κ) : (rest resolves a cs).length ≤ cs.length :=
  List.length_filter_le _ _

namespace Covering

theorem ne_nil (h : Covering key meets resolves cs marked as) : as ≠ [] := by
  cases h with
  | last => exact List.cons_ne_nil _ _
  | more => exact List.cons_ne_nil _ _

theorem unmarked (h : Covering key meets resolves cs marked as) : ∀ a ∈ as, key a ∉ marked := by
  induction h with
  | last _ hm _ =>
    intro b hb
    rw [List.mem_singleton.mp hb]
    exact hm
  | more _ hm _ _ ih =>
    intro b hb
    rcases List.mem_cons.mp hb with rfl | hb
    · exact hm
    · exact fun hmem => ih b hb (List.mem_cons_of_mem _ hmem)

theorem nodup (h : Covering key meets resolves cs marked as) : (as.map key).Nodup := by
  induction h with
  | last => exact List.nodup_singleton _
  | more _ _ _ h ih =>
    rw [List.map_cons, List.nodup_cons]
    refine ⟨fun hmem => ?_, ih⟩
    obtain ⟨b, hb, hkey⟩ := List.mem_map.mp hmem
    exact h.unmarked b hb (hkey ▸ List.mem_cons_self)

theorem cons_of_last {a : α} {c : κ} (hr : rest resolves a cs = []) :
    Covering key meets resolves (c :: cs) marked (a :: as) ↔
      meets a c ∧ key a ∉ marked ∧ as = [] := by
  constructor
  · intro h
    cases h with
    | last ha hm _ => exact ⟨ha, hm, rfl⟩
    | more _ _ hr' _ => exact absurd hr hr'
  · intro ⟨ha, hm, has⟩
    subst has
    exact .last ha hm hr

theorem cons_of_more {a : α} {c : κ} (hr : rest resolves a cs ≠ []) :
    Covering key meets resolves (c :: cs) marked (a :: as) ↔
      meets a c ∧ key a ∉ marked ∧
        Covering key meets resolves (rest resolves a cs) (key a :: marked) as := by
  constructor
  · intro h
    cases h with
    | last _ _ hr' => exact absurd hr' hr
    | more ha hm _ h => exact ⟨ha, hm, h⟩
  · intro ⟨ha, hm, h⟩
    exact .more ha hm hr h

theorem covers (hmr : ∀ a c, meets a c → resolves a c)
    (h : Covering key meets resolves cs marked as) : ∀ c ∈ cs, ∃ a ∈ as, resolves a c := by
  induction h with
  | @last c₀ cs marked a ha _ hr =>
    intro c hc
    refine ⟨a, List.mem_cons_self, ?_⟩
    rcases List.mem_cons.mp hc with rfl | hc
    · exact hmr a c ha
    · by_contra hn
      exact List.ne_nil_of_mem (mem_rest.mpr ⟨hc, hn⟩) hr
  | @more c₀ cs marked a as ha _ _ _ ih =>
    intro c hc
    by_cases hac : resolves a c
    · exact ⟨a, List.mem_cons_self, hac⟩
    · rcases List.mem_cons.mp hc with rfl | hc
      · exact absurd (hmr a c ha) hac
      · obtain ⟨b, hb, hbc⟩ := ih c (mem_rest.mpr ⟨hc, hac⟩)
        exact ⟨b, List.mem_cons_of_mem _ hb, hbc⟩

end Covering

/-- A set of choices with different keys that meets all the conflicts has a covering
sequence. -/
theorem exists_covering (hmr : ∀ a c, meets a c → resolves a c) {T : Set α}
    (hinj : ∀ a ∈ T, ∀ b ∈ T, key a = key b → a = b) {n : ℕ} (hlen : cs.length ≤ n)
    (hcs : cs ≠ []) (hT : ∀ c ∈ cs, ∃ a ∈ T, meets a c ∧ key a ∉ marked) :
    ∃ as, Covering key meets resolves cs marked as ∧ ∀ a ∈ as, a ∈ T := by
  induction n generalizing cs marked with
  | zero => exact absurd (List.length_eq_zero_iff.mp (Nat.le_zero.mp hlen)) hcs
  | succ n ih =>
    cases cs with
    | nil => exact absurd rfl hcs
    | cons c cs =>
      obtain ⟨a, haT, ha, hm⟩ := hT c List.mem_cons_self
      by_cases hr : rest resolves a cs = []
      · exact ⟨[a], .last ha hm hr, fun b hb => List.mem_singleton.mp hb ▸ haT⟩
      · have hlen' : (rest resolves a cs).length ≤ n :=
          (length_rest_le a cs).trans (Nat.le_of_succ_le_succ hlen)
        have hT' : ∀ d ∈ rest resolves a cs,
            ∃ b ∈ T, meets b d ∧ key b ∉ key a :: marked := by
          intro d hd
          obtain ⟨hd, had⟩ := mem_rest.mp hd
          obtain ⟨b, hbT, hb, hbm⟩ := hT d (List.mem_cons_of_mem _ hd)
          refine ⟨b, hbT, hb, ?_⟩
          rw [List.mem_cons, not_or]
          refine ⟨fun hkey => ?_, hbm⟩
          rw [hinj b hbT a haT hkey] at hb
          exact had (hmr a d hb)
        obtain ⟨as, has, hsub⟩ := ih hlen' hr hT'
        exact ⟨a :: as, .more ha hm hr has, List.forall_mem_cons.mpr ⟨haT, hsub⟩⟩

/-- No proper beginning of the sequence weighs exactly `budget`. -/
def Unspent [Add β] [Zero β] (weight : α → β) (budget : β) (as : List α) : Prop :=
  ∀ l, l <+: as → l ≠ [] → l ≠ as → (l.map weight).sum ≠ budget

theorem unspent_singleton [Add β] [Zero β] (weight : α → β) (budget : β) (a : α) :
    Unspent weight budget [a] := by
  intro l hl hne hne'
  rcases List.prefix_cons_iff.mp hl with rfl | ⟨l', rfl, hl'⟩
  · exact absurd rfl hne
  · rw [List.prefix_nil.mp hl'] at hne'
    exact absurd rfl hne'

theorem unspent_cons [AddCommGroup β] (weight : α → β) (budget : β) (a : α) (has : as ≠ []) :
    Unspent weight budget (a :: as) ↔
      budget - weight a ≠ 0 ∧ Unspent weight (budget - weight a) as := by
  constructor
  · intro h
    refine ⟨fun hz => h [a] ?_ (List.cons_ne_nil _ _) ?_ ?_, fun l hl hne hne' hsum => ?_⟩
    · exact List.cons_prefix_cons.mpr ⟨rfl, List.nil_prefix⟩
    · exact fun heq => has (List.cons.inj heq).2.symm
    · simpa using (sub_eq_zero.mp hz).symm
    · refine h (a :: l) (List.cons_prefix_cons.mpr ⟨rfl, hl⟩) (List.cons_ne_nil _ _)
        (fun heq => hne' (List.cons.inj heq).2) ?_
      rw [List.map_cons, List.sum_cons, hsum, add_sub_cancel]
  · intro ⟨hz, h⟩ l hl hne hne'
    rcases List.prefix_cons_iff.mp hl with rfl | ⟨l', rfl, hl'⟩
    · exact absurd rfl hne
    · rw [List.map_cons, List.sum_cons]
      intro hsum
      have hsum' : (l'.map weight).sum = budget - weight a := eq_sub_of_add_eq' hsum
      by_cases hl'' : l' = []
      · rw [hl''] at hsum'
        exact hz hsum'.symm
      · exact h l' hl' hl'' (fun heq => hne' (heq ▸ rfl)) hsum'

end HittingSet
