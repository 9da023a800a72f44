import Livingstone.Lib.Loop
import Livingstone.Transition.ModeTransitions

/-! The prototypes of a mode without a guard: those of the failures that can always occur, each with
the value of its transition. -/

namespace Livingstone
namespace Transition

variable {f : L2File} {id value : ℕ} {m : L2rMode} {x : L2rTransition} {t t' : ModeVariable}

/-- The prototype that is added for a transition that can always occur. -/
def autonomousOf (id : ℕ) (x : L2rTransition × ℕ) : Option ProtoTransition :=
  if x.1.clauses = [] ∧ x.1.isNominal = false then
    some (.autonomous id (UInt32.ofNat x.2) (UInt32.ofNat x.1.toMode))
  else none

/-- The prototypes in `ps` are added in front, and those with a guard elsewhere. -/
def AddsAutonomous (ps : List ProtoTransition) (t t' : ModeVariable) : Prop :=
  t'.prototypes.id = t.prototypes.id ∧
    t'.prototypes.autonomousTransitions = ps ++ t.prototypes.autonomousTransitions

theorem AddsAutonomous.trans {ps qs : List ProtoTransition} {t'' : ModeVariable}
    (h : AddsAutonomous ps t t') (h' : AddsAutonomous qs t' t'') :
    AddsAutonomous (qs ++ ps) t t'' :=
  ⟨h'.1.trans h.1, by rw [h'.2, h.2, List.append_assoc]⟩

theorem addsAutonomous_commanded (transitionValue toValue : UInt32) (fromValue : Int32)
    (pos neg : List ProtoAssignment) : AddsAutonomous [] t { t with
      prototypes := t.prototypes.addCommandedPrototype transitionValue fromValue toValue pos neg } := by
  unfold AddsAutonomous Transitioned.addCommandedPrototype
  dsimp only
  split
  · exact ⟨rfl, rfl⟩
  · split_ifs <;> exact ⟨rfl, rfl⟩

theorem addRank_autonomous (h : addRank x t = .ok t') : AddsAutonomous [] t t' := by
  unfold addRank ModeVariable.addTransitionCost at h
  dsimp only at h
  split_ifs at h <;> obtain rfl := Except.ok.inj h <;> exact ⟨rfl, rfl⟩

theorem addGuard_autonomous {clause : Option ℕ} (h : addGuard f x value t clause = .ok t') :
    AddsAutonomous [] t t' := by
  cases clause with
  | none => cases h
  | some c =>
    obtain ⟨k, -, h⟩ := Loop.bind_eq_ok h
    obtain ⟨r, -, h⟩ := Loop.bind_eq_ok h
    obtain rfl := Except.ok.inj h
    exact addsAutonomous_commanded _ _ _ _ _

theorem addPrototypes_autonomous (h : addPrototypes f x value t = .ok t') :
    AddsAutonomous (autonomousOf t.prototypes.id (x, value)).toList t t' := by
  unfold addPrototypes at h
  unfold autonomousOf
  by_cases hc : x.clauses = []
  · cases hn : x.isNominal with
    | true =>
      simp only [hc, hn, if_true] at h
      split_ifs at h
      obtain rfl := Except.ok.inj h
      simp only [hc, Bool.true_eq_false, and_false, if_false]
      exact addsAutonomous_commanded _ _ _ _ _
    | false =>
      simp only [hc, hn, if_true, Bool.false_eq_true, if_false] at h
      obtain rfl := Except.ok.inj h
      simp only [hc, and_self, if_true]
      exact ⟨rfl, rfl⟩
  · rw [if_neg hc] at h
    rw [if_neg (not_and_of_not_left _ hc)]
    refine Loop.foldlM_inv (AddsAutonomous [] t) x.clauses (fun clause _ t₁ t₂ h₁ h₂ => ?_) ⟨rfl, rfl⟩ h
    exact h₁.trans (addGuard_autonomous h₂)

theorem createTransition_autonomous {x : L2rTransition × ℕ} (h : createTransition f t x = .ok t') :
    AddsAutonomous (autonomousOf t.prototypes.id x).toList t t' := by
  obtain ⟨t₁, ht₁, h⟩ := Loop.bind_eq_ok h
  have hrank := addRank_autonomous ht₁
  have hadd := hrank.trans (addPrototypes_autonomous h)
  rwa [List.append_nil, hrank.1] at hadd

theorem createAll_autonomous {xs : List (L2rTransition × ℕ)}
    (h : xs.foldlM (createTransition f) t = .ok t') :
    AddsAutonomous (xs.filterMap (autonomousOf t.prototypes.id)).reverse t t' := by
  induction xs generalizing t with
  | nil =>
    obtain rfl := Except.ok.inj h
    exact ⟨rfl, rfl⟩
  | cons x xs ih =>
    rw [List.foldlM_cons] at h
    obtain ⟨t₁, ht₁, h⟩ := Loop.bind_eq_ok h
    have hfirst := createTransition_autonomous ht₁
    have hrest := ih h
    rw [hfirst.1] at hrest
    have hall := hfirst.trans hrest
    rw [List.filterMap_cons]
    cases ha : autonomousOf t.prototypes.id x with
    | none => simpa [ha] using hall
    | some p => simpa [ha] using hall

/-- The autonomous prototypes of a mode are those of its failures without clauses. -/
theorem mem_autonomousTransitions (hn : ∀ x ∈ m.nominal, x.isNominal = true)
    (hf : ∀ x ∈ m.failure, x.isNominal = false) (h : createTransitions f id m = .ok t)
    {p : ProtoTransition} : p ∈ t.prototypes.autonomousTransitions ↔
      ∃ n x, m.failure[n]? = some x ∧ x.clauses = [] ∧
        p = .autonomous id (UInt32.ofNat (n + 1)) (UInt32.ofNat x.toMode) := by
  obtain ⟨t₁, ht₁, h⟩ := Loop.bind_eq_ok h
  obtain ⟨t₂, ht₂, h⟩ := Loop.bind_eq_ok h
  split_ifs at h
  obtain rfl := Except.ok.inj h
  have hnominal := createAll_autonomous ht₁
  have hfailure := createAll_autonomous ht₂
  have hnone : (m.nominal.map fun x => (x, 0)).filterMap (autonomousOf id) = [] := by
    rw [List.filterMap_map, List.filterMap_eq_nil_iff]
    intro x hx
    simp [autonomousOf, hn x hx]
  have hid : t₁.prototypes.id = id := hnominal.1
  rw [hfailure.2, hnominal.2, hid]
  change p ∈ _ ++ ((List.filterMap (autonomousOf id) _).reverse ++ []) ↔ _
  rw [hnone, List.reverse_nil, List.append_nil, List.append_nil, List.mem_reverse,
    List.mem_filterMap]
  constructor
  · rintro ⟨⟨x, k⟩, hmem, hp⟩
    obtain ⟨hle, hget⟩ := List.mem_zipIdx_iff_le_and_getElem?_sub.mp hmem
    unfold autonomousOf at hp
    split_ifs at hp with hx
    refine ⟨k - 1, x, hget, hx.1, ?_⟩
    rw [Nat.sub_add_cancel hle]
    exact (Option.some.inj hp).symm
  · rintro ⟨n, x, hget, hclauses, rfl⟩
    refine ⟨(x, n + 1), List.mem_zipIdx_iff_le_and_getElem?_sub.mpr ⟨Nat.le_add_left 1 n, hget⟩, ?_⟩
    exact if_pos ⟨hclauses, hf x (List.mem_of_getElem? hget)⟩

end Transition
end Livingstone
