import Mathlib.Tactic

/-! Lists of cells that partition a list, and merging two of the cells. Once the pairs of a
relation are merged, two elements are in one cell if and only if the relation
generates an equivalence between them. -/

namespace Classes

variable {α κ : Type*} (members : κ → List α)

/-- Each element of `xs` is in one of the cells, once. -/
def Partitions (cs : List κ) (xs : List α) : Prop := (cs.flatMap members).Perm xs

def Together (cs : List κ) (v w : α) : Prop := ∃ c ∈ cs, v ∈ members c ∧ w ∈ members c

variable {members} {cs cs' : List κ} {xs : List α} {c c₁ c₂ : κ} {v w : α}

theorem eqvGen_value {β : Type*} {R : α → α → Prop} (f : α → β) (hR : ∀ v w, R v w → f v = f w)
    (h : Relation.EqvGen R v w) : f v = f w :=
  ((eq_equivalence.comap f).eqvGen_iff).mp (h.mono hR)

namespace Partitions

theorem mem (h : Partitions members cs xs) : v ∈ xs ↔ ∃ c ∈ cs, v ∈ members c := by
  rw [← List.Perm.mem_iff h, List.mem_flatMap]

theorem disjoint (h : Partitions members cs xs) (hn : xs.Nodup) :
    cs.Pairwise fun c c' => List.Disjoint (members c) (members c') :=
  (List.nodup_flatMap.mp (h.nodup_iff.mpr hn)).2

theorem eq_of_mem (h : Partitions members cs xs) (hn : xs.Nodup) (h₁ : c₁ ∈ cs) (h₂ : c₂ ∈ cs)
    (hv₁ : v ∈ members c₁) (hv₂ : v ∈ members c₂) : c₁ = c₂ := by
  by_contra hne
  have : Std.Symm fun c c' => List.Disjoint (members c) (members c') := ⟨fun _ _ h => h.symm⟩
  exact (h.disjoint hn).forall h₁ h₂ hne hv₁ hv₂

theorem nodup (h : Partitions members cs xs) (hn : xs.Nodup) (hne : ∀ c ∈ cs, members c ≠ []) :
    cs.Nodup := by
  refine (h.disjoint hn).imp_of_mem fun {c c'} hc _ hd => ?_
  rintro rfl
  obtain ⟨v, hv⟩ := List.exists_mem_of_ne_nil _ (hne c hc)
  exact hd hv hv

theorem singletons {f : α → κ} (hf : ∀ v, members (f v) = [v]) :
    Partitions members (xs.map f) xs := by
  unfold Partitions
  rw [List.flatMap_map]
  simp [hf]

theorem of_perm (h : Partitions members cs xs) (hcs : cs.Perm (c₁ :: c₂ :: cs'))
    (hc : (members c).Perm (members c₂ ++ members c₁)) : Partitions members (c :: cs') xs := by
  have hflat := (hcs.flatMap_right members).symm.trans h
  rw [List.flatMap_cons, List.flatMap_cons, ← List.append_assoc] at hflat
  refine List.Perm.trans ?_ hflat
  rw [List.flatMap_cons]
  exact (hc.trans List.perm_append_comm).append_right _

theorem replace_filter [DecidableEq κ] (h : Partitions members cs xs) (hn : xs.Nodup)
    (hne : ∀ c ∈ cs, members c ≠ []) (h₁ : c₁ ∈ cs) (h₂ : c₂ ∈ cs) (h₁₂ : c₁ ≠ c₂)
    (hc : (members c).Perm (members c₂ ++ members c₁)) :
    ∃ rest, cs.Perm (c₁ :: c₂ :: rest) ∧ ((cs.replace c₁ c).filter (· ≠ c₂)).Perm (c :: rest) := by
  have hcs := h.nodup hn hne
  -- the new cell has elements of the first one, which are not in the second
  have hcc₂ : c ≠ c₂ := by
    rintro rfl
    obtain ⟨v, hv⟩ := List.exists_mem_of_ne_nil _ (hne c₁ h₁)
    exact h₁₂ (h.eq_of_mem hn h₁ h₂ hv (hc.mem_iff.mpr (List.mem_append_right _ hv)))
  obtain ⟨l, l', rfl, hl⟩ := List.eq_append_cons_of_mem h₁
  have hrest : (l ++ c₁ :: l').Perm (c₁ :: (l ++ l')) := List.perm_middle
  have hmem : c₂ ∈ l ++ l' :=
    (List.mem_cons.mp (hrest.mem_iff.mp h₂)).resolve_left (Ne.symm h₁₂)
  have hnd : (l ++ l').Nodup := (List.nodup_cons.mp (hrest.nodup_iff.mp hcs)).2
  refine ⟨(l ++ l').erase c₂, hrest.trans ((List.perm_cons_erase hmem).cons c₁), ?_⟩
  rw [List.replace_append_right hl, List.replace_cons_self, hnd.erase_eq_filter]
  have hperm : (l ++ c :: l').Perm (c :: (l ++ l')) := List.perm_middle
  refine (hperm.filter (· ≠ c₂)).trans ?_
  rw [List.filter_cons_of_pos (by simpa using hcc₂)]
  refine (List.Perm.of_eq (List.filter_congr fun x _ => ?_)).cons c
  by_cases hx : x = c₂ <;> simp [hx]

end Partitions

namespace Together

theorem refl (h : Partitions members cs xs) (hv : v ∈ xs) : Together members cs v v := by
  obtain ⟨c, hc, hv⟩ := h.mem.mp hv
  exact ⟨c, hc, hv, hv⟩

theorem symm (h : Together members cs v w) : Together members cs w v := by
  obtain ⟨c, hc, hv, hw⟩ := h
  exact ⟨c, hc, hw, hv⟩

theorem trans {u : α} (hcs : Partitions members cs xs) (hn : xs.Nodup)
    (h : Together members cs u v) (h' : Together members cs v w) : Together members cs u w := by
  obtain ⟨c, hc, hu, hv⟩ := h
  obtain ⟨c', hc', hv', hw⟩ := h'
  obtain rfl := hcs.eq_of_mem hn hc hc' hv hv'
  exact ⟨c, hc, hu, hw⟩

theorem merge {rest : List κ} (hcs : cs.Perm (c₁ :: c₂ :: rest)) (hcs' : cs'.Perm (c :: rest))
    (hc : (members c).Perm (members c₂ ++ members c₁)) (h : Together members cs v w) :
    Together members cs' v w := by
  obtain ⟨c', hc', hv, hw⟩ := h
  have hmem : c ∈ cs' := hcs'.mem_iff.mpr List.mem_cons_self
  rcases List.mem_cons.mp (hcs.mem_iff.mp hc') with rfl | hc'
  · exact ⟨c, hmem, hc.mem_iff.mpr (List.mem_append_right _ hv),
      hc.mem_iff.mpr (List.mem_append_right _ hw)⟩
  rcases List.mem_cons.mp hc' with rfl | hc'
  · exact ⟨c, hmem, hc.mem_iff.mpr (List.mem_append_left _ hv),
      hc.mem_iff.mpr (List.mem_append_left _ hw)⟩
  · exact ⟨c', hcs'.mem_iff.mpr (List.mem_cons_of_mem _ hc'), hv, hw⟩

/-- What is together after a merge was together before, or the merge relates it. -/
theorem of_merge {R : α → α → Prop} {rest : List κ} {v₁ v₂ : α}
    (hcs : cs.Perm (c₁ :: c₂ :: rest)) (hcs' : cs'.Perm (c :: rest))
    (hc : (members c).Perm (members c₂ ++ members c₁))
    (hold : ∀ v w, Together members cs v w → Relation.EqvGen R v w)
    (h₁ : v₁ ∈ members c₁) (h₂ : v₂ ∈ members c₂) (hR : R v₁ v₂)
    (h : Together members cs' v w) : Relation.EqvGen R v w := by
  have hc₁ : c₁ ∈ cs := hcs.mem_iff.mpr List.mem_cons_self
  have hc₂ : c₂ ∈ cs := hcs.mem_iff.mpr (List.mem_cons_of_mem _ List.mem_cons_self)
  -- each element of the new cell is related to the first of the pair
  have hto (u : α) (hu : u ∈ members c) : Relation.EqvGen R u v₁ := by
    rcases List.mem_append.mp (hc.mem_iff.mp hu) with hu | hu
    · exact .trans _ _ _ (hold u v₂ ⟨c₂, hc₂, hu, h₂⟩) (.symm _ _ (.rel _ _ hR))
    · exact hold u v₁ ⟨c₁, hc₁, hu, h₁⟩
  obtain ⟨c', hc', hv, hw⟩ := h
  rcases List.mem_cons.mp (hcs'.mem_iff.mp hc') with rfl | hc'
  · exact .trans _ _ _ (hto v hv) (.symm _ _ (hto w hw))
  · exact hold v w ⟨c', hcs.mem_iff.mpr (by simp [hc']), hv, hw⟩

/-- Where every pair of the relation is together, so is all that it generates. -/
theorem of_eqvGen {R : α → α → Prop} (hcs : Partitions members cs xs) (hn : xs.Nodup)
    (hR : ∀ v w, R v w → Together members cs v w) (h : Relation.EqvGen R v w) (hv : v ∈ xs) :
    Together members cs v w := by
  have key : v = w ∨ Together members cs v w := by
    clear hv
    induction h with
    | rel v w h => exact Or.inr (hR v w h)
    | refl v => exact Or.inl rfl
    | symm v w _ ih =>
      rcases ih with rfl | ih
      · exact Or.inl rfl
      · exact Or.inr ih.symm
    | trans u v w _ _ ih ih' =>
      rcases ih with rfl | ih
      · exact ih'
      rcases ih' with rfl | ih'
      · exact Or.inr ih
      · exact Or.inr (ih.trans hcs hn ih')
  rcases key with rfl | h
  · exact refl hcs hv
  · exact h

end Together

end Classes
