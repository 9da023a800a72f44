import Livingstone.Lib.Classes

/-! The classes of a list built by a relation: an element goes to the first class all of whose
members it is related to, or else to a new one. For a preorder the classes do not depend on the
order of the list if and only if it is symmetric on the list. -/

namespace FirstFit

variable {α : Type*} (r : α → α → Prop) [DecidableRel r]

/-- `x` is related to every member of the class. -/
def Belongs (x : α) (c : List α) : Prop := ∀ y ∈ c, r x y

instance (x : α) (c : List α) : Decidable (Belongs r x c) := inferInstanceAs (Decidable (∀ _ ∈ _, _))

def place (x : α) : List (List α) → List (List α)
  | [] => [[x]]
  | c :: cs => if Belongs r x c then (c ++ [x]) :: cs else c :: place x cs

def classes (l : List α) : List (List α) := l.foldl (fun cs x => place r x cs) []

def SymmetricOn (l : List α) : Prop := ∀ x ∈ l, ∀ y ∈ l, r x y → r y x

variable {r} {x y : α} {l l' : List α} {cs ds : List (List α)}

theorem place_cases (r : α → α → Prop) [DecidableRel r] (x : α) (cs : List (List α)) :
    (∃ cs₁ c cs₂, cs = cs₁ ++ c :: cs₂ ∧ Belongs r x c ∧
      place r x cs = cs₁ ++ (c ++ [x]) :: cs₂) ∨
    ((∀ c ∈ cs, ¬ Belongs r x c) ∧ place r x cs = cs ++ [[x]]) := by
  induction cs with
  | nil => exact Or.inr ⟨by simp, rfl⟩
  | cons c cs ih =>
    unfold place
    split_ifs with hc
    · exact Or.inl ⟨[], c, cs, rfl, hc, rfl⟩
    · rcases ih with ⟨cs₁, d, cs₂, rfl, hd, hplace⟩ | ⟨hnone, hplace⟩
      · exact Or.inl ⟨c :: cs₁, d, cs₂, rfl, hd, by rw [hplace, List.cons_append]⟩
      · exact Or.inr ⟨List.forall_mem_cons.mpr ⟨hc, hnone⟩, by rw [hplace, List.cons_append]⟩

theorem perm_flatMap_place (r : α → α → Prop) [DecidableRel r] (x : α) (cs : List (List α)) :
    ((place r x cs).flatMap id).Perm (cs.flatMap id ++ [x]) := by
  rcases place_cases r x cs with ⟨cs₁, c, cs₂, rfl, -, hplace⟩ | ⟨-, hplace⟩
  · rw [hplace]
    simp only [List.flatMap_append, List.flatMap_cons, id, List.append_assoc]
    exact (List.perm_append_comm.append_left _).append_left _
  · rw [hplace]
    simp

/-- The classes are those of the relation on the list. -/
structure Splits (r : α → α → Prop) (l : List α) (cs : List (List α)) : Prop where
  partitions : Classes.Partitions id cs l
  nonempty : ∀ c ∈ cs, c ≠ []
  together : ∀ x ∈ l, ∀ y ∈ l, Classes.Together id cs x y ↔ r x y

omit [DecidableRel r] in
theorem Splits.mem_class (h : Splits r l cs) (hn : l.Nodup) {c : List α} (hc : c ∈ cs)
    (hy : y ∈ c) {z : α} : z ∈ c ↔ z ∈ l ∧ r y z := by
  have hyl : y ∈ l := h.partitions.mem.mpr ⟨c, hc, hy⟩
  constructor
  · intro hz
    have hzl : z ∈ l := h.partitions.mem.mpr ⟨c, hc, hz⟩
    exact ⟨hzl, (h.together y hyl z hzl).mp ⟨c, hc, hy, hz⟩⟩
  · intro ⟨hzl, hr⟩
    obtain ⟨d, hd, hyd, hzd⟩ := (h.together y hyl z hzl).mpr hr
    rwa [h.partitions.eq_of_mem hn hc hd hy hyd]

theorem nonempty_place (h : ∀ c ∈ cs, c ≠ []) : ∀ c ∈ place r x cs, c ≠ [] := by
  intro c hc
  rcases place_cases r x cs with ⟨cs₁, d, cs₂, rfl, -, hplace⟩ | ⟨-, hplace⟩
  · rw [hplace] at hc
    simp only [List.mem_append, List.mem_cons] at hc
    rcases hc with hc | rfl | hc
    · exact h c (by simp [hc])
    · simp
    · exact h c (by simp [hc])
  · rw [hplace] at hc
    rcases List.mem_append.mp hc with hc | hc
    · exact h c hc
    · simp [List.mem_singleton.mp hc]

theorem together_place_of_ne {z : α} (hy : y ≠ x) (hz : z ≠ x) :
    Classes.Together id (place r x cs) y z ↔ Classes.Together id cs y z := by
  rcases place_cases r x cs with ⟨cs₁, c, cs₂, rfl, -, hplace⟩ | ⟨-, hplace⟩
  · simp [hplace, Classes.Together, hy, hz, or_and_right, exists_or]
  · simp [hplace, Classes.Together, hy, hz, or_and_right, exists_or]

omit [DecidableRel r] in
theorem together_append_singleton {cs₁ cs₂ : List (List α)} {c : List α}
    (hnew : ∀ d ∈ cs₁ ++ cs₂, x ∉ d) (hy : y ≠ x) :
    Classes.Together id (cs₁ ++ (c ++ [x]) :: cs₂) y x ↔ y ∈ c := by
  constructor
  · intro ⟨d, hd, hyd, hxd⟩
    simp only [List.mem_append, List.mem_cons] at hd
    rcases hd with hd | rfl | hd
    · exact absurd hxd (hnew d (by simp [hd]))
    · simpa [hy] using hyd
    · exact absurd hxd (hnew d (by simp [hd]))
  · intro hyc
    exact ⟨c ++ [x], by simp, by simp [hyc], by simp⟩

theorem Splits.together_place (htrans : ∀ x y z, r x y → r y z → r x z)
    (hsymm : SymmetricOn r (l ++ [x])) (hn : l.Nodup) (hx : x ∉ l) (h : Splits r l cs)
    (hy : y ∈ l) : Classes.Together id (FirstFit.place r x cs) y x ↔ r y x := by
  have hmem {c : List α} (hc : c ∈ cs) {y : α} (hy : y ∈ c) : y ∈ l :=
    h.partitions.mem.mpr ⟨c, hc, hy⟩
  have hback {y : α} (hy : y ∈ l) : r x y ↔ r y x :=
    ⟨hsymm x (by simp) y (by simp [hy]), hsymm y (by simp [hy]) x (by simp)⟩
  have hne : y ≠ x := fun he => hx (he ▸ hy)
  have hnew {c : List α} (hc : c ∈ cs) : x ∉ c := fun hxc => hx (hmem hc hxc)
  rcases place_cases r x cs with ⟨cs₁, c, cs₂, rfl, hbelongs, hplace⟩ | ⟨hnone, hplace⟩
  · have hc : c ∈ cs₁ ++ c :: cs₂ := by simp
    have hothers : ∀ d ∈ cs₁ ++ cs₂, x ∉ d := by
      intro d hd
      apply hnew
      rcases List.mem_append.mp hd with hd | hd
      · simp [hd]
      · simp [hd]
    rw [hplace, together_append_singleton hothers hne]
    constructor
    · intro hyc
      exact (hback hy).mp (hbelongs y hyc)
    · intro hr
      obtain ⟨z, hz⟩ := List.exists_mem_of_ne_nil c (h.nonempty c hc)
      have hyz : r y z := htrans y x z hr (hbelongs z hz)
      have hzy : r z y := hsymm y (by simp [hy]) z (by simp [hmem hc hz]) hyz
      exact (h.mem_class hn hc hz).mpr ⟨hy, hzy⟩
  · constructor
    · rw [hplace]
      intro ⟨d, hd, hyd, hxd⟩
      rcases List.mem_append.mp hd with hd | hd
      · exact absurd hxd (hnew hd)
      · rw [List.mem_singleton.mp hd] at hyd
        exact absurd (List.mem_singleton.mp hyd) hne
    · intro hr
      obtain ⟨c, hc, hyc⟩ := h.partitions.mem.mp hy
      -- a class with one element that is related to `x` has only such
      have hbelongs : Belongs r x c := fun z hz =>
        htrans x y z ((hback hy).mpr hr) ((h.mem_class hn hc hyc).mp hz).2
      exact absurd hbelongs (hnone c hc)

theorem Splits.place (hrefl : ∀ x, r x x) (htrans : ∀ x y z, r x y → r y z → r x z)
    (hsymm : SymmetricOn r (l ++ [x])) (hn : l.Nodup) (hx : x ∉ l) (h : Splits r l cs) :
    Splits r (l ++ [x]) (place r x cs) where
  partitions := (perm_flatMap_place r x cs).trans (h.partitions.append_right _)
  nonempty := nonempty_place h.nonempty
  together := by
    have hne {y : α} (hy : y ∈ l) : y ≠ x := fun he => hx (he ▸ hy)
    have hcomm (y : α) : Classes.Together id (FirstFit.place r x cs) x y ↔
        Classes.Together id (FirstFit.place r x cs) y x :=
      ⟨fun ⟨c, hc, h₁, h₂⟩ => ⟨c, hc, h₂, h₁⟩, fun ⟨c, hc, h₁, h₂⟩ => ⟨c, hc, h₂, h₁⟩⟩
    have hself : Classes.Together id (FirstFit.place r x cs) x x := by
      have hx' : x ∈ (FirstFit.place r x cs).flatMap id :=
        (perm_flatMap_place r x cs).mem_iff.mpr (List.mem_append_right _ List.mem_cons_self)
      obtain ⟨c, hc, hxc⟩ := List.mem_flatMap.mp hx'
      exact ⟨c, hc, hxc, hxc⟩
    intro y hy z hz
    rcases List.mem_append.mp hy with hy | hy
    · rcases List.mem_append.mp hz with hz | hz
      · exact (together_place_of_ne (hne hy) (hne hz)).trans (h.together y hy z hz)
      · rw [List.mem_singleton.mp hz]
        exact h.together_place htrans hsymm hn hx hy
    · rw [List.mem_singleton.mp hy]
      rcases List.mem_append.mp hz with hz | hz
      · rw [hcomm, h.together_place htrans hsymm hn hx hz]
        exact ⟨hsymm z (by simp [hz]) x (by simp), hsymm x (by simp) z (by simp [hz])⟩
      · rw [List.mem_singleton.mp hz]
        exact ⟨fun _ => hrefl x, fun _ => hself⟩

theorem classes_concat (l : List α) (x : α) : classes r (l ++ [x]) = place r x (classes r l) := by
  rw [classes, List.foldl_append]
  rfl

theorem perm_flatMap_classes (r : α → α → Prop) [DecidableRel r] (l : List α) :
    ((classes r l).flatMap id).Perm l := by
  induction l using List.reverseRecOn with
  | nil => exact List.Perm.refl _
  | append_singleton l x ih =>
    rw [classes_concat]
    exact (perm_flatMap_place r x _).trans (ih.append_right _)

theorem splits_classes (hrefl : ∀ x, r x x) (htrans : ∀ x y z, r x y → r y z → r x z)
    (hsymm : SymmetricOn r l) (hn : l.Nodup) : Splits r l (classes r l) := by
  induction l using List.reverseRecOn with
  | nil => exact ⟨List.Perm.refl _, by simp [classes], by simp⟩
  | append_singleton l x ih =>
    rw [classes_concat]
    obtain ⟨hl, -, hd⟩ := List.nodup_append.mp hn
    have hx : x ∉ l := fun hx => hd x hx x List.mem_cons_self rfl
    have hsymm' : SymmetricOn r l := fun y hy z hz =>
      hsymm y (List.mem_append_left _ hy) z (List.mem_append_left _ hz)
    exact (ih hsymm' hl).place hrefl htrans hsymm hl hx

theorem together_foldl (h : Classes.Together id cs x y) (l : List α) :
    Classes.Together id (l.foldl (fun cs z => place r z cs) cs) x y := by
  induction l generalizing cs with
  | nil => exact h
  | cons z l ih =>
    rw [List.foldl_cons]
    apply ih
    obtain ⟨c, hc, hxc, hyc⟩ := h
    rcases place_cases r z cs with ⟨cs₁, d, cs₂, rfl, -, hplace⟩ | ⟨-, hplace⟩
    · rw [hplace]
      simp only [List.mem_append, List.mem_cons] at hc
      rcases hc with hc | rfl | hc
      · exact ⟨c, by simp [hc], hxc, hyc⟩
      · exact ⟨c ++ [z], by simp, List.mem_append_left _ hxc, List.mem_append_left _ hyc⟩
      · exact ⟨c, by simp [hc], hxc, hyc⟩
    · rw [hplace]
      exact ⟨c, List.mem_append_left _ hc, hxc, hyc⟩

theorem not_together_foldl (h : ¬ Classes.Together id cs x y) {l : List α} (hx : x ∉ l)
    (hy : y ∉ l) : ¬ Classes.Together id (l.foldl (fun cs z => place r z cs) cs) x y := by
  induction l generalizing cs with
  | nil => exact h
  | cons z l ih =>
    obtain ⟨hxz, hx⟩ := not_or.mp (mt List.mem_cons.mpr hx)
    obtain ⟨hyz, hy⟩ := not_or.mp (mt List.mem_cons.mpr hy)
    exact ih (mt (together_place_of_ne hxz hyz).mp h) hx hy

variable [DecidableEq α]

/-- The same classes, whatever the order of the classes and of their members. -/
def Same (cs ds : List (List α)) : Prop := (cs.map List.toFinset).Perm (ds.map List.toFinset)

def OrderIndependent (r : α → α → Prop) [DecidableRel r] (l : List α) : Prop :=
  ∀ l' : List α, l'.Perm l → Same (classes r l') (classes r l)

omit [DecidableRel r] in
theorem Splits.same (h : Splits r l cs) (h' : Splits r l' ds) (hn : l.Nodup) (hl : l.Perm l') :
    Same cs ds := by
  have hmap {l : List α} {cs : List (List α)} (h : Splits r l cs) (hn : l.Nodup) :
      (cs.map List.toFinset).Nodup := by
    refine List.Nodup.map_on ?_ (h.partitions.nodup hn h.nonempty)
    intro c hc d hd he
    obtain ⟨y, hy⟩ := List.exists_mem_of_ne_nil c (h.nonempty c hc)
    have hyd : y ∈ d := by rwa [← List.mem_toFinset, ← he, List.mem_toFinset]
    exact h.partitions.eq_of_mem hn hc hd hy hyd
  have hclass {l : List α} {cs : List (List α)} (h : Splits r l cs) (hn : l.Nodup) (S : Finset α) :
      S ∈ cs.map List.toFinset ↔ ∃ y ∈ l, ∀ z, z ∈ S ↔ z ∈ l ∧ r y z := by
    rw [List.mem_map]
    constructor
    · intro ⟨c, hc, he⟩
      obtain ⟨y, hy⟩ := List.exists_mem_of_ne_nil c (h.nonempty c hc)
      refine ⟨y, h.partitions.mem.mpr ⟨c, hc, hy⟩, fun z => ?_⟩
      rw [← he, List.mem_toFinset]
      exact h.mem_class hn hc hy
    · intro ⟨y, hy, hS⟩
      obtain ⟨c, hc, hyc⟩ := h.partitions.mem.mp hy
      refine ⟨c, hc, Finset.ext fun z => ?_⟩
      rw [List.mem_toFinset, hS]
      exact h.mem_class hn hc hyc
  refine (List.perm_ext_iff_of_nodup (hmap h hn) (hmap h' (hl.nodup_iff.mp hn))).mpr fun S => ?_
  rw [hclass h hn, hclass h' (hl.nodup_iff.mp hn)]
  simp only [hl.mem_iff]

theorem Same.together (h : Same cs ds) : Classes.Together id cs x y → Classes.Together id ds x y := by
  intro ⟨c, hc, hx, hy⟩
  have hmem : c.toFinset ∈ ds.map List.toFinset :=
    h.mem_iff.mp (List.mem_map_of_mem hc)
  obtain ⟨d, hd, he⟩ := List.mem_map.mp hmem
  refine ⟨d, hd, ?_, ?_⟩
  · rwa [id, ← List.mem_toFinset, he, List.mem_toFinset]
  · rwa [id, ← List.mem_toFinset, he, List.mem_toFinset]

theorem OrderIndependent.symmetricOn (h : OrderIndependent r l) (hn : l.Nodup) :
    SymmetricOn r l := by
  intro x hx y hy hr
  by_contra hyx
  have hne : y ≠ x := by
    rintro rfl
    exact hyx hr
  have hperm : (x :: y :: (l.erase x).erase y).Perm l :=
    ((List.perm_cons_erase ((List.mem_erase_of_ne hne).mpr hy)).cons x |>.symm.trans
      (List.perm_cons_erase hx).symm)
  have hnodup : (x :: y :: (l.erase x).erase y).Nodup := hperm.nodup_iff.mpr hn
  obtain ⟨hx', hrest⟩ := List.nodup_cons.mp hnodup
  obtain ⟨hy', -⟩ := List.nodup_cons.mp hrest
  generalize (l.erase x).erase y = rest at hperm hx' hy'
  -- `x` joins `y`, but `y` does not join `x`
  have hfirst : Classes.Together id (classes r (y :: x :: rest)) x y := by
    have hclasses : classes r (y :: x :: rest) =
        rest.foldl (fun cs z => place r z cs) [[y, x]] := by simp [classes, place, Belongs, hr]
    rw [hclasses]
    apply together_foldl
    exact ⟨[y, x], by simp, by simp, by simp⟩
  have hsecond : ¬ Classes.Together id (classes r (x :: y :: rest)) x y := by
    have hclasses : classes r (x :: y :: rest) =
        rest.foldl (fun cs z => place r z cs) [[x], [y]] := by simp [classes, place, Belongs, hyx]
    rw [hclasses]
    apply not_together_foldl _ (fun hm => hx' (List.mem_cons_of_mem y hm)) hy'
    simp [Classes.Together, hne, hne.symm]
  have hsame : Same (classes r (y :: x :: rest)) (classes r (x :: y :: rest)) :=
    (h _ ((List.Perm.swap x y rest).trans hperm)).trans (h _ hperm).symm
  exact hsecond (hsame.together hfirst)

/-- The classes do not depend on the order if and only if the preorder is symmetric on the list. -/
theorem orderIndependent_iff (hrefl : ∀ x, r x x) (htrans : ∀ x y z, r x y → r y z → r x z)
    (hn : l.Nodup) : OrderIndependent r l ↔ SymmetricOn r l := by
  constructor
  · intro h
    exact h.symmetricOn hn
  · intro hsymm l' hl
    have hsymm' : SymmetricOn r l' := fun x hx y hy =>
      hsymm x (hl.mem_iff.mp hx) y (hl.mem_iff.mp hy)
    have hn' := hl.nodup_iff.mpr hn
    exact (splits_classes hrefl htrans hsymm' hn').same (splits_classes hrefl htrans hsymm hn) hn' hl

end FirstFit
