import Livingstone.Jmpl.Statement

/-! The trees that the objects of the heap stand for. An object is changed in place only
while it is built, and the members put under it do not contain it, so that they stand for
the same trees afterwards. -/

namespace Livingstone
namespace Jmpl

namespace LogicExpression

mutual

/-- The object `r` and the ones below it, all of them in `S`, make up the tree. -/
def Unfolds (h : Heap) (S : Set ℕ) : LogicExpression → Ref → Prop
  | .equality e, r => r ∈ S ∧ h[r]? = some (.equality e)
  | .trueExpression, r => r ∈ S ∧ h[r]? = some .trueExpression
  | .falseExpression, r => r ∈ S ∧ h[r]? = some .falseExpression
  | .andExpression xs, r => r ∈ S ∧ ∃ rs, h[r]? = some (.andExpression rs) ∧ UnfoldsAll h S xs rs
  | .orExpression xs, r => r ∈ S ∧ ∃ rs, h[r]? = some (.orExpression rs) ∧ UnfoldsAll h S xs rs
  | .notExpression x, r => r ∈ S ∧ ∃ y, h[r]? = some (.notExpression y) ∧ Unfolds h S x y

def UnfoldsAll (h : Heap) (S : Set ℕ) : List LogicExpression → List Ref → Prop
  | [], rs => rs = []
  | x :: xs, rs => ∃ r rest, rs = r :: rest ∧ Unfolds h S x r ∧ UnfoldsAll h S xs rest

end

theorem unfoldsAll_iff {h : Heap} {S : Set ℕ} {xs : List LogicExpression} {rs : List Ref} :
    UnfoldsAll h S xs rs ↔ List.Forall₂ (Unfolds h S) xs rs := by
  induction xs generalizing rs with
  | nil => simp [UnfoldsAll]
  | cons x xs ih =>
    rw [UnfoldsAll, List.forall₂_cons_left_iff]
    constructor
    · intro ⟨r, rest, hrs, hx, hxs⟩
      exact ⟨r, rest, hx, ih.mp hxs, hrs⟩
    · intro ⟨r, rest, hx, hxs, hrs⟩
      exact ⟨r, rest, hrs, hx, ih.mpr hxs⟩

theorem forall₂_imp {R R' : LogicExpression → Ref → Prop} {xs : List LogicExpression}
    {rs : List Ref} (himp : ∀ x ∈ xs, ∀ r, R x r → R' x r) (h : List.Forall₂ R xs rs) :
    List.Forall₂ R' xs rs := by
  induction h with
  | nil => exact List.Forall₂.nil
  | cons hx _ ih =>
    exact List.Forall₂.cons (himp _ List.mem_cons_self _ hx)
      (ih fun x hx => himp x (List.mem_cons_of_mem _ hx))

mutual

def height : LogicExpression → ℕ
  | .andExpression xs => heightAll xs + 1
  | .orExpression xs => heightAll xs + 1
  | .notExpression x => height x + 1
  | _ => 0

def heightAll : List LogicExpression → ℕ
  | [] => 0
  | x :: xs => max (height x) (heightAll xs)

end

theorem height_le {x : LogicExpression} {xs : List LogicExpression} (h : x ∈ xs) :
    x.height ≤ heightAll xs := by
  induction xs with
  | nil => cases h
  | cons y xs ih =>
    rcases List.mem_cons.mp h with rfl | h
    · exact le_max_left _ _
    · exact (ih h).trans (le_max_right _ _)

variable {h h' : Heap} {S S' : Set ℕ} {x : LogicExpression} {r : Ref}

theorem Unfolds.mem (ht : Unfolds h S x r) : r ∈ S ∧ r < h.length := by
  have hlt : ∀ {n : Node}, h[r]? = some n → r < h.length := fun hr =>
    (List.getElem?_eq_some_iff.mp hr).1
  cases x with
  | equality e => exact ⟨ht.1, hlt ht.2⟩
  | trueExpression => exact ⟨ht.1, hlt ht.2⟩
  | falseExpression => exact ⟨ht.1, hlt ht.2⟩
  | andExpression xs => exact ⟨ht.1, hlt ht.2.choose_spec.1⟩
  | orExpression xs => exact ⟨ht.1, hlt ht.2.choose_spec.1⟩
  | notExpression x => exact ⟨ht.1, hlt ht.2.choose_spec.1⟩

theorem Unfolds.frame (hsame : ∀ r ∈ S, ∀ n, h[r]? = some n → r ∈ S' ∧ h'[r]? = some n)
    (ht : Unfolds h S x r) : Unfolds h' S' x r := by
  induction x generalizing r with
  | equality e => exact hsame r ht.1 _ ht.2
  | trueExpression => exact hsame r ht.1 _ ht.2
  | falseExpression => exact hsame r ht.1 _ ht.2
  | andExpression xs ih =>
    obtain ⟨hmem, rs, hr, hxs⟩ := ht
    obtain ⟨hmem', hr'⟩ := hsame r hmem _ hr
    exact ⟨hmem', rs, hr', unfoldsAll_iff.mpr
      (forall₂_imp (fun x hx r => ih x hx) (unfoldsAll_iff.mp hxs))⟩
  | orExpression xs ih =>
    obtain ⟨hmem, rs, hr, hxs⟩ := ht
    obtain ⟨hmem', hr'⟩ := hsame r hmem _ hr
    exact ⟨hmem', rs, hr', unfoldsAll_iff.mpr
      (forall₂_imp (fun x hx r => ih x hx) (unfoldsAll_iff.mp hxs))⟩
  | notExpression x ih =>
    obtain ⟨hmem, y, hr, hx⟩ := ht
    obtain ⟨hmem', hr'⟩ := hsame r hmem _ hr
    exact ⟨hmem', y, hr', ih hx⟩

theorem getElem?_of_grow (hp : h <+: h') {n : Node} (hr : h[r]? = some n) :
    h'[r]? = some n := by
  obtain ⟨t, rfl⟩ := hp
  rw [List.getElem?_append_left (List.getElem?_eq_some_iff.mp hr).1]
  exact hr

theorem Unfolds.grow (hp : h <+: h') (ht : Unfolds h S x r) : Unfolds h' S x r :=
  ht.frame fun _ hr _ hn => ⟨hr, getElem?_of_grow hp hn⟩

theorem Unfolds.mono (hS : S ⊆ S') (ht : Unfolds h S x r) : Unfolds h S' x r :=
  ht.frame fun _ hr _ hn => ⟨hS hr, hn⟩

theorem Unfolds.set {o : ℕ} (ho : o ∉ S) (n : Node) (ht : Unfolds h S x r) :
    Unfolds (h.set o n) S x r :=
  ht.frame fun r hr m hm => by
    have hne : o ≠ r := fun heq => ho (heq ▸ hr)
    exact ⟨hr, by rwa [List.getElem?_set_ne hne]⟩

theorem Unfolds.below (ht : Unfolds h S x r) : Unfolds h (S ∩ Set.Iio h.length) x r :=
  ht.frame fun _ hr _ hn => ⟨⟨hr, (List.getElem?_eq_some_iff.mp hn).1⟩, hn⟩

end LogicExpression

namespace Build

open LogicExpression

theorem bind_run {α β : Type} {m : Build α} {f : α → Build β} {h h' : Heap} {a : α}
    (hm : m h = .ok (a, h')) : (m >>= f) h = f a h' := by
  simp [bind, StateT.bind, Except.bind, hm]

/-- From any heap, new objects are made that stand for the tree, and the old ones stay. -/
def Builds (m : Build Ref) (x : LogicExpression) : Prop :=
  ∀ h, ∃ r h', m h = .ok (r, h') ∧ h <+: h' ∧ Unfolds h' (Set.Ici h.length) x r

/-- In the heap `h` an object is made that stands for the tree, all of it in `S`. -/
def BuildsIn (S : Set ℕ) (m : Build Ref) (x : LogicExpression) (h : Heap) : Prop :=
  ∃ r h', m h = .ok (r, h') ∧ h <+: h' ∧ Unfolds h' S x r

theorem Builds.in {m : Build Ref} {x : LogicExpression} (hm : Builds m x) {S : Set ℕ} {h : Heap}
    (hS : Set.Ici h.length ⊆ S) : BuildsIn S m x h := by
  obtain ⟨r, h', hrun, hgrow, ht⟩ := hm h
  exact ⟨r, h', hrun, hgrow, ht.mono hS⟩

theorem get_run {m : Node} (hr : h[r]? = some m) : get r h = .ok (m, h) := by
  simp [get, hr]

/-- `add` puts a member at the end of the objects made with `n`, which stand for trees made
with `t`. -/
structure Adds (add : Ref → Ref → Build Ref) (n : List Ref → Node)
    (t : List LogicExpression → LogicExpression) : Prop where
  run : ∀ h r rs x, h[r]? = some (n rs) → add r x h = .ok (r, h.set r (n (rs ++ [x])))
  unfolds : ∀ h S xs r, Unfolds h S (t xs) r ↔
    r ∈ S ∧ ∃ rs, h[r]? = some (n rs) ∧ List.Forall₂ (Unfolds h S) xs rs

theorem adds_conjunction : Adds destructiveConjunction .andExpression .andExpression where
  run h r rs x hr := by
    rw [destructiveConjunction, bind_run (get_run hr)]
    rfl
  unfolds h S xs r := by simp only [Unfolds, unfoldsAll_iff]

theorem adds_disjunction : Adds destructiveDisjunction .orExpression .orExpression where
  run h r rs x hr := by
    rw [destructiveDisjunction, bind_run (get_run hr)]
    rfl
  unfolds h S xs r := by simp only [Unfolds, unfoldsAll_iff]

theorem destructiveConjunction_or {h : Heap} {r x : Ref} {rs : List Ref}
    (hr : h[r]? = some (.orExpression rs)) :
    destructiveConjunction r x h = .ok (h.length, h ++ [.andExpression [r, x]]) := by
  simp only [destructiveConjunction, conjunction, bind, StateT.bind, get, hr, Except.bind, new]

/-- The objects made since the heap `h₀`, but for `r`. -/
def others (h₀ : Heap) (r : ℕ) : Set ℕ := Set.Ici h₀.length \ {r}

/-- Since the heap `h₀` the object `r` has been made, and the members put under it stand for
`xs`. -/
structure Own (h₀ : Heap) (n : List Ref → Node) (r : ℕ) (xs : List LogicExpression) (h : Heap) :
    Prop where
  grow : h₀ <+: h
  le : h₀.length ≤ r
  members : ∃ rs, h[r]? = some (n rs) ∧ List.Forall₂ (Unfolds h (others h₀ r)) xs rs

variable {addTo : Ref → Ref → Build Ref} {n : List Ref → Node}
  {t : List LogicExpression → LogicExpression} {h₀ h h' : Heap} {r : ℕ} {xs : List LogicExpression}

theorem Own.lt (ho : Own h₀ n r xs h) : r < h.length := by
  obtain ⟨rs, hr, -⟩ := ho.members
  exact (List.getElem?_eq_some_iff.mp hr).1

theorem Own.later (ho : Own h₀ n r xs h) (hp : h <+: h') : Set.Ici h'.length ⊆ others h₀ r := by
  intro q hq
  have hle := hp.length_le
  have hlt := ho.lt
  have hle₀ := ho.le
  have hq' : h'.length ≤ q := hq
  exact ⟨show h₀.length ≤ q by omega, show q ≠ r by omega⟩

theorem Unfolds.others {x : LogicExpression} {q : Ref} {o : ℕ} (ht : Unfolds h (others h₀ r) x q)
    (ho : h.length ≤ o) : Unfolds h (others h₀ o) x q := by
  refine ht.below.mono fun i hi => ⟨hi.1.1, ?_⟩
  have hlt : i < h.length := hi.2
  exact fun heq => absurd (Set.mem_singleton_iff.mp heq) (by omega)

theorem own_new (hp : h₀ <+: h) (n : List Ref → Node) : Own h₀ n h.length [] (h ++ [n []]) :=
  ⟨hp.trans (List.prefix_append h _), hp.length_le, [], by simp, List.Forall₂.nil⟩

theorem Own.mono (ho : Own h₀ n r xs h) (hp : h <+: h') : Own h₀ n r xs h' := by
  obtain ⟨rs, hr, hxs⟩ := ho.members
  exact ⟨ho.grow.trans hp, ho.le, rs, getElem?_of_grow hp hr, hxs.imp fun _ _ ht => ht.grow hp⟩

theorem Own.unfolds (hadd : Adds addTo n t) (ho : Own h₀ n r xs h) :
    Unfolds h (Set.Ici h₀.length) (t xs) r := by
  obtain ⟨rs, hr, hxs⟩ := ho.members
  exact (hadd.unfolds h _ xs r).mpr ⟨ho.le, rs, hr, hxs.imp fun _ _ ht => ht.mono Set.sdiff_subset⟩

theorem prefix_set (hp : h₀ <+: h) (hr : h₀.length ≤ r) (k : Node) : h₀ <+: h.set r k := by
  obtain ⟨rest, rfl⟩ := hp
  rw [List.set_append_right _ _ hr]
  exact List.prefix_append h₀ _

theorem Own.add (hadd : Adds addTo n t) (ho : Own h₀ n r xs h) {x : LogicExpression} {y : Ref}
    (hy : Unfolds h (others h₀ r) x y) :
    ∃ k, addTo r y h = .ok (r, h.set r k) ∧ Own h₀ n r (xs ++ [x]) (h.set r k) := by
  obtain ⟨rs, hr, hxs⟩ := ho.members
  have hnot : r ∉ others h₀ r := fun hmem => hmem.2 rfl
  refine ⟨n (rs ++ [y]), hadd.run h r rs y hr, prefix_set ho.grow ho.le _, ho.le, rs ++ [y],
    List.getElem?_set_self ho.lt, ?_⟩
  exact List.rel_append (hxs.imp fun _ _ ht => ht.set hnot _)
    (List.Forall₂.cons (hy.set hnot _) List.Forall₂.nil)

/-- The members are built and added in turn, each in a heap in which `P` still holds. -/
theorem Own.addAll (hadd : Adds addTo n t) {P : Heap → Prop}
    (hset : ∀ h k, P h → P (h.set r k)) (hgrow : ∀ h h', h <+: h' → P h → P h')
    {ms : List (Build Ref)} {ys : List LogicExpression}
    (hms : List.Forall₂ (fun m y => ∀ h, Set.Ici h.length ⊆ others h₀ r → P h →
      BuildsIn (others h₀ r) m y h) ms ys) (ho : Own h₀ n r xs h) (hP : P h) :
    ∃ h', addAll addTo r ms h = .ok (r, h') ∧ Own h₀ n r (xs ++ ys) h' := by
  induction hms generalizing xs h with
  | nil => exact ⟨h, rfl, by simpa using ho⟩
  | @cons m y ms ys hm _ ih =>
    obtain ⟨q, h₁, hrun, hp, hq⟩ := hm h (ho.later (List.prefix_refl h)) hP
    obtain ⟨k, hk, ho₂⟩ := (ho.mono hp).add hadd hq
    obtain ⟨h', hrun', ho'⟩ := ih ho₂ (hset h₁ k (hgrow h h₁ hp hP))
    refine ⟨h', ?_, by simpa using ho'⟩
    unfold Build.addAll at hrun' ⊢
    rw [List.foldlM_cons, bind_run ((bind_run hrun).trans hk)]
    exact hrun'

theorem builds_collect (hadd : Adds addTo n t) {ms : List (Build Ref)} {ys : List LogicExpression}
    (hms : List.Forall₂ Builds ms ys) : Builds (collect addTo (n []) ms) (t ys) := by
  intro h
  have hmembers : List.Forall₂ (fun m y => ∀ h₁, Set.Ici h₁.length ⊆ others h h.length → True →
      BuildsIn (others h h.length) m y h₁) ms ys :=
    hms.imp fun m y hm h₁ hS _ => Builds.in hm hS
  obtain ⟨h', hrun, ho⟩ := (own_new (List.prefix_refl h) n).addAll hadd
    (fun _ _ _ => trivial) (fun _ _ _ _ => trivial) hmembers trivial
  refine ⟨h.length, h', ?_, ho.grow, ho.unfolds hadd⟩
  unfold collect
  rw [bind_run (show new (n []) h = .ok (h.length, h ++ [n []]) from rfl)]
  exact hrun

theorem builds_new_equality (e : Equality) : Builds (new (.equality e)) (.equality e) := fun h =>
  ⟨h.length, h ++ [.equality e], rfl, List.prefix_append h _, Set.self_mem_Ici, by simp⟩

theorem unfolds_new_not {S : Set ℕ} {x : LogicExpression} {y : Ref} (hy : Unfolds h S x y)
    (hS : h.length ∈ S) : Unfolds (h ++ [.notExpression y]) S (.notExpression x) h.length :=
  ⟨hS, y, by simp, hy.grow (List.prefix_append h _)⟩

theorem Builds.not {m : Build Ref} {x : LogicExpression} (hm : Builds m x) :
    Builds (do let r ← m; new (.notExpression r)) (.notExpression x) := by
  intro h
  obtain ⟨r, h', hrun, hgrow, ht⟩ := hm h
  exact ⟨h'.length, h' ++ [.notExpression r], bind_run hrun,
    hgrow.trans (List.prefix_append h' _), unfolds_new_not ht hgrow.length_le⟩

theorem mapM_unfolds {S : Set ℕ} {f : Ref → Build Ref} {xs : List LogicExpression} {rs : List Ref}
    (hf : ∀ x ∈ xs, ∀ h₁ r, h <+: h₁ → Unfolds h₁ S x r → BuildsIn S (f r) x h₁)
    (hxs : List.Forall₂ (Unfolds h S) xs rs) :
    ∃ ys h', rs.mapM f h = .ok (ys, h') ∧ h <+: h' ∧ List.Forall₂ (Unfolds h' S) xs ys := by
  induction xs generalizing rs h with
  | nil =>
    cases hxs
    exact ⟨[], h, rfl, List.prefix_refl h, List.Forall₂.nil⟩
  | cons x xs ih =>
    obtain ⟨r, rest, hx, hrest, rfl⟩ := List.forall₂_cons_left_iff.mp hxs
    obtain ⟨y, h₁, hrun, hp, hy⟩ := hf x List.mem_cons_self h r (List.prefix_refl h) hx
    obtain ⟨ys, h', hruns, hp', hys⟩ := ih (h := h₁)
      (fun z hz h₂ q hp₂ => hf z (List.mem_cons_of_mem x hz) h₂ q (hp.trans hp₂))
      (hrest.imp fun _ _ ht => ht.grow hp)
    refine ⟨y :: ys, h', ?_, hp.trans hp', List.Forall₂.cons (hy.grow hp') hys⟩
    rw [List.mapM_cons, bind_run hrun, bind_run hruns]
    rfl

theorem copy_unfolds {S : Set ℕ} {x : LogicExpression} {fuel : ℕ} (hfuel : x.height < fuel)
    (hS : Set.Ici h.length ⊆ S) (hx : Unfolds h S x r) : BuildsIn S (copy fuel r) x h := by
  have hlast : ∀ {h'}, h <+: h' → h'.length ∈ S := fun hp => hS hp.length_le
  induction x generalizing fuel h r with
  | equality e =>
    obtain ⟨fuel, rfl⟩ := Nat.exists_eq_succ_of_ne_zero (by omega : fuel ≠ 0)
    refine ⟨h.length, h ++ [.equality e], ?_, List.prefix_append h _, hlast (List.prefix_refl h),
      by simp⟩
    rw [copy, bind_run (get_run hx.2)]
    rfl
  | trueExpression =>
    obtain ⟨fuel, rfl⟩ := Nat.exists_eq_succ_of_ne_zero (by omega : fuel ≠ 0)
    refine ⟨r, h, ?_, List.prefix_refl h, hx⟩
    rw [copy, bind_run (get_run hx.2)]
    rfl
  | falseExpression =>
    obtain ⟨fuel, rfl⟩ := Nat.exists_eq_succ_of_ne_zero (by omega : fuel ≠ 0)
    refine ⟨r, h, ?_, List.prefix_refl h, hx⟩
    rw [copy, bind_run (get_run hx.2)]
    rfl
  | andExpression xs ih =>
    obtain ⟨fuel, rfl⟩ := Nat.exists_eq_succ_of_ne_zero (by omega : fuel ≠ 0)
    obtain ⟨-, rs, hr, hxs⟩ := hx
    have hmembers : ∀ x ∈ xs, ∀ h₁ r, h <+: h₁ → Unfolds h₁ S x r →
        BuildsIn S (copy fuel r) x h₁ := by
      intro x hmem h₁ q hp hq
      have hle := height_le hmem
      rw [height] at hfuel
      exact ih x hmem (by omega) ((Set.Ici_subset_Ici.mpr hp.length_le).trans hS) hq
        fun hp' => hlast (hp.trans hp')
    obtain ⟨ys, h', hruns, hp, hys⟩ := mapM_unfolds hmembers (unfoldsAll_iff.mp hxs)
    refine ⟨h'.length, h' ++ [.andExpression ys], ?_, hp.trans (List.prefix_append h' _),
      hlast hp, ys, by simp, unfoldsAll_iff.mpr (hys.imp fun _ _ ht => ht.grow
        (List.prefix_append h' _))⟩
    rw [copy, bind_run (get_run hr)]
    exact bind_run hruns
  | orExpression xs ih =>
    obtain ⟨fuel, rfl⟩ := Nat.exists_eq_succ_of_ne_zero (by omega : fuel ≠ 0)
    obtain ⟨-, rs, hr, hxs⟩ := hx
    have hmembers : ∀ x ∈ xs, ∀ h₁ r, h <+: h₁ → Unfolds h₁ S x r →
        BuildsIn S (copy fuel r) x h₁ := by
      intro x hmem h₁ q hp hq
      have hle := height_le hmem
      rw [height] at hfuel
      exact ih x hmem (by omega) ((Set.Ici_subset_Ici.mpr hp.length_le).trans hS) hq
        fun hp' => hlast (hp.trans hp')
    obtain ⟨ys, h', hruns, hp, hys⟩ := mapM_unfolds hmembers (unfoldsAll_iff.mp hxs)
    refine ⟨h'.length, h' ++ [.orExpression ys], ?_, hp.trans (List.prefix_append h' _),
      hlast hp, ys, by simp, unfoldsAll_iff.mpr (hys.imp fun _ _ ht => ht.grow
        (List.prefix_append h' _))⟩
    rw [copy, bind_run (get_run hr)]
    exact bind_run hruns
  | notExpression x ih =>
    obtain ⟨fuel, rfl⟩ := Nat.exists_eq_succ_of_ne_zero (by omega : fuel ≠ 0)
    obtain ⟨-, y, hr, hy⟩ := hx
    rw [height] at hfuel
    obtain ⟨q, h', hrun, hp, hq⟩ := ih (show x.height < fuel by omega) hS hy hlast
    refine ⟨h'.length, h' ++ [.notExpression q], ?_, hp.trans (List.prefix_append h' _),
      unfolds_new_not hq (hlast hp)⟩
    rw [copy, bind_run (get_run hr)]
    exact bind_run hrun

theorem negation_unfolds {S : Set ℕ} {x : LogicExpression} {fuel : ℕ}
    (hfuel : x.negation.height < fuel) (hS : Set.Ici h.length ⊆ S) (hx : Unfolds h S x r) :
    BuildsIn S (Build.negation fuel r) x.negation h := by
  have hlast : h.length ∈ S := hS Set.self_mem_Ici
  have hnot : ∀ {m}, h[r]? = some m → Build.negation fuel r h = new (.notExpression r) h →
      BuildsIn S (Build.negation fuel r) (.notExpression x) h := fun _ hrun =>
    ⟨h.length, _, hrun, List.prefix_append h _, unfolds_new_not hx hlast⟩
  cases x with
  | equality e =>
    apply hnot hx.2
    rw [Build.negation, bind_run (get_run hx.2)]
  | trueExpression =>
    refine ⟨h.length, h ++ [.falseExpression], ?_, List.prefix_append h _, hlast, by simp⟩
    rw [Build.negation, bind_run (get_run hx.2)]
    rfl
  | falseExpression =>
    refine ⟨h.length, h ++ [.trueExpression], ?_, List.prefix_append h _, hlast, by simp⟩
    rw [Build.negation, bind_run (get_run hx.2)]
    rfl
  | andExpression xs =>
    obtain ⟨-, rs, hr, -⟩ := id hx
    apply hnot hr
    rw [Build.negation, bind_run (get_run hr)]
  | orExpression xs =>
    obtain ⟨-, rs, hr, -⟩ := id hx
    apply hnot hr
    rw [Build.negation, bind_run (get_run hr)]
  | notExpression x =>
    obtain ⟨-, y, hr, hy⟩ := hx
    obtain ⟨q, h', hrun, hp, hq⟩ := copy_unfolds hfuel hS hy
    refine ⟨q, h', ?_, hp, hq⟩
    rw [Build.negation, bind_run (get_run hr)]
    exact hrun

end Build

end Jmpl
end Livingstone
