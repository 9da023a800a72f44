import Livingstone.Lib.SwapRemove

/-! A binary heap in an array in which the children of place `i` are at `2 * i` and
`2 * i + 1`, so that place 1 is the only child of place 0. An inserted element moves towards
the root, and a removed root is replaced by the last element, which moves away from it. -/

namespace BinaryHeap

variable {α κ : Type*} [LinearOrder κ] (key : α → κ)

def parent (i : ℕ) : ℕ := i / 2

theorem parent_lt {i : ℕ} (h : 0 < i) : parent i < i := Nat.div_lt_self h (by decide)

def Ordered (l : List α) : Prop :=
  ∀ i, 0 < i → ∀ x p, l[i]? = some x → l[parent i]? = some p → key p ≤ key x

/-- The element `pin` is put at place `i` or at a place nearer to the root. -/
def siftUp (pin : α) : ℕ → List α → ℕ → List α
  | 0, l, i => l.set i pin
  | n + 1, l, i =>
    match l[parent i]? with
    | none => l.set i pin
    | some p => if 0 < i ∧ key pin < key p then siftUp pin n (l.set i p) (parent i) else l.set i pin

def insert (pin : α) (l : List α) : List α := siftUp key pin l.length (l ++ [pin]) l.length

def smaller (l : List α) (i j : ℕ) : ℕ :=
  match l[i]?, l[j]? with
  | some x, some y => if key y < key x then j else i
  | _, _ => i

/-- The place of the least of an element and its children. -/
def least (l : List α) (i : ℕ) : ℕ := smaller key l (smaller key l i (2 * i)) (2 * i + 1)

def exchange (l : List α) (i j : ℕ) : List α :=
  match l[i]?, l[j]? with
  | some x, some y => (l.set i y).set j x
  | _, _ => l

/-- The element at place `i` goes down to its place. -/
def heapify : ℕ → List α → ℕ → List α
  | 0, l, _ => l
  | n + 1, l, i =>
    if least key l i = i then l else heapify n (exchange l i (least key l i)) (least key l i)

def pop : List α → Option (α × List α)
  | [] => none
  | top :: l => some (top, heapify key l.length (SwapRemove.swapRemove (top :: l) 0) 0)

variable {key}

theorem root_le {l : List α} (h : Ordered key l) {top : α} (htop : l[0]? = some top) :
    ∀ x ∈ l, key top ≤ key x := by
  have hall : ∀ n i : ℕ, i ≤ n → ∀ x, l[i]? = some x → key top ≤ key x := by
    intro n
    induction n with
    | zero =>
      intro i hi x hx
      obtain rfl := Nat.le_zero.mp hi
      obtain rfl := Option.some.inj (htop.symm.trans hx)
      exact le_rfl
    | succ n ih =>
      intro i hi x hx
      rcases Nat.eq_zero_or_pos i with rfl | hpos
      · exact ih 0 (Nat.zero_le n) x hx
      · have hlt : parent i < l.length :=
          (parent_lt hpos).trans (List.getElem?_eq_some_iff.mp hx).1
        have hp : l[parent i]? = some l[parent i] := List.getElem?_eq_getElem hlt
        have hle := ih (parent i) (by have := parent_lt hpos; omega) _ hp
        exact hle.trans (h i hpos x _ hx hp)
  intro x hx
  obtain ⟨i, hi, rfl⟩ := List.mem_iff_getElem.mp hx
  exact hall i i le_rfl _ (List.getElem?_eq_getElem hi)

/-- What holds of the hole at place `i` where `pin` will be: the other elements are in order, and the
children of the hole are not less than its parent, nor than `pin`. -/
structure UpOrder (key : α → κ) (pin : α) (l : List α) (i : ℕ) : Prop where
  except : ∀ j, 0 < j → j ≠ i → parent j ≠ i → ∀ x p, l[j]? = some x → l[parent j]? = some p →
    key p ≤ key x
  grand : 0 < i → ∀ j, 0 < j → parent j = i → ∀ x p, l[j]? = some x → l[parent i]? = some p →
    key p ≤ key x
  below : ∀ j, 0 < j → j ≠ i → parent j = i → ∀ x, l[j]? = some x → key pin ≤ key x

theorem UpOrder.finish {pin : α} {l : List α} {i : ℕ} (h : UpOrder key pin l i)
    (hstop : 0 < i → ∀ p, l[parent i]? = some p → key p ≤ key pin) : Ordered key (l.set i pin) := by
  intro j hj x p hx hp
  have hlt := parent_lt hj
  rcases eq_or_ne j i with rfl | hji
  · rw [List.getElem?_set_ne (by omega)] at hp
    have hi := (List.getElem?_eq_some_iff.mp hx).1
    rw [List.length_set] at hi
    rw [List.getElem?_set_self hi] at hx
    obtain rfl := Option.some.inj hx
    exact hstop hj p hp
  · rw [List.getElem?_set_ne hji.symm] at hx
    rcases eq_or_ne (parent j) i with hpi | hpi
    · have hi := (List.getElem?_eq_some_iff.mp hp).1
      rw [List.length_set] at hi
      rw [hpi] at hi hp
      rw [List.getElem?_set_self hi] at hp
      obtain rfl := Option.some.inj hp
      exact h.below j hj hji hpi x hx
    · rw [List.getElem?_set_ne hpi.symm] at hp
      exact h.except j hj hji hpi x p hx hp

theorem UpOrder.move {pin p : α} {l : List α} {i : ℕ} (h : UpOrder key pin l i) (hi : 0 < i)
    (hp : l[parent i]? = some p) (hlt : key pin < key p) :
    UpOrder key pin (l.set i p) (parent i) := by
  have hup := parent_lt hi
  refine ⟨fun j hj hji hpi x q hx hq => ?_, fun hpos j hj hpj x q hx hq => ?_,
    fun j hj hji hpj x hx => ?_⟩
  · have hne : j ≠ i := fun h => hpi (congrArg parent h)
    rw [List.getElem?_set_ne hne.symm] at hx
    rcases eq_or_ne (parent j) i with hpj | hpj
    · rw [hpj] at hq
      have hlen := (List.getElem?_eq_some_iff.mp hq).1
      rw [List.length_set] at hlen
      rw [List.getElem?_set_self hlen] at hq
      obtain rfl := Option.some.inj hq
      exact h.grand hi j hj hpj x _ hx hp
    · rw [List.getElem?_set_ne hpj.symm] at hq
      exact h.except j hj hne hpj x q hx hq
  · have hup' := parent_lt hpos
    rw [List.getElem?_set_ne (by omega)] at hq
    have hle : key q ≤ key p := h.except (parent i) hpos (by omega) (by omega) p q hp hq
    rcases eq_or_ne j i with rfl | hne
    · have hlen := (List.getElem?_eq_some_iff.mp hx).1
      rw [List.length_set] at hlen
      rw [List.getElem?_set_self hlen] at hx
      obtain rfl := Option.some.inj hx
      exact hle
    · rw [List.getElem?_set_ne hne.symm] at hx
      have hpx := h.except j hj hne (by omega) x p hx (hpj ▸ hp)
      exact hle.trans hpx
  · rcases eq_or_ne j i with rfl | hne
    · have hlen := (List.getElem?_eq_some_iff.mp hx).1
      rw [List.length_set] at hlen
      rw [List.getElem?_set_self hlen] at hx
      obtain rfl := Option.some.inj hx
      exact hlt.le
    · rw [List.getElem?_set_ne hne.symm] at hx
      have hpx := h.except j hj hne (by omega) x p hx (hpj ▸ hp)
      exact hlt.le.trans hpx

theorem ordered_siftUp {pin : α} {n i : ℕ} {l : List α} (hn : i ≤ n) (h : UpOrder key pin l i) :
    Ordered key (siftUp key pin n l i) := by
  induction n generalizing l i with
  | zero => exact h.finish fun hi => absurd hi (by omega)
  | succ n ih =>
    unfold siftUp
    split
    · next hp => exact h.finish fun _ p hp' => by rw [hp] at hp'; cases hp'
    · next p hp =>
      split
      · next hmove =>
        obtain ⟨hi, hlt⟩ := hmove
        have hup := parent_lt hi
        exact ih (by omega) (h.move hi hp hlt)
      · next hstop =>
        refine h.finish fun hi q hq => ?_
        obtain rfl := Option.some.inj (hp.symm.trans hq)
        exact not_lt.mp fun hlt => hstop ⟨hi, hlt⟩

theorem ordered_insert {l : List α} (h : Ordered key l) (pin : α) :
    Ordered key (insert key pin l) := by
  have hnone : ∀ j : ℕ, l.length < j → (l ++ [pin])[j]? = none := fun j hj =>
    List.getElem?_eq_none (by simpa using hj)
  refine ordered_siftUp le_rfl ⟨fun j hj hji _ x p hx hp => ?_, fun _ j hj hpj x p hx _ => ?_,
    fun j hj _ hpj x hx => ?_⟩
  · have hlt : j < l.length := by
      by_contra hge
      rw [hnone j (by omega)] at hx
      cases hx
    have hup := parent_lt hj
    rw [List.getElem?_append_left hlt] at hx
    rw [List.getElem?_append_left (by omega)] at hp
    exact h j hj x p hx hp
  · have hup := parent_lt hj
    rw [hnone j (by omega)] at hx
    cases hx
  · have hup := parent_lt hj
    rw [hnone j (by omega)] at hx
    cases hx

/-- The pairs under place `i` may be out of order, but the children of `i` are not less than its
parent. -/
structure DownOrder (key : α → κ) (l : List α) (i : ℕ) : Prop where
  except : ∀ j, 0 < j → parent j ≠ i → ∀ x p, l[j]? = some x → l[parent j]? = some p →
    key p ≤ key x
  grand : 0 < i → ∀ j, 0 < j → parent j = i → ∀ x p, l[j]? = some x → l[parent i]? = some p →
    key p ≤ key x

theorem smaller_eq (key : α → κ) (l : List α) (i j : ℕ) : smaller key l i j = i ∨ smaller key l i j = j := by
  unfold smaller
  split
  · split
    · exact Or.inr rfl
    · exact Or.inl rfl
  · exact Or.inl rfl

theorem smaller_le {l : List α} {i j : ℕ} {z : α} (hz : l[smaller key l i j]? = some z) :
    (∀ x, l[i]? = some x → key z ≤ key x) ∧ ∀ y, l[j]? = some y → key z ≤ key y := by
  unfold smaller at hz
  split at hz
  · next x y hx hy =>
    rw [hx, hy]
    split at hz
    · next hlt =>
      obtain rfl := Option.some.inj (hy.symm.trans hz)
      exact ⟨fun x' hx' => Option.some.inj hx' ▸ hlt.le, fun y' hy' => Option.some.inj hy' ▸ le_rfl⟩
    · next hge =>
      obtain rfl := Option.some.inj (hx.symm.trans hz)
      exact ⟨fun x' hx' => Option.some.inj hx' ▸ le_rfl,
        fun y' hy' => Option.some.inj hy' ▸ not_lt.mp hge⟩
  · next hnone =>
    refine ⟨fun x hx => ?_, fun y hy => absurd hy (hnone z y hz)⟩
    obtain rfl := Option.some.inj (hz.symm.trans hx)
    exact le_rfl

theorem parent_eq_iff {i j : ℕ} : parent j = i ↔ j = 2 * i ∨ j = 2 * i + 1 := by
  unfold parent
  omega

theorem smaller_lt (key : α → κ) {l : List α} {i j : ℕ} (hi : i < l.length) : smaller key l i j < l.length := by
  unfold smaller
  split
  · next x y hx hy =>
    split
    · exact (List.getElem?_eq_some_iff.mp hy).1
    · exact hi
  · exact hi

theorem least_lt {l : List α} {i : ℕ} (hi : i < l.length) : least key l i < l.length :=
  smaller_lt key (smaller_lt key hi)

theorem least_le {l : List α} {i j : ℕ} {z x : α} (hz : l[least key l i]? = some z)
    (hi : i < l.length) (hj : j = i ∨ parent j = i) (hx : l[j]? = some x) : key z ≤ key x := by
  obtain ⟨hfirst, hright⟩ := smaller_le hz
  have hlt := smaller_lt key (j := 2 * i) hi
  have hleft := List.getElem?_eq_getElem hlt
  have hle := hfirst _ hleft
  rcases hj with rfl | hpj
  · exact hle.trans ((smaller_le hleft).1 x hx)
  · rcases parent_eq_iff.mp hpj with rfl | rfl
    · exact hle.trans ((smaller_le hleft).2 x hx)
    · exact hright x hx

theorem least_eq (key : α → κ) (l : List α) (i : ℕ) :
    least key l i = i ∨ (parent (least key l i) = i ∧ i < least key l i) := by
  unfold least
  have hfirst := smaller_eq key l i (2 * i)
  have hsecond := smaller_eq key l (smaller key l i (2 * i)) (2 * i + 1)
  generalize smaller key l i (2 * i) = a at hfirst hsecond ⊢
  generalize smaller key l a (2 * i + 1) = b at hsecond ⊢
  unfold parent
  omega

theorem DownOrder.finish {l : List α} {i : ℕ} (h : DownOrder key l i) (hstop : least key l i = i) :
    Ordered key l := by
  intro j hj x p hx hp
  rcases eq_or_ne (parent j) i with hpj | hpj
  · rw [hpj] at hp
    have hi := (List.getElem?_eq_some_iff.mp hp).1
    exact least_le (hstop.symm ▸ hp) hi (Or.inr hpj) hx
  · exact h.except j hj hpj x p hx hp

theorem exchange_eq {l : List α} {i j : ℕ} {x y : α} (hx : l[i]? = some x) (hy : l[j]? = some y) :
    exchange l i j = (l.set i y).set j x := by
  simp [exchange, hx, hy]

theorem DownOrder.move {l : List α} {i c : ℕ} (h : DownOrder key l i) (hi : i < l.length)
    (hc : least key l i = c) (hne : c ≠ i) : DownOrder key (exchange l i c) c := by
  have hclt : c < l.length := hc ▸ least_lt hi
  obtain ⟨hpc, hic⟩ := (hc ▸ least_eq key l i).resolve_left hne
  have hx : l[i]? = some l[i] := List.getElem?_eq_getElem hi
  have hy : l[c]? = some l[c] := List.getElem?_eq_getElem hclt
  have hci : ((l.set i l[c]).set c l[i])[i]? = some l[c] := by
    rw [List.getElem?_set_ne hne, List.getElem?_set_self hi]
  have hcc : ((l.set i l[c]).set c l[i])[c]? = some l[i] :=
    List.getElem?_set_self (by rwa [List.length_set])
  have hother {j : ℕ} (hji : j ≠ i) (hjc : j ≠ c) : ((l.set i l[c]).set c l[i])[j]? = l[j]? := by
    rw [List.getElem?_set_ne hjc.symm, List.getElem?_set_ne hji.symm]
  have hleast {j : ℕ} {z : α} (hj : j = i ∨ parent j = i) (hz : l[j]? = some z) :
      key l[c] ≤ key z := least_le (hc.symm ▸ hy) hi hj hz
  rw [exchange_eq hx hy]
  refine ⟨fun j hj hpj z p hz hp => ?_, fun hpos j hj hpj z p hz hp => ?_⟩
  · have hup := parent_lt hj
    rcases eq_or_ne j c with rfl | hjc
    · rw [hpc, hci] at hp
      rw [hcc] at hz
      obtain rfl := Option.some.inj hp
      obtain rfl := Option.some.inj hz
      exact hleast (Or.inl rfl) hx
    · rcases eq_or_ne (parent j) i with hpi | hpi
      · rw [hpi, hci] at hp
        obtain rfl := Option.some.inj hp
        rw [hother (by omega) hjc] at hz
        exact hleast (Or.inr hpi) hz
      · rw [hother hpi hpj] at hp
        rcases eq_or_ne j i with rfl | hji
        · rw [hci] at hz
          obtain rfl := Option.some.inj hz
          exact h.grand hj c (by omega) hpc _ p hy hp
        · rw [hother hji hjc] at hz
          exact h.except j hj hpi z p hz hp
  · have hup := parent_lt hj
    rw [hpc, hci] at hp
    obtain rfl := Option.some.inj hp
    rw [hother (by omega) (by omega)] at hz
    exact h.except j hj (by omega) z _ hz (hpj ▸ hy)

theorem length_exchange (l : List α) (i j : ℕ) : (exchange l i j).length = l.length := by
  unfold exchange
  split <;> simp

theorem ordered_heapify {n i : ℕ} {l : List α} (hn : l.length ≤ n + i) (h : DownOrder key l i) :
    Ordered key (heapify key n l i) := by
  induction n generalizing l i with
  | zero =>
    intro j hj x p hx hp
    have hlt : parent j < l.length := (List.getElem?_eq_some_iff.mp hp).1
    exact h.except j hj (by omega) x p hx hp
  | succ n ih =>
    unfold heapify
    split
    · next hstop => exact h.finish hstop
    · next hne =>
      rcases Nat.lt_or_ge i l.length with hi | hi
      · have hlt := ((least_eq key l i).resolve_left hne).2
        refine ih ?_ (h.move hi rfl hne)
        rw [length_exchange]
        omega
      · exact absurd (by simp [least, smaller, List.getElem?_eq_none hi]) hne

theorem ordered_pop {l l' : List α} {top : α} (h : Ordered key l) (hpop : pop key l = some (top, l')) :
    Ordered key l' := by
  cases l with
  | nil => cases hpop
  | cons x l =>
    obtain ⟨rfl, rfl⟩ := Prod.mk.inj (Option.some.inj hpop)
    have hlen : (SwapRemove.swapRemove (x :: l) 0).length = l.length :=
      SwapRemove.length_swapRemove (by simp)
    refine ordered_heapify (by omega) ⟨fun j hj hpj y p hy hp => ?_, fun hpos => absurd hpos (by decide)⟩
    exact h j hj y p (SwapRemove.getElem?_of_ne (by simp) (by omega) hy)
      (SwapRemove.getElem?_of_ne (by simp) hpj hp)

theorem exchange_perm (l : List α) (i j : ℕ) : (exchange l i j).Perm l := by
  unfold exchange
  split
  · next x y hx hy =>
    obtain ⟨hi, rfl⟩ := List.getElem?_eq_some_iff.mp hx
    obtain ⟨hj, rfl⟩ := List.getElem?_eq_some_iff.mp hy
    exact List.set_set_perm hi hj
  · exact List.Perm.refl l

theorem heapify_perm (n : ℕ) (l : List α) (i : ℕ) : (heapify key n l i).Perm l := by
  induction n generalizing l i with
  | zero => exact List.Perm.refl l
  | succ n ih =>
    unfold heapify
    split
    · exact List.Perm.refl l
    · exact (ih _ _).trans (exchange_perm l i _)

theorem siftUp_perm {pin : α} {n : ℕ} {l : List α} {i : ℕ} (hi : i < l.length) :
    (siftUp key pin n l i).Perm (l.set i pin) := by
  induction n generalizing l i with
  | zero => exact List.Perm.refl _
  | succ n ih =>
    unfold siftUp
    split
    · exact List.Perm.refl _
    · next p hp =>
      split
      · next hmove =>
        have hup := parent_lt hmove.1
        refine (ih (by rw [List.length_set]; omega)).trans ?_
        have hi : i < (l.set i pin).length := by rwa [List.length_set]
        have hj : parent i < (l.set i pin).length := by rw [List.length_set]; omega
        have hswap := List.set_set_perm hi hj
        obtain ⟨hlt, rfl⟩ := List.getElem?_eq_some_iff.mp hp
        rw [List.getElem_set_self, List.getElem_set_ne (by omega), List.set_set] at hswap
        exact hswap
      · exact List.Perm.refl _

theorem insert_perm (pin : α) (l : List α) : (insert key pin l).Perm (pin :: l) := by
  refine (siftUp_perm (by simp)).trans ?_
  rw [List.set_append_right _ _ le_rfl, Nat.sub_self]
  exact List.perm_append_singleton pin l

theorem pop_perm {l l' : List α} {top : α} (hpop : pop key l = some (top, l')) :
    l.Perm (top :: l') := by
  cases l with
  | nil => cases hpop
  | cons x l =>
    obtain ⟨rfl, rfl⟩ := Prod.mk.inj (Option.some.inj hpop)
    exact (SwapRemove.perm (by simp : 0 < (x :: l).length)).trans
      (List.Perm.cons x (heapify_perm _ _ _).symm)

theorem pop_eq_none {l : List α} : pop key l = none ↔ l = [] := by
  cases l <;> simp [pop]

theorem pop_top {l l' : List α} {top : α} (hpop : pop key l = some (top, l')) :
    l[0]? = some top := by
  cases l with
  | nil => cases hpop
  | cons x l =>
    obtain ⟨rfl, -⟩ := Prod.mk.inj (Option.some.inj hpop)
    rfl

end BinaryHeap
