import Mathlib.Tactic

/-! Doubly linked chains, by a link to the previous and one to the next element of each. -/

namespace Chain

open Function (update)

variable {α : Type*} [DecidableEq α]

structure Links (α : Type*) where
  previous : α → Option α
  next : α → Option α

def Links.clear (L : Links α) (v : α) : Links α := ⟨update L.previous v none, update L.next v none⟩

def Links.setNext (L : Links α) (v : Option α) (w : Option α) : Links α :=
  match v with
  | some v => { L with next := update L.next v w }
  | none => L

def Links.setPrevious (L : Links α) (v : Option α) (w : Option α) : Links α :=
  match v with
  | some v => { L with previous := update L.previous v w }
  | none => L

/-- The neighbours of an element that goes are linked with each other. -/
def Links.remove (L : Links α) (r : α) : Links α :=
  (L.setNext (L.previous r) (L.next r)).setPrevious (L.next r) (L.previous r)

/-- `v` is put before `a`, after what was before the one or the other. -/
def Links.insertPrevious (L : Links α) (a v : α) : Links α :=
  let prev := match L.previous v with
    | some p => some p
    | none => L.previous a
  let L := L.setNext prev (some v)
  ⟨update (update L.previous v prev) a (some v), update L.next v (some a)⟩

/-- An element and those that are reached from it by links to the previous one, at most as many as
the first argument says. -/
def Links.walk (L : Links α) : ℕ → α → List α
  | 0, _ => []
  | n + 1, a =>
    a :: match L.previous a with
      | some b => L.walk n b
      | none => []

variable {L L' : Links α} {a b r v : α} {l : List α} {K D : Set α}

theorem previous_remove (L : Links α) (r a : α) :
    (L.remove r).previous a = if L.next r = some a then L.previous r else L.previous a := by
  unfold Links.remove Links.setNext Links.setPrevious
  cases L.previous r <;> cases L.next r <;> simp [Function.update_apply, eq_comm]

theorem next_remove (L : Links α) (r a : α) :
    (L.remove r).next a = if L.previous r = some a then L.next r else L.next a := by
  unfold Links.remove Links.setNext Links.setPrevious
  cases L.previous r <;> cases L.next r <;> simp [Function.update_apply, eq_comm]

/-- Among the elements of `K` the links are there both ways. -/
structure Consistent (L : Links α) (K : Set α) : Prop where
  next : ∀ a ∈ K, ∀ b, L.next a = some b → b ∈ K ∧ L.previous b = some a
  previous : ∀ a ∈ K, ∀ b, L.previous a = some b → b ∈ K ∧ L.next b = some a

/-- The elements of `D` have no links into `K`. -/
def Apart (L : Links α) (D K : Set α) : Prop :=
  ∀ a ∈ D, ∀ b ∈ K, L.previous a ≠ some b ∧ L.next a ≠ some b

omit [DecidableEq α] in
theorem Consistent.congr (h : Consistent L K)
    (hprevious : ∀ x ∈ K, L'.previous x = L.previous x) (hnext : ∀ x ∈ K, L'.next x = L.next x) :
    Consistent L' K := by
  constructor
  · intro a ha b hb
    obtain ⟨hK, hprev⟩ := h.next a ha b ((hnext a ha).symm.trans hb)
    exact ⟨hK, (hprevious b hK).trans hprev⟩
  · intro a ha b hb
    obtain ⟨hK, hnxt⟩ := h.previous a ha b ((hprevious a ha).symm.trans hb)
    exact ⟨hK, (hnext b hK).trans hnxt⟩

theorem Consistent.remove (h : Consistent L K) (hr : r ∈ K) :
    Consistent (L.remove r) (K \ {r}) := by
  constructor
  · intro a ⟨ha, har⟩ b hb
    rw [next_remove] at hb
    split at hb
    case isTrue hprev =>
      -- the old neighbours of `r`
      obtain ⟨hbK, hbr⟩ := h.next r hr b hb
      refine ⟨⟨hbK, ?_⟩, ?_⟩
      · intro hbr'
        obtain rfl : b = r := hbr'
        rw [hprev] at hbr
        exact har (Option.some.inj hbr)
      · rw [previous_remove, if_pos hb, hprev]
    case isFalse hprev =>
      obtain ⟨hbK, hba⟩ := h.next a ha b hb
      have hbr : b ≠ r := by
        rintro rfl
        exact hprev hba
      refine ⟨⟨hbK, hbr⟩, ?_⟩
      rw [previous_remove, if_neg, hba]
      intro hnext
      have hrb := (h.next r hr b hnext).2
      exact har (Option.some.inj (hba.symm.trans hrb))
  · intro a ⟨ha, har⟩ b hb
    rw [previous_remove] at hb
    split at hb
    case isTrue hnext =>
      obtain ⟨hbK, hbr⟩ := h.previous r hr b hb
      refine ⟨⟨hbK, ?_⟩, ?_⟩
      · intro hbr'
        obtain rfl : b = r := hbr'
        rw [hnext] at hbr
        exact har (Option.some.inj hbr)
      · rw [next_remove, if_pos hb, hnext]
    case isFalse hnext =>
      obtain ⟨hbK, hba⟩ := h.previous a ha b hb
      have hbr : b ≠ r := by
        rintro rfl
        exact hnext hba
      refine ⟨⟨hbK, hbr⟩, ?_⟩
      rw [next_remove, if_neg, hba]
      intro hprev
      have hrb := (h.previous r hr b hprev).2
      exact har (Option.some.inj (hba.symm.trans hrb))

theorem Apart.remove_eq (h : Apart L D K) (hr : r ∈ D) :
    (∀ x ∈ K, (L.remove r).previous x = L.previous x) ∧
      ∀ x ∈ K, (L.remove r).next x = L.next x := by
  constructor
  · intro x hx
    rw [previous_remove, if_neg (h r hr x hx).2]
  · intro x hx
    rw [next_remove, if_neg (h r hr x hx).1]

theorem Apart.remove (h : Apart L D K) (hr : r ∈ D) : Apart (L.remove r) D K := by
  intro a ha b hb
  constructor
  · rw [previous_remove]
    split
    · exact (h r hr b hb).1
    · exact (h a ha b hb).1
  · rw [next_remove]
    split
    · exact (h r hr b hb).2
    · exact (h a ha b hb).2

theorem Apart.remove_mem (h : Apart L D K) (hL : Consistent L K) (hdisjoint : ∀ x ∈ D, x ∉ K)
    (hr : r ∈ K) : Apart (L.remove r) D (K \ {r}) := by
  intro a ha b hb
  constructor
  · rw [previous_remove, if_neg]
    · exact (h a ha b hb.1).1
    · intro hnext
      exact hdisjoint _ ha (hL.next r hr a hnext).1
  · rw [next_remove, if_neg]
    · exact (h a ha b hb.1).2
    · intro hprev
      exact hdisjoint _ ha (hL.previous r hr a hprev).1

def Follows (L : Links α) : α → List α → Prop
  | a, [] => L.previous a = none
  | a, b :: l => L.previous a = some b ∧ Follows L b l

omit [DecidableEq α] in
theorem walk_eq {n : ℕ} (h : Follows L a l) (hn : l.length < n) : L.walk n a = a :: l := by
  induction l generalizing a n with
  | nil =>
    obtain ⟨n, rfl⟩ := Nat.exists_eq_succ_of_ne_zero (Nat.ne_of_gt hn)
    have hnone : L.previous a = none := h
    simp [Links.walk, hnone]
  | cons b l ih =>
    obtain ⟨n, rfl⟩ := Nat.exists_eq_succ_of_ne_zero (Nat.ne_of_gt (Nat.zero_lt_of_lt hn))
    obtain ⟨hb, hl⟩ := h
    have hlength : l.length < n := by
      simp only [List.length_cons] at hn
      omega
    simp [Links.walk, hb, ih hl hlength]

omit [DecidableEq α] in
theorem Follows.congr (h : Follows L a l) (heq : ∀ x ∈ a :: l, L'.previous x = L.previous x) :
    Follows L' a l := by
  induction l generalizing a with
  | nil => exact (heq a (by simp)).trans h
  | cons b l ih =>
    obtain ⟨hb, hl⟩ := h
    refine ⟨(heq a (by simp)).trans hb, ih hl ?_⟩
    intro x hx
    exact heq x (List.mem_cons_of_mem a hx)

theorem Follows.remove (h : Follows L a l) (hL : Consistent L K) (hn : (a :: l).Nodup)
    (hK : ∀ x ∈ a :: l, x ∈ K) (hr : r ∈ K) (hra : r ≠ a) :
    Follows (L.remove r) a (l.erase r) := by
  induction l generalizing a with
  | nil =>
    have hnone : L.previous a = none := h
    show (L.remove r).previous a = none
    rw [previous_remove, if_neg]
    · exact hnone
    · intro hnext
      have hprev := (hL.next r hr a hnext).2
      rw [hnone] at hprev
      cases hprev
  | cons b l ih =>
    obtain ⟨hb, hl⟩ := h
    have hK' : ∀ x ∈ b :: l, x ∈ K := fun x hx => hK x (List.mem_cons_of_mem a hx)
    by_cases hrb : r = b
    · subst hrb
      have hnext : L.next r = some a := (hL.previous a (hK a (by simp)) r hb).2
      have hkept : ∀ x ∈ l, (L.remove r).previous x = L.previous x := by
        intro x hx
        rw [previous_remove, if_neg]
        intro hx'
        obtain rfl := Option.some.inj (hnext.symm.trans hx')
        simp [hx] at hn
      rw [List.erase_cons_head]
      cases l with
      | nil =>
        have hnone : L.previous r = none := hl
        show (L.remove r).previous a = none
        rw [previous_remove, if_pos hnext, hnone]
      | cons c l =>
        obtain ⟨hc, hl⟩ := hl
        refine ⟨?_, hl.congr hkept⟩
        rw [previous_remove, if_pos hnext, hc]
    · rw [List.erase_cons_tail (by simpa using Ne.symm hrb)]
      refine ⟨?_, ih hl (List.nodup_cons.mp hn).2 hK' hrb⟩
      rw [previous_remove, if_neg]
      · exact hb
      · intro hnext
        have hprev := (hL.next r hr a hnext).2
        exact hrb (Option.some.inj (hprev.symm.trans hb))

theorem filter_not_mem_cons (r : α) (old : List α) (hl : l.Nodup) :
    (l.filter fun x => decide (x ∉ r :: old)) = (l.erase r).filter fun x => decide (x ∉ old) := by
  rw [hl.erase_eq_filter, List.filter_filter]
  apply List.filter_congr
  intro x _
  rw [Bool.eq_iff_iff]
  simp [and_comm]

/-- Elements that go one after the other, from the chains of `K` or from elsewhere. -/
theorem remove_all {old : List α} (hn : old.Nodup) (hL : Consistent L K) (hA : Apart L D K)
    (hdisjoint : ∀ x ∈ D, x ∉ K) (hold : ∀ r ∈ old, r ∈ K ∨ r ∈ D) :
    Consistent (old.foldl Links.remove L) (K \ {x | x ∈ old}) ∧
      Apart (old.foldl Links.remove L) D (K \ {x | x ∈ old}) ∧
      ∀ a l, Follows L a l → (a :: l).Nodup → (∀ x ∈ a :: l, x ∈ K) → a ∉ old →
        Follows (old.foldl Links.remove L) a (l.filter fun x => decide (x ∉ old)) := by
  induction old generalizing L K with
  | nil =>
    simp only [List.foldl_nil, List.not_mem_nil, Set.ofPred_false, Set.sdiff_empty]
    refine ⟨hL, hA, fun a l hl _ _ _ => ?_⟩
    rw [List.filter_eq_self.mpr (by simp)]
    exact hl
  | cons r old ih =>
    obtain ⟨hr, hn⟩ := List.nodup_cons.mp hn
    rw [List.forall_mem_cons] at hold
    have hset : K \ {x | x ∈ r :: old} = (K \ {r}) \ {x | x ∈ old} := by
      ext x
      simp only [Set.mem_sdiff, Set.mem_ofPred_eq, List.mem_cons, not_or, Set.mem_singleton_iff,
        and_assoc]
    rw [List.foldl_cons, hset]
    have hdisjoint' : ∀ x ∈ D, x ∉ K \ {r} := fun x hx hxK => hdisjoint x hx hxK.1
    rcases hold.1 with hrK | hrD
    · obtain ⟨hc, ha, hf⟩ := ih hn (hL.remove hrK) (hA.remove_mem hL hdisjoint hrK) hdisjoint'
        (fun x hx => (hold.2 x hx).imp_left fun hxK => ⟨hxK, fun heq => hr (heq ▸ hx)⟩)
      refine ⟨hc, ha, fun a l hl hnodup hK hna => ?_⟩
      obtain ⟨har, hna⟩ := not_or.mp (mt List.mem_cons.mpr hna)
      obtain ⟨hal, hnl⟩ := List.nodup_cons.mp hnodup
      rw [filter_not_mem_cons r old hnl]
      apply hf a _ (hl.remove hL hnodup hK hrK (Ne.symm har)) _ _ hna
      · exact List.nodup_cons.mpr ⟨fun hmem => hal (List.mem_of_mem_erase hmem), hnl.erase r⟩
      · intro x hx
        rcases List.mem_cons.mp hx with rfl | hx
        · exact ⟨hK x List.mem_cons_self, har⟩
        · have hx' := (hnl.mem_erase_iff).mp hx
          exact ⟨hK x (List.mem_cons_of_mem a hx'.2), hx'.1⟩
    · have hrK : r ∉ K := hdisjoint _ hrD
      obtain ⟨hprevious, hnext⟩ := hA.remove_eq hrD
      have hdiff : K \ {r} = K := Set.sdiff_singleton_eq_self hrK
      rw [hdiff]
      obtain ⟨hc, ha, hf⟩ := ih hn (hL.congr hprevious hnext) (hA.remove hrD) hdisjoint hold.2
      refine ⟨hc, ha, fun a l hl hnodup hK hna => ?_⟩
      obtain ⟨-, hna⟩ := not_or.mp (mt List.mem_cons.mpr hna)
      have hrl : r ∉ l := fun hmem => hrK (hK r (List.mem_cons_of_mem a hmem))
      rw [filter_not_mem_cons r old (List.nodup_cons.mp hnodup).2, List.erase_of_not_mem hrl]
      exact hf a l (hl.congr fun x hx => hprevious x (hK x hx)) hnodup hK hna

theorem previous_insertPrevious (L : Links α) (a v x : α) :
    (L.insertPrevious a v).previous x =
      if x = a then some v else if x = v then (L.previous v).or (L.previous a)
      else L.previous x := by
  unfold Links.insertPrevious Links.setNext
  cases hv : L.previous v <;> cases ha : L.previous a <;> simp [Function.update_apply]

theorem next_insertPrevious (L : Links α) (a v x : α) :
    (L.insertPrevious a v).next x =
      if x = v then some a else if (L.previous v).or (L.previous a) = some x then some v
      else L.next x := by
  unfold Links.insertPrevious Links.setNext
  cases hv : L.previous v <;> cases ha : L.previous a <;>
    simp [Function.update_apply, eq_comm]

/-- An element that is new to `K` and has no links. -/
structure Fresh (L : Links α) (K : Set α) (v : α) : Prop where
  not_mem : v ∉ K
  previous : L.previous v = none
  next : L.next v = none

theorem Consistent.insertPrevious (h : Consistent L K) (ha : a ∈ K) (hv : Fresh L K v) :
    Consistent (L.insertPrevious a v) (insert v K) := by
  have hva : v ≠ a := fun heq => hv.not_mem (heq ▸ ha)
  have hnev : ∀ x ∈ K, x ≠ v := fun x hx heq => hv.not_mem (heq ▸ hx)
  constructor
  · intro x hx b hb
    rw [next_insertPrevious, hv.previous, Option.none_or] at hb
    split at hb
    case isTrue hxv =>
      obtain rfl := Option.some.inj hb
      subst hxv
      refine ⟨Set.mem_insert_of_mem _ ha, ?_⟩
      rw [previous_insertPrevious, if_pos rfl]
    case isFalse hxv =>
      have hxK : x ∈ K := hx.resolve_left hxv
      split at hb
      case isTrue hprev =>
        -- what was before `a` is now before `v`
        obtain rfl := Option.some.inj hb
        refine ⟨Set.mem_insert _ _, ?_⟩
        rw [previous_insertPrevious, if_neg hva, if_pos rfl, hv.previous, Option.none_or, hprev]
      case isFalse hprev =>
        obtain ⟨hbK, hbx⟩ := h.next x hxK b hb
        refine ⟨Set.mem_insert_of_mem _ hbK, ?_⟩
        have hba : b ≠ a := by
          rintro rfl
          exact hprev hbx
        rw [previous_insertPrevious, if_neg hba, if_neg (hnev b hbK), hbx]
  · intro x hx b hb
    rw [previous_insertPrevious, hv.previous, Option.none_or] at hb
    split at hb
    case isTrue hxa =>
      obtain rfl := Option.some.inj hb
      refine ⟨Set.mem_insert _ _, ?_⟩
      rw [next_insertPrevious, if_pos rfl, hxa]
    case isFalse hxa =>
      split at hb
      case isTrue hxv =>
        obtain ⟨hbK, -⟩ := h.previous a ha b hb
        refine ⟨Set.mem_insert_of_mem _ hbK, ?_⟩
        rw [next_insertPrevious, if_neg (hnev b hbK), hv.previous, Option.none_or, if_pos hb, hxv]
      case isFalse hxv =>
        have hxK : x ∈ K := hx.resolve_left hxv
        obtain ⟨hbK, hbx⟩ := h.previous x hxK b hb
        refine ⟨Set.mem_insert_of_mem _ hbK, ?_⟩
        rw [next_insertPrevious, if_neg (hnev b hbK), hv.previous, Option.none_or, if_neg]
        · exact hbx
        · intro hprev
          have hba := (h.previous a ha b hprev).2
          exact hxa (Option.some.inj (hbx.symm.trans hba))

theorem Apart.insertPrevious_mem (h : Apart L D K) (hL : Consistent L K) (ha : a ∈ K)
    (hv : Fresh L K v) (hvD : v ∉ D) (hdisjoint : ∀ x ∈ D, x ∉ K) (hDv : ∀ x ∈ D, L.previous x ≠ some v ∧ L.next x ≠ some v) :
    Apart (L.insertPrevious a v) D (insert v K) := by
  have haD : a ∉ D := fun haD => hdisjoint _ haD ha
  intro x hx b hb
  have hxv : x ≠ v := fun heq => hvD (heq ▸ hx)
  have hxa : x ≠ a := fun heq => haD (heq ▸ hx)
  have hprev : L.previous a ≠ some x := by
    intro hprev
    exact hdisjoint _ hx (hL.previous a ha x hprev).1
  rw [previous_insertPrevious, if_neg hxa, if_neg hxv, next_insertPrevious, if_neg hxv,
    hv.previous, Option.none_or, if_neg hprev]
  obtain rfl | hbK := hb
  · exact hDv x hx
  · exact h x hx b hbK

theorem Apart.insertPrevious_eq (h : Apart L D K) (ha : a ∈ D) (hv : v ∈ D)
    (hdisjoint : ∀ x ∈ D, x ∉ K) :
    (∀ x ∈ K, (L.insertPrevious a v).previous x = L.previous x) ∧
      ∀ x ∈ K, (L.insertPrevious a v).next x = L.next x := by
  have hprev : ∀ x ∈ K, (L.previous v).or (L.previous a) ≠ some x := by
    intro x hx
    cases hvp : L.previous v with
    | none => exact (h a ha x hx).1
    | some p =>
      rw [← hvp]
      simpa [hvp] using (h v hv x hx).1
  have hne : ∀ x ∈ K, ∀ d ∈ D, x ≠ d := fun x hx d hd heq =>
    hdisjoint _ hd (heq ▸ hx)
  constructor
  · intro x hx
    rw [previous_insertPrevious, if_neg (hne x hx a ha), if_neg (hne x hx v hv)]
  · intro x hx
    rw [next_insertPrevious, if_neg (hne x hx v hv), if_neg (hprev x hx)]

theorem Apart.insertPrevious (h : Apart L D K) (ha : a ∈ D) (hv : v ∈ D)
    (hdisjoint : ∀ x ∈ D, x ∉ K) : Apart (L.insertPrevious a v) D K := by
  have hne : ∀ d ∈ D, ∀ x ∈ K, (some d : Option α) ≠ some x := fun d hd x hx heq =>
    hdisjoint _ hd (Option.some.inj heq ▸ hx)
  intro x hx b hb
  constructor
  · rw [previous_insertPrevious]
    split
    · exact hne v hv b hb
    · split
      · cases hvp : L.previous v with
        | none => exact (h a ha b hb).1
        | some p => simpa [hvp] using (h v hv b hb).1
      · exact (h x hx b hb).1
  · rw [next_insertPrevious]
    split
    · exact hne a ha b hb
    · split
      · exact hne v hv b hb
      · exact (h x hx b hb).2

theorem Follows.insertPrevious_head (h : Follows L a l) (hv : L.previous v = none) (hva : v ≠ a)
    (hl : a ∉ l) (hvl : v ∉ l) : Follows (L.insertPrevious a v) a (v :: l) := by
  have hkept : ∀ x ∈ l, (L.insertPrevious a v).previous x = L.previous x := by
    intro x hx
    have hxa : x ≠ a := fun heq => hl (heq ▸ hx)
    have hxv : x ≠ v := fun heq => hvl (heq ▸ hx)
    rw [previous_insertPrevious, if_neg hxa, if_neg hxv]
  refine ⟨by rw [previous_insertPrevious, if_pos rfl], ?_⟩
  have hprev : (L.insertPrevious a v).previous v = L.previous a := by
    rw [previous_insertPrevious, if_neg hva, if_pos rfl, hv, Option.none_or]
  cases l with
  | nil => exact hprev.trans h
  | cons b l =>
    obtain ⟨hb, hl'⟩ := h
    exact ⟨hprev.trans hb, hl'.congr hkept⟩

/-- The elements of a chain, from the one that nothing follows to the one that nothing precedes. -/
def Whole (L : Links α) : List α → Prop
  | [] => True
  | a :: l => L.next a = none ∧ Follows L a l

omit [DecidableEq α] in
theorem Follows.unique {l' : List α} (h : Follows L a l) (h' : Follows L a l') : l = l' := by
  induction l generalizing a l' with
  | nil =>
    cases l' with
    | nil => rfl
    | cons b l' => exact absurd (h.symm.trans h'.1) (by simp)
  | cons b l ih =>
    cases l' with
    | nil => exact absurd (h.1.symm.trans h') (by simp)
    | cons b' l' =>
      obtain rfl := Option.some.inj (h.1.symm.trans h'.1)
      rw [ih h.2 h'.2]

omit [DecidableEq α] in
theorem Follows.next_ne_none (h : Follows L a l) (hL : Consistent L K) (hK : ∀ x ∈ a :: l, x ∈ K)
    (hb : b ∈ l) : L.next b ≠ none := by
  induction l generalizing a with
  | nil => cases hb
  | cons c l ih =>
    obtain ⟨hc, hl⟩ := h
    rcases List.mem_cons.mp hb with rfl | hb
    · rw [(hL.previous a (hK a List.mem_cons_self) b hc).2]
      exact Option.some_ne_none a
    · exact ih hl (fun x hx => hK x (List.mem_cons_of_mem a hx)) hb

omit [DecidableEq α] in
theorem Whole.eq_head {c : List α} (h : Whole L c) (hL : Consistent L K) (hK : ∀ x ∈ c, x ∈ K)
    (hb : b ∈ c) (hnone : L.next b = none) : ∃ l, c = b :: l := by
  cases c with
  | nil => cases hb
  | cons a l =>
    rcases List.mem_cons.mp hb with rfl | hb
    · exact ⟨l, rfl⟩
    · exact absurd hnone (h.2.next_ne_none hL hK hb)

omit [DecidableEq α] in
theorem Whole.congr {c : List α} (h : Whole L c) (hprevious : ∀ x ∈ c, L'.previous x = L.previous x)
    (hnext : ∀ x ∈ c, L'.next x = L.next x) : Whole L' c := by
  cases c with
  | nil => trivial
  | cons a l => exact ⟨(hnext a List.mem_cons_self).trans h.1, h.2.congr hprevious⟩

theorem Whole.remove {c : List α} (h : Whole L c) (hL : Consistent L K) (hn : c.Nodup)
    (hK : ∀ x ∈ c, x ∈ K) (hr : r ∈ K) : Whole (L.remove r) (c.erase r) := by
  cases c with
  | nil => trivial
  | cons a l =>
    obtain ⟨hnone, hl⟩ := h
    have hprev : L.previous r ≠ some a := fun hprev => by
      have hnext := (hL.previous r hr a hprev).2
      exact absurd (hnone.symm.trans hnext) (by simp)
    by_cases hra : r = a
    · subst hra
      rw [List.erase_cons_head]
      cases l with
      | nil => trivial
      | cons b l =>
        obtain ⟨hb, hl⟩ := hl
        refine ⟨by rw [next_remove, if_pos hb, hnone], hl.congr fun x _ => ?_⟩
        rw [previous_remove, if_neg]
        rw [hnone]
        exact Option.some_ne_none x ∘ Eq.symm
    · rw [List.erase_cons_tail (by simpa using Ne.symm hra)]
      refine ⟨by rw [next_remove, if_neg hprev, hnone], ?_⟩
      exact hl.remove hL hn hK hr hra

theorem whole_remove_all {old : List α} (hn : old.Nodup) (hL : Consistent L K)
    (hold : ∀ r ∈ old, r ∈ K) :
    Consistent (old.foldl Links.remove L) (K \ {x | x ∈ old}) ∧
      ∀ c, Whole L c → c.Nodup → (∀ x ∈ c, x ∈ K) →
        Whole (old.foldl Links.remove L) (c.filter fun x => decide (x ∉ old)) := by
  induction old generalizing L K with
  | nil =>
    simp only [List.foldl_nil, List.not_mem_nil, Set.ofPred_false, Set.sdiff_empty]
    refine ⟨hL, fun c hc _ _ => ?_⟩
    rw [List.filter_eq_self.mpr (by simp)]
    exact hc
  | cons r old ih =>
    obtain ⟨hr, hn⟩ := List.nodup_cons.mp hn
    rw [List.forall_mem_cons] at hold
    have hset : K \ {x | x ∈ r :: old} = (K \ {r}) \ {x | x ∈ old} := by
      ext x
      simp only [Set.mem_sdiff, Set.mem_ofPred_eq, List.mem_cons, not_or, Set.mem_singleton_iff,
        and_assoc]
    rw [List.foldl_cons, hset]
    obtain ⟨hc, hw⟩ := ih hn (hL.remove hold.1)
      fun x hx => ⟨hold.2 x hx, fun heq => hr (heq ▸ hx)⟩
    refine ⟨hc, fun c hwhole hnodup hK => ?_⟩
    rw [filter_not_mem_cons r old hnodup]
    refine hw _ (hwhole.remove hL hnodup hK hold.1) (hnodup.erase r) fun x hx => ?_
    obtain ⟨hne, hx⟩ := hnodup.mem_erase_iff.mp hx
    exact ⟨hK x hx, hne⟩

theorem Consistent.clear (h : Consistent L K) (hv : v ∉ K) :
    Consistent (L.clear v) K ∧ Fresh (L.clear v) K v := by
  have hne : ∀ x ∈ K, x ≠ v := fun x hx heq => hv (heq ▸ hx)
  refine ⟨h.congr (fun x hx => ?_) fun x hx => ?_, hv, ?_, ?_⟩
  · exact Function.update_of_ne (hne x hx) ..
  · exact Function.update_of_ne (hne x hx) ..
  · exact Function.update_self ..
  · exact Function.update_self ..

omit [DecidableEq α] in
theorem Consistent.add (h : Consistent L K) (hv : Fresh L K v) : Consistent L (insert v K) := by
  constructor
  · intro x hx b hb
    rcases hx with rfl | hx
    · exact absurd (hv.next.symm.trans hb) (by simp)
    · obtain ⟨hbK, hbx⟩ := h.next x hx b hb
      exact ⟨Set.mem_insert_of_mem v hbK, hbx⟩
  · intro x hx b hb
    rcases hx with rfl | hx
    · exact absurd (hv.previous.symm.trans hb) (by simp)
    · obtain ⟨hbK, hbx⟩ := h.previous x hx b hb
      exact ⟨Set.mem_insert_of_mem v hbK, hbx⟩

theorem Whole.clear {c : List α} (h : Whole L c) (hv : v ∉ c) : Whole (L.clear v) c := by
  have hne : ∀ x ∈ c, x ≠ v := fun x hx heq => hv (heq ▸ hx)
  exact h.congr (fun x hx => Function.update_of_ne (hne x hx) ..)
    fun x hx => Function.update_of_ne (hne x hx) ..

theorem Whole.insertPrevious_head (h : Whole L (a :: l)) (hL : Consistent L K)
    (hK : ∀ x ∈ a :: l, x ∈ K) (hn : (a :: l).Nodup) (hv : Fresh L K v) :
    Whole (L.insertPrevious a v) (a :: v :: l) := by
  have haK : a ∈ K := hK a List.mem_cons_self
  have hva : v ≠ a := fun heq => hv.not_mem (heq ▸ haK)
  have hvl : v ∉ l := fun hmem => hv.not_mem (hK v (List.mem_cons_of_mem a hmem))
  refine ⟨?_, h.2.insertPrevious_head hv.previous hva (List.nodup_cons.mp hn).1 hvl⟩
  rw [next_insertPrevious, if_neg (Ne.symm hva), hv.previous, Option.none_or, if_neg]
  · exact h.1
  · intro hprev
    have hnext := (hL.previous a haK a hprev).2
    exact absurd (h.1.symm.trans hnext) (by simp)

theorem Whole.insertPrevious_other {c : List α} (h : Whole L c) (hL : Consistent L K)
    (ha : a ∈ K) (hac : a ∉ c) (hv : L.previous v = none) (hvc : v ∉ c) :
    Whole (L.insertPrevious a v) c := by
  cases c with
  | nil => trivial
  | cons b l =>
    have hnea : ∀ x ∈ b :: l, x ≠ a := fun x hx heq => hac (heq ▸ hx)
    have hnev : ∀ x ∈ b :: l, x ≠ v := fun x hx heq => hvc (heq ▸ hx)
    refine ⟨?_, h.2.congr fun x hx => ?_⟩
    · rw [next_insertPrevious, if_neg (hnev b List.mem_cons_self), hv, Option.none_or, if_neg]
      · exact h.1
      · intro hprev
        have hnext := (hL.previous a ha b hprev).2
        exact absurd (h.1.symm.trans hnext) (by simp)
    · rw [previous_insertPrevious, if_neg (hnea x hx), if_neg (hnev x hx)]

theorem previous_insertTop (ha : L.previous a = none) (x : α) :
    (L.insertPrevious a v).previous x = if x = a then some v else L.previous x := by
  rw [previous_insertPrevious, ha, Option.or_none]
  split_ifs with hxa hxv
  · rfl
  · rw [hxv]
  · rfl

theorem Consistent.insertTop (h : Consistent L K) (ha : Fresh L K a) (hv : v ∈ K)
    (hnone : L.next v = none) : Consistent (L.insertPrevious a v) (insert a K) := by
  have hav : a ≠ v := fun heq => ha.not_mem (heq ▸ hv)
  have hnea : ∀ x ∈ K, x ≠ a := fun x hx heq => ha.not_mem (heq ▸ hx)
  have hnext (x : α) : (L.insertPrevious a v).next x =
      if x = v then some a else if L.previous v = some x then some v else L.next x := by
    rw [next_insertPrevious, ha.previous, Option.or_none]
  constructor
  · intro x hx b hb
    rw [hnext] at hb
    split_ifs at hb with hxv hprev
    · obtain rfl := Option.some.inj hb
      subst hxv
      exact ⟨Set.mem_insert _ _, by rw [previous_insertTop ha.previous, if_pos rfl]⟩
    · obtain rfl := Option.some.inj hb
      refine ⟨Set.mem_insert_of_mem _ hv, ?_⟩
      rw [previous_insertTop ha.previous, if_neg (Ne.symm hav), hprev]
    · have hxK : x ∈ K := by
        rcases hx with rfl | hx
        · exact absurd (ha.next.symm.trans hb) (by simp)
        · exact hx
      obtain ⟨hbK, hbx⟩ := h.next x hxK b hb
      refine ⟨Set.mem_insert_of_mem _ hbK, ?_⟩
      rw [previous_insertTop ha.previous, if_neg (hnea b hbK), hbx]
  · intro x hx b hb
    rw [previous_insertTop ha.previous] at hb
    split_ifs at hb with hxa
    · obtain rfl := Option.some.inj hb
      exact ⟨Set.mem_insert_of_mem _ hv, by rw [hnext, if_pos rfl, hxa]⟩
    · have hxK : x ∈ K := hx.resolve_left hxa
      obtain ⟨hbK, hbx⟩ := h.previous x hxK b hb
      refine ⟨Set.mem_insert_of_mem _ hbK, ?_⟩
      have hbv : b ≠ v := by
        rintro rfl
        exact absurd (hnone.symm.trans hbx) (by simp)
      rw [hnext, if_neg hbv]
      split_ifs with hprev
      · have hvb := (h.previous v hv b hprev).2
        exact hvb.symm.trans hbx
      · exact hbx

theorem Whole.insertTop (h : Whole L (v :: l)) (hK : ∀ x ∈ v :: l, x ∈ K)
    (hL : Consistent L K) (ha : Fresh L K a) : Whole (L.insertPrevious a v) (a :: v :: l) := by
  have hnea : ∀ x ∈ v :: l, x ≠ a := fun x hx heq => ha.not_mem (heq ▸ hK x hx)
  have hav : a ≠ v := Ne.symm (hnea v List.mem_cons_self)
  refine ⟨?_, ?_, h.2.congr fun x hx => ?_⟩
  · rw [next_insertPrevious, if_neg hav, ha.previous, Option.or_none, if_neg]
    · exact ha.next
    · intro hprev
      exact ha.not_mem (hL.previous v (hK v List.mem_cons_self) a hprev).1
  · rw [previous_insertTop ha.previous, if_pos rfl]
  · rw [previous_insertTop ha.previous, if_neg (hnea x hx)]

theorem Whole.insertTop_other {c : List α} (h : Whole L c) (hL : Consistent L K) (hv : v ∈ K)
    (hvc : v ∉ c) (ha : L.previous a = none) (hac : a ∉ c) : Whole (L.insertPrevious a v) c := by
  cases c with
  | nil => trivial
  | cons b l =>
    have hnea : ∀ x ∈ b :: l, x ≠ a := fun x hx heq => hac (heq ▸ hx)
    have hbv : b ≠ v := fun heq => hvc (heq ▸ List.mem_cons_self)
    refine ⟨?_, h.2.congr fun x hx => ?_⟩
    · rw [next_insertPrevious, if_neg hbv, ha, Option.or_none, if_neg]
      · exact h.1
      · intro hprev
        have hnext := (hL.previous v hv b hprev).2
        exact absurd (h.1.symm.trans hnext) (by simp)
    · rw [previous_insertTop ha, if_neg (hnea x hx)]

section Descending

variable {β : Type*} [LT β] {f : α → β} {t : β} {c : List α}

omit [DecidableEq α] in
theorem find?_latest [DecidableLT β] (h : c.Pairwise fun a b => f b < f a)
    (hr : (c.find? fun x => decide (f x < t)) = some r) :
    r ∈ c ∧ f r < t ∧ ∀ q ∈ c, f q < t → q = r ∨ f q < f r := by
  induction c with
  | nil => cases hr
  | cons a c ih =>
    obtain ⟨ha, hc⟩ := List.pairwise_cons.mp h
    rw [List.find?_cons] at hr
    split at hr
    case h_1 hlt =>
      obtain rfl := Option.some.inj hr
      refine ⟨List.mem_cons_self, of_decide_eq_true hlt, fun q hq _ => ?_⟩
      exact (List.mem_cons.mp hq).imp_right (ha q)
    case h_2 hlt =>
      obtain ⟨hmem, hrt, hall⟩ := ih hc hr
      refine ⟨List.mem_cons_of_mem a hmem, hrt, fun q hq hqt => ?_⟩
      rcases List.mem_cons.mp hq with rfl | hq
      · exact absurd hqt (of_decide_eq_false hlt)
      · exact hall q hq hqt

omit [DecidableEq α] in
theorem takeWhile_earliest [LE β] [DecidableLE β]
    (htrans : ∀ {x y z : β}, x ≤ y → y < z → x ≤ z) (h : c.Pairwise fun a b => f b < f a)
    (hr : (c.takeWhile fun x => decide (t ≤ f x)).getLast? = some r) :
    r ∈ c ∧ t ≤ f r ∧ ∀ q ∈ c, t ≤ f q → q = r ∨ f r < f q := by
  induction c with
  | nil => cases hr
  | cons a c ih =>
    obtain ⟨ha, hc⟩ := List.pairwise_cons.mp h
    rw [List.takeWhile_cons] at hr
    split_ifs at hr with hle
    · cases hrest : (c.takeWhile fun x => decide (t ≤ f x)).getLast? with
      | none =>
        rw [List.getLast?_cons, hrest] at hr
        obtain rfl := Option.some.inj hr
        refine ⟨List.mem_cons_self, of_decide_eq_true hle, fun q hq hqt => ?_⟩
        rcases List.mem_cons.mp hq with rfl | hq
        · exact Or.inl rfl
        · -- the next one is before `t`, and so are those after it
          exfalso
          cases c with
          | nil => cases hq
          | cons b c =>
            have hb : ¬ t ≤ f b := by
              intro hb
              rw [List.getLast?_eq_none_iff, List.takeWhile_cons, if_pos (decide_eq_true hb)] at hrest
              cases hrest
            rcases List.mem_cons.mp hq with rfl | hq
            · exact hb hqt
            · exact hb (htrans hqt ((List.pairwise_cons.mp hc).1 q hq))
      | some r' =>
        rw [List.getLast?_cons, hrest] at hr
        obtain rfl := Option.some.inj hr
        obtain ⟨hmem, hrt, hall⟩ := ih hc hrest
        refine ⟨List.mem_cons_of_mem a hmem, hrt, fun q hq hqt => ?_⟩
        rcases List.mem_cons.mp hq with rfl | hq
        · exact Or.inr (ha _ hmem)
        · exact hall q hq hqt
    · cases hr

end Descending

end Chain
