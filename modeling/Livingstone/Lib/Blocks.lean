import Mathlib.Tactic

/-! A list sorted into blocks by a key, in one pass over it that puts each element into the next free
place of its block. -/

namespace Blocks

open Function (update update_self update_of_ne)

variable {α β κ : Type*} [DecidableEq κ] (key : α → κ)

/-- The elements of each block, in their order. -/
def sorted (bs : List κ) (xs : List α) : List α := bs.flatMap fun b => xs.filter fun x => key x = b

/-- The first place of a block: those before it are full. -/
def start (n : κ → ℕ) (bs : List κ) (b : κ) : ℕ := ((bs.takeWhile (· ≠ b)).map n).sum

def place (bs : List κ) (all xs : List α) (x : α) : ℕ :=
  start (fun b => all.countP fun y => key y = b) bs (key x) + xs.countP fun y => key y = key x

/-- A block when `xs` are in their places, and `ys` are to come. -/
def part (f : α → β) (xs ys : List α) (b : κ) : List (Option β) :=
  ((xs.filter fun x => key x = b).map fun x => some (f x)) ++
    List.replicate (ys.countP fun y => key y = b) none

def filled (bs : List κ) (f : α → β) (xs ys : List α) : List (Option β) :=
  bs.flatMap (part key f xs ys)

variable {key} {bs : List κ} {b : κ} {f : α → β} {x : α} {xs ys : List α}

theorem start_cons_self (n : κ → ℕ) (bs : List κ) (b : κ) : start n (b :: bs) b = 0 := by
  simp [start]

theorem start_cons_ne (n : κ → ℕ) (bs : List κ) {b c : κ} (h : c ≠ b) :
    start n (c :: bs) b = n c + start n bs b := by
  simp [start, h]

theorem getElem?_flatMap {g : κ → List α} (hb : b ∈ bs) {i : ℕ} (hi : i < (g b).length) :
    (bs.flatMap g)[start (fun c => (g c).length) bs b + i]? = (g b)[i]? := by
  induction bs with
  | nil => cases hb
  | cons c bs ih =>
    rw [List.flatMap_cons]
    by_cases hcb : c = b
    · subst hcb
      rw [start_cons_self, Nat.zero_add, List.getElem?_append_left hi]
    · have hb : b ∈ bs := (List.mem_cons.mp hb).resolve_left (Ne.symm hcb)
      rw [start_cons_ne _ _ hcb, Nat.add_assoc, List.getElem?_append_right (Nat.le_add_right _ _),
        Nat.add_sub_cancel_left, ih hb]

theorem set_flatMap {g : κ → List α} (hbs : bs.Nodup) (hb : b ∈ bs) {i : ℕ}
    (hi : i < (g b).length) (x : α) :
    (bs.flatMap g).set (start (fun c => (g c).length) bs b + i) x =
      bs.flatMap (update g b ((g b).set i x)) := by
  induction bs with
  | nil => cases hb
  | cons c bs ih =>
    obtain ⟨hc, hbs⟩ := List.nodup_cons.mp hbs
    rw [List.flatMap_cons, List.flatMap_cons]
    by_cases hcb : c = b
    · subst hcb
      have hrest : bs.flatMap (update g c ((g c).set i x)) = bs.flatMap g := by
        refine List.flatMap_congr fun d hd => update_of_ne ?_ _ _
        exact fun hdc => hc (hdc ▸ hd)
      rw [start_cons_self, Nat.zero_add, update_self, hrest, List.set_append_left _ _ hi]
    · have hb : b ∈ bs := (List.mem_cons.mp hb).resolve_left (Ne.symm hcb)
      rw [start_cons_ne _ _ hcb, Nat.add_assoc, update_of_ne hcb,
        List.set_append_right _ _ (Nat.le_add_right _ _), Nat.add_sub_cancel_left, ih hbs hb]

theorem length_part (f : α → β) (xs ys : List α) (b : κ) :
    (part key f xs ys b).length = (xs ++ ys).countP fun x => key x = b := by
  unfold part
  rw [List.length_append, List.length_map, List.length_replicate, List.countP_append,
    ← List.countP_eq_length_filter]

theorem filled_nil (f : α → β) (xs : List α) :
    filled key bs f xs [] = (sorted key bs xs).map fun x => some (f x) := by
  unfold filled sorted part
  rw [List.map_flatMap]
  simp

theorem place_eq (bs : List κ) (f : α → β) (xs ys : List α) (x : α) :
    place key bs (xs ++ x :: ys) xs x =
      start (fun b => (part key f xs (x :: ys) b).length) bs (key x) +
        xs.countP fun y => key y = key x := by
  unfold place
  congr 2
  funext b
  exact (length_part f xs (x :: ys) b).symm

theorem countP_lt_length_part (f : α → β) (xs ys : List α) (x : α) :
    (xs.countP fun y => key y = key x) < (part key f xs (x :: ys) (key x)).length := by
  rw [length_part, List.countP_append, List.countP_cons]
  simp

theorem getElem?_place (f : α → β) (xs ys : List α) (hx : key x ∈ bs) :
    (filled key bs f xs (x :: ys))[place key bs (xs ++ x :: ys) xs x]? = some none := by
  have hlt : (xs.countP fun y => key y = key x) < (part key f xs (x :: ys) (key x)).length :=
    countP_lt_length_part f xs ys x
  unfold filled
  rw [place_eq bs f, getElem?_flatMap hx hlt]
  unfold part
  rw [List.getElem?_append_right (by simp [List.countP_eq_length_filter])]
  simp [List.countP_eq_length_filter]

theorem set_part (f : α → β) (xs ys : List α) (x : α) (b : κ) :
    update (part key f xs (x :: ys)) (key x)
        ((part key f xs (x :: ys) (key x)).set (xs.countP fun y => key y = key x) (some (f x))) b =
      part key f (xs ++ [x]) ys b := by
  by_cases hb : b = key x
  · subst hb
    have hlen : xs.countP (fun y => key y = key x) =
        ((xs.filter fun y => key y = key x).map fun y => some (f y)).length := by
      rw [List.length_map, List.countP_eq_length_filter]
    unfold part
    rw [update_self, hlen, List.set_append_right _ _ le_rfl, Nat.sub_self]
    simp [List.replicate_succ]
  · have hb' : ¬ key x = b := Ne.symm hb
    rw [update_of_ne hb]
    simp [part, hb']

theorem set_filled (f : α → β) (xs ys : List α) (hbs : bs.Nodup) (hx : key x ∈ bs) :
    (filled key bs f xs (x :: ys)).set (place key bs (xs ++ x :: ys) xs x) (some (f x)) =
      filled key bs f (xs ++ [x]) ys := by
  unfold filled
  rw [place_eq bs f, set_flatMap hbs hx (countP_lt_length_part f xs ys x)]
  exact List.flatMap_congr fun b _ => set_part f xs ys x b

theorem perm_flatMap_update {g : κ → List α} (hbs : bs.Nodup) (hb : b ∈ bs) (x : α) :
    (bs.flatMap (update g b (x :: g b))).Perm (x :: bs.flatMap g) := by
  induction bs with
  | nil => cases hb
  | cons c bs ih =>
    obtain ⟨hc, hbs⟩ := List.nodup_cons.mp hbs
    rw [List.flatMap_cons, List.flatMap_cons]
    by_cases hcb : c = b
    · subst hcb
      have hrest : bs.flatMap (update g c (x :: g c)) = bs.flatMap g := by
        refine List.flatMap_congr fun d hd => update_of_ne ?_ _ _
        exact fun hdc => hc (hdc ▸ hd)
      rw [update_self, hrest]
      exact List.Perm.refl _
    · have hb : b ∈ bs := (List.mem_cons.mp hb).resolve_left (Ne.symm hcb)
      rw [update_of_ne hcb]
      exact ((ih hbs hb).append_left (g c)).trans List.perm_middle

theorem perm_sorted (hbs : bs.Nodup) (hall : ∀ x ∈ xs, key x ∈ bs) :
    (sorted key bs xs).Perm xs := by
  unfold sorted
  induction xs with
  | nil => simp
  | cons x xs ih =>
    rw [List.forall_mem_cons] at hall
    have hupdate : (fun b => (x :: xs).filter fun y => key y = b) =
        update (fun b => xs.filter fun y => key y = b) (key x)
          (x :: xs.filter fun y => key y = key x) := by
      funext b
      by_cases hb : b = key x
      · subst hb
        simp
      · have hb' : ¬ key x = b := Ne.symm hb
        simp [hb, hb']
    rw [hupdate]
    exact (perm_flatMap_update hbs hall.1 x).trans ((ih hall.2).cons x)

theorem filled_start (f : α → β) (hbs : bs.Nodup) (hall : ∀ y ∈ ys, key y ∈ bs) :
    filled key bs f [] ys = List.replicate ys.length none := by
  refine List.eq_replicate_iff.mpr ⟨?_, fun x hx => ?_⟩
  · rw [← (perm_sorted hbs hall).length_eq]
    unfold filled sorted
    rw [List.length_flatMap, List.length_flatMap]
    congr 2
    funext b
    rw [length_part, List.nil_append, List.countP_eq_length_filter]
  · obtain ⟨b, -, hx⟩ := List.mem_flatMap.mp hx
    exact List.eq_of_mem_replicate hx

end Blocks
