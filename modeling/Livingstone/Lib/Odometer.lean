import Mathlib.Tactic

/-! Counting through all vectors of indices below given radices, the first index fastest. -/

namespace Odometer

/-- The next vector of indices, or `none` when all of them start again at zero. -/
def advance : List ℕ → List ℕ → Option (List ℕ)
  | r :: rs, i :: is => if i + 1 < r then some ((i + 1) :: is) else (advance rs is).map (0 :: ·)
  | _, _ => none

/-- The vectors that a loop visits from `is` on, at most as many as the first argument says. -/
def visits : ℕ → List ℕ → List ℕ → List (List ℕ)
  | 0, _, _ => []
  | n + 1, rs, is =>
    is :: match advance rs is with
      | none => []
      | some is => visits n rs is

def rank : List ℕ → List ℕ → ℕ
  | r :: rs, i :: is => i + r * rank rs is
  | _, _ => 0

def vectors : List ℕ → List (List ℕ)
  | [] => [[]]
  | r :: rs => (vectors rs).flatMap fun is => (List.range r).map (· :: is)

def Below (rs is : List ℕ) : Prop := List.Forall₂ (fun r i => i < r) rs is

theorem mem_vectors {rs is : List ℕ} : is ∈ vectors rs ↔ Below rs is := by
  induction rs generalizing is with
  | nil => simp [vectors, Below]
  | cons r rs ih =>
    simp only [vectors, List.mem_flatMap, ih, List.mem_map, List.mem_range, Below,
      List.forall₂_cons_left_iff]
    constructor
    · intro ⟨js, hjs, i, hi, heq⟩
      exact ⟨i, js, hi, hjs, heq.symm⟩
    · intro ⟨i, js, hi, hjs, heq⟩
      exact ⟨js, hjs, i, hi, heq.symm⟩

theorem length_vectors (rs : List ℕ) : (vectors rs).length = rs.prod := by
  induction rs with
  | nil => rfl
  | cons r rs ih => simp [vectors, ih, mul_comm]

theorem rank_lt {rs is : List ℕ} (h : Below rs is) : rank rs is < rs.prod := by
  induction h with
  | nil => exact Nat.one_pos
  | @cons r i rs is hi _ ih =>
    rw [rank, List.prod_cons]
    calc i + r * rank rs is < r * (rank rs is + 1) := by rw [mul_add_one]; omega
      _ ≤ r * rs.prod := Nat.mul_le_mul_left r ih

theorem getElem?_flatMap {α β : Type*} {f : α → List β} {r : ℕ} (hf : ∀ a, (f a).length = r)
    (l : List α) {k i : ℕ} (hi : i < r) :
    (l.flatMap f)[i + r * k]? = l[k]?.bind fun a => (f a)[i]? := by
  induction l generalizing k with
  | nil => simp
  | cons a l ih =>
    rw [List.flatMap_cons]
    cases k with
    | zero => simp [List.getElem?_append_left, hf, hi]
    | succ k =>
      rw [List.getElem?_append_right (by rw [hf, mul_add_one]; omega), hf,
        List.getElem?_cons_succ, ← ih, mul_add_one]
      congr 1
      omega

theorem getElem?_rank {rs is : List ℕ} (h : Below rs is) :
    (vectors rs)[rank rs is]? = some is := by
  induction h with
  | nil => rfl
  | @cons r i rs is hi _ ih =>
    rw [rank, vectors, getElem?_flatMap (fun js => by simp) _ hi, ih]
    simp [hi]

theorem rank_inj {rs is js : List ℕ} (hi : Below rs is) (hj : Below rs js)
    (h : rank rs is = rank rs js) : is = js := by
  have heq := getElem?_rank hi
  rw [h, getElem?_rank hj] at heq
  exact (Option.some.inj heq).symm

theorem rank_advance {rs is js : List ℕ} (h : Below rs is) (hadv : advance rs is = some js) :
    Below rs js ∧ rank rs js = rank rs is + 1 := by
  induction h generalizing js with
  | nil => cases hadv
  | @cons r i rs is hi htail ih =>
    rw [advance] at hadv
    split at hadv
    · next hlt =>
      obtain rfl := Option.some.inj hadv
      exact ⟨List.Forall₂.cons hlt htail, by rw [rank, rank]; omega⟩
    · next hge =>
      obtain ⟨ks, hks, rfl⟩ := Option.map_eq_some_iff.mp hadv
      obtain ⟨hbelow, hrank⟩ := ih hks
      refine ⟨List.Forall₂.cons (by omega) hbelow, ?_⟩
      rw [rank, rank, hrank, mul_add_one]
      omega

theorem rank_of_advance_none {rs is : List ℕ} (h : Below rs is) (hadv : advance rs is = none) :
    rank rs is + 1 = rs.prod := by
  induction h with
  | nil => rfl
  | @cons r i rs is hi _ ih =>
    rw [advance] at hadv
    split at hadv
    · cases hadv
    · next hge =>
      rw [rank, List.prod_cons, ← ih (Option.map_eq_none_iff.mp hadv), mul_add_one]
      omega

theorem visits_eq_drop {n : ℕ} {rs is : List ℕ} (h : Below rs is)
    (hn : rs.prod ≤ n + rank rs is) : visits n rs is = (vectors rs).drop (rank rs is) := by
  induction n generalizing is with
  | zero => exact absurd (rank_lt h) (by omega)
  | succ n ih =>
    obtain ⟨hlt, heq⟩ := List.getElem?_eq_some_iff.mp (getElem?_rank h)
    rw [visits, List.drop_eq_getElem_cons hlt, heq]
    congr 1
    cases hadv : advance rs is with
    | none =>
      rw [rank_of_advance_none h hadv, ← length_vectors, List.drop_length]
    | some js =>
      obtain ⟨hbelow, hrank⟩ := rank_advance h hadv
      rw [← hrank]
      exact ih hbelow (by omega)

theorem visits_eq {n : ℕ} {rs : List ℕ} (hpos : ∀ r ∈ rs, 0 < r) (hn : rs.prod ≤ n) :
    visits n rs (List.replicate rs.length 0) = vectors rs := by
  have hbelow : Below rs (List.replicate rs.length 0) ∧
      rank rs (List.replicate rs.length 0) = 0 := by
    clear hn
    induction rs with
    | nil => exact ⟨List.Forall₂.nil, rfl⟩
    | cons r rs ih =>
      rw [List.forall_mem_cons] at hpos
      obtain ⟨hbelow, hrank⟩ := ih hpos.2
      rw [List.length_cons, List.replicate_succ]
      exact ⟨List.Forall₂.cons hpos.1 hbelow, by rw [rank, hrank, mul_zero, zero_add]⟩
  rw [visits_eq_drop hbelow.1 (by rw [hbelow.2]; exact hn), hbelow.2, List.drop_zero]

theorem nodup_vectors (rs : List ℕ) : (vectors rs).Nodup := by
  induction rs with
  | nil => simp [vectors]
  | cons r rs ih =>
    rw [vectors, List.nodup_flatMap]
    constructor
    · intro js _
      exact List.nodup_range.map fun a b h => (List.cons.inj h).1
    · refine ih.imp fun {js ks} hne x hx hy => ?_
      obtain ⟨a, -, rfl⟩ := List.mem_map.mp hx
      obtain ⟨b, -, heq⟩ := List.mem_map.mp hy
      exact hne (List.cons.inj heq).2.symm

end Odometer
