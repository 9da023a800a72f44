import Mathlib.Tactic

/-! Hash tables with a list for each bucket. The hash function is given to each operation, since it
may change with what the keys refer to; a table is filed if the keys are where it says. -/

structure HashTable (κ : Type*) where
  buckets : List (List κ)
  nonempty : 0 < buckets.length

namespace HashTable

variable {κ : Type*} {hash hash' : κ → ℕ} {t : HashTable κ} {k : κ}

def empty (n : ℕ) (h : 0 < n) : HashTable κ where
  buckets := List.replicate n []
  nonempty := by rwa [List.length_replicate]

def index (hash : κ → ℕ) (t : HashTable κ) (k : κ) : ℕ := hash k % t.buckets.length

theorem index_lt (hash : κ → ℕ) (t : HashTable κ) (k : κ) : t.index hash k < t.buckets.length :=
  Nat.mod_lt _ t.nonempty

def bucket (hash : κ → ℕ) (t : HashTable κ) (k : κ) : List κ :=
  t.buckets.get ⟨t.index hash k, index_lt hash t k⟩

def elements (t : HashTable κ) : List κ := t.buckets.flatten

def Filed (hash : κ → ℕ) (t : HashTable κ) : Prop :=
  ∀ i b, t.buckets[i]? = some b → ∀ k ∈ b, t.index hash k = i

section

variable [DecidableEq κ]

def find (hash : κ → ℕ) (t : HashTable κ) (k : κ) : Option κ := (t.bucket hash k).find? (· = k)

/-- A key that is not there becomes the first one of its bucket. -/
def insert (hash : κ → ℕ) (t : HashTable κ) (k : κ) : HashTable κ :=
  if k ∈ t.bucket hash k then t
  else
    { buckets := t.buckets.modify (t.index hash k) (k :: ·)
      nonempty := by
        rw [List.length_modify]
        exact t.nonempty }

end

theorem mem_elements : k ∈ t.elements ↔ ∃ (i : ℕ) (b : List κ), t.buckets[i]? = some b ∧ k ∈ b := by
  unfold elements
  rw [List.mem_flatten]
  constructor
  · intro ⟨b, hb, hk⟩
    obtain ⟨i, hi⟩ := List.mem_iff_getElem?.mp hb
    exact ⟨i, b, hi, hk⟩
  · intro ⟨i, b, hi, hk⟩
    exact ⟨b, List.mem_of_getElem? hi, hk⟩

theorem getElem?_index (hash : κ → ℕ) (t : HashTable κ) (k : κ) :
    t.buckets[t.index hash k]? = some (t.bucket hash k) :=
  List.getElem?_eq_getElem (index_lt hash t k)

theorem mem_bucket (h : t.Filed hash) : k ∈ t.bucket hash k ↔ k ∈ t.elements := by
  rw [mem_elements]
  constructor
  · intro hk
    exact ⟨_, _, getElem?_index hash t k, hk⟩
  · intro ⟨i, b, hi, hk⟩
    obtain rfl := h i b hi k hk
    rw [getElem?_index] at hi
    exact Option.some.inj hi ▸ hk

theorem Filed.congr (h : t.Filed hash) (hsame : ∀ k ∈ t.elements, hash' k = hash k) :
    t.Filed hash' := by
  intro i b hi k hk
  rw [index, hsame k (mem_elements.mpr ⟨i, b, hi, hk⟩)]
  exact h i b hi k hk

theorem elements_empty {n : ℕ} (h : 0 < n) : (empty n h : HashTable κ).elements = [] := by
  simp [elements, empty]

theorem filed_empty {n : ℕ} (h : 0 < n) : (empty n h : HashTable κ).Filed hash := by
  intro i b hi k hk
  have hm := mem_elements.mpr ⟨i, b, hi, hk⟩
  rw [elements_empty] at hm
  exact absurd hm List.not_mem_nil

variable [DecidableEq κ]

theorem find_congr (h : hash' k = hash k) : t.find hash' k = t.find hash k := by
  have hbucket : t.bucket hash' k = t.bucket hash k := by simp only [bucket, index, h]
  rw [find, find, hbucket]

theorem find_eq_none (h : t.Filed hash) : t.find hash k = none ↔ k ∉ t.elements := by
  rw [find, List.find?_eq_none, ← mem_bucket h]
  constructor
  · intro hall hk
    exact hall k hk (decide_eq_true rfl)
  · intro hk y hy he
    exact hk (of_decide_eq_true he ▸ hy)

theorem find_of_mem (h : t.Filed hash) (hk : k ∈ t.elements) : t.find hash k = some k := by
  cases hf : t.find hash k with
  | none => exact absurd hk ((find_eq_none h).mp hf)
  | some k' =>
    have heq := List.find?_some hf
    rw [decide_eq_true_eq] at heq
    rw [heq]

theorem insert_buckets (hk : k ∉ t.elements) :
    (t.insert hash k).buckets = t.buckets.modify (t.index hash k) (k :: ·) := by
  have hbucket : k ∉ t.bucket hash k := fun hm =>
    hk (mem_elements.mpr ⟨_, _, getElem?_index hash t k, hm⟩)
  rw [insert, if_neg hbucket]

theorem elements_insert (hk : k ∉ t.elements) :
    (t.insert hash k).elements.Perm (k :: t.elements) := by
  have hmodify (bs : List (List κ)) (i : ℕ) (hi : i < bs.length) :
      (bs.modify i (k :: ·)).flatten.Perm (k :: bs.flatten) := by
    induction bs generalizing i with
    | nil => cases hi
    | cons b bs ih =>
      cases i with
      | zero => exact List.Perm.refl _
      | succ i =>
        rw [List.modify_succ_cons, List.flatten_cons, List.flatten_cons]
        exact ((ih i (Nat.lt_of_succ_lt_succ hi)).append_left b).trans List.perm_middle
  unfold elements
  rw [insert_buckets hk]
  exact hmodify _ _ (index_lt hash t k)

theorem filed_insert (h : t.Filed hash) (hk : k ∉ t.elements) : (t.insert hash k).Filed hash := by
  intro i b hb k' hk'
  have hindex : (t.insert hash k).index hash k' = t.index hash k' := by
    rw [index, insert_buckets hk, List.length_modify]
    rfl
  rw [hindex]
  rw [insert_buckets hk, List.getElem?_modify, Option.map_eq_map, Option.map_eq_some_iff] at hb
  obtain ⟨b', hb', rfl⟩ := hb
  split_ifs at hk' with hi
  · rcases List.mem_cons.mp hk' with rfl | hk'
    · exact hi
    · exact h i b' hb' k' hk'
  · exact h i b' hb' k' hk'

end HashTable
