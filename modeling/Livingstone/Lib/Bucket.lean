import Mathlib.Tactic

/-! Tables of lists of values under keys. A value is put in front of the list of its key. -/

namespace Bucket

variable {κ ν : Type*} [DecidableEq κ]

/-- The list under the first entry with the key. -/
def find (table : List (κ × List ν)) (k : κ) : Option (List ν) :=
  match table with
  | [] => none
  | (k', vs) :: table => if k' = k then some vs else find table k

/-- The table with the value put to the first entry with the key, if there is one. -/
def update (table : List (κ × List ν)) (k : κ) (v : ν) : Option (List (κ × List ν)) :=
  match table with
  | [] => none
  | (k', vs) :: table =>
    if k' = k then some ((k', v :: vs) :: table)
    else (update table k v).map ((k', vs) :: ·)

def push (table : List (κ × List ν)) (k : κ) (v : ν) : List (κ × List ν) :=
  match update table k v with
  | some table => table
  | none => (k, [v]) :: table

theorem update_eq_none {table : List (κ × List ν)} {k : κ} {v : ν} :
    update table k v = none ↔ find table k = none := by
  induction table with
  | nil => simp [update, find]
  | cons entry table ih =>
    obtain ⟨k', vs⟩ := entry
    by_cases hk : k' = k <;> simp [update, find, hk, ih]

theorem find_update {table table' : List (κ × List ν)} {k : κ} {v : ν}
    (h : update table k v = some table') (k₁ : κ) :
    find table' k₁ = if k = k₁ then (find table k).map (v :: ·) else find table k₁ := by
  induction table generalizing table' with
  | nil => simp [update] at h
  | cons entry table ih =>
    obtain ⟨k', vs⟩ := entry
    by_cases hk : k' = k
    · subst hk
      simp only [update, if_true, Option.some.injEq] at h
      subst h
      by_cases hk₁ : k' = k₁ <;> simp [find, hk₁]
    · simp only [update, hk, if_false, Option.map_eq_some_iff] at h
      obtain ⟨rest, hrest, rfl⟩ := h
      have hfind := ih hrest
      by_cases hk₁ : k' = k₁
      · subst hk₁
        simp [find, Ne.symm hk]
      · simp [find, hk, hk₁, hfind]

theorem find_push (table : List (κ × List ν)) (k k₁ : κ) (v : ν) :
    find (push table k v) k₁ =
      if k = k₁ then some (v :: (find table k).getD []) else find table k₁ := by
  unfold push
  cases h : update table k v with
  | some table' =>
    have hsome : find table k ≠ none := by
      rw [Ne, ← update_eq_none (v := v), h]
      simp
    obtain ⟨vs, hvs⟩ := Option.ne_none_iff_exists'.mp hsome
    simp [find_update h, hvs]
  | none =>
    have hnone := update_eq_none.mp h
    simp [find, hnone]

end Bucket
