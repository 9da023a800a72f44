import Mathlib.Tactic

/-! Insertion into a list after the first element that is not smaller. It puts a smaller element
after a larger one, and nothing moves it later. -/

namespace Insertion

variable {α β : Type*} [LinearOrder β] (key : α → β)

def insertAfter (a : α) : List α → List α
  | [] => [a]
  | b :: l => if key b < key a then b :: insertAfter a l else b :: a :: l

def insertAll (as l : List α) : List α := as.foldl (fun l a => insertAfter key a l) l

def Sorted (l : List α) : Prop := l.Pairwise fun a b => key a ≤ key b

/-- The new element is larger than all that are there, or equal to one of them. -/
def Fits (l : List α) (a : α) : Prop := (∀ b ∈ l, key b < key a) ∨ ∃ b ∈ l, key b = key a

variable {key} {a : α} {as l : List α}

theorem perm_insertAfter : (insertAfter key a l).Perm (a :: l) := by
  induction l with
  | nil => exact List.Perm.refl _
  | cons b l ih =>
    unfold insertAfter
    split_ifs
    · exact (ih.cons b).trans (List.Perm.swap a b l)
    · exact List.Perm.swap a b l

theorem mem_insertAfter {b : α} : b ∈ insertAfter key a l ↔ b = a ∨ b ∈ l := by
  rw [perm_insertAfter.mem_iff, List.mem_cons]

theorem sorted_insertAfter : Sorted key (insertAfter key a l) ↔ Sorted key l ∧ Fits key l a := by
  unfold Sorted
  induction l with
  | nil => simp [insertAfter, Fits]
  | cons b l ih =>
    unfold insertAfter
    split_ifs with hb
    · have hfits : Fits key (b :: l) a ↔ Fits key l a := by
        simp [Fits, hb, hb.ne]
      simp only [List.pairwise_cons, ih, hfits, mem_insertAfter, forall_eq_or_imp, hb.le, true_and,
        and_assoc]
    · have hle : key a ≤ key b := not_lt.mp hb
      rw [List.pairwise_cons, List.pairwise_cons, List.pairwise_cons, List.forall_mem_cons]
      constructor
      · intro ⟨⟨hba, hbl⟩, _, hl⟩
        exact ⟨⟨hbl, hl⟩, Or.inr ⟨b, List.mem_cons_self, le_antisymm hba hle⟩⟩
      · intro ⟨⟨hbl, hl⟩, hfits⟩
        have hba : key b ≤ key a := by
          rcases hfits with hlt | ⟨c, hc, hca⟩
          · exact absurd (hlt b List.mem_cons_self) hb
          · rcases List.mem_cons.mp hc with rfl | hc
            · exact hca.le
            · exact (hbl c hc).trans hca.le
        exact ⟨⟨hba, hbl⟩, fun c hc => hle.trans (hbl c hc), hl⟩

theorem perm_insertAll : (insertAll key as l).Perm (as ++ l) := by
  unfold insertAll
  induction as generalizing l with
  | nil => exact List.Perm.refl _
  | cons a as ih =>
    rw [List.foldl_cons]
    refine ih.trans ?_
    exact (perm_insertAfter.append_left as).trans List.perm_middle

omit [LinearOrder β] in
theorem foldl_iff {σ : Type*} {f : σ → α → σ} {P : σ → Prop} {Q : σ → α → Prop}
    (hf : ∀ s a, P (f s a) ↔ P s ∧ Q s a) (as : List α) (s : σ) :
    P (as.foldl f s) ↔ P s ∧ ∀ as₁ a as₂, as = as₁ ++ a :: as₂ → Q (as₁.foldl f s) a := by
  induction as using List.reverseRecOn with
  | nil => simp
  | append_singleton as a ih =>
    rw [List.foldl_append, List.foldl_cons, List.foldl_nil, hf, ih, and_assoc]
    refine and_congr_right fun _ => ?_
    constructor
    · intro ⟨hall, ha⟩ as₁ b as₂ he
      rcases List.eq_nil_or_concat as₂ with rfl | ⟨as₃, c, rfl⟩
      · obtain ⟨rfl, hab⟩ := List.append_inj' he rfl
        exact (List.cons.inj hab).1 ▸ ha
      · rw [List.concat_eq_append, ← List.cons_append, ← List.append_assoc] at he
        exact hall as₁ b as₃ (List.append_inj' he rfl).1
    · intro hall
      refine ⟨fun as₁ b as₂ he => hall as₁ b (as₂ ++ [a]) ?_, hall as a [] rfl⟩
      rw [he, List.append_assoc, List.cons_append]

theorem sorted_insertAll :
    Sorted key (insertAll key as []) ↔ ∀ as₁ a as₂, as = as₁ ++ a :: as₂ → Fits key as₁ a := by
  have hfits (as₁ : List α) (a : α) : Fits key (insertAll key as₁ []) a ↔ Fits key as₁ a := by
    have hmem (b : α) : b ∈ insertAll key as₁ [] ↔ b ∈ as₁ := by
      rw [perm_insertAll.mem_iff, List.append_nil]
    simp only [Fits, hmem]
  have hloop := foldl_iff (P := Sorted key) (Q := Fits key)
    (f := fun l a => insertAfter key a l) (fun _ _ => sorted_insertAfter) as []
  have hnil : Sorted key ([] : List α) := List.Pairwise.nil
  rw [and_iff_right hnil] at hloop
  refine hloop.trans ?_
  exact forall₄_congr fun as₁ a _ _ => hfits as₁ a

end Insertion
