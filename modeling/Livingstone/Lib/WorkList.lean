import Mathlib.Data.Multiset.DershowitzManna
import Mathlib.Tactic

/-! A loop over a bag of work, each turn of which takes one piece out and puts smaller ones in
its place, comes to an end. -/

namespace WorkList

variable {σ α : Type*} [Preorder α]

/-- In `m'`, one piece of `m` has given way to smaller ones. -/
def Replaces (m m' : Multiset α) : Prop :=
  ∃ a rest new, m = a ::ₘ rest ∧ m' = new + rest ∧ ∀ b ∈ new, b < a

theorem Replaces.lt {m m' : Multiset α} (h : Replaces m m') : m'.IsDershowitzMannaLT m := by
  obtain ⟨a, rest, new, rfl, rfl, hlt⟩ := h
  refine ⟨rest, new, {a}, Multiset.singleton_ne_zero a, add_comm new rest, ?_, ?_⟩
  · rw [add_comm, Multiset.singleton_add]
  · intro b hb
    exact ⟨a, Multiset.mem_singleton_self a, hlt b hb⟩

theorem exists_iterate_stop [WellFoundedLT α] (step : σ → σ) (stop : σ → Prop)
    (bag : σ → Multiset α) (I : σ → Prop)
    (hstep : ∀ s, I s → ¬ stop s → I (step s) ∧ Replaces (bag s) (bag (step s))) {s : σ} (hs : I s) :
    ∃ K, stop (step^[K] s) := by
  generalize hm : bag s = m
  have hwf : WellFounded (Multiset.IsDershowitzMannaLT : Multiset α → Multiset α → Prop) :=
    Multiset.wellFounded_isDershowitzMannaLT
  induction m using hwf.induction generalizing s with
  | _ m ih =>
    by_cases hstop : stop s
    · exact ⟨0, hstop⟩
    · obtain ⟨hI, hreplaces⟩ := hstep s hs hstop
      obtain ⟨K, hK⟩ := ih _ (hm ▸ hreplaces.lt) hI rfl
      exact ⟨K + 1, hK⟩

end WorkList
