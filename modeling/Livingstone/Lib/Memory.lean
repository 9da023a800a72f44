import Mathlib.Tactic

/-! Blocks of memory that do not overlap, each inside one of the chunks that the memory consists
of. -/

namespace Memory

structure Block where
  base : ℕ
  size : ℕ
  deriving DecidableEq, Repr

namespace Block

def Apart (b c : Block) : Prop := b.base + b.size ≤ c.base ∨ c.base + c.size ≤ b.base

def Inside (b c : Block) : Prop := c.base ≤ b.base ∧ b.base + b.size ≤ c.base + c.size

instance (b c : Block) : Decidable (b.Apart c) := inferInstanceAs (Decidable (_ ∨ _))

variable {b b' c d : Block}

theorem Apart.symm (h : b.Apart c) : c.Apart b := Or.symm h

theorem Inside.refl (b : Block) : b.Inside b := ⟨le_rfl, le_rfl⟩

theorem Inside.trans (h : b.Inside c) (h' : c.Inside d) : b.Inside d :=
  ⟨h'.1.trans h.1, h.2.trans h'.2⟩

theorem Apart.mono (h : c.Apart d) (hb : b.Inside c) : b.Apart d := by
  rcases h with h | h
  · exact Or.inl (hb.2.trans h)
  · exact Or.inr (h.trans hb.1)

end Block

/-- The blocks do not overlap, and neither do the chunks. -/
structure Packed (chunks blocks : List Block) : Prop where
  chunksApart : chunks.Pairwise Block.Apart
  blocksApart : blocks.Pairwise Block.Apart
  inside : ∀ b ∈ blocks, ∃ c ∈ chunks, b.Inside c

namespace Packed

variable {chunks blocks blocks' : List Block} {b c : Block} {a m n : ℕ}

theorem perm (h : Packed chunks blocks) (hperm : blocks.Perm blocks') : Packed chunks blocks' :=
  ⟨h.chunksApart, (hperm.pairwise_iff Block.Apart.symm).mp h.blocksApart,
    fun b hb => h.inside b (hperm.mem_iff.mpr hb)⟩

theorem reset (h : chunks.Pairwise Block.Apart) : Packed chunks chunks :=
  ⟨h, h, fun b hb => ⟨b, hb, Block.Inside.refl b⟩⟩

theorem sublist (h : Packed chunks blocks) (hsub : blocks'.Sublist blocks) : Packed chunks blocks' :=
  ⟨h.chunksApart, h.blocksApart.sublist hsub, fun b hb => h.inside b (hsub.subset hb)⟩

theorem shrink (h : Packed chunks (b :: blocks)) (hc : c.Inside b) : Packed chunks (c :: blocks) := by
  obtain ⟨hb, hblocks⟩ := List.pairwise_cons.mp h.blocksApart
  obtain ⟨hinside, hrest⟩ := List.forall_mem_cons.mp h.inside
  obtain ⟨d, hd, hbd⟩ := hinside
  exact ⟨h.chunksApart, List.pairwise_cons.mpr ⟨fun d hd => (hb d hd).mono hc, hblocks⟩,
    List.forall_mem_cons.mpr ⟨⟨d, hd, hc.trans hbd⟩, hrest⟩⟩

theorem split (h : Packed chunks (⟨a, m + n⟩ :: blocks)) :
    Packed chunks (⟨a, m⟩ :: ⟨a + m, n⟩ :: blocks) := by
  have hleft : (⟨a, m⟩ : Block).Inside ⟨a, m + n⟩ := ⟨le_rfl, by dsimp only; omega⟩
  have hright : (⟨a + m, n⟩ : Block).Inside ⟨a, m + n⟩ :=
    ⟨Nat.le_add_right a m, by dsimp only; omega⟩
  have h₁ := h.shrink hleft
  have h₂ := h.shrink hright
  refine ⟨h.chunksApart, List.pairwise_cons.mpr ⟨?_, h₂.blocksApart⟩, List.forall_mem_cons.mpr ⟨?_, h₂.inside⟩⟩
  · exact List.forall_mem_cons.mpr ⟨Or.inl le_rfl, (List.pairwise_cons.mp h₁.blocksApart).1⟩
  · exact h₁.inside _ List.mem_cons_self

theorem grow (h : Packed chunks blocks) (hc : ∀ d ∈ chunks, c.Apart d) :
    Packed (c :: chunks) (c :: blocks) := by
  refine ⟨List.pairwise_cons.mpr ⟨hc, h.chunksApart⟩, List.pairwise_cons.mpr ⟨fun b hb => ?_, h.blocksApart⟩,
    List.forall_mem_cons.mpr ⟨⟨c, List.mem_cons_self, Block.Inside.refl c⟩, fun b hb => ?_⟩⟩
  · obtain ⟨d, hd, hbd⟩ := h.inside b hb
    exact ((hc d hd).symm.mono hbd).symm
  · obtain ⟨d, hd, hbd⟩ := h.inside b hb
    exact ⟨d, List.mem_cons_of_mem c hd, hbd⟩

end Packed

end Memory
