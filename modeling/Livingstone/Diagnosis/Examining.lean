import Livingstone.Diagnosis.Nogoods

/-! What the engine does with a candidate, over any state: it installs it, says whether it is
consistent, and drops those of its own that are not. -/

namespace Livingstone
namespace Engine

open Classical
open UnitProp (Contradicts Derives)

variable {D : Assignables} {e e' : Engine} {candidate : Candidate}

/-- Only the assumptions have other values, and the conflicts stay justified. -/
structure Searched (D : Assignables) (e e' : Engine) : Prop where
  inv : e'.Inv D
  ground : SameGround D e e'
  others : ∀ v, v ∉ e.assumptions → e'.current v = e.current v
  candidates : e'.candidates = e.candidates
  justified : e.Justified D → e'.Justified D

namespace Searched

theorem refl (h : e.Inv D) : Searched D e e := ⟨h, SameGround.refl D e, fun _ _ => rfl, rfl, id⟩

theorem trans {e'' : Engine} (h : Searched D e e') (h' : Searched D e' e'') : Searched D e e'' where
  inv := h'.inv
  ground := h.ground.trans h'.ground
  others v hv :=
    (h'.others v (h.ground.reassigned.assumptions.symm ▸ hv)).trans (h.others v hv)
  candidates := h'.candidates.trans h.candidates
  justified hj := h'.justified (h.justified hj)

theorem legal (h : Searched D e e') (hlegal : candidate.Legal (e.space D)) :
    candidate.Legal (e'.space D) := by
  rwa [h.ground.space]

end Searched

theorem adopt_searched (h : e.Inv D) (hlegal : candidate.Legal (e.space D)) :
    ∃ e', e.adopt D candidate = .ok e' ∧ Searched D e e' ∧ e.Adopted D candidate e' := by
  obtain ⟨e', he', hinv, hmem, ha⟩ := adopt_spec h hlegal
  obtain ⟨hdb, hcandidates⟩ := Prod.mk.inj hmem
  have hground := ha.sameGround h hinv
  exact ⟨e', he', ⟨hinv, hground, ha.others, hcandidates, (hground.justified hdb).mpr⟩, ha⟩

theorem conflict_searched (h : e.Inv D) (tag : ℕ) :
    ∃ c e', e.conflict D tag = .ok (c, e') ∧ Searched D e e' ∧ e'.current = e.current ∧
      Answers e e' c := by
  obtain ⟨c, e', he', hinv, hground, hcur, hcandidates, ha, hj⟩ := conflict_spec h tag
  exact ⟨c, e', he', ⟨hinv, hground, fun v _ => congrFun hcur v, hcandidates, hj⟩, hcur, ha⟩

/-- There is no conflict if and only if the theory of the engine is not contradictory. -/
theorem Answers.eq_none_iff {c : Option ConflictId} (h : Answers e e' c) :
    c = none ↔ ¬ Contradicts e.solver.theory := by
  cases c with
  | none => exact iff_of_true rfl h.1
  | some c => exact iff_of_false (Option.some_ne_none c) (not_not_intro h.1)

theorem examine_spec (h : e.Inv D) (hlegal : candidate.Legal (e.space D)) (tag : ℕ) :
    ∃ c e', e.examine D tag candidate = .ok (c, e') ∧ Searched D e e' ∧
      (c = none ↔ e.Consistent D candidate.toFinset) ∧
      (e.Justified D →
        (e.space D).SoundAnswer (e.Consistent D) candidate (c.map e'.db.conflict)) := by
  obtain ⟨e₁, he₁, hs₁, ha⟩ := adopt_searched h hlegal
  obtain ⟨c, e₂, he₂, hs₂, -, hanswer⟩ := conflict_searched hs₁.inv tag
  have hnone := hanswer.eq_none_iff
  rw [ha.theory h hs₁.inv] at hnone
  refine ⟨c, e₂, ?_, hs₁.trans hs₂, hnone, fun hj => ?_⟩
  · unfold examine
    rw [he₁]
    exact he₂
  · cases c with
    | none => exact hnone.mp rfl
    | some c =>
      obtain ⟨-, hmem, hassumed⟩ := hanswer
      have hnogood : e.Nogood D (e₂.db.conflict c).assignments :=
        ((hs₁.trans hs₂).ground.nogood _).mp ((hs₁.trans hs₂).justified hj c hmem)
      rw [ha.assumed] at hassumed
      refine ⟨hassumed, fun Δ _ hcons => ?_⟩
      by_contra hall
      push Not at hall
      refine hcons (UnitProp.Contradicts.mono (under_mono fun a ha => ?_) hnogood.2)
      exact ⟨(hnogood.1 a ha).1, hall a ha⟩

/-- The values that are derived from the background and the candidate. -/
def Infers (D : Assignables) (e : Engine) (candidate : Candidate) (s : Ltms) : Prop :=
  ∀ p, (s.value p = .ptrue ↔ Derives (e.under D (e.holding D candidate.toFinset)) (p, true)) ∧
    (s.value p = .pfalse ↔ Derives (e.under D (e.holding D candidate.toFinset)) (p, false))

theorem install_spec (h : e.Inv D) (hlegal : candidate.Legal (e.space D)) (propagate : Bool) :
    ∃ e', e.install D candidate propagate = .ok e' ∧ Searched D e e' ∧
      e.Adopted D candidate e' ∧
      (propagate = true → e.Consistent D candidate.toFinset → e.Infers D candidate e'.solver) := by
  obtain ⟨e₁, he₁, hs₁, ha⟩ := adopt_searched h hlegal
  unfold install
  cases propagate with
  | false =>
    exact ⟨e₁, by simp [he₁, bind, Except.bind, pure, Except.pure], hs₁, ha, fun hf => by cases hf⟩
  | true =>
    obtain ⟨b, s, hs, hinv, ho, hquiet, hb⟩ := hs₁.inv.solver.propagate
    obtain ⟨hinv₂, hground⟩ := hs₁.inv.outline hinv ho
    have hs₂ : Searched D e₁ { e₁ with solver := s } :=
      ⟨hinv₂, hground, fun _ _ => rfl, rfl, (hground.justified rfl).mpr⟩
    refine ⟨{ e₁ with solver := s }, ?_, hs₁.trans hs₂,
      ⟨ha.reassigned.trans hground.reassigned, ha.holds, ha.others⟩, fun _ hcons p => ?_⟩
    · simp only [he₁, hs, bind, Except.bind, if_true]
      rfl
    · have htheory := ha.theory h hs₁.inv
      have hq : s.Quiet := by
        refine hquiet (hb.mpr ?_)
        rw [htheory]
        exact hcons
      rw [← htheory, ← ho.theory, ← Ltms.litVal_true_iff.1, ← Ltms.litVal_true_iff.2]
      exact ⟨hinv.litVal_iff_derives hq _, hinv.litVal_iff_derives hq _⟩

/-- The consistent ones, in their order. -/
noncomputable def consistentOnes (D : Assignables) (e : Engine) (candidates : List Candidate) :
    List Candidate :=
  candidates.filter fun candidate => decide (e.Consistent D candidate.toFinset)

theorem SameGround.consistentOnes (h : SameGround D e e') (candidates : List Candidate) :
    e'.consistentOnes D candidates = e.consistentOnes D candidates := by
  unfold Engine.consistentOnes
  simp only [h.consistent]

theorem pruneLoop_spec (h : e.Inv D) {candidates : List Candidate}
    (hlegal : ∀ candidate ∈ candidates, candidate.Legal (e.space D)) (timestep : ℕ) :
    ∃ e', pruneLoop D timestep candidates e = .ok (e.consistentOnes D candidates, e') ∧
      Searched D e e' := by
  induction candidates generalizing e with
  | nil => exact ⟨e, rfl, Searched.refl h⟩
  | cons candidate candidates ih =>
    obtain ⟨hcand, hrest⟩ := List.forall_mem_cons.mp hlegal
    obtain ⟨e₁, he₁, hs₁, ha, -⟩ := install_spec h hcand true
    obtain ⟨c, e₂, he₂, hs₂, -, hanswer⟩ := conflict_searched hs₁.inv timestep
    have hs := hs₁.trans hs₂
    obtain ⟨e₃, he₃, hs₃⟩ := ih hs.inv fun k hk => hs.legal (hrest k hk)
    have hnone := hanswer.eq_none_iff
    rw [ha.theory h hs₁.inv] at hnone
    refine ⟨e₃, ?_, hs.trans hs₃⟩
    unfold pruneLoop
    simp only [he₁, he₂, he₃, bind, Except.bind, hs.ground.consistentOnes]
    unfold consistentOnes
    rw [List.filter_cons]
    cases c with
    | none => simp [Consistent, hnone.mp rfl, pure, Except.pure]
    | some c =>
      have hcon : Contradicts (e.under D (e.holding D candidate.toFinset)) := by
        by_contra hnot
        cases hnone.mpr hnot
      simp [Consistent, hcon, pure, Except.pure]

end Engine

end Livingstone
