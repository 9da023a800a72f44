import Livingstone.Diagnosis.Assigning
import Livingstone.Diagnosis.Tracker
import Livingstone.Opsat.Frontier

/-! A candidate is adopted: the assumptions are given their defaults and then the values of the
candidate. What the assumptions had before is of no consequence. -/

namespace Livingstone
namespace Engine

open Function (update update_self update_of_ne)

variable {D : Assignables} {e e' : Engine} {a b : Assignment} {v : VarId}
  {assignments : List Assignment} {candidate : Candidate}

def overwrite (current : VarId → Option Assignment) (assignments : List Assignment) :
    VarId → Option Assignment :=
  assignments.foldl (fun current a => update current a.var (some a)) current

theorem overwrite_append (current : VarId → Option Assignment) (as bs : List Assignment) :
    overwrite current (as ++ bs) = overwrite (overwrite current as) bs := List.foldl_append

theorem overwrite_of_ne (current : VarId → Option Assignment)
    (h : ∀ a ∈ assignments, a.var ≠ v) : overwrite current assignments v = current v := by
  induction assignments generalizing current with
  | nil => rfl
  | cons a assignments ih =>
    obtain ⟨ha, h⟩ := List.forall_mem_cons.mp h
    exact (ih _ h).trans (update_of_ne (Ne.symm ha) _ _)

theorem overwrite_of_mem (current : VarId → Option Assignment) (ha : a ∈ assignments)
    (hunique : ∀ b ∈ assignments, b.var = a.var → b = a) :
    overwrite current assignments a.var = some a := by
  induction assignments using List.reverseRecOn with
  | nil => cases ha
  | append_singleton assignments b ih =>
    rw [overwrite_append]
    by_cases hb : b.var = a.var
    · obtain rfl := hunique b (by simp) hb
      exact update_self _ _ _
    · have hmem : a ∈ assignments := by
        refine (List.mem_append.mp ha).resolve_right fun hmem => hb ?_
        rw [List.mem_singleton.mp hmem]
      refine (update_of_ne (Ne.symm hb) _ _).trans (ih hmem fun c hc => hunique c ?_)
      exact List.mem_append_left _ hc

theorem assignCandidate_spec (h : e.Inv D) (hknown : ∀ a ∈ assignments, e.Known D a) :
    ∃ e', e.assignCandidate assignments = .ok e' ∧ e'.Inv D ∧ e.Reassigned e' ∧ e'.memory = e.memory ∧
      e'.current = overwrite e.current assignments := by
  induction assignments generalizing e with
  | nil => exact ⟨e, rfl, h, Reassigned.refl e, rfl, rfl⟩
  | cons a assignments ih =>
    obtain ⟨ha, hrest⟩ := List.forall_mem_cons.mp hknown
    obtain ⟨e₁, he₁, hinv, hre, hmem, hcur⟩ := assign_spec h ha
    obtain ⟨e₂, he₂, hinv₂, hre₂, hmem₂, hcur₂⟩ :=
      ih hinv fun b hb => (hre.known b).mpr (hrest b hb)
    refine ⟨e₂, ?_, hinv₂, hre.trans hre₂, hmem₂.trans hmem, ?_⟩
    · unfold assignCandidate at he₂ ⊢
      rw [List.foldlM_cons, he₁]
      exact he₂
    · rw [hcur₂, hcur]
      rfl

/-- The default assignments of the assumptions. -/
def defaults (D : Assignables) (e : Engine) : List Assignment :=
  e.assumptions.map D.defaultAssignment

theorem restoreAssumptionDefaults_eq (D : Assignables) (e : Engine) :
    e.restoreAssumptionDefaults D = e.assignCandidate (e.defaults D) := by
  unfold restoreAssumptionDefaults assignCandidate defaults
  rw [List.foldlM_map]
  rfl

theorem adopt_eq (D : Assignables) (candidate : Candidate) (e : Engine) :
    e.adopt D candidate = e.assignCandidate (e.defaults D ++ candidate) := by
  unfold adopt
  rw [restoreAssumptionDefaults_eq]
  unfold assignCandidate
  rw [List.foldlM_append]

theorem Inv.default_var (h : e.Inv D) (hv : v ∈ e.assumptions) :
    (D.defaultAssignment v).var = v ∧ e.Known D (D.defaultAssignment v) := by
  obtain ⟨hmem, hassumption⟩ := (h.assumptions v).mp hv
  have hdefault := D.default_mem v hassumption
  have hvar := D.var_eq v _ hdefault
  exact ⟨hvar, by rw [hvar]; exact hmem, by rw [hvar]; exact hdefault⟩

theorem space_eq (hassumptions : e'.assumptions = e.assumptions) : e'.space D = e.space D := by
  unfold space
  rw [hassumptions]

theorem Inv.known_of_space (h : e.Inv D) (ha : (e.space D).Known a) :
    e.Known D a ∧ D.isAssumption a.var = true := by
  obtain ⟨hmem, hassumption⟩ := (h.assumptions a.var).mp ha.1
  exact ⟨⟨hmem, ha.2⟩, hassumption⟩

theorem Inv.space_known (h : e.Inv D) (ha : e.Known D a) (hassumption : D.isAssumption a.var = true) :
    (e.space D).Known a := ⟨(h.assumptions a.var).mpr ⟨ha.1, hassumption⟩, ha.2⟩

/-- Every assumption has the value that the candidate or else its default says, and the other
assignables have theirs. -/
structure Adopted (D : Assignables) (e : Engine) (candidate : Candidate) (e' : Engine) : Prop where
  reassigned : e.Reassigned e'
  holds : ∀ a, a.var ∈ e.assumptions →
    (e'.current a.var = some a ↔ D.Holds candidate.toFinset a)
  others : ∀ v, v ∉ e.assumptions → e'.current v = e.current v

theorem overwrite_defaults (h : e.Inv D) (hlegal : candidate.Legal (e.space D))
    (ha : a.var ∈ e.assumptions) :
    overwrite e.current (e.defaults D ++ candidate) a.var = some a ↔
      D.Holds candidate.toFinset a := by
  rw [overwrite_append]
  by_cases hex : ∃ b ∈ candidate, b.var = a.var
  · obtain ⟨b, hb, hvar⟩ := hex
    have hunique : ∀ c ∈ candidate, c.var = b.var → c = b := fun c hc hcb =>
      hlegal.wellFormed.eq_of_var hc hb hcb
    rw [← hvar, overwrite_of_mem _ hb hunique]
    refine ⟨fun heq => Or.inl (Option.some.inj heq ▸ List.mem_toFinset.mpr hb), fun hholds => ?_⟩
    rcases hholds with hmem | ⟨-, hnone⟩
    · rw [hunique a (List.mem_toFinset.mp hmem) hvar.symm]
    · exact absurd hvar (hnone b (List.mem_toFinset.mpr hb))
  · push Not at hex
    obtain ⟨hvar, -⟩ := h.default_var ha
    have hmem : D.defaultAssignment a.var ∈ e.defaults D := List.mem_map_of_mem ha
    have hunique : ∀ c ∈ e.defaults D, c.var = (D.defaultAssignment a.var).var →
        c = D.defaultAssignment a.var := by
      intro c hc hcv
      obtain ⟨w, hw, rfl⟩ := List.mem_map.mp hc
      rw [(h.default_var hw).1, hvar] at hcv
      rw [hcv]
    have hcur := overwrite_of_mem e.current hmem hunique
    rw [hvar] at hcur
    rw [overwrite_of_ne _ hex, hcur]
    have hassumption := ((h.assumptions a.var).mp ha).2
    refine ⟨fun heq => Or.inr ⟨?_, fun b hb => hex b (List.mem_toFinset.mp hb)⟩, fun hholds => ?_⟩
    · unfold Assignables.isDefault
      rw [hassumption, Bool.true_and]
      exact decide_eq_true (Option.some.inj heq).symm
    · rcases hholds with hmem | ⟨hdefault, -⟩
      · exact absurd rfl (hex a (List.mem_toFinset.mp hmem))
      · simp only [Assignables.isDefault, Bool.and_eq_true, decide_eq_true_eq] at hdefault
        rw [← hdefault.2]

theorem adopt_spec (h : e.Inv D) (hlegal : candidate.Legal (e.space D)) :
    ∃ e', e.adopt D candidate = .ok e' ∧ e'.Inv D ∧ e'.memory = e.memory ∧ e.Adopted D candidate e' := by
  have hknown : ∀ a ∈ e.defaults D ++ candidate, e.Known D a := by
    intro a ha
    rcases List.mem_append.mp ha with ha | ha
    · obtain ⟨w, hw, rfl⟩ := List.mem_map.mp ha
      exact (h.default_var hw).2
    · exact (h.known_of_space (hlegal.known a ha)).1
  obtain ⟨e', he', hinv, hre, hmem, hcur⟩ := assignCandidate_spec h hknown
  refine ⟨e', (adopt_eq D candidate e).trans he', hinv, hmem, hre, fun a ha => ?_, fun v hv => ?_⟩
  · rw [hcur]
    exact overwrite_defaults h hlegal ha
  · rw [hcur]
    refine overwrite_of_ne _ fun a ha hav => hv ?_
    rcases List.mem_append.mp ha with ha | ha
    · obtain ⟨w, hw, rfl⟩ := List.mem_map.mp ha
      rw [← hav, (h.default_var hw).1]
      exact hw
    · exact hav ▸ (hlegal.known a ha).1

end Engine

end Livingstone
