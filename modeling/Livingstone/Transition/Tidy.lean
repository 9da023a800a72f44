import Livingstone.Transition.Growth

/-! The invariant of the histories: the observables of the present and their copies in the past form
chains of their own, whatever is done to the other variables. -/

namespace Livingstone
namespace Transition

open Function (update update_self update_of_ne)

variable {σ : Type} {S : Solver σ} {s s₁ s' : TSystem σ} {K : Set Ref} {r v : Ref}

def IsTransition (s : TSystem σ) (t : Ref) : Prop :=
  t ∈ s.variableList ∧ s.kindOf t = .transition

/-- `K` has the observables and their copies. -/
structure Tidy (K : Set Ref) (s : TSystem σ) : Prop where
  listed : Listed s
  bounded : ∀ x ∈ s.variableList, ∀ y : ℕ,
    s.links.previous x = some y ∨ s.links.next x = some y → y < s.fresh
  observed : ∀ x ∈ K, x ∈ s.variableList ∧ (s.kindOf x).isAssumption = false ∧
    (x ∈ s.present → s.kindOf x = .observable)
  consistent : Chain.Consistent s.links K
  apart : Chain.Apart s.links {x | x ∈ s.variableList ∧ x ∉ K} K
  chain : ∀ v ∈ s.present, s.kindOf v = .observable → v ∈ K ∧
    ∃ l, Chain.Follows s.links v l ∧ (v :: l).Nodup ∧ ∀ x ∈ l, x ∈ K ∧ x ∉ s.present
  present : ∀ v ∈ s.present, v ∈ s.variableList ∧ s.timeOf v = now
  modes : ∀ m ∈ s.present, s.kindOf m = .transitioned →
    IsTransition s (s.modeCell m).zenithTransition ∧
      IsTransition s (s.modeCell m).horizonTransition ∧
      s.timeOf (s.modeCell m).horizonTransition = now
  assumptions : ∀ x ∈ s.assumptions, x < s.fresh ∧ (s.kindOf x).isAssumption = true
  candidates : ∀ c ∈ s.candidates, ∀ a ∈ c, a.1 < s.fresh ∧ (s.kindOf a.1).isAssumption = true

theorem Tidy.lt (h : Tidy K s) (hr : r ∈ s.variableList) : r < s.fresh := h.listed.2 r hr

theorem Tidy.mem_lt (h : Tidy K s) (hr : r ∈ K) : r < s.fresh := h.lt (h.observed r hr).1

theorem Tidy.not_mem (h : Tidy K s) (hr : (s.kindOf r).isAssumption = true) : r ∉ K := by
  intro hK
  rw [(h.observed r hK).2.1] at hr
  exact Bool.false_ne_true hr

theorem Tidy.transition_not_mem (h : Tidy K s) (hr : IsTransition s r) : r ∉ K :=
  h.not_mem (by rw [hr.2]; rfl)

theorem Tidy.grows (h : Tidy K s) (hg : Grows s s') : Tidy K s' := by
  have hpresent : s'.present = s.present := by
    unfold TSystem.present
    rw [hg.present]
  have hprevious : ∀ x ∈ K, s'.links.previous x = s.links.previous x :=
    fun x hx => (hg.links x (h.mem_lt hx)).1
  have hnext : ∀ x ∈ K, s'.links.next x = s.links.next x :=
    fun x hx => (hg.links x (h.mem_lt hx)).2
  have hkind {x : Ref} (hx : x < s.fresh) : s'.kindOf x = s.kindOf x := (hg.cell x hx).1
  have htransition {t : Ref} (ht : IsTransition s t) : IsTransition s' t :=
    ⟨(hg.list t).mpr (Or.inl ht.1), (hkind (h.lt ht.1)).trans ht.2⟩
  constructor
  case listed => exact hg.listed h.listed
  case bounded =>
    intro x hx y hy
    rcases (hg.list x).mp hx with hx | hx
    · obtain ⟨hp, hn⟩ := hg.links x (h.lt hx)
      rw [hp, hn] at hy
      exact (h.bounded x hx y hy).trans_le hg.fresh
    · obtain ⟨hp, hn⟩ := hg.added x hx.1 hx.2
      rw [hp, hn] at hy
      simp at hy
  case observed =>
    intro x hx
    obtain ⟨hlist, hassumption, hobservable⟩ := h.observed x hx
    rw [hpresent, hkind (h.mem_lt hx)]
    exact ⟨(hg.list x).mpr (Or.inl hlist), hassumption, hobservable⟩
  case consistent => exact h.consistent.congr hprevious hnext
  case apart =>
    intro a ⟨ha, haK⟩ b hb
    rcases (hg.list a).mp ha with ha | ha
    · obtain ⟨hp, hn⟩ := hg.links a (h.lt ha)
      rw [hp, hn]
      exact h.apart a ⟨ha, haK⟩ b hb
    · obtain ⟨hp, hn⟩ := hg.added a ha.1 ha.2
      rw [hp, hn]
      simp
  case chain =>
    rw [hpresent]
    intro v hv hobs
    rw [hkind (h.lt (h.present v hv).1)] at hobs
    obtain ⟨hvK, l, hl, hn, hK⟩ := h.chain v hv hobs
    refine ⟨hvK, l, hl.congr fun x hx => ?_, hn, hK⟩
    rcases List.mem_cons.mp hx with rfl | hx
    · exact hprevious x hvK
    · exact hprevious x (hK x hx).1
  case present =>
    rw [hpresent]
    intro v hv
    obtain ⟨hlist, htime⟩ := h.present v hv
    exact ⟨(hg.list v).mpr (Or.inl hlist), ((hg.cell v (h.lt hlist)).2.1).trans htime⟩
  case modes =>
    rw [hpresent]
    intro m hm hmode
    rw [hkind (h.lt (h.present m hm).1)] at hmode
    obtain ⟨hz, hh, htime⟩ := h.modes m hm hmode
    obtain ⟨hzenith, hhorizon⟩ := hg.modes m
    rw [hzenith, hhorizon]
    exact ⟨htransition hz, htransition hh, ((hg.cell _ (h.lt hh.1)).2.1).trans htime⟩
  case assumptions =>
    intro x hx
    rcases hg.assumptions x hx with hx | hx
    · obtain ⟨hlt, hassumption⟩ := h.assumptions x hx
      exact ⟨hlt.trans_le hg.fresh, (hkind hlt).symm ▸ hassumption⟩
    · exact ⟨hx.1.2, hx.2⟩
  case candidates =>
    rw [hg.candidates]
    intro c hc a ha
    obtain ⟨hlt, hassumption⟩ := h.candidates c hc a ha
    exact ⟨hlt.trans_le hg.fresh, (hkind hlt).symm ▸ hassumption⟩

theorem Tidy.history (h : Tidy K s) (hv : v ∈ s.present) (hobs : s.kindOf v = .observable) :
    ∃ l, s.history v = v :: l ∧ l.length < s.fresh ∧ Chain.Follows s.links v l ∧
      (v :: l).Nodup ∧ (∀ x ∈ v :: l, x ∈ K) ∧ ∀ x ∈ l, x ∉ s.present := by
  obtain ⟨hvK, l, hl, hn, hK⟩ := h.chain v hv hobs
  have hall : ∀ x ∈ v :: l, x ∈ K := List.forall_mem_cons.mpr ⟨hvK, fun x hx => (hK x hx).1⟩
  have hsub : v :: l ⊆ List.range s.fresh := fun x hx => List.mem_range.mpr (h.mem_lt (hall x hx))
  have hlen := (hn.subperm hsub).length_le
  rw [List.length_cons, List.length_range] at hlen
  exact ⟨l, Chain.walk_eq hl hlen, hlen, hl, hn, hall, fun x hx => (hK x hx).2⟩

theorem Tidy.same (h : Tidy K s) (hs : Same s s') : Tidy K s' := h.grows hs.grows

theorem Tidy.nextTimestep (h : Tidy K s) : Tidy K s.nextTimestep :=
  ⟨h.listed, h.bounded, h.observed, h.consistent, h.apart, h.chain, h.present, h.modes,
    h.assumptions, h.candidates⟩

theorem Tidy.setCandidates (h : Tidy K s) {cs : List Candidate}
    (hcs : ∀ c ∈ cs, ∀ a ∈ c, a.1 < s.fresh ∧ (s.kindOf a.1).isAssumption = true) :
    Tidy K { s with candidates := cs } :=
  ⟨h.listed, h.bounded, h.observed, h.consistent, h.apart, h.chain, h.present, h.modes,
    h.assumptions, hcs⟩

theorem Tidy.bounded_link (h : Tidy K s) {a b : Ref} (ha : a ∈ s.variableList)
    (hb : b ∈ s.variableList) : ∀ x ∈ s.variableList, ∀ y : ℕ,
      (s.links.insertPrevious a b).previous x = some y ∨
        (s.links.insertPrevious a b).next x = some y → y < s.fresh := by
  have hold : ∀ y : ℕ, (s.links.previous b).or (s.links.previous a) = some y → y < s.fresh := by
    intro y hy
    cases hp : s.links.previous b with
    | none =>
      rw [hp, Option.none_or] at hy
      exact h.bounded a ha y (Or.inl hy)
    | some p =>
      rw [hp, Option.some_or] at hy
      exact h.bounded b hb y (Or.inl (hp.trans hy))
  intro x hx y hy
  rw [Chain.previous_insertPrevious, Chain.next_insertPrevious] at hy
  rcases hy with hy | hy
  · split_ifs at hy with hxa hxb
    · exact Option.some.inj hy ▸ h.lt hb
    · exact hold y hy
    · exact h.bounded x hx y (Or.inl hy)
  · split_ifs at hy with hxb hprev
    · exact Option.some.inj hy ▸ h.lt ha
    · exact Option.some.inj hy ▸ h.lt hb
    · exact h.bounded x hx y (Or.inr hy)

theorem Tidy.link (h : Tidy K s) {a b : Ref} (ha : a ∈ s.variableList ∧ a ∉ K)
    (hb : b ∈ s.variableList ∧ b ∉ K) :
    Tidy K { s with links := s.links.insertPrevious a b } := by
  have hdisjoint : ∀ x ∈ {x | x ∈ s.variableList ∧ x ∉ K}, x ∉ K :=
    fun x hx hK => hx.2 hK
  obtain ⟨hprevious, hnext⟩ := h.apart.insertPrevious_eq ha hb hdisjoint
  refine ⟨h.listed, h.bounded_link ha.1 hb.1, h.observed, h.consistent.congr hprevious hnext,
    h.apart.insertPrevious ha hb hdisjoint, ?_, h.present, h.modes, h.assumptions, h.candidates⟩
  intro v hv hobs
  obtain ⟨hvK, l, hl, hn, hK⟩ := h.chain v hv hobs
  refine ⟨hvK, l, hl.congr fun x hx => ?_, hn, hK⟩
  rcases List.mem_cons.mp hx with rfl | hx
  · exact hprevious x hvK
  · exact hprevious x (hK x hx).1

theorem Tidy.link_observable (h : Tidy K s) (hr : r ∈ s.variableList ∧ r ∉ K)
    (hkind : (s.kindOf r).isAssumption = false) (hpresent : r ∉ s.present)
    (hprevious : s.links.previous r = none) (hnext : s.links.next r = none)
    (hunlinked : ∀ x ∈ s.variableList, s.links.previous x ≠ some r ∧ s.links.next x ≠ some r)
    (hv : v ∈ K) (hvp : v ∈ s.present) :
    Tidy (insert r K) { s with links := s.links.insertPrevious v r } := by
  have hrv : r ≠ v := fun heq => hr.2 (heq ▸ hv)
  have hfresh : Chain.Fresh s.links K r := ⟨hr.2, hprevious, hnext⟩
  refine ⟨h.listed, h.bounded_link (h.observed v hv).1 hr.1, ?_,
    h.consistent.insertPrevious hv hfresh, ?_, ?_, h.present, h.modes, h.assumptions, h.candidates⟩
  · intro x hx
    rcases hx with rfl | hx
    · exact ⟨hr.1, hkind, fun hxp => absurd hxp hpresent⟩
    · exact h.observed x hx
  · have hapart : Chain.Apart s.links {x | x ∈ s.variableList ∧ x ∉ insert r K} K := by
      intro a ha b hb
      exact h.apart a ⟨ha.1, fun haK => ha.2 (Set.mem_insert_of_mem r haK)⟩ b hb
    apply hapart.insertPrevious_mem h.consistent hv hfresh
    · intro hrD
      exact hrD.2 (Set.mem_insert r K)
    · exact fun x hx hK => hx.2 (Set.mem_insert_of_mem r hK)
    · intro x hx
      exact hunlinked x hx.1
  · intro w hw hobs
    obtain ⟨hwK, l, hl, hn, hK⟩ := h.chain w hw hobs
    have hrl : r ∉ l := fun hmem => hr.2 (hK r hmem).1
    obtain ⟨hwl, hnl⟩ := List.nodup_cons.mp hn
    refine ⟨Set.mem_insert_of_mem r hwK, ?_⟩
    by_cases hwv : w = v
    · subst hwv
      refine ⟨r :: l, hl.insertPrevious_head hprevious hrv hwl hrl, ?_, ?_⟩
      · have hwr : w ∉ r :: l := fun hmem => (List.mem_cons.mp hmem).elim (Ne.symm hrv) hwl
        exact List.nodup_cons.mpr ⟨hwr, List.nodup_cons.mpr ⟨hrl, hnl⟩⟩
      · intro x hx
        rcases List.mem_cons.mp hx with rfl | hx
        · exact ⟨Set.mem_insert _ _, hpresent⟩
        · exact ⟨Set.mem_insert_of_mem r (hK x hx).1, (hK x hx).2⟩
    · refine ⟨l, hl.congr fun x hx => ?_, hn, fun x hx => ?_⟩
      · have hxv : x ≠ v := by
          rcases List.mem_cons.mp hx with rfl | hx
          · exact hwv
          · exact fun heq => (hK x hx).2 (heq ▸ hvp)
        have hxr : x ≠ r := by
          rcases List.mem_cons.mp hx with rfl | hx
          · exact fun heq => hr.2 (heq ▸ hwK)
          · exact fun heq => hrl (heq ▸ hx)
        rw [Chain.previous_insertPrevious, if_neg hxv, if_neg hxr]
      · exact ⟨Set.mem_insert_of_mem r (hK x hx).1, (hK x hx).2⟩

theorem Tidy.setMode (h : Tidy K s) {m : Ref} {x : ModeCell}
    (hz : IsTransition s x.zenithTransition) (hh : IsTransition s x.horizonTransition)
    (htime : s.timeOf x.horizonTransition = now) : Tidy K (s.setMode m x) := by
  refine ⟨h.listed, h.bounded, h.observed, h.consistent, h.apart, h.chain, h.present, ?_,
    h.assumptions, h.candidates⟩
  intro q hq hmode
  by_cases hqm : q = m
  · have hcell : (s.setMode m x).modeCell q = x := by
      rw [hqm]
      exact update_self ..
    rw [hcell]
    exact ⟨hz, hh, htime⟩
  · have hcell : (s.setMode m x).modeCell q = s.modeCell q := update_of_ne hqm ..
    rw [hcell]
    exact h.modes q hq hmode

theorem copyInPast_created (S : Solver σ) (kind : Kind) (v : Ref) (s : TSystem σ) : ∃ s₁,
    Created kind s.timestep (s.copyInPast S kind v).1 s s₁ ∧ (s.copyInPast S kind v).2 =
      { s₁ with links := s₁.links.insertPrevious v (s.copyInPast S kind v).1 } := by
  unfold TSystem.copyInPast
  dsimp only
  split
  · exact ⟨_, newAssignable_created kind _ s.timestep _ s, rfl⟩
  · exact ⟨_, newVariable_created kind _ s.timestep _ s, rfl⟩

theorem Created.not_mem {kind : Kind} {timeStep : UInt32} (hc : Created kind timeStep r s s')
    {x : Ref} (hx : x < s.fresh) : x ≠ r := fun heq => (hc.ref ▸ heq ▸ hx).false

theorem Tidy.created (h : Tidy K s) {kind : Kind} {timeStep : UInt32}
    (hc : Created kind timeStep r s s') : Tidy K s' ∧ r ∈ s'.variableList ∧ r ∉ K ∧
      s'.links.previous r = none ∧ s'.links.next r = none ∧
      ∀ x ∈ s'.variableList, s'.links.previous x ≠ some r ∧ s'.links.next x ≠ some r := by
  refine ⟨h.grows hc.grows, (hc.list r).mpr (Or.inl rfl), ?_, ?_, ?_, ?_⟩
  · exact fun hmem => hc.not_mem (h.mem_lt hmem) rfl
  · rw [hc.links]
    exact update_self ..
  · rw [hc.links]
    exact update_self ..
  · intro x hx
    rcases (hc.list x).mp hx with rfl | hx
    · simp [hc.links, Chain.Links.clear]
    · obtain ⟨hp, hn⟩ := hc.grows.links x (h.lt hx)
      rw [hp, hn]
      exact ⟨fun hr => hc.not_mem (h.bounded x hx r (Or.inl hr)) rfl,
        fun hr => hc.not_mem (h.bounded x hx r (Or.inr hr)) rfl⟩

theorem Tidy.copyInPast (S : Solver σ) (h : Tidy K s) (kind : Kind) (hkind : kind.isAssumption = false)
    (hv : v ∈ s.present) : ∃ K', Tidy K' (s.copyInPast S kind v).2 ∧
      (s.copyInPast S kind v).2.presentVariables = s.presentVariables ∧
      ∀ x : ℕ, x < s.fresh → (s.copyInPast S kind v).2.kindOf x = s.kindOf x := by
  obtain ⟨s₁, hc, heq⟩ := copyInPast_created S kind v s
  rw [heq]
  generalize (s.copyInPast S kind v).1 = r at hc ⊢
  obtain ⟨h₁, hr, hrK, hprevious, hnext, hunlinked⟩ := h.created hc
  have hpresent : s₁.present = s.present := by
    unfold TSystem.present
    rw [hc.present]
  have hkinds : ∀ x : ℕ, x < s.fresh → s₁.kindOf x = s.kindOf x := fun x hx =>
    (hc.grows.cell x hx).1
  have hv₁ : v ∈ s₁.present := hpresent ▸ hv
  by_cases hvK : v ∈ K
  · refine ⟨insert r K, h₁.link_observable ⟨hr, hrK⟩ ?_ ?_ hprevious hnext hunlinked hvK hv₁,
      hc.present, hkinds⟩
    · rw [hc.kind]
      exact hkind
    · rw [hpresent]
      exact fun hmem => hc.not_mem (h.lt (h.present r hmem).1) rfl
  · exact ⟨K, h₁.link ⟨(h₁.present v hv₁).1, hvK⟩ ⟨hr, hrK⟩, hc.present, hkinds⟩

theorem createModeTransition_isTransition (S : Solver σ) (costs : List UInt32)
    (timeStep id : UInt32) (s : TSystem σ) :
    IsTransition (s.createModeTransition S costs timeStep id).2
        (s.createModeTransition S costs timeStep id).1 ∧
      (s.createModeTransition S costs timeStep id).2.timeOf
        (s.createModeTransition S costs timeStep id).1 = timeStep := by
  have hc := newAssignable_created (S := S) .transition costs timeStep id s
  have hs : Same _ (s.createModeTransition S costs timeStep id).2 :=
    same_assign (s := (s.createTransition S costs timeStep id).2)
      (s.createModeTransition S costs timeStep id).1 (some 0)
  have hcell := hs.cell (s.createModeTransition S costs timeStep id).1
  refine ⟨⟨?_, hcell.1.trans hc.kind⟩, hcell.2.1.trans hc.time⟩
  rw [hs.list]
  exact (hc.list _).mpr (Or.inl rfl)

theorem constrains_splice (m past : Ref) : Constrains s (s.splice S m past) := by
  have hmode : Constrains s (s.setMode m { s.modeCell m with transitionClauses := [] }) :=
    constrains_setMode rfl rfl
  exact ⟨⟨_, _, _, rfl⟩, hmode.modes⟩

/-- The invariant while the present variables stay the same. -/
def Tidied (s₀ s : TSystem σ) : Prop := ∃ K, Tidy K s ∧ s.presentVariables = s₀.presentVariables

theorem Tidied.present {s₀ : TSystem σ} (h : Tidied s₀ s) : s.present = s₀.present := by
  obtain ⟨K, -, hpresent⟩ := h
  unfold TSystem.present
  rw [hpresent]

theorem Tidied.grows {s₀ : TSystem σ} (h : Tidied s₀ s) (hg : Grows s s') : Tidied s₀ s' := by
  obtain ⟨K, hK, hpresent⟩ := h
  exact ⟨K, hK.grows hg, hg.present.trans hpresent⟩

theorem Tidied.same {s₀ : TSystem σ} (h : Tidied s₀ s) (hs : Same s s') : Tidied s₀ s' :=
  h.grows hs.grows

theorem Tidied.foldlM {α : Type} {s₀ : TSystem σ} {f : TSystem σ → α → Except L2Error (TSystem σ)}
    {l : List α} (hf : ∀ a ∈ l, ∀ s s', Tidied s₀ s → f s a = .ok s' → Tidied s₀ s')
    (h : Tidied s₀ s) (hs : l.foldlM f s = .ok s') : Tidied s₀ s' :=
  Loop.foldlM_inv (Tidied s₀) l (fun a ha s₁ s₂ h₁ hs => hf a ha s₁ s₂ h₁ hs) h hs

theorem Tidied.createTransitionVariable {s₀ : TSystem σ} {m : Ref} (h : Tidied s₀ s)
    (hm : m ∈ s₀.present) (hmode : s.kindOf m = .transitioned) :
    Tidied s₀ (s.createTransitionVariable S m) := by
  rw [← h.present] at hm
  obtain ⟨K, hK, hpresent⟩ := h
  obtain ⟨K₁, h₁, hpresent₁, hkinds⟩ := hK.copyInPast S .dependent rfl hm
  unfold TSystem.createTransitionVariable
  dsimp only
  generalize (s.copyInPast S .dependent m).1 = past
  have hlt : m < s.fresh := hK.lt (hK.present m hm).1
  have hmode₁ := (hkinds m hlt).trans hmode
  generalize (s.copyInPast S .dependent m).2 = s₁ at h₁ hpresent₁ hmode₁ ⊢
  have hm₁ : m ∈ s₁.present := by
    unfold TSystem.present at hm ⊢
    rwa [hpresent₁]
  have hg := grows_createModeTransition (S := S) (s₁.modeCell m).transitionCosts s₁.timestep
    (s₁.cell m).id s₁
  obtain ⟨ht, -⟩ := createModeTransition_isTransition S (s₁.modeCell m).transitionCosts
    s₁.timestep (s₁.cell m).id s₁
  obtain ⟨hz, hh, htime⟩ := h₁.modes m hm₁ hmode₁
  have htransition {t : Ref} (ht : IsTransition s₁ t) : IsTransition (s₁.createModeTransition S
      (s₁.modeCell m).transitionCosts s₁.timestep (s₁.cell m).id).2 t :=
    ⟨(hg.list t).mpr (Or.inl ht.1), ((hg.cell t (h₁.lt ht.1)).1).trans ht.2⟩
  have htime₂ := ((hg.cell _ (h₁.lt hh.1)).2.1).trans htime
  have hz₂ := htransition hz
  have hh₂ := htransition hh
  have h₂ := h₁.grows hg
  have hpresent₂ := hg.present.trans (hpresent₁.trans hpresent)
  generalize s₁.createModeTransition S (s₁.modeCell m).transitionCosts s₁.timestep
    (s₁.cell m).id = x at ht htime₂ hz₂ hh₂ h₂ hpresent₂ ⊢
  have h₃ : Tidy K₁ (x.2.setMode m { s₁.modeCell m with zenithTransition := x.1 }) :=
    h₂.setMode ht hh₂ htime₂
  have h₄ := h₃.link ⟨ht.1, h₂.transition_not_mem ht⟩ ⟨hz₂.1, h₂.transition_not_mem hz₂⟩
  have hdone : Tidied s₀ _ := ⟨K₁, h₄, hpresent₂⟩
  exact (hdone.same (constrains_splice m past).same).same (same_setMode rfl rfl)

theorem Tidied.transition {s₀ : TSystem σ} {m : Ref} {a : Assignment} (h : Tidied s₀ s)
    (hm : m ∈ s₀.present) (hmode : s.kindOf m = .transitioned)
    (hs : s.transition S m a = .ok s') : Tidied s₀ s' :=
  (h.createTransitionVariable hm hmode).same (constrains_instantiateClauses hs).same

theorem constrains_addIdleTransition {m past : Ref} {nominal : PropId} {i : ℕ}
    (h : s.addIdleTransition S m past nominal i = .ok s') : Constrains s s' := by
  obtain ⟨p, -, h⟩ := Loop.bind_eq_ok h
  obtain ⟨q, -, h⟩ := Loop.bind_eq_ok h
  obtain rfl := Except.ok.inj h
  exact (constrains_createClause _ _ _).trans (constrains_addTransitionClause m _)

theorem constrains_addIdleTransitions {m : Ref} (h : s.addIdleTransitions S m = .ok s') :
    Constrains s s' := by
  unfold TSystem.addIdleTransitions at h
  split at h
  · cases h
  · obtain ⟨nominal, -, h⟩ := Loop.bind_eq_ok h
    exact constrains_foldlM (fun s i s' hs => constrains_addIdleTransition hs) h

theorem Tidied.idle {s₀ : TSystem σ} {m : Ref} (h : Tidied s₀ s) (hm : m ∈ s₀.present)
    (hmode : s.kindOf m = .transitioned) (hs : s.idle S m = .ok s') : Tidied s₀ s' := by
  obtain ⟨s₁, h₁, hs⟩ := Loop.bind_eq_ok hs
  exact (h.createTransitionVariable hm hmode).same
    ((constrains_addIdleTransitions h₁).trans (constrains_instantiateAutonomousClauses hs)).same

theorem perm_growAndSet {l : List (Option Ref)} {i : ℕ} (h : (l[i]?).join = none) :
    ((TSystem.growAndSet l i r).filterMap id).Perm (r :: l.filterMap id) := by
  have hnone (n : ℕ) : (List.replicate n (none : Option Ref)).filterMap id = [] := by
    induction n with
    | zero => rfl
    | succ n ih => exact ih
  have hgrown : (l ++ List.replicate (i + 1 - l.length) none).filterMap id = l.filterMap id := by
    rw [List.filterMap_append, hnone, List.append_nil]
  have hlt : i < (l ++ List.replicate (i + 1 - l.length) (none : Option Ref)).length := by
    rw [List.length_append, List.length_replicate]
    omega
  have hfree : (l ++ List.replicate (i + 1 - l.length) none)[i] = none := by
    by_cases hi : i < l.length
    · rw [List.getElem_append_left hi]
      rw [List.getElem?_eq_getElem hi] at h
      exact h
    · rw [List.getElem_append_right (not_lt.mp hi), List.getElem_replicate]
  unfold TSystem.growAndSet
  generalize l ++ List.replicate (i + 1 - l.length) none = grown at *
  rw [← hgrown, List.set_eq_take_append_cons_drop, if_pos hlt]
  conv_rhs => rw [← List.take_append_drop i grown, List.drop_eq_getElem_cons hlt, hfree]
  rw [List.filterMap_append, List.filterMap_append]
  exact List.perm_middle

theorem mem_growAndSet {l : List (Option Ref)} {i : ℕ} (h : (l[i]?).join = none) (x : Ref) :
    x ∈ (TSystem.growAndSet l i r).filterMap id ↔ x = r ∨ x ∈ l.filterMap id := by
  rw [(perm_growAndSet h).mem_iff, List.mem_cons]

/-- What is registered is present from then on. -/
structure Registered (r : Ref) (s s' : TSystem σ) : Prop where
  time : s.timeOf r = now
  present : ∀ x, x ∈ s'.present ↔ x = r ∨ x ∈ s.present
  rest : ∃ l, s' = { s with presentVariables := l }

theorem registerNewVariable_registered (h : s.registerNewVariable r = .ok s') :
    Registered r s s' := by
  obtain ⟨htime, -, -, hnone, rfl⟩ := registerNewVariable_eq h
  exact ⟨htime, mem_growAndSet hnone, _, rfl⟩

theorem Tidy.register_other (h : Tidy K s) (hr : r ∈ s.variableList ∧ r ∉ K)
    (hobs : s.kindOf r ≠ .observable)
    (hmode : s.kindOf r = .transitioned → IsTransition s (s.modeCell r).zenithTransition ∧
      IsTransition s (s.modeCell r).horizonTransition ∧
      s.timeOf (s.modeCell r).horizonTransition = now)
    (hreg : Registered r s s') : Tidy K s' := by
  obtain ⟨htime, hpresent, l, rfl⟩ := hreg
  have hne {x : Ref} (hx : x ∈ K) : x ≠ r := fun heq => hr.2 (heq ▸ hx)
  refine ⟨h.listed, h.bounded, ?_, h.consistent, h.apart, ?_, ?_, ?_, h.assumptions, h.candidates⟩
  · intro x hx
    obtain ⟨hlist, hkind, hxp⟩ := h.observed x hx
    refine ⟨hlist, hkind, fun hx' => ?_⟩
    exact hxp (((hpresent x).mp hx').resolve_left (hne hx))
  · intro v hv hv'
    rcases (hpresent v).mp hv with rfl | hv
    · exact absurd hv' hobs
    · obtain ⟨hvK, l, hl, hn, hK⟩ := h.chain v hv hv'
      refine ⟨hvK, l, hl, hn, fun x hx => ⟨(hK x hx).1, fun hx' => ?_⟩⟩
      exact (hK x hx).2 (((hpresent x).mp hx').resolve_left (hne (hK x hx).1))
  · intro v hv
    rcases (hpresent v).mp hv with rfl | hv
    · exact ⟨hr.1, htime⟩
    · exact h.present v hv
  · intro m hm hm'
    rcases (hpresent m).mp hm with rfl | hm
    · exact hmode hm'
    · exact h.modes m hm hm'

theorem Tidy.register_observable (h : Tidy K s) (hr : r ∈ s.variableList ∧ r ∉ K)
    (hobs : s.kindOf r = .observable) (hprevious : s.links.previous r = none)
    (hnext : s.links.next r = none)
    (hunlinked : ∀ x ∈ s.variableList, s.links.previous x ≠ some r ∧ s.links.next x ≠ some r)
    (hreg : Registered r s s') : Tidy (insert r K) s' := by
  obtain ⟨htime, hpresent, l, rfl⟩ := hreg
  have hne {x : Ref} (hx : x ∈ K) : x ≠ r := fun heq => hr.2 (heq ▸ hx)
  refine ⟨h.listed, h.bounded, ?_, ⟨?_, ?_⟩, ?_, ?_, ?_, ?_, h.assumptions, h.candidates⟩
  · intro x hx
    rcases hx with rfl | hx
    · refine ⟨hr.1, ?_, fun _ => hobs⟩
      have hkind : s.kindOf x = .observable := hobs
      exact hkind ▸ rfl
    · obtain ⟨hlist, hkind, hxp⟩ := h.observed x hx
      refine ⟨hlist, hkind, fun hx' => ?_⟩
      exact hxp (((hpresent x).mp hx').resolve_left (hne hx))
  · intro a ha b hb
    rcases ha with rfl | ha
    · rw [hnext] at hb
      cases hb
    · obtain ⟨hbK, hba⟩ := h.consistent.next a ha b hb
      exact ⟨Set.mem_insert_of_mem r hbK, hba⟩
  · intro a ha b hb
    rcases ha with rfl | ha
    · rw [hprevious] at hb
      cases hb
    · obtain ⟨hbK, hba⟩ := h.consistent.previous a ha b hb
      exact ⟨Set.mem_insert_of_mem r hbK, hba⟩
  · intro a ⟨ha, haK⟩ b hb
    rcases hb with rfl | hb
    · exact hunlinked a ha
    · exact h.apart a ⟨ha, fun haK' => haK (Set.mem_insert_of_mem r haK')⟩ b hb
  · intro v hv hv'
    rcases (hpresent v).mp hv with rfl | hv
    · exact ⟨Set.mem_insert v K, [], hprevious, List.nodup_singleton v, by simp⟩
    · obtain ⟨hvK, l, hl, hn, hK⟩ := h.chain v hv hv'
      refine ⟨Set.mem_insert_of_mem r hvK, l, hl, hn, fun x hx => ?_⟩
      refine ⟨Set.mem_insert_of_mem r (hK x hx).1, fun hx' => ?_⟩
      exact (hK x hx).2 (((hpresent x).mp hx').resolve_left (hne (hK x hx).1))
  · intro v hv
    rcases (hpresent v).mp hv with rfl | hv
    · exact ⟨hr.1, htime⟩
    · exact h.present v hv
  · intro m hm hm'
    rcases (hpresent m).mp hm with rfl | hm
    · have hkind : s.kindOf m = .transitioned := hm'
      rw [hobs] at hkind
      cases hkind
    · exact h.modes m hm hm'

theorem Tidy.newTransitioned (h : Tidy K s) {nvalues ntransitions : ℕ} {id : UInt32}
    (hs : (s.newTransitioned S nvalues ntransitions now id).2.registerNewVariable
      (s.newTransitioned S nvalues ntransitions now id).1 = .ok s') : Tidy K s' := by
  have hc := newVariable_created (S := S) .transitioned nvalues now id s
  unfold TSystem.newTransitioned at hs
  dsimp only at hs
  generalize s.newVariable S .transitioned nvalues now id = x at hc hs
  obtain ⟨h₁, hlist, hK, -⟩ := h.created hc
  have hg := grows_createModeTransition (S := S) (List.replicate ntransitions 0) now id x.2
  obtain ⟨ht, htime⟩ := createModeTransition_isTransition S (List.replicate ntransitions 0) now id
    x.2
  have hkind := ((hg.cell x.1 (h₁.lt hlist)).1).trans hc.kind
  have hlist₂ := (hg.list x.1).mpr (Or.inl hlist)
  have h₂ := h₁.grows hg
  generalize x.2.createModeTransition S (List.replicate ntransitions 0) now id = y at *
  have h₃ : Tidy K _ := h₂.setMode (m := x.1) (x := {
    zenithTransition := y.1
    horizonTransition := y.1
    ntransitions := ntransitions
    transitionCosts := [0]
    prototypes := { id := id.toNat } }) ht ht htime
  apply h₃.register_other ⟨hlist₂, hK⟩ _ _ (registerNewVariable_registered hs)
  · intro hobs
    exact Kind.noConfusion (hkind.symm.trans hobs)
  · intro _
    simp only [TSystem.setMode, update_self]
    exact ⟨ht, ht, htime⟩

theorem Tidy.createVariable (h : Tidy K s) {d : TSystem.Declaration}
    (hs : s.createVariable S d = .ok s') : ∃ K', Tidy K' s' := by
  cases d with
  | command nvalues id =>
    have hc := newAssignable_created (S := S) .command (List.replicate nvalues 0) now id s
    obtain ⟨h₁, hlist, hK, -⟩ := h.created hc
    have ha := same_assign (S := S) (s := (s.createCommand S nvalues now id).2)
      (s.createCommand S nvalues now id).1 (some 0)
    have hkind := ((ha.cell (s.createCommand S nvalues now id).1).1).trans hc.kind
    refine ⟨K, (h₁.same ha).register_other ⟨ha.list ▸ hlist, hK⟩ ?_ ?_
      (registerNewVariable_registered hs)⟩
    · intro hobs
      exact Kind.noConfusion (hkind.symm.trans hobs)
    · intro hmode
      exact Kind.noConfusion (hkind.symm.trans hmode)
  | observable nvalues id =>
    have hc := newAssignable_created (S := S) .observable (List.replicate nvalues 0) now id s
    obtain ⟨h₁, hlist, hK, hprevious, hnext, hunlinked⟩ := h.created hc
    exact ⟨_, h₁.register_observable ⟨hlist, hK⟩ hc.kind hprevious hnext hunlinked
      (registerNewVariable_registered hs)⟩
  | mode nvalues ntransitions id => exact ⟨K, h.newTransitioned hs⟩
  | dependent nvalues id =>
    have hc := newVariable_created (S := S) .dependent nvalues now id s
    obtain ⟨h₁, hlist, hK, -⟩ := h.created hc
    refine ⟨K, h₁.register_other ⟨hlist, hK⟩ ?_ ?_ (registerNewVariable_registered hs)⟩
    · intro hobs
      exact Kind.noConfusion (hc.kind.symm.trans hobs)
    · intro hmode
      exact Kind.noConfusion (hc.kind.symm.trans hmode)

theorem tidy_empty (t : σ) (historyLength maxTruncatedCandidates : UInt32)
    (progressUsesFull : Bool) :
    Tidy ∅ (TSystem.empty t historyLength maxTruncatedCandidates progressUsesFull) := by
  constructor
  case listed => exact ⟨List.nodup_nil, by simp [TSystem.empty]⟩
  case consistent => exact ⟨by simp, by simp⟩
  all_goals simp [TSystem.empty, TSystem.present, Chain.Apart]

end Transition
end Livingstone
