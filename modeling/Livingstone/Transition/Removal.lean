import Livingstone.Transition.Tidy

/-! The removal of old variables: the histories close up over what is left. -/

namespace Livingstone
namespace Transition

open Function (update update_self update_of_ne)

variable {σ : Type} {S : Solver σ} {s s₁ s' : TSystem σ} {K : Set Ref} {r v : Ref}
  {horizon : UInt32}

theorem not_now_lt (horizon : UInt32) : ¬ now < horizon := by
  rw [UInt32.lt_iff_toNat_lt]
  have hlt := horizon.toNat_lt
  have hnow : now.toNat = 4294967295 := rfl
  omega

/-- No mode has an old transition as its last. -/
def Retired (horizon : UInt32) (l : List Ref) (s : TSystem σ) : Prop :=
  ∀ m ∈ l, s.kindOf m = .transitioned → ¬ s.timeOf (s.modeCell m).zenithTransition < horizon

/-- Only the modes are changed, and not the transition from the horizon. -/
structure Modes (s s' : TSystem σ) : Prop where
  rest : ∃ f, s' = { s with modeCell := f }
  horizon : ∀ m, (s'.modeCell m).horizonTransition = (s.modeCell m).horizonTransition

theorem Modes.refl (s : TSystem σ) : Modes s s := ⟨⟨s.modeCell, rfl⟩, fun _ => rfl⟩

theorem Modes.trans (h : Modes s s₁) (h' : Modes s₁ s') : Modes s s' := by
  obtain ⟨f, rfl⟩ := h.rest
  obtain ⟨g, rfl⟩ := h'.rest
  exact ⟨⟨g, rfl⟩, fun m => (h'.horizon m).trans (h.horizon m)⟩

theorem modes_removeOldModeTransition (horizon : UInt32) (m : Ref) (s : TSystem σ) :
    Modes s (s.removeOldModeTransition horizon m) := by
  unfold TSystem.removeOldModeTransition
  dsimp only
  split
  · refine ⟨⟨_, rfl⟩, fun q => ?_⟩
    by_cases hq : q = m
    · subst hq
      simp [TSystem.setMode]
    · simp [TSystem.setMode, hq]
  · exact Modes.refl s

theorem Tidy.removeOldModeTransition (h : Tidy K s) {m : Ref} (hm : m ∈ s.present)
    (hmode : s.kindOf m = .transitioned) : Tidy K (s.removeOldModeTransition horizon m) := by
  obtain ⟨-, hh, htime⟩ := h.modes m hm hmode
  unfold TSystem.removeOldModeTransition
  dsimp only
  split
  · exact h.setMode hh hh htime
  · exact h

theorem retired_removeOldModeTransition (horizon : UInt32) (h : Tidy K s) {m : Ref} (hm : m ∈ s.present)
    (hmode : s.kindOf m = .transitioned) :
    ¬ (s.removeOldModeTransition horizon m).timeOf
      ((s.removeOldModeTransition horizon m).modeCell m).zenithTransition < horizon := by
  obtain ⟨-, -, htime⟩ := h.modes m hm hmode
  unfold TSystem.removeOldModeTransition
  dsimp only
  split
  case isTrue =>
    simp only [TSystem.setMode, update_self]
    have hnow : (s.cell (s.modeCell m).horizonTransition).timeStep = now := htime
    simp only [TSystem.timeOf, hnow]
    exact not_now_lt horizon
  case isFalse hn => exact hn

theorem removeOldModeTransition_of_ne {m q : Ref} (hq : q ≠ m) :
    (s.removeOldModeTransition horizon m).modeCell q = s.modeCell q := by
  unfold TSystem.removeOldModeTransition
  dsimp only
  split
  · exact update_of_ne hq ..
  · rfl

theorem mapModes_removeOldModeTransition (horizon : UInt32) (h : Tidy K s) :
    Tidy K (s.mapModes (TSystem.removeOldModeTransition horizon)) ∧
      Modes s (s.mapModes (TSystem.removeOldModeTransition horizon)) ∧
      Retired horizon s.present (s.mapModes (TSystem.removeOldModeTransition horizon)) := by
  have hloop (l : List Ref) (s : TSystem σ) (h : Tidy K s) (hl : ∀ m ∈ l, m ∈ s.present)
      (done : List Ref) (hdone : Retired horizon done s) :
      let s' := l.foldl (fun s m => if s.kindOf m = .transitioned then
        s.removeOldModeTransition horizon m else s) s
      Tidy K s' ∧ Modes s s' ∧ Retired horizon (done ++ l) s' := by
    induction l generalizing s done with
    | nil => exact ⟨h, Modes.refl s, by simpa using hdone⟩
    | cons m l ih =>
      rw [List.forall_mem_cons] at hl
      rw [List.append_cons]
      simp only [List.foldl_cons]
      split
      case isTrue hmode =>
        have hm := modes_removeOldModeTransition horizon m s
        obtain ⟨f, hf⟩ := hm.rest
        have hpresent : (s.removeOldModeTransition horizon m).present = s.present := by rw [hf]; rfl
        have hret := retired_removeOldModeTransition horizon h hl.1 hmode
        obtain ⟨h₁, h₂, h₃⟩ := ih _ (h.removeOldModeTransition hl.1 hmode)
          (fun q hq => hpresent ▸ hl.2 q hq) (done ++ [m]) (by
            intro q hq hqm
            by_cases hqeq : q = m
            · rw [hqeq]
              exact hret
            · have hqd : q ∈ done := by simpa [hqeq] using hq
              rw [removeOldModeTransition_of_ne hqeq]
              rw [hf] at hqm ⊢
              exact hdone q hqd hqm)
        exact ⟨h₁, hm.trans h₂, h₃⟩
      case isFalse hmode =>
        apply ih s h hl.2 (done ++ [m])
        intro q hq hqm
        rcases List.mem_append.mp hq with hq | hq
        · exact hdone q hq hqm
        · rw [List.mem_singleton.mp hq] at hqm
          exact absurd hqm hmode
  exact hloop s.present s h (fun m hm => hm) [] fun m hm => absurd hm List.not_mem_nil

theorem foldl_destroyVariable (S : Solver σ) (old : List Ref) (s : TSystem σ) : ∃ t,
    old.foldl (TSystem.destroyVariable S) s =
      { s with solver := t, links := old.foldl Chain.Links.remove s.links } := by
  induction old generalizing s with
  | nil => exact ⟨s.solver, rfl⟩
  | cons r old ih =>
    obtain ⟨t, ht⟩ := ih (s.destroyVariable S r)
    exact ⟨t, ht⟩

theorem same_mapModes {f : Ref → TSystem σ → TSystem σ} (hf : ∀ m s, Same s (f m s))
    (s : TSystem σ) : Same s (s.mapModes f) := by
  apply Same.foldl
  intro s m
  split
  · exact hf m s
  · exact Same.refl s

/-- The old variables are gone: no others are, and the rest of the links closes up. -/
structure Removes (old : List Ref) (s s' : TSystem σ) : Prop where
  nodup : old.Nodup
  mem : ∀ r ∈ old, r ∈ s.variableList
  listed : Listed s'
  list : ∀ r, r ∈ s'.variableList ↔ r ∈ s.variableList ∧ r ∉ old
  sublist : s'.variableList.Sublist s.variableList
  links : s'.links = old.foldl Chain.Links.remove s.links
  cell : s'.cell = s.cell
  modes : ∀ m, (s'.modeCell m).zenithTransition = (s.modeCell m).zenithTransition ∧
    (s'.modeCell m).horizonTransition = (s.modeCell m).horizonTransition
  fresh : s'.fresh = s.fresh
  present : s'.presentVariables = s.presentVariables
  assumptions : s'.assumptions ⊆ s.assumptions
  candidates : s'.candidates = s.candidates

theorem same_removeDestroyedClauses (m : Ref) (s : TSystem σ) :
    Same s (s.removeDestroyedClauses S m) := same_setMode rfl rfl

theorem cell_removeDestroyedClauses (s : TSystem σ) :
    (s.mapModes (TSystem.removeDestroyedClauses S)).cell = s.cell := by
  unfold TSystem.mapModes
  generalize s.present = l
  induction l generalizing s with
  | nil => rfl
  | cons m l ih =>
    rw [List.foldl_cons, ih]
    split
    · rfl
    · rfl

/-- The list of the variables up to the first old one, from there up to the present, and the rest. -/
structure Parts (horizon : UInt32) (s : TSystem σ) (newer range last : List Ref) : Prop where
  list : s.variableList = newer ++ (range ++ last)
  newer : ∀ r ∈ newer, horizon ≤ s.timeOf r
  last : ∀ r, last.head? = some r → s.timeOf r = now

theorem parts_variableList (horizon : UInt32) (s : TSystem σ) :
    Parts horizon s (s.variableList.takeWhile fun r => horizon ≤ s.timeOf r)
      ((s.variableList.dropWhile fun r => horizon ≤ s.timeOf r).takeWhile fun r => s.timeOf r ≠ now)
      ((s.variableList.dropWhile fun r => horizon ≤ s.timeOf r).dropWhile fun r =>
        s.timeOf r ≠ now) := by
  refine ⟨?_, fun r hr => ?_, fun r hr => ?_⟩
  · rw [List.takeWhile_append_dropWhile, List.takeWhile_append_dropWhile]
  · exact of_decide_eq_true (List.all_eq_true.mp List.all_takeWhile r hr)
  · have hdrop := List.head?_dropWhile_not (fun r => decide (s.timeOf r ≠ now))
      (s.variableList.dropWhile fun r => horizon ≤ s.timeOf r)
    rw [hr] at hdrop
    simpa using hdrop

namespace Parts

variable {newer range last : List Ref} (h : Parts horizon s newer range last)
include h

/-- The variables of the present come last, so what is old is in the middle. -/
theorem mem_old (hnows : s.variableList.Pairwise fun a b => s.timeOf a = now → s.timeOf b = now)
    (hr : r ∈ s.variableList) (hold : s.timeOf r < horizon) :
    r ∈ range.filter fun r => s.timeOf r < horizon := by
  rw [h.list] at hr hnows
  rcases List.mem_append.mp hr with hr | hr
  · exact absurd hold (UInt32.not_lt.mpr (h.newer r hr))
  rcases List.mem_append.mp hr with hr | hr
  · exact List.mem_filter.mpr ⟨hr, decide_eq_true hold⟩
  · have hpairwise := (List.pairwise_append.mp (List.pairwise_append.mp hnows).2.1).2.1
    have hnow : s.timeOf r = now := by
      cases last with
      | nil => cases hr
      | cons a last =>
        rcases List.mem_cons.mp hr with rfl | hr
        · exact h.last r rfl
        · exact (List.pairwise_cons.mp hpairwise).1 r hr (h.last a rfl)
    rw [hnow] at hold
    exact absurd hold (not_now_lt horizon)

theorem mem_kept (hn : s.variableList.Nodup) (r : Ref) :
    r ∈ newer ++ range.filter (fun r => ¬ s.timeOf r < horizon) ++ last ↔
      r ∈ s.variableList ∧ r ∉ range.filter fun r => s.timeOf r < horizon := by
  rw [h.list, List.nodup_append', List.nodup_append'] at hn
  obtain ⟨-, ⟨-, -, hdisjoint⟩, hdisjoint'⟩ := hn
  rw [h.list, List.mem_append, List.mem_append, List.mem_append, List.mem_append, List.mem_filter,
    List.mem_filter, decide_eq_true_eq, decide_eq_true_eq]
  have hnr : r ∈ newer → r ∉ range := fun hn hr =>
    hdisjoint' hn (List.mem_append_left last hr)
  have hlr : r ∈ last → r ∉ range := fun hl hr => hdisjoint hr hl
  tauto

theorem kept_sublist : (newer ++ range.filter (fun r => ¬ s.timeOf r < horizon) ++ last).Sublist
    s.variableList := by
  rw [h.list, ← List.append_assoc]
  exact ((List.Sublist.refl newer).append List.filter_sublist).append (List.Sublist.refl last)

end Parts

theorem removeOldVariables_same (hs : s.removeOldVariables S horizon = .ok s')
    (h₁ : s.mapModes (TSystem.removeOldModeTransition horizon) = s₁) :
    ∃ newer range last, Parts horizon s₁ newer range last ∧ s'.cell = s₁.cell ∧ ∃ t oldest,
      Same { s₁ with
        solver := t
        links := (range.filter fun r => s₁.timeOf r < horizon).foldl Chain.Links.remove s₁.links
        oldestTimestep := oldest
        assumptions := s₁.assumptions.filter fun r => ¬ s₁.timeOf r < horizon
        variableList := newer ++ range.filter (fun r => ¬ s₁.timeOf r < horizon) ++ last } s' := by
  have hparts := parts_variableList horizon s₁
  unfold TSystem.removeOldVariables at hs
  dsimp only at hs
  rw [h₁] at hs
  split at hs
  · cases hs
  obtain rfl := Except.ok.inj hs
  generalize s₁.variableList.takeWhile (fun r => horizon ≤ s₁.timeOf r) = newer at *
  generalize s₁.variableList.dropWhile (fun r => horizon ≤ s₁.timeOf r) = rest at *
  generalize rest.takeWhile (fun r => s₁.timeOf r ≠ now) = range at *
  generalize rest.dropWhile (fun r => s₁.timeOf r ≠ now) = last at *
  obtain ⟨t, ht⟩ := foldl_destroyVariable S (range.filter fun r => s₁.timeOf r < horizon)
    { s₁ with
      oldestTimestep := (newer.getLast?.map s₁.timeOf).getD s₁.oldestTimestep
      assumptions := s₁.assumptions.filter fun r => ¬ s₁.timeOf r < horizon
      variableList := newer ++ range.filter (fun r => ¬ s₁.timeOf r < horizon) ++ last }
  rw [ht]
  refine ⟨newer, range, last, hparts, cell_removeDestroyedClauses (S := S) _, t,
    (newer.getLast?.map s₁.timeOf).getD s₁.oldestTimestep, ?_⟩
  have hsame := same_mapModes (same_removeDestroyedClauses (S := S)) { s₁ with
    solver := t
    links := (range.filter fun r => s₁.timeOf r < horizon).foldl Chain.Links.remove s₁.links
    oldestTimestep := (newer.getLast?.map s₁.timeOf).getD s₁.oldestTimestep
    assumptions := s₁.assumptions.filter fun r => ¬ s₁.timeOf r < horizon
    variableList := newer ++ range.filter (fun r => ¬ s₁.timeOf r < horizon) ++ last }
  exact ⟨hsame.cell, hsame.modes, hsame.fresh, hsame.links, hsame.present, hsame.list,
    hsame.assumptions, hsame.candidates, hsame.stateVar⟩

theorem removeOldVariables_removes (hs : s.removeOldVariables S horizon = .ok s')
    (h : Listed (s.mapModes (TSystem.removeOldModeTransition horizon))) : ∃ old,
      Removes old (s.mapModes (TSystem.removeOldModeTransition horizon)) s' ∧
      (∀ r ∈ old, (s.mapModes (TSystem.removeOldModeTransition horizon)).timeOf r < horizon) ∧
      ((s.mapModes (TSystem.removeOldModeTransition horizon)).variableList.Pairwise (fun a b =>
          (s.mapModes (TSystem.removeOldModeTransition horizon)).timeOf a = now →
          (s.mapModes (TSystem.removeOldModeTransition horizon)).timeOf b = now) →
        ∀ r ∈ (s.mapModes (TSystem.removeOldModeTransition horizon)).variableList,
          (s.mapModes (TSystem.removeOldModeTransition horizon)).timeOf r < horizon → r ∈ old) := by
  generalize h₁ : s.mapModes (TSystem.removeOldModeTransition horizon) = s₁ at h ⊢
  obtain ⟨newer, range, last, hparts, hcell, t, oldest, hsame⟩ := removeOldVariables_same hs h₁
  obtain ⟨hnodup, hlt⟩ := h
  have hmem := hparts.mem_kept hnodup
  have hmiddle : range.Sublist s₁.variableList := by
    rw [hparts.list]
    exact (List.sublist_append_left range last).trans (List.sublist_append_right newer _)
  have hlist : s'.variableList =
      newer ++ range.filter (fun r => ¬ s₁.timeOf r < horizon) ++ last := hsame.list
  have hfresh : s'.fresh = s₁.fresh := hsame.fresh
  refine ⟨range.filter fun r => s₁.timeOf r < horizon, ?_,
    fun r hr => of_decide_eq_true (List.mem_filter.mp hr).2,
    fun hnows r hr hold => hparts.mem_old hnows hr hold⟩
  constructor
  case nodup => exact (hmiddle.nodup hnodup).filter _
  case mem => exact fun r hr => hmiddle.subset (List.mem_of_mem_filter hr)
  case list =>
    intro r
    rw [← hmem, ← hlist]
  case listed =>
    unfold Listed
    rw [hlist, hfresh]
    exact ⟨hparts.kept_sublist.nodup hnodup, fun r hr => hlt r ((hmem r).mp hr).1⟩
  case sublist =>
    rw [hlist]
    exact hparts.kept_sublist
  case links => exact hsame.links
  case cell => exact hcell
  case modes => exact hsame.modes
  case fresh => exact hsame.fresh
  case present => exact hsame.present
  case assumptions =>
    have hassumptions := hsame.assumptions
    intro r hr
    exact List.mem_of_mem_filter (hassumptions ▸ hr)
  case candidates => exact hsame.candidates

theorem Removes.kindOf {old : List Ref} (h : Removes old s s') (x : Ref) :
    s'.kindOf x = s.kindOf x := by
  rw [TSystem.kindOf, h.cell]
  rfl

theorem Removes.timeOf {old : List Ref} (h : Removes old s s') (x : Ref) :
    s'.timeOf x = s.timeOf x := by
  rw [TSystem.timeOf, h.cell]
  rfl

theorem bounded_remove_all {L : Chain.Links Ref} {old : List Ref} {A : Set Ref} {n : ℕ}
    (hb : ∀ x ∈ A, ∀ y : ℕ, L.previous x = some y ∨ L.next x = some y → y < n)
    (hold : ∀ r ∈ old, r ∈ A) : ∀ x ∈ A, ∀ y : ℕ,
      (old.foldl Chain.Links.remove L).previous x = some y ∨
        (old.foldl Chain.Links.remove L).next x = some y → y < n := by
  induction old generalizing L with
  | nil => exact hb
  | cons r old ih =>
    rw [List.forall_mem_cons] at hold
    apply ih _ hold.2
    intro x hx y hy
    rw [Chain.previous_remove, Chain.next_remove] at hy
    rcases hy with hy | hy
    · split_ifs at hy
      · exact hb r hold.1 y (Or.inl hy)
      · exact hb x hx y (Or.inl hy)
    · split_ifs at hy
      · exact hb r hold.1 y (Or.inr hy)
      · exact hb x hx y (Or.inr hy)

theorem Tidy.removes {old : List Ref} (h : Tidy K s) (hret : Retired horizon s.present s)
    (hr : Removes old s s') (hold : ∀ r ∈ old, s.timeOf r < horizon) :
    Tidy (K \ {x | x ∈ old}) s' ∧ ∀ v ∈ s.present, s.kindOf v = .observable →
      s'.history v = (s.history v).filter fun x => decide (x ∉ old) := by
  have hpresent : s'.present = s.present := by
    unfold TSystem.present
    rw [hr.present]
  have hdisjoint : ∀ x ∈ {x | x ∈ s.variableList ∧ x ∉ K}, x ∉ K :=
    fun x hx hK => hx.2 hK
  obtain ⟨hconsistent, hapart, hfollows⟩ := Chain.remove_all hr.nodup h.consistent h.apart
    hdisjoint fun x hx => by
      by_cases hxK : x ∈ K
      · exact Or.inl hxK
      · exact Or.inr ⟨hr.mem x hx, hxK⟩
  rw [← hr.links] at hconsistent hapart hfollows
  have hkept {x : Ref} (hx : x ∈ s.variableList) (htime : ¬ s.timeOf x < horizon) :
      x ∉ old ∧ x ∈ s'.variableList := by
    have hxo : x ∉ old := fun hxo => htime (hold x hxo)
    exact ⟨hxo, (hr.list x).mpr ⟨hx, hxo⟩⟩
  have hnow {x : Ref} (hx : s.timeOf x = now) : ¬ s.timeOf x < horizon := hx ▸ not_now_lt horizon
  have hstays (v : Ref) (hv : v ∈ s.present) : v ∉ old ∧ v ∈ s'.variableList := by
    obtain ⟨hlist, htime⟩ := h.present v hv
    exact hkept hlist (hnow htime)
  have hchain (v : Ref) (hv : v ∈ s.present) (hobs : s.kindOf v = .observable) :
      ∃ l, s.history v = v :: l ∧ l.length < s.fresh ∧
        Chain.Follows s'.links v (l.filter fun x => decide (x ∉ old)) ∧
        (v :: l).Nodup ∧ (∀ x ∈ v :: l, x ∈ K) ∧ ∀ x ∈ l, x ∉ s.present := by
    obtain ⟨l, hl, hlen, hf, hn, hK, hp⟩ := h.history hv hobs
    exact ⟨l, hl, hlen, hfollows v l hf hn hK (hstays v hv).1, hn, hK, hp⟩
  have hdone : Tidy (K \ {x | x ∈ old}) s' := by
    constructor
    case listed => exact hr.listed
    case bounded =>
      have hb := bounded_remove_all (A := {x | x ∈ s.variableList}) h.bounded hr.mem
      intro x hx y hy
      rw [hr.links] at hy
      rw [hr.fresh]
      exact hb x ((hr.list x).mp hx).1 y hy
    case observed =>
      intro x ⟨hx, hxo⟩
      obtain ⟨hlist, hkind, hobs⟩ := h.observed x hx
      rw [hr.kindOf, hpresent]
      exact ⟨(hr.list x).mpr ⟨hlist, hxo⟩, hkind, hobs⟩
    case consistent => exact hconsistent
    case apart =>
      intro a ⟨ha, haK⟩ b hb
      obtain ⟨ha, hao⟩ := (hr.list a).mp ha
      exact hapart a ⟨ha, fun haK' => haK ⟨haK', hao⟩⟩ b hb
    case chain =>
      rw [hpresent]
      intro v hv hobs
      rw [hr.kindOf] at hobs
      obtain ⟨l, -, -, hf, hn, hK, hp⟩ := hchain v hv hobs
      refine ⟨⟨hK v List.mem_cons_self, (hstays v hv).1⟩, _, hf, ?_, ?_⟩
      · obtain ⟨hvl, hl⟩ := List.nodup_cons.mp hn
        exact List.nodup_cons.mpr ⟨fun hmem => hvl (List.mem_of_mem_filter hmem), hl.filter _⟩
      · intro x hx
        obtain ⟨hxl, hxo⟩ := List.mem_filter.mp hx
        exact ⟨⟨hK x (List.mem_cons_of_mem v hxl), of_decide_eq_true hxo⟩, hp x hxl⟩
    case present =>
      rw [hpresent]
      intro v hv
      rw [hr.timeOf]
      exact ⟨(hstays v hv).2, (h.present v hv).2⟩
    case modes =>
      rw [hpresent]
      intro m hm hmode
      rw [hr.kindOf] at hmode
      obtain ⟨hz, hh, htime⟩ := h.modes m hm hmode
      obtain ⟨hzenith, hhorizon⟩ := hr.modes m
      have htransition {t : Ref} (ht : IsTransition s t) (htime : ¬ s.timeOf t < horizon) :
          IsTransition s' t := ⟨(hkept ht.1 htime).2, (hr.kindOf t).trans ht.2⟩
      rw [hzenith, hhorizon, hr.timeOf]
      exact ⟨htransition hz (hret m hm hmode), htransition hh (hnow htime), htime⟩
    case assumptions =>
      intro x hx
      rw [hr.fresh, hr.kindOf]
      exact h.assumptions x (hr.assumptions hx)
    case candidates =>
      rw [hr.candidates]
      intro c hc a ha
      rw [hr.fresh, hr.kindOf]
      exact h.candidates c hc a ha
  refine ⟨hdone, fun v hv hobs => ?_⟩
  obtain ⟨l, hl, hlen, hf, -⟩ := hchain v hv hobs
  rw [hl, List.filter_cons, if_pos (decide_eq_true (hstays v hv).1)]
  apply Chain.walk_eq hf
  rw [hr.fresh]
  exact (List.length_filter_le _ _).trans_lt hlen

end Transition
end Livingstone
