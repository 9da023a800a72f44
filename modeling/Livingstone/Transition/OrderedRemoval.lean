import Livingstone.Transition.Ordered

/-! Truncation keeps the chains in order. What goes is all that is before the horizon, so that the
transitions of a mode go with its copies. -/

namespace Livingstone
namespace Transition

open Function (update update_self update_of_ne)

variable {σ : Type} {S : Solver σ} {s s₁ s' : TSystem σ} {K D E : Set Ref} {T horizon : UInt32}
  {m r v : Ref} {l t : List Ref}

/-- The last transition of a mode is the one from the horizon when the other is old. -/
def Retires (horizon : UInt32) (s s' : TSystem σ) : Prop :=
  ∀ m, (s'.modeCell m).zenithTransition = (s.modeCell m).zenithTransition ∨
    (s'.modeCell m).zenithTransition = (s.modeCell m).horizonTransition ∧
      s.timeOf (s.modeCell m).zenithTransition < horizon

theorem retires_mapModes (horizon : UInt32) (s : TSystem σ) :
    Retires horizon s (s.mapModes (TSystem.removeOldModeTransition horizon)) := by
  have hloop (l : List Ref) (x : TSystem σ) (hm : Modes s x) (h : Retires horizon s x) :
      Retires horizon s (l.foldl (fun s m => if s.kindOf m = .transitioned then
        s.removeOldModeTransition horizon m else s) x) := by
    induction l generalizing x with
    | nil => exact h
    | cons m l ih =>
      rw [List.foldl_cons]
      split
      case isFalse => exact ih x hm h
      case isTrue =>
        refine ih _ (hm.trans (modes_removeOldModeTransition horizon m x)) fun q => ?_
        by_cases hq : q = m
        · subst hq
          unfold TSystem.removeOldModeTransition
          dsimp only
          split
          case isFalse => exact h q
          case isTrue hold =>
            simp only [TSystem.setMode, update_self]
            refine Or.inr ⟨hm.horizon q, ?_⟩
            rcases h q with hz | ⟨-, hz⟩
            · obtain ⟨f, rfl⟩ := hm.rest
              rw [← hz]
              exact hold
            · exact hz
        · rw [removeOldModeTransition_of_ne hq]
          exact h q
  exact hloop s.present s (Modes.refl s) fun _ => Or.inl rfl

theorem removed_iff {old : List Ref} (hold : ∀ r ∈ old, s.timeOf r < horizon)
    (hall : ∀ r ∈ s.variableList, s.timeOf r < horizon → r ∈ old) (hr : r ∈ s.variableList) :
    r ∉ old ↔ ¬ s.timeOf r < horizon := not_congr ⟨hold r, hall r hr⟩

theorem map_filter_removed {old : List Ref} (hold : ∀ r ∈ old, s.timeOf r < horizon)
    (hall : ∀ r ∈ s.variableList, s.timeOf r < horizon → r ∈ old)
    (hl : ∀ x ∈ l, x ∈ s.variableList) : (l.filter fun x => decide (x ∉ old)).map s.timeOf =
      (l.map s.timeOf).filter fun time => decide ¬ time < horizon := by
  have hfilter : (l.filter fun x => decide (x ∉ old)) =
      l.filter ((fun time => decide ¬ time < horizon) ∘ s.timeOf) := by
    refine List.filter_congr fun x hx => ?_
    exact decide_eq_decide.mpr (removed_iff hold hall (hl x hx))
  rw [hfilter, List.filter_map]

theorem IsTransitions.head?_removes {old : List Ref} {z : Ref} (ht : IsTransitions s m t)
    (hdescending : t.Pairwise fun a b => s.timeOf b < s.timeOf a)
    (hz : z = (s.modeCell m).zenithTransition ∨
      z = (s.modeCell m).horizonTransition ∧ s.timeOf (s.modeCell m).zenithTransition < horizon)
    (hretired : ¬ s.timeOf z < horizon) (hold : ∀ r ∈ old, s.timeOf r < horizon)
    (hall : ∀ r ∈ s.variableList, s.timeOf r < horizon → r ∈ old) :
    ((t.filter fun x => decide (x ∉ old)) ++ [(s.modeCell m).horizonTransition]).head? =
      some z := by
  obtain ⟨c, hc⟩ := ht.cons
  rcases hz with rfl | ⟨rfl, hlt⟩
  · -- the last transition stays
    cases t with
    | nil => exact congrArg List.head? hc
    | cons a t =>
      obtain ⟨rfl, -⟩ := List.cons.inj hc
      have hao := (removed_iff hold hall (ht.listed _ List.mem_cons_self).1).mpr hretired
      rw [List.filter_cons, if_pos (decide_eq_true hao)]
      rfl
  · -- all transitions are old
    have hnil : (t.filter fun x => decide (x ∉ old)) = [] := by
      refine List.filter_eq_nil_iff.mpr fun x hx => ?_
      rw [decide_eq_true_eq, not_not]
      refine hall x (ht.listed x hx).1 ?_
      cases t with
      | nil => cases hx
      | cons a t =>
        obtain ⟨rfl, -⟩ := List.cons.inj hc
        rcases List.mem_cons.mp hx with rfl | hx
        · exact hlt
        · exact UInt32.lt_trans ((List.pairwise_cons.mp hdescending).1 x hx) hlt
    rw [hnil]
    rfl

/-- What is before the horizon goes, from a system whose modes are as in `s₁`. -/
theorem Ordered.removes {old : List Ref} (h : Ordered D ∅ T s) (hK : Tidy K s) (hm : Modes s s₁)
    (hz : Retires horizon s s₁) (hret : Retired horizon s₁.present s₁) (hr : Removes old s₁ s')
    (hold : ∀ r ∈ old, s.timeOf r < horizon)
    (hall : ∀ r ∈ s.variableList, s.timeOf r < horizon → r ∈ old) : Ordered D ∅ T s' := by
  have hhorizon := hm.horizon
  obtain ⟨f, rfl⟩ := hm.rest
  have hlinks : s'.links = old.foldl Chain.Links.remove s.links := hr.links
  have hlist (x : Ref) : x ∈ s'.variableList ↔ x ∈ s.variableList ∧ x ∉ old := hr.list x
  have hkind : s'.kindOf = s.kindOf := funext fun x => hr.kindOf x
  have htime : s'.timeOf = s.timeOf := funext fun x => hr.timeOf x
  have hpvars : s'.presentVariables = s.presentVariables := hr.present
  have hpresent : s'.present = s.present := congrArg (List.filterMap id) hpvars
  have hset : {x | x ∈ s'.variableList} = {x | x ∈ s.variableList} \ {x | x ∈ old} := by
    ext x
    exact hlist x
  obtain ⟨hconsistent, hwhole⟩ := Chain.whole_remove_all hr.nodup h.consistent hr.mem
  have hnow {x : Ref} (hx : s.timeOf x = now) : x ∉ old := fun hmem =>
    not_now_lt horizon (hx ▸ hold x hmem)
  refine ⟨?_, ?_, hpresent ▸ h.nodup, ?_, ?_, ?_⟩
  · rw [hset, hlinks]
    exact hconsistent
  · rw [htime]
    exact h.nows.sublist hr.sublist
  · exact h.plain.congr hpvars fun v _ => congrFun hkind v
  · rw [hpresent, hkind, htime]
    intro v hv
    obtain ⟨l, hl, hmodes⟩ := h.chain v hv
    have hmem := hl.mem_list hK hv
    have hvo := hnow (hK.present v hv).2
    have hpast := hwhole _ hl.whole (hl.nodup hK hv) hmem
    rw [List.filter_cons, if_pos (decide_eq_true hvo), ← hlinks] at hpast
    refine ⟨l.filter fun x => decide (x ∉ old), ⟨hpast, ?_, ?_, ?_⟩, fun hmode => ?_⟩
    · intro x hx
      obtain ⟨hx, hxo⟩ := List.mem_filter.mp hx
      exact (hlist x).mpr ⟨hl.listed x hx, of_decide_eq_true hxo⟩
    · rw [htime]
      exact fun x hx => hl.times x (List.mem_of_mem_filter hx)
    · rw [htime]
      exact hl.descending.filter _
    obtain ⟨t, ht, hsync, -⟩ := hmodes hmode
    have hsync := hsync fun hE => hE.elim
    have hallt := ht.mem_list hK hv hmode
    have hho := hnow (hK.modes v hv hmode).2.2
    have hdescending := IsTransitions.descending hl hsync
    have hnodup := IsTransitions.nodup hl hK hv hmode hsync
    have hchain := hwhole _ ht.whole hnodup fun x hx => (hallt x hx).1
    have hsingle : ([(s.modeCell v).horizonTransition].filter fun x => decide (x ∉ old)) =
        [(s.modeCell v).horizonTransition] := by
      rw [List.filter_cons, if_pos (decide_eq_true hho), List.filter_nil]
    rw [List.filter_append, hsingle, ← hlinks] at hchain
    obtain ⟨hzenith', hhorizon'⟩ := hr.modes v
    rw [hhorizon v] at hhorizon'
    refine ⟨t.filter fun x => decide (x ∉ old), ⟨?_, ?_, ?_⟩, fun _ => ?_, fun hE => hE.elim⟩
    · rw [hhorizon']
      exact hchain
    · rw [hzenith', hhorizon']
      exact ht.head?_removes hdescending (hz v) (hret v hv hmode) hold hall
    · intro x hx
      obtain ⟨hx, hxo⟩ := List.mem_filter.mp hx
      exact ⟨(hlist x).mpr ⟨(ht.listed x hx).1, of_decide_eq_true hxo⟩,
        (congrFun hkind x).trans (ht.listed x hx).2⟩
    · rw [map_filter_removed hold hall fun x hx => (ht.listed x hx).1,
        map_filter_removed hold hall hl.listed, hsync]
  · rw [hpresent, hkind]
    intro m hm m' hm' hmode hmode' heq
    rw [(hr.modes m).2, (hr.modes m').2, hhorizon, hhorizon] at heq
    exact h.horizons m hm m' hm' hmode hmode' heq

theorem Ordered.removeOldVariables (h : Ordered D ∅ T s) (hK : Tidy K s)
    (hs : s.removeOldVariables S horizon = .ok s') : Ordered D ∅ T s' := by
  obtain ⟨hK₁, hmodes, hret⟩ := mapModes_removeOldModeTransition horizon hK
  have hretires := retires_mapModes horizon s
  obtain ⟨old, hremoves, hold, hall⟩ := removeOldVariables_removes hs hK₁.listed
  generalize s.mapModes (TSystem.removeOldModeTransition horizon) = s₁ at *
  obtain ⟨f, rfl⟩ := hmodes.rest
  exact h.removes hK hmodes hretires hret hremoves hold (hall h.nows)

theorem nows_insertInFrontOf {time : Ref → UInt32} {q : Ref} {list : List Ref}
    (h : list.Pairwise fun a b => time a = now → time b = now) (hr : time r ≠ now)
    (hq : (list.find? fun x => time x ≤ horizon ∨ time x = now) = some q) :
    (TSystem.insertInFrontOf q r list).Pairwise fun a b => time a = now → time b = now := by
  induction list with
  | nil => cases hq
  | cons x list ih =>
    obtain ⟨hx, hlist⟩ := List.pairwise_cons.mp h
    rw [TSystem.insertInFrontOf]
    split
    · exact List.pairwise_cons.mpr ⟨fun _ _ hnow => absurd hnow hr, h⟩
    case isFalse hne =>
      rw [List.find?_cons] at hq
      split at hq
      · exact absurd (Option.some.inj hq) hne
      case h_2 hlater =>
        have hnow : time x ≠ now := fun hnow => of_decide_eq_false hlater (Or.inr hnow)
        exact List.pairwise_cons.mpr ⟨fun _ _ heq => absurd heq hnow, ih hlist hq⟩

/-- The state variable is a new one, before the first variable that is not after the horizon. -/
theorem createStateVar_created {nstates : ℕ} (hs : s.createStateVar S horizon nstates = .ok s') :
    ∃ s₁, Created .stateVariable horizon s.fresh s s₁ ∧ Alike s₁ s' ∧ horizon ≠ now ∧
      ∀ q, (s.variableList.find? fun x => s.timeOf x ≤ horizon ∨ s.timeOf x = now) = some q →
        s₁.variableList = TSystem.insertInFrontOf q s.fresh s.variableList := by
  obtain ⟨b, hat, hb⟩ : ∃ b, s.atHorizon horizon = { s with insertBefore := b } ∧
      ∀ q, (s.variableList.find? fun x => s.timeOf x ≤ horizon ∨ s.timeOf x = now) = some q →
        b = some q := by
    unfold TSystem.atHorizon
    split
    case h_1 q hfind => exact ⟨some q, rfl, fun q' hq' => hfind.symm.trans hq'⟩
    case h_2 hfind => exact ⟨s.insertBefore, rfl, fun q' hq' => by rw [hfind] at hq'; cases hq'⟩
  have hc := newAssignable_created (S := S) .stateVariable (List.replicate nstates 0) horizon
    stateVarID (s.atHorizon horizon)
  have hid := createStateVariable_id (S := S) (List.replicate nstates 0) horizon stateVarID
    (s.atHorizon horizon)
  unfold TSystem.createStateVar at hs
  split at hs
  · cases hs
  dsimp only at hs
  split at hs
  · obtain ⟨s₁, h₁, hs⟩ := Loop.bind_eq_ok hs
    exact absurd hid (registerNewVariable_eq h₁).2.2.1
  case isFalse htime =>
    obtain rfl := Except.ok.inj hs
    have hhorizon : horizon ≠ now := fun heq => htime (hc.time.trans heq)
    rw [hat] at hc ⊢
    refine ⟨_, ⟨hc.ref, hc.fresh, hc.kind, hc.time, hc.cell, hc.links, hc.list, hc.listed,
      hc.present, hc.assumptions, hc.modes, hc.candidates⟩, ?_, hhorizon, fun q hq => ?_⟩
    · exact ⟨rfl, rfl, rfl, rfl, fun _ => ⟨rfl, rfl⟩, fun _ => ⟨rfl, rfl⟩⟩
    · obtain rfl := hb q hq
      rfl

theorem Ordered.createStateVar {nstates : ℕ} (h : Ordered D E T s) (hK : Tidy K s)
    (hs : s.createStateVar S horizon nstates = .ok s') : Ordered D E T s' := by
  obtain ⟨s₁, hc, halike, hhorizon, hlist⟩ := createStateVar_created hs
  refine (h.created hK hc ?_).alike halike
  have hnew : s₁.timeOf s.fresh ≠ now := hc.time.trans_ne hhorizon
  have hold : ∀ x ∈ s.variableList, s₁.timeOf x = s.timeOf x := fun x hx =>
    (hc.grows.cell x (hK.lt hx)).2.1
  have hnows : s.variableList.Pairwise fun a b => s₁.timeOf a = now → s₁.timeOf b = now :=
    h.nows.imp_of_mem fun {a b} ha hb hab => by rwa [hold a ha, hold b hb]
  have hfind : (s.variableList.find? fun x => s.timeOf x ≤ horizon ∨ s.timeOf x = now) =
      s.variableList.find? fun x => s₁.timeOf x ≤ horizon ∨ s₁.timeOf x = now :=
    List.find?_congr fun x hx => by rw [hold x hx]
  cases hq : s.variableList.find? fun x => s.timeOf x ≤ horizon ∨ s.timeOf x = now with
  | some q =>
    rw [hlist q hq]
    exact nows_insertInFrontOf hnows hnew (hfind.symm.trans hq)
  | none =>
    -- there are no variables of the present
    refine List.pairwise_of_forall_mem_list fun a ha b _ hnow => ?_
    rcases (hc.list a).mp ha with rfl | ha
    · exact absurd hnow hnew
    · have hlater := List.find?_eq_none.mp hq a ha
      simp [← hold a ha, hnow] at hlater

theorem Ordered.summarizeState (h : Ordered D E T s) (hK : Tidy K s)
    (hs : s.summarizeState S horizon = .ok s') : Ordered D E T s' := by
  obtain ⟨s₁, s₂, n, hrevalued, h₁, halike, -⟩ := summarizeState_steps hs
  exact ((h.alike hrevalued.alike).createStateVar (hK.revalued hrevalued) h₁).alike halike

theorem Ordered.truncate (h : Ordered D ∅ T s) (hK : Tidy K s)
    (hs : s.truncate S horizon = .ok s') : Ordered D ∅ T s' := by
  rcases truncate_steps hs with ⟨-, rfl⟩ | ⟨-, s₁, s₂, h₁, h₂, halike, -⟩
  · exact h
  have hsave := revalued_mapOverObservations (S := S) .save s
  have hK₁ := hK.revalued hsave
  obtain ⟨hK₂, -⟩ := summarizeState_observations hK₁ h₁
  have hsummarized := (h.alike hsave.alike).summarizeState hK₁ h₁
  exact (hsummarized.removeOldVariables hK₂ h₂).alike halike

theorem Ordered.truncateIfNeeded (h : Ordered D ∅ T s) (hK : Tidy K s)
    (hs : s.truncateIfNeeded S = .ok s') : Ordered D ∅ T s' := by
  unfold TSystem.truncateIfNeeded at hs
  split at hs
  · exact h.truncate hK hs
  · obtain rfl := Except.ok.inj hs
    exact h

end Transition
end Livingstone
