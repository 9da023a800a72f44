import Livingstone.Transition.OrderedRemoval
import Mathlib.Data.List.TakeWhile

/-! The list of the variables as the scans of a truncation assume it: the newest of the past first,
and the present last. -/

namespace Livingstone
namespace Transition

variable {σ : Type} {S : Solver σ} {s s₁ s' : TSystem σ} {K : Set Ref} {horizon : UInt32}
  {m r v : Ref} {l : List Ref}

/-- In descending time, the present last. -/
def Sorted (time : Ref → UInt32) (l : List Ref) : Prop :=
  l.Pairwise fun a b => time b = now ∨ time a ≠ now ∧ time b ≤ time a

instance (time : Ref → UInt32) (l : List Ref) : Decidable (Sorted time l) :=
  inferInstanceAs (Decidable (l.Pairwise _))

section Lists

variable {time : Ref → UInt32} {h : UInt32}

theorem Sorted.congr {time' : Ref → UInt32} (hl : Sorted time l) (ht : ∀ x ∈ l, time' x = time x) :
    Sorted time' l :=
  List.Pairwise.imp_of_mem (fun {a b} ha hb hab => by rwa [ht a ha, ht b hb]) hl

theorem Sorted.present (hl : Sorted time l) :
    ∀ x ∈ l.dropWhile (fun x => decide (time x ≠ now)), time x = now := by
  induction l with
  | nil => exact fun x hx => absurd hx List.not_mem_nil
  | cons a l ih =>
    obtain ⟨ha, hl⟩ := List.pairwise_cons.mp hl
    rw [List.dropWhile_cons]
    split
    case isTrue => exact ih hl
    case isFalse hnow =>
      have hnow : time a = now := by simpa using hnow
      refine List.forall_mem_cons.mpr ⟨hnow, fun x hx => ?_⟩
      exact (ha x hx).resolve_right fun hpast => hpast.1 hnow

theorem Sorted.scans (hl : Sorted time l) (hold : ∃ x ∈ l, time x < h) :
    ∃ newer old last, l = newer ++ (old ++ last) ∧
      l.takeWhile (fun x => decide (h ≤ time x)) = newer ∧
      (l.dropWhile fun x => decide (h ≤ time x)).takeWhile (fun x => decide (time x ≠ now)) = old ∧
      (l.dropWhile fun x => decide (h ≤ time x)).dropWhile (fun x => decide (time x ≠ now)) = last ∧
      (∀ x ∈ newer, h ≤ time x ∧ time x ≠ now) ∧ (∀ x ∈ old, time x < h) ∧
      ∀ x ∈ last, time x = now := by
  induction l with
  | nil =>
    obtain ⟨x, hx, -⟩ := hold
    exact absurd hx List.not_mem_nil
  | cons a l ih =>
    obtain ⟨ha, hsorted⟩ := List.pairwise_cons.mp hl
    by_cases hle : h ≤ time a
    · obtain ⟨x, hx, hlt⟩ := hold
      have hxl : x ∈ l := by
        rcases List.mem_cons.mp hx with rfl | hx
        · exact absurd hlt (UInt32.not_lt.mpr hle)
        · exact hx
      have hpast : time a ≠ now := by
        rcases ha x hxl with hnow | hpast
        · rw [hnow] at hlt
          exact absurd hlt (not_now_lt h)
        · exact hpast.1
      obtain ⟨newer, old, last, heq, hnewer, hrange, hlast, hn, hrest⟩ := ih hsorted ⟨x, hxl, hlt⟩
      refine ⟨a :: newer, old, last, ?_, ?_, ?_, ?_, ?_, hrest⟩
      · rw [List.cons_append, ← heq]
      · rw [List.takeWhile_cons, if_pos (decide_eq_true hle), hnewer]
      · rw [List.dropWhile_cons, if_pos (decide_eq_true hle), hrange]
      · rw [List.dropWhile_cons, if_pos (decide_eq_true hle), hlast]
      · exact List.forall_mem_cons.mpr ⟨⟨hle, hpast⟩, hn⟩
    · -- from here on all of the past is old
      have hlt : time a < h := UInt32.not_le.mp hle
      have hnil : (a :: l).takeWhile (fun x => decide (h ≤ time x)) = [] := by
        rw [List.takeWhile_cons, if_neg (by simpa using hle)]
      have hall : (a :: l).dropWhile (fun x => decide (h ≤ time x)) = a :: l := by
        rw [List.dropWhile_cons, if_neg (by simpa using hle)]
      rw [hnil, hall]
      refine ⟨[], _, _, List.takeWhile_append_dropWhile.symm, rfl, rfl, rfl, by simp, ?_,
        hl.present⟩
      intro x hx
      have hpast : time x ≠ now := of_decide_eq_true
        (List.mem_takeWhile_imp (p := fun x => decide (time x ≠ now)) hx)
      rcases List.mem_cons.mp (List.takeWhile_subset _ hx) with rfl | hx
      · exact hlt
      · rcases ha x hx with hnow | ⟨-, hxa⟩
        · exact absurd hnow hpast
        · exact UInt32.lt_of_le_of_lt hxa hlt

/-- The last of the newer variables has the time of the horizon, if one of them has. -/
theorem Sorted.getLast?_eq (hl : Sorted time l) (hnewer : ∀ x ∈ l, h ≤ time x ∧ time x ≠ now)
    (hex : ∃ x ∈ l, time x = h) : l.getLast?.map time = some h := by
  obtain ⟨x, hx, hxh⟩ := hex
  rcases List.eq_nil_or_concat l with rfl | ⟨l, z, rfl⟩
  · exact absurd hx List.not_mem_nil
  · rw [List.concat_eq_append] at *
    rw [List.getLast?_concat, Option.map_some]
    obtain ⟨hle, hpast⟩ := hnewer z (List.mem_append_right _ List.mem_cons_self)
    refine congrArg some (UInt32.le_antisymm ?_ hle)
    rcases List.mem_append.mp hx with hx | hx
    · have hxz := (List.pairwise_append.mp hl).2.2 x hx z List.mem_cons_self
      exact hxh ▸ (hxz.resolve_left hpast).2
    · rw [List.mem_singleton.mp hx] at hxh
      exact UInt32.le_of_eq hxh

/-- The state variable of the horizon is put where the past from the horizon on begins. -/
theorem Sorted.insertInFrontOf {q : Ref} (hl : Sorted time l) (hr : time r = h) (hnow : h ≠ now)
    (hq : (l.find? fun x => decide (time x ≤ h ∨ time x = now)) = some q) :
    Sorted time (TSystem.insertInFrontOf q r l) := by
  induction l with
  | nil => cases hq
  | cons x l ih =>
    obtain ⟨hx, hsorted⟩ := List.pairwise_cons.mp hl
    have hfound := List.find?_some hq
    rw [TSystem.insertInFrontOf]
    split
    case isTrue heq =>
      subst heq
      refine List.pairwise_cons.mpr ⟨List.forall_mem_cons.mpr ⟨?_, fun b hb => ?_⟩, hl⟩
      · rcases of_decide_eq_true hfound with hle | hnow'
        · exact Or.inr ⟨hr.trans_ne hnow, hr.symm ▸ hle⟩
        · exact Or.inl hnow'
      · rcases hx b hb with hb | ⟨hpast, hle⟩
        · exact Or.inl hb
        · have hxh := (of_decide_eq_true hfound).resolve_right hpast
          exact Or.inr ⟨hr.trans_ne hnow, hr.symm ▸ UInt32.le_trans hle hxh⟩
    case isFalse hne =>
      rw [List.find?_cons] at hq
      split at hq
      · exact absurd (Option.some.inj hq) hne
      case h_2 hlater =>
        obtain ⟨hlt, hpast⟩ := not_or.mp (of_decide_eq_false hlater)
        refine List.pairwise_cons.mpr ⟨fun b hb => ?_, ih hsorted hq⟩
        rcases mem_insertInFrontOf.mp hb with rfl | hb
        · exact Or.inr ⟨hpast, hr.symm ▸ UInt32.le_of_lt (UInt32.not_le.mp hlt)⟩
        · exact hx b hb

end Lists

def bounds (s : TSystem σ) : UInt32 × UInt32 := (s.oldestTimestep, s.maxHistoryLength)

theorem Touches.bounds (h : Touches s s') : bounds s' = bounds s := by
  obtain ⟨t, f, g, cs, ds, ps, as, rfl⟩ := h
  rfl

theorem bounds_newVariable (kind : Kind) (nvalues : ℕ) (timeStep id : UInt32) (s : TSystem σ) :
    bounds (s.newVariable S kind nvalues timeStep id).2 = bounds s := by
  unfold TSystem.newVariable TSystem.insertVariable
  dsimp only
  split <;> rfl

theorem bounds_newAssignable (kind : Kind) (weights : List UInt32) (timeStep id : UInt32)
    (s : TSystem σ) : bounds (s.newAssignable S kind weights timeStep id).2 = bounds s :=
  bounds_newVariable kind weights.length timeStep id s

theorem bounds_createModeTransition (costs : List UInt32) (timeStep id : UInt32) (s : TSystem σ) :
    bounds (s.createModeTransition S costs timeStep id).2 = bounds s :=
  (touches_assign _ _).bounds.trans (bounds_newAssignable .transition costs timeStep id s)

theorem bounds_copyInPast (kind : Kind) (v : Ref) (s : TSystem σ) :
    bounds (s.copyInPast S kind v).2 = bounds s := by
  unfold TSystem.copyInPast
  dsimp only
  split
  · exact bounds_newAssignable kind _ s.timestep _ s
  · exact bounds_newVariable kind _ s.timestep _ s

theorem bounds_createStateVar {nstates : ℕ} (h : s.createStateVar S horizon nstates = .ok s') :
    bounds s' = bounds s := by
  have hid := createStateVariable_id (S := S) (List.replicate nstates 0) horizon stateVarID
    (s.atHorizon horizon)
  have hat : bounds (s.atHorizon horizon) = bounds s := by
    unfold TSystem.atHorizon
    split <;> rfl
  have hcreated := (bounds_newAssignable (S := S) .stateVariable (List.replicate nstates 0) horizon
    stateVarID (s.atHorizon horizon)).trans hat
  unfold TSystem.createStateVar at h
  split at h
  · cases h
  dsimp only at h
  split at h
  · obtain ⟨s₁, h₁, h⟩ := Loop.bind_eq_ok h
    exact absurd hid (registerNewVariable_eq h₁).2.2.1
  · obtain rfl := Except.ok.inj h
    exact hcreated

theorem bounds_summarizeState (hs : s.summarizeState S horizon = .ok s') :
    bounds s' = bounds s := by
  obtain ⟨s₁, s₂, n, hrevalued, h₁, -, htouches⟩ := summarizeState_steps hs
  exact (htouches.bounds.trans (bounds_createStateVar h₁)).trans hrevalued.touches.bounds

/-- A variable of the present, or the transition from the horizon of one. -/
def IsNow (s : TSystem σ) (x : Ref) : Prop :=
  x ∈ s.present ∨ ∃ m ∈ s.present, s.kindOf m = .transitioned ∧ (s.modeCell m).horizonTransition = x

theorem IsNow.mono (h : IsNow s r) (hpresent : ∀ v ∈ s.present, v ∈ s'.present)
    (hkind : ∀ v ∈ s.present, s'.kindOf v = s.kindOf v)
    (hmodes : ∀ m ∈ s.present, s.kindOf m = .transitioned →
      (s'.modeCell m).horizonTransition = (s.modeCell m).horizonTransition) : IsNow s' r := by
  rcases h with hr | ⟨m, hm, hmode, rfl⟩
  · exact Or.inl (hpresent r hr)
  · exact Or.inr ⟨m, hpresent m hm, (hkind m hm).trans hmode, hmodes m hm hmode⟩

theorem Alike.isNow (ha : Alike s s') (h : IsNow s r) : IsNow s' r :=
  h.mono (fun _ hv => ha.present_eq.symm ▸ hv) (fun v _ => (ha.cell v).1)
    fun m _ _ => (ha.modes m).2

/-- The list of the variables between the operations. -/
structure Windowed (s : TSystem σ) : Prop where
  sorted : Sorted s.timeOf s.variableList
  within : ∀ x ∈ s.variableList, s.timeOf x = now ∨
    s.oldestTimestep ≤ s.timeOf x ∧ s.timeOf x ≤ s.timestep
  oldest : ∃ x ∈ s.variableList, s.timeOf x = s.oldestTimestep
  le : s.oldestTimestep ≤ s.timestep
  known : ∀ x ∈ s.variableList, s.timeOf x = now → IsNow s x

theorem Windowed.alike (h : Windowed s) (ha : Alike s s') (ht : Touches s s') : Windowed s' := by
  have htime : s'.timeOf = s.timeOf := funext fun r => (ha.cell r).2
  have holdest : s'.oldestTimestep = s.oldestTimestep := congrArg Prod.fst ht.bounds
  have htimestep : s'.timestep = s.timestep := congrArg Prod.fst ht.clock
  refine ⟨?_, ?_, ?_, ?_, ?_⟩
  · rw [ha.list, htime]
    exact h.sorted
  · rw [ha.list, htime, holdest, htimestep]
    exact h.within
  · rw [ha.list, htime, holdest]
    exact h.oldest
  · rw [holdest, htimestep]
    exact h.le
  · rw [ha.list, htime]
    exact fun x hx hnow => ha.isNow (h.known x hx hnow)

theorem Windowed.revalued (h : Windowed s) (hr : Revalued s s') : Windowed s' :=
  h.alike hr.alike hr.touches

/-- The scan for the place of the state variable ends at the oldest variable at the latest. -/
theorem Windowed.find?_isSome (h : Windowed s) (hold : s.oldestTimestep < horizon) :
    (s.variableList.find? fun x => s.timeOf x ≤ horizon ∨ s.timeOf x = now).isSome := by
  obtain ⟨x, hx, htime⟩ := h.oldest
  refine List.find?_isSome.mpr ⟨x, hx, decide_eq_true (Or.inl ?_)⟩
  exact htime.symm ▸ UInt32.le_of_lt hold

theorem Windowed.createStateVar {nstates : ℕ} (h : Windowed s) (hK : Tidy K s)
    (hold : s.oldestTimestep < horizon) (hle : horizon ≤ s.timestep)
    (hs : s.createStateVar S horizon nstates = .ok s') :
    Windowed s' ∧ horizon ≠ now ∧ ∃ x ∈ s'.variableList, s'.timeOf x = horizon := by
  have hbounds := bounds_createStateVar hs
  have hclock := clock_createStateVar hs
  obtain ⟨q, hq⟩ := Option.isSome_iff_exists.mp (h.find?_isSome hold)
  obtain ⟨s₁, hc, halike, hhorizon, hlist⟩ := createStateVar_created hs
  have htime₁ : ∀ x ∈ s.variableList, s₁.timeOf x = s.timeOf x := fun x hx =>
    (hc.grows.cell x (hK.lt hx)).2.1
  have htime : s'.timeOf = s₁.timeOf := funext fun r => (halike.cell r).2
  have hnew : s'.timeOf s.fresh = horizon := (congrFun htime _).trans hc.time
  have hmem (x : Ref) : x ∈ s'.variableList ↔ x = s.fresh ∨ x ∈ s.variableList :=
    halike.list.symm ▸ hc.list x
  have holdest : s'.oldestTimestep = s.oldestTimestep := congrArg Prod.fst hbounds
  have htimestep : s'.timestep = s.timestep := congrArg Prod.fst hclock
  have hkept : ∀ x ∈ s.variableList, s'.timeOf x = s.timeOf x := fun x hx =>
    (congrFun htime x).trans (htime₁ x hx)
  refine ⟨⟨?_, ?_, ?_, ?_, ?_⟩, hhorizon, s.fresh, (hmem _).mpr (Or.inl rfl), hnew⟩
  · rw [halike.list, hlist q hq]
    refine (h.sorted.congr hkept).insertInFrontOf hnew hhorizon ?_
    rw [← hq]
    exact List.find?_congr fun x hx => by rw [hkept x hx]
  · intro x hx
    rw [holdest, htimestep]
    rcases (hmem x).mp hx with rfl | hx
    · rw [hnew]
      exact Or.inr ⟨UInt32.le_of_lt hold, hle⟩
    · rw [hkept x hx]
      exact h.within x hx
  · obtain ⟨x, hx, hxt⟩ := h.oldest
    exact ⟨x, (hmem x).mpr (Or.inr hx), (hkept x hx).trans (hxt.trans holdest.symm)⟩
  · rw [holdest, htimestep]
    exact h.le
  · intro x hx hnow
    rcases (hmem x).mp hx with rfl | hx
    · exact absurd (hnew.symm.trans hnow) hhorizon
    · have hpresent : s₁.present = s.present := congrArg (List.filterMap id) hc.present
      refine halike.isNow ((h.known x hx ((hkept x hx).symm.trans hnow)).mono ?_ ?_ ?_)
      · exact fun v hv => hpresent.symm ▸ hv
      · exact fun v hv => (hc.grows.cell v (hK.lt (hK.present v hv).1)).1
      · exact fun m _ _ => congrArg (fun f => (f m).horizonTransition) hc.modes

theorem Windowed.summarizeState (h : Windowed s) (hK : Tidy K s)
    (hold : s.oldestTimestep < horizon) (hle : horizon ≤ s.timestep)
    (hs : s.summarizeState S horizon = .ok s') :
    Windowed s' ∧ horizon ≠ now ∧ ∃ x ∈ s'.variableList, s'.timeOf x = horizon := by
  obtain ⟨s₁, s₂, n, hrevalued, h₁, halike, htouches⟩ := summarizeState_steps hs
  have holdest₁ : s₁.oldestTimestep = s.oldestTimestep := congrArg Prod.fst hrevalued.touches.bounds
  have htimestep₁ : s₁.timestep = s.timestep := congrArg Prod.fst hrevalued.touches.clock
  obtain ⟨hwindowed, hnow, x, hx, htime⟩ := (h.revalued hrevalued).createStateVar
    (hK.revalued hrevalued) (holdest₁.symm ▸ hold) (htimestep₁.symm ▸ hle) h₁
  exact ⟨hwindowed.alike halike htouches, hnow, x, halike.list.symm ▸ hx,
    (halike.cell x).2.trans htime⟩

theorem Windowed.modes (h : Windowed s) (hm : Modes s s') : Windowed s' := by
  have hhorizon := hm.horizon
  obtain ⟨f, rfl⟩ := hm.rest
  refine ⟨h.sorted, h.within, h.oldest, h.le, fun x hx hnow => ?_⟩
  exact (h.known x hx hnow).mono (fun _ hv => hv) (fun _ _ => rfl) fun m _ _ => hhorizon m

theorem Windowed.scans (h : Windowed s) (hold : s.oldestTimestep < horizon) :
    ∃ newer old last, s.variableList = newer ++ (old ++ last) ∧
      s.variableList.takeWhile (fun r => decide (horizon ≤ s.timeOf r)) = newer ∧
      (s.variableList.dropWhile fun r => decide (horizon ≤ s.timeOf r)).dropWhile
        (fun r => decide (s.timeOf r ≠ now)) = last ∧
      (∀ x ∈ newer, horizon ≤ s.timeOf x ∧ s.timeOf x ≠ now) ∧
      (∀ x ∈ old, s.timeOf x < horizon) ∧ ∀ x ∈ last, s.timeOf x = now := by
  obtain ⟨x, hx, htime⟩ := h.oldest
  obtain ⟨newer, old, last, hlist, hnewer, -, hlast, hrest⟩ :=
    h.sorted.scans ⟨x, hx, htime.symm ▸ hold⟩
  exact ⟨newer, old, last, hlist, hnewer, hlast, hrest⟩

/-- The scans of a removal end before the list does, when there is a variable of the present. -/
theorem Windowed.removeOldVariables_ok (h : Windowed s) (hK : Tidy K s)
    (hold : s.oldestTimestep < horizon) (hpresent : s.present ≠ []) :
    ∃ s', s.removeOldVariables S horizon = .ok s' := by
  obtain ⟨v, hv⟩ := List.exists_mem_of_ne_nil _ hpresent
  obtain ⟨hK₁, hmodes, -⟩ := mapModes_removeOldModeTransition horizon hK
  have h₁ := h.modes hmodes
  unfold TSystem.removeOldVariables
  dsimp only
  generalize s.mapModes (TSystem.removeOldModeTransition horizon) = s₁ at *
  have hv₁ : v ∈ s₁.present ∧ s₁.oldestTimestep < horizon := by
    obtain ⟨f, rfl⟩ := hmodes.rest
    exact ⟨hv, hold⟩
  obtain ⟨hlisted, hnow⟩ := hK₁.present v hv₁.1
  obtain ⟨newer, old, last, hlist, -, hlast, hnewer, hlt, -⟩ := h₁.scans hv₁.2
  have hne : last ≠ [] := by
    rintro rfl
    rw [hlist, List.append_nil] at hlisted
    rcases List.mem_append.mp hlisted with hvn | hvo
    · exact (hnewer v hvn).2 hnow
    · exact not_now_lt horizon (hnow ▸ hlt v hvo)
  rw [if_neg fun hnil => hne (hlast.symm.trans hnil)]
  exact ⟨_, rfl⟩

/-- The oldest time step is the one of the horizon when there is a variable of it. -/
theorem Windowed.bounds_removeOldVariables (h : Windowed s) (hK : Tidy K s)
    (hold : s.oldestTimestep < horizon) (hnow : horizon ≠ now)
    (hstate : ∃ x ∈ s.variableList, s.timeOf x = horizon)
    (hs : s.removeOldVariables S horizon = .ok s') :
    bounds s' = (horizon, s.maxHistoryLength) := by
  obtain ⟨-, hmodes, -⟩ := mapModes_removeOldModeTransition horizon hK
  have h₁ := h.modes hmodes
  have hbounds₁ := (touches_mapModes (touches_removeOldModeTransition horizon) s).bounds
  unfold TSystem.removeOldVariables at hs
  dsimp only at hs
  generalize s.mapModes (TSystem.removeOldModeTransition horizon) = s₁ at *
  have hs₁ : s₁.oldestTimestep < horizon ∧ ∃ x ∈ s₁.variableList, s₁.timeOf x = horizon := by
    obtain ⟨f, rfl⟩ := hmodes.rest
    exact ⟨hold, hstate⟩
  obtain ⟨hold₁, x, hx, htime⟩ := hs₁
  obtain ⟨newer, old, last, hlist, htake, -, hnewer, hlt, hlast⟩ := h₁.scans hold₁
  have hsorted : Sorted s₁.timeOf newer := h₁.sorted.sublist (by simp [hlist])
  have hxn : x ∈ newer := by
    rw [hlist] at hx
    rcases List.mem_append.mp hx with hx | hx
    · exact hx
    rcases List.mem_append.mp hx with hx | hx
    · exact absurd (htime ▸ hlt x hx) (UInt32.lt_irrefl _)
    · exact absurd (htime.symm.trans (hlast x hx)) hnow
  have hlast := hsorted.getLast?_eq hnewer ⟨x, hxn, htime⟩
  rw [htake, hlast] at hs
  have hdestroyed (l : List Ref) (y : TSystem σ) :
      bounds (l.foldl (TSystem.destroyVariable S) y) = bounds y := by
    obtain ⟨t, ht⟩ := foldl_destroyVariable S l y
    rw [ht]
    rfl
  split at hs
  · cases hs
  obtain rfl := Except.ok.inj hs
  refine ((touches_removeDestroyedClauses _).bounds.trans (hdestroyed _ _)).trans ?_
  exact congrArg (fun b => (horizon, b.2)) hbounds₁

theorem Windowed.removeOldVariables (h : Windowed s) (hK : Tidy K s)
    (hold : s.oldestTimestep < horizon) (hle : horizon ≤ s.timestep) (hnow : horizon ≠ now)
    (hstate : ∃ x ∈ s.variableList, s.timeOf x = horizon)
    (hs : s.removeOldVariables S horizon = .ok s') : Windowed s' := by
  have hbounds := h.bounds_removeOldVariables hK hold hnow hstate hs
  have hclock := clock_removeOldVariables hs
  obtain ⟨hK₁, hmodes, -⟩ := mapModes_removeOldModeTransition horizon hK
  have h₁ := h.modes hmodes
  obtain ⟨old, hr, hlt, hall⟩ := removeOldVariables_removes hs hK₁.listed
  generalize s.mapModes (TSystem.removeOldModeTransition horizon) = s₁ at *
  have hs₁ : s₁.timeOf = s.timeOf ∧ s₁.variableList = s.variableList := by
    obtain ⟨f, rfl⟩ := hmodes.rest
    exact ⟨rfl, rfl⟩
  rw [hs₁.1] at hlt
  rw [hs₁.1, hs₁.2] at hall
  have hall := hall (h.sorted.imp fun {a b} hab hnow => hab.resolve_right fun hpast => hpast.1 hnow)
  have hlist (x : Ref) : x ∈ s'.variableList ↔ x ∈ s.variableList ∧ x ∉ old := hs₁.2 ▸ hr.list x
  have htime : s'.timeOf = s.timeOf := (funext hr.timeOf).trans hs₁.1
  have holdest : s'.oldestTimestep = horizon := congrArg Prod.fst hbounds
  have htimestep : s'.timestep = s.timestep := congrArg Prod.fst hclock
  refine ⟨?_, ?_, ?_, ?_, ?_⟩
  · rw [htime]
    exact h.sorted.sublist (hs₁.2 ▸ hr.sublist)
  · intro x hx
    rw [htime, holdest, htimestep]
    obtain ⟨hx, hxo⟩ := (hlist x).mp hx
    refine (h.within x hx).imp_right fun hwithin => ⟨?_, hwithin.2⟩
    exact UInt32.not_lt.mp fun hold => hxo (hall x hx hold)
  · obtain ⟨x, hx, hxt⟩ := hstate
    rw [htime, holdest]
    refine ⟨x, (hlist x).mpr ⟨hx, fun hxo => ?_⟩, hxt⟩
    exact UInt32.lt_irrefl horizon (hxt ▸ hlt x hxo)
  · rw [holdest, htimestep]
    exact hle
  · intro x hx hxnow
    rw [htime, ← hs₁.1] at hxnow
    refine (h₁.known x (hs₁.2 ▸ ((hlist x).mp hx).1) hxnow).mono ?_ ?_ fun m _ _ => (hr.modes m).2
    · have hpresent : s'.present = s₁.present := congrArg (List.filterMap id) hr.present
      exact fun v hv => hpresent.symm ▸ hv
    · exact fun v _ => hr.kindOf v

/-- The scans of a truncation end before the list does: the one for the place of the state variable
finds one, and those of the removal do when the summary is made. -/
structure Scans (S : Solver σ) (horizon : UInt32) (s : TSystem σ) : Prop where
  place : (s.variableList.find? fun x => s.timeOf x ≤ horizon ∨ s.timeOf x = now).isSome
  removal : ∀ s', (s.mapOverObservations S .save).summarizeState S horizon = .ok s' →
    ∃ s₁, s'.removeOldVariables S horizon = .ok s₁

theorem Windowed.save (h : Windowed s) (hK : Tidy K s) (hold : s.oldestTimestep < horizon)
    (hle : horizon ≤ s.timestep)
    (hs : (s.mapOverObservations S .save).summarizeState S horizon = .ok s') :
    Windowed s' ∧ horizon ≠ now ∧ ∃ x ∈ s'.variableList, s'.timeOf x = horizon := by
  have hsave := revalued_mapOverObservations (S := S) .save s
  have holdest : (s.mapOverObservations S .save).oldestTimestep = s.oldestTimestep :=
    congrArg Prod.fst hsave.touches.bounds
  have htimestep : (s.mapOverObservations S .save).timestep = s.timestep :=
    congrArg Prod.fst hsave.touches.clock
  exact (h.revalued hsave).summarizeState (hK.revalued hsave) (holdest.symm ▸ hold)
    (htimestep.symm ▸ hle) hs

theorem bounds_saved (hs : (s.mapOverObservations S .save).summarizeState S horizon = .ok s') :
    bounds s' = bounds s ∧ s'.timestep = s.timestep := by
  have hsave := revalued_mapOverObservations (S := S) .save s
  refine ⟨(bounds_summarizeState hs).trans hsave.touches.bounds, ?_⟩
  exact (congrArg Prod.fst (clock_summarizeState hs)).trans (congrArg Prod.fst hsave.touches.clock)

theorem Windowed.scans_truncate (h : Windowed s) (hK : Tidy K s)
    (hold : s.oldestTimestep < horizon) (hle : horizon ≤ s.timestep) (hpresent : s.present ≠ []) :
    Scans S horizon s := by
  refine ⟨h.find?_isSome hold, fun s' hs => ?_⟩
  have hsave := revalued_mapOverObservations (S := S) .save s
  obtain ⟨hK', hpvars, -⟩ := summarizeState_observations (hK.revalued hsave) hs
  have hpresent' : s'.present = s.present :=
    (congrArg (List.filterMap id) hpvars).trans hsave.present
  have holdest : s'.oldestTimestep = s.oldestTimestep := congrArg Prod.fst (bounds_saved hs).1
  exact (h.save hK hold hle hs).1.removeOldVariables_ok hK' (holdest.symm ▸ hold)
    (hpresent'.symm ▸ hpresent)

theorem Windowed.truncate (h : Windowed s) (hK : Tidy K s) (hold : s.oldestTimestep < horizon)
    (hle : horizon ≤ s.timestep) (hs : s.truncate S horizon = .ok s') :
    Windowed s' ∧ bounds s' = (horizon, s.maxHistoryLength) := by
  rcases truncate_steps hs with ⟨hnot, -⟩ | ⟨-, s₁, s₂, h₁, h₂, halike, htouches⟩
  · exact absurd hold (UInt32.not_lt.mpr hnot)
  obtain ⟨hwindowed, hnow, hstate⟩ := h.save hK hold hle h₁
  obtain ⟨hK₁, -⟩ := summarizeState_observations
    (hK.revalued (revalued_mapOverObservations (S := S) .save s)) h₁
  obtain ⟨hbounds₁, htimestep₁⟩ := bounds_saved h₁
  have holdest₁ : s₁.oldestTimestep = s.oldestTimestep := congrArg Prod.fst hbounds₁
  have hlength₁ : s₁.maxHistoryLength = s.maxHistoryLength := congrArg Prod.snd hbounds₁
  rw [← holdest₁] at hold
  rw [← htimestep₁] at hle
  rw [← hlength₁, htouches.bounds]
  exact ⟨(hwindowed.removeOldVariables hK₁ hold hle hnow hstate h₂).alike halike htouches,
    hwindowed.bounds_removeOldVariables hK₁ hold hnow hstate h₂⟩

end Transition
end Livingstone
