import Livingstone.Jmpl.Transition
import Livingstone.Lib.Loop

/-! A wildcard among the states of a transition puts the states after it and the state variables out
of step. Each state is then checked against the variable of an earlier one. A transition without
states is never accepted, since nothing is recorded for them. -/

namespace Livingstone
namespace Jmpl
namespace AbstractTransition

open Loop

variable {c : Component} {t : AbstractTransition} {kind wildcard state stateVar : String}
  {states vars : List String} {recorded : Option String}

def InDomain (c : Component) (stateVar state : String) : Prop :=
  ∃ type, c.findAttribute stateVar = some (some type) ∧ state ∈ type.values

/-- The list is no longer than the vector, and its states are in the domains of the variables at
the same positions. -/
def Fits (c : Component) (wildcard : String) (vars states : List String) : Prop :=
  states.length ≤ vars.length ∧ ∀ (i : ℕ) (s v : String), states[i]? = some s → vars[i]? = some v →
    s ≠ wildcard → InDomain c v s

def joined (states : List String) : String := " ".intercalate states

/-- Whatever the expression does, the transition is accepted if both lists fit, and only then, and
what it records are the lists. -/
def ChecksStates (c : Component) (vars : List String) (t : AbstractTransition) : Prop :=
  ∀ e, ((∃ x, instantiate c e t = .ok x) ↔ (Fits c "*" vars t.fromStates ∧
      Fits c "+" vars t.toStates) ∧ e ⟨t.name, joined t.fromStates, joined t.toStates⟩ = .ok ()) ∧
    ∀ x, instantiate c e t = .ok x → x = ⟨t.name, joined t.fromStates, joined t.toStates⟩

/-- The variable that the state at a position is checked against. -/
def shifted (wildcard : String) (states : List String) (i : ℕ) : ℕ :=
  i - (states.take i).count wildcard

/-- The states are in the domains of the variables that they are checked against. -/
def FitsShifted (c : Component) (wildcard : String) (vars states : List String) : Prop :=
  ∀ (i : ℕ) (s : String), states[i]? = some s → ∃ v, vars[shifted wildcard states i]? = some v ∧
    (s ≠ wildcard → InDomain c v s)

theorem checkState_eq_ok : checkState c kind state stateVar = .ok () ↔ InDomain c stateVar state := by
  unfold checkState InDomain
  cases c.findAttribute stateVar with
  | none => simp
  | some type =>
    cases type with
    | none => simp
    | some type => simp

theorem forall_getElem?_cons {α : Type} {P : ℕ → α → Prop} {a : α} {l : List α} :
    (∀ (i : ℕ) (x : α), (a :: l)[i]? = some x → P i x) ↔
      P 0 a ∧ ∀ (i : ℕ) (x : α), l[i]? = some x → P (i + 1) x := by
  constructor
  · intro h
    exact ⟨h 0 a rfl, fun i x hx => h (i + 1) x hx⟩
  · intro ⟨hzero, hsucc⟩ i x hx
    cases i with
    | zero => exact Option.some.inj hx ▸ hzero
    | succ i => exact hsucc i x hx

theorem shifted_wildcard (states : List String) (i : ℕ) :
    shifted wildcard (wildcard :: states) (i + 1) = shifted wildcard states i := by
  simp [shifted, Nat.add_sub_add_right]

theorem shifted_proper (states : List String) (h : state ≠ wildcard) (i : ℕ) :
    shifted wildcard (state :: states) (i + 1) = shifted wildcard states i + 1 := by
  have hcount : (states.take i).count wildcard ≤ i :=
    List.count_le_length.trans (List.length_take_le i states)
  simp only [shifted, List.take_succ_cons, List.count_cons_of_ne h]
  omega

theorem fitsShifted_wildcard (h : state = wildcard) :
    FitsShifted c wildcard (stateVar :: vars) (state :: states) ↔
      FitsShifted c wildcard (stateVar :: vars) states := by
  subst h
  unfold FitsShifted
  rw [forall_getElem?_cons]
  simp only [shifted_wildcard]
  exact and_iff_right ⟨stateVar, rfl, fun hne => absurd rfl hne⟩

theorem fitsShifted_proper (h : state ≠ wildcard) :
    FitsShifted c wildcard (stateVar :: vars) (state :: states) ↔
      InDomain c stateVar state ∧ FitsShifted c wildcard vars states := by
  unfold FitsShifted
  rw [forall_getElem?_cons]
  simp only [shifted_proper _ h, List.getElem?_cons_succ]
  refine and_congr_left' ⟨fun ⟨v, hv, hdomain⟩ => ?_, fun hdomain => ⟨stateVar, rfl, fun _ => hdomain⟩⟩
  obtain rfl : stateVar = v := Option.some.inj hv
  exact hdomain h

theorem checkStates_spec (c : Component) (kind wildcard : String) (states vars : List String)
    (recorded : Option String) : ReturnsIff (checkStates c kind wildcard states vars recorded)
      (FitsShifted c wildcard vars states)
      fun r => r = states.foldl (fun r s => some (recordState r s)) recorded := by
  induction states generalizing vars recorded with
  | nil =>
    rw [checkStates]
    exact ⟨fun i s hs => by simp at hs, rfl⟩
  | cons state states ih =>
    cases vars with
    | nil =>
      intro hfits
      obtain ⟨v, hv, -⟩ := hfits 0 state rfl
      cases hv
    | cons stateVar vars =>
      unfold checkStates
      split
      case isTrue h =>
        exact (ih (stateVar :: vars) _).congr (fitsShifted_wildcard h).symm fun r _ hr => hr
      case isFalse h =>
        cases hcheck : checkState c kind state stateVar with
        | ok =>
          have hdomain := checkState_eq_ok.mp hcheck
          refine (ih vars _).congr ?_ fun r _ hr => hr
          rw [fitsShifted_proper h]
          exact (and_iff_right hdomain).symm
        | error e =>
          intro hfits
          have hdomain := ((fitsShifted_proper h).mp hfits).1
          cases hcheck.symm.trans (checkState_eq_ok.mpr hdomain)

theorem foldl_recordState (states : List String) :
    states.foldl (fun r s => some (recordState r s)) none =
      if states = [] then none else some (joined states) := by
  have hgo (states : List String) (acc : String) :
      states.foldl (fun r s => some (recordState r s)) (some acc) =
        some (" ".intercalate (acc :: states)) := by
    induction states generalizing acc with
    | nil => rfl
    | cons state states ih => exact ih (acc ++ " " ++ state)
  cases states with
  | nil => rfl
  | cons state states => exact hgo states state

theorem set_checkStates_spec (c : Component) (kind wildcard : String) (states vars : List String) :
    ReturnsIff (checkStates c kind wildcard states vars none >>= set)
      (states ≠ [] ∧ FitsShifted c wildcard vars states) fun r => r = joined states := by
  have hspec := checkStates_spec c kind wildcard states vars none
  rw [foldl_recordState] at hspec
  cases hcheck : checkStates c kind wildcard states vars none with
  | error err =>
    rw [hcheck] at hspec
    exact fun h => hspec h.2
  | ok r =>
    rw [hcheck] at hspec
    obtain ⟨hfits, rfl⟩ := hspec
    split_ifs with hnil
    · exact fun h => h.1 hnil
    · exact ⟨⟨hnil, hfits⟩, rfl⟩

/-- The transition is accepted as far as its states go. -/
structure Passes (c : Component) (vars : List String) (t : AbstractTransition) : Prop where
  fromStates : t.fromStates ≠ [] ∧ FitsShifted c "*" vars t.fromStates
  toStates : t.toStates ≠ [] ∧ FitsShifted c "+" vars t.toStates

theorem instantiate_eq_ok {e : Transition → Except JmplException Unit} {x : Transition}
    (hvars : c.stateVector = some vars) : instantiate c e t = .ok x ↔
      Passes c vars t ∧ e ⟨t.name, joined t.fromStates, joined t.toStates⟩ = .ok () ∧
        x = ⟨t.name, joined t.fromStates, joined t.toStates⟩ := by
  have hfrom := set_checkStates_spec c "from" "*" t.fromStates vars
  have hto := set_checkStates_spec c "to" "+" t.toStates vars
  have hinstantiate : instantiate c e t =
      (checkStates c "from" "*" t.fromStates vars none >>= set) >>= fun fromStates =>
        (checkStates c "to" "+" t.toStates vars none >>= set) >>= fun toStates =>
          e ⟨t.name, fromStates, toStates⟩ >>= fun _ => .ok ⟨t.name, fromStates, toStates⟩ := by
    unfold instantiate checkFromStates checkToStates
    rw [hvars]
    simp only [bind_assoc]
    rfl
  rw [hinstantiate]
  cases hf : checkStates c "from" "*" t.fromStates vars none >>= set with
  | error err =>
    rw [hf] at hfrom
    exact iff_of_false (fun heq => by cases heq) fun h => hfrom h.1.fromStates
  | ok r =>
    rw [hf] at hfrom
    obtain ⟨hfits, rfl⟩ := hfrom
    cases ht : checkStates c "to" "+" t.toStates vars none >>= set with
    | error err =>
      rw [ht] at hto
      exact iff_of_false (fun heq => by cases heq) fun h => hto h.1.toStates
    | ok r =>
      rw [ht] at hto
      obtain ⟨hfits', rfl⟩ := hto
      rw [and_iff_right (Passes.mk hfits hfits')]
      cases he : e ⟨t.name, joined t.fromStates, joined t.toStates⟩ with
      | error err =>
        refine iff_of_false (fun heq => ?_) fun h => by cases h.1
        simp [he, bind, Except.bind] at heq
      | ok u => simp [he, bind, Except.bind, eq_comm]

/-- A state after wildcards is also in the domain of the variable that it is checked against. -/
def InDomainShifted (c : Component) (wildcard : String) (vars states : List String) : Prop :=
  ∀ (i : ℕ) (s v : String), states[i]? = some s → s ≠ wildcard →
    vars[shifted wildcard states i]? = some v → InDomain c v s

/-- Where the lists fit, there is a state in each, and they also fit with the states after wildcards
taken against earlier variables. Where one does not fit, one is empty or does not fit so either. -/
structure Harmless (c : Component) (vars : List String) (t : AbstractTransition) : Prop where
  accepted : Fits c "*" vars t.fromStates → Fits c "+" vars t.toStates →
    (t.fromStates ≠ [] ∧ InDomainShifted c "*" vars t.fromStates) ∧
      t.toStates ≠ [] ∧ InDomainShifted c "+" vars t.toStates
  rejected : ¬ (Fits c "*" vars t.fromStates ∧ Fits c "+" vars t.toStates) → ¬ Passes c vars t

theorem Fits.shifted_iff (h : Fits c wildcard vars states) :
    FitsShifted c wildcard vars states ↔ InDomainShifted c wildcard vars states := by
  constructor
  · intro hfits i s v hs hne hv
    obtain ⟨v', hv', hdomain⟩ := hfits i s hs
    obtain rfl := Option.some.inj (hv.symm.trans hv')
    exact hdomain hne
  · intro hdomain i s hs
    have hi := (List.getElem?_eq_some_iff.mp hs).1
    have hlt : shifted wildcard states i < vars.length := by
      have hle : shifted wildcard states i ≤ i := Nat.sub_le _ _
      have hlength := h.1
      omega
    have hv := List.getElem?_eq_getElem hlt
    exact ⟨_, hv, fun hne => hdomain i s _ hs hne hv⟩

theorem fitsShifted_iff_of_not_mem (h : wildcard ∉ states) :
    FitsShifted c wildcard vars states ↔ Fits c wildcard vars states := by
  have hshifted (i : ℕ) : shifted wildcard states i = i := by
    have hcount : (states.take i).count wildcard = 0 :=
      List.count_eq_zero_of_not_mem fun hmem => h (List.mem_of_mem_take hmem)
    rw [shifted, hcount, Nat.sub_zero]
  unfold FitsShifted
  simp only [hshifted]
  constructor
  · intro hfits
    refine ⟨?_, fun i s v hs hv hne => ?_⟩
    · by_contra hlt
      obtain ⟨v, hv, -⟩ := hfits vars.length _ (List.getElem?_eq_getElem (not_le.mp hlt))
      simp at hv
    · obtain ⟨v', hv', hdomain⟩ := hfits i s hs
      obtain rfl := Option.some.inj (hv.symm.trans hv')
      exact hdomain hne
  · intro ⟨hlength, hfits⟩ i s hs
    have hv := List.getElem?_eq_getElem ((List.getElem?_eq_some_iff.mp hs).1.trans_le hlength)
    exact ⟨_, hv, hfits i s _ hs hv⟩

theorem harmless_of_not_mem (hfrom : "*" ∉ t.fromStates) (hto : "+" ∉ t.toStates)
    (hne : t.fromStates ≠ []) (hne' : t.toStates ≠ []) : Harmless c vars t := by
  constructor
  · intro hfits hfits'
    rw [← hfits.shifted_iff, ← hfits'.shifted_iff]
    exact ⟨⟨hne, (fitsShifted_iff_of_not_mem hfrom).mpr hfits⟩,
      hne', (fitsShifted_iff_of_not_mem hto).mpr hfits'⟩
  · intro hnot hpasses
    exact hnot ⟨(fitsShifted_iff_of_not_mem hfrom).mp hpasses.fromStates.2,
      (fitsShifted_iff_of_not_mem hto).mp hpasses.toStates.2⟩

/-- The states are checked as they should be if and only if being out of step does no harm. -/
theorem checksStates_iff (hvars : c.stateVector = some vars) :
    ChecksStates c vars t ↔ Harmless c vars t := by
  have hrecorded : ∀ e x, instantiate c e t = .ok x →
      x = ⟨t.name, joined t.fromStates, joined t.toStates⟩ :=
    fun e x hx => ((instantiate_eq_ok hvars).mp hx).2.2
  have haccepts (e : Transition → Except JmplException Unit) : (∃ x, instantiate c e t = .ok x) ↔
      Passes c vars t ∧ e ⟨t.name, joined t.fromStates, joined t.toStates⟩ = .ok () := by
    simp only [instantiate_eq_ok hvars, exists_and_left, exists_eq, and_true]
  have hchecks : ChecksStates c vars t ↔
      (Passes c vars t ↔ Fits c "*" vars t.fromStates ∧ Fits c "+" vars t.toStates) := by
    constructor
    · intro h
      have hok := (haccepts fun _ => .ok ()).symm.trans (h fun _ => .ok ()).1
      simpa using hok
    · intro hiff e
      refine ⟨?_, hrecorded e⟩
      rw [haccepts e, hiff]
  rw [hchecks]
  constructor
  · intro hiff
    refine ⟨fun hfrom hto => ?_, fun hnot => mt hiff.mp hnot⟩
    rw [← hfrom.shifted_iff, ← hto.shifted_iff]
    have hpasses := hiff.mpr ⟨hfrom, hto⟩
    exact ⟨hpasses.fromStates, hpasses.toStates⟩
  · intro h
    refine ⟨fun hpasses => ?_, fun ⟨hfrom, hto⟩ => ?_⟩
    · by_contra hnot
      exact h.rejected hnot hpasses
    · obtain ⟨⟨hne, hdomain⟩, hne', hdomain'⟩ := h.accepted hfrom hto
      exact ⟨⟨hne, hfrom.shifted_iff.mpr hdomain⟩, hne', hto.shifted_iff.mpr hdomain'⟩

def valveAndLamp : Component where
  attributes := [("valve", some ⟨"position", true, ["open", "closed"]⟩),
    ("lamp", some ⟨"light", true, ["on", "off"]⟩)]
  stateVector := some ["valve", "lamp"]

theorem checksStates_close :
    ChecksStates valveAndLamp ["valve", "lamp"] ⟨some "close", ["open"], ["closed", "on"]⟩ :=
  (checksStates_iff rfl).mpr
    (harmless_of_not_mem (by decide) (by decide) (by decide) (by decide))

theorem fits_star_on : Fits valveAndLamp "*" ["valve", "lamp"] ["*", "on"] := by
  refine ⟨by decide, fun i s v hs hv hne => ?_⟩
  match i with
  | 0 => exact absurd (Option.some.inj hs).symm hne
  | 1 =>
    obtain rfl := Option.some.inj hs
    obtain rfl := Option.some.inj hv
    exact ⟨⟨"light", true, ["on", "off"]⟩, rfl, by decide⟩
  | i + 2 => cases hs

/-- A light is looked for among the positions of the valve. -/
theorem not_checksStates : ¬ ∀ (c : Component) (vars : List String) (t : AbstractTransition),
    c.stateVector = some vars → ChecksStates c vars t := by
  intro h
  have hchecks := h valveAndLamp ["valve", "lamp"] ⟨none, ["*", "on"], ["closed"]⟩ rfl fun _ => .ok ()
  have hfits : Fits valveAndLamp "+" ["valve", "lamp"] ["closed"] := by
    refine ⟨by decide, fun i s v hs hv hne => ?_⟩
    match i with
    | 0 =>
      obtain rfl := Option.some.inj hs
      obtain rfl := Option.some.inj hv
      exact ⟨⟨"position", true, ["open", "closed"]⟩, rfl, by decide⟩
    | i + 1 => cases hs
  obtain ⟨x, hx⟩ := hchecks.1.mpr ⟨⟨fits_star_on, hfits⟩, rfl⟩
  have hrejected : instantiate valveAndLamp (fun _ => .ok ()) ⟨none, ["*", "on"], ["closed"]⟩ =
      .error (.syntaxError ("syntax error: transition 'from' state is not in the domain of the " ++
        "state variable\n  the value 'on'\n  for state variable 'valve' of type 'position'")) := by
    decide +kernel
  cases hrejected.symm.trans hx

end AbstractTransition
end Jmpl
end Livingstone
