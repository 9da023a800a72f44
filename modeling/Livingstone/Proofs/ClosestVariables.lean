import Livingstone.Proofs.OrderedChains
import Mathlib.Data.List.Forall2

/-! What is instantiated for a transition connects the variables of its time steps: the chains are in
order in every run, and in the midst of a progress and of a truncation. -/

namespace Livingstone
namespace Transition

variable {σ : Type} {S : Solver σ} {s s₀ s₁ s' : TSystem σ} {K D E : Set Ref} {T horizon : UInt32}
  {m r v : Ref} {l t : List Ref}

theorem Tidy.length_le (h : Tidy K s) (hn : l.Nodup) (hl : ∀ x ∈ l, x ∈ s.variableList) :
    l.length ≤ s.fresh := by
  have hsub : l ⊆ List.range s.fresh := fun x hx => List.mem_range.mpr (h.lt (hl x hx))
  have hlen := (hn.subperm hsub).length_le
  rwa [List.length_range] at hlen

theorem IsPast.history (h : IsPast D T s v l) (hK : Tidy K s) (hv : v ∈ s.present) :
    s.history v = v :: l :=
  Chain.walk_eq h.whole.2 (hK.length_le (h.nodup hK hv) (h.mem_list hK hv))

theorem IsPast.descending_cons (h : IsPast D T s v l) (hK : Tidy K s) (hv : v ∈ s.present) :
    (v :: l).Pairwise fun a b => s.timeOf b < s.timeOf a :=
  List.pairwise_cons.mpr ⟨fun x hx => (hK.present v hv).2.symm ▸ (h.times x hx).1, h.descending⟩

theorem IsTransitions.history (h : IsTransitions s m t) (hl : IsPast D T s m l) (hK : Tidy K s)
    (hm : m ∈ s.present) (hmode : s.kindOf m = .transitioned)
    (hsync : t.map s.timeOf = l.map s.timeOf) : s.history (s.modeCell m).zenithTransition =
      t ++ [(s.modeCell m).horizonTransition] := by
  obtain ⟨c, hc⟩ := h.cons
  have hwhole := h.whole
  have hnodup := IsTransitions.nodup hl hK hm hmode hsync
  have hall := h.mem_list hK hm hmode
  rw [hc] at hwhole hnodup hall ⊢
  exact Chain.walk_eq hwhole.2 (hK.length_le hnodup fun x hx => (hall x hx).1)

/-- The chains of the present variables and those of the transitions are linked both ways, and in
order. The transition from the horizon stands last, with the time step of the present; before it
there is one transition for each copy of the mode. -/
structure Chains (s : TSystem σ) : Prop where
  consistent : Chain.Consistent s.links {x | x ∈ s.variableList}
  listed : ∀ v ∈ s.present, ∀ x ∈ s.history v, x ∈ s.variableList
  whole : ∀ v ∈ s.present, Chain.Whole s.links (s.history v)
  descending : ∀ v ∈ s.present, (s.history v).Pairwise fun a b => s.timeOf b < s.timeOf a
  transitions : ∀ m ∈ s.present, s.kindOf m = .transitioned → ∃ t,
    s.history (s.modeCell m).zenithTransition = t ++ [(s.modeCell m).horizonTransition] ∧
    (∀ x ∈ t ++ [(s.modeCell m).horizonTransition], x ∈ s.variableList) ∧
    Chain.Whole s.links (t ++ [(s.modeCell m).horizonTransition]) ∧
    t.map s.timeOf = (s.history m).tail.map s.timeOf ∧
    s.timeOf (s.modeCell m).horizonTransition = now

theorem Ordered.chains (h : Ordered D ∅ T s) (hK : Tidy K s) : Chains s := by
  refine ⟨h.consistent, fun v hv => ?_, fun v hv => ?_, fun v hv => ?_, fun m hm hmode => ?_⟩
  · obtain ⟨l, hl, -⟩ := h.chain v hv
    rw [hl.history hK hv]
    exact hl.mem_list hK hv
  · obtain ⟨l, hl, -⟩ := h.chain v hv
    rw [hl.history hK hv]
    exact hl.whole
  · obtain ⟨l, hl, -⟩ := h.chain v hv
    rw [hl.history hK hv]
    exact hl.descending_cons hK hv
  · obtain ⟨l, hl, hmodes⟩ := h.chain m hm
    obtain ⟨t, ht, hsync, -⟩ := hmodes hmode
    have hsync := hsync fun hE => hE.elim
    refine ⟨t, ht.history hl hK hm hmode hsync, fun x hx => (ht.mem_list hK hm hmode x hx).1,
      ht.whole, ?_, (hK.modes m hm hmode).2.2⟩
    rw [hl.history hK hm]
    exact hsync

/-- The latest variable of the chain `c` strictly before the time step. -/
def IsLatestBefore (s : TSystem σ) (c : List Ref) (time : UInt32) (r : Ref) : Prop :=
  r ∈ c ∧ s.timeOf r < time ∧ ∀ q ∈ c, s.timeOf q < time → q = r ∨ s.timeOf q < s.timeOf r

/-- The earliest variable of the chain `c` at the time step or after it. -/
def IsEarliestAfter (s : TSystem σ) (c : List Ref) (time : UInt32) (r : Ref) : Prop :=
  r ∈ c ∧ time ≤ s.timeOf r ∧ ∀ q ∈ c, time ≤ s.timeOf q → q = r ∨ s.timeOf r < s.timeOf q

/-- The literal has the proposition of the latest variable before the time step. -/
def Precedes (s : TSystem σ) (time : UInt32) (a : ProtoAssignment) (q : PropId) : Prop :=
  ∃ r, IsLatestBefore s (s.historyOf a.first) time r ∧ s.getProp r a.second.toNat = .ok q

/-- The literal has the proposition of the earliest variable at the time step or after it. -/
def Succeeds (s : TSystem σ) (time : UInt32) (a : ProtoAssignment) (q : PropId) : Prop :=
  ∃ r, IsEarliestAfter s (s.historyOf a.first) time r ∧ s.getProp r a.second.toNat = .ok q

/-- A clause for the time step, with antecedents that are related by `R` to those of the prototype. -/
def Relates (S : Solver σ) (R : ProtoAssignment → PropId → Prop) (p : ProtoTransition) (m : Ref)
    (time : UInt32) (s : TSystem σ) (c : ClauseId) (s' : TSystem σ) : Prop :=
  ∃ positive negative transition consequent,
    List.Forall₂ R p.positives positive ∧ List.Forall₂ R p.negatives negative ∧
    s.getProp (if time = now then (s.modeCell m).zenithTransition
      else (s.modeCell m).horizonTransition) p.transitionValue.toNat = .ok transition ∧
    Succeeds s time ⟨.mode p.consequent.1, p.consequent.2⟩ consequent ∧
    (c, s') = s.createClause S (consequent :: positive.reverse) (transition :: negative.reverse) true

/-- The clause of a prototype of `m` for a time step. -/
def Connects (S : Solver σ) (p : ProtoTransition) (m : Ref) (time : UInt32) (s : TSystem σ)
    (c : ClauseId) (s' : TSystem σ) : Prop :=
  Relates S (Precedes s time) p m time s c s'

/-- The time step that a transition to another one starts from. -/
def TSystem.sourceOf (s : TSystem σ) (time : UInt32) : UInt32 :=
  if time = now then s.timestep else time - 1

def IsCopied (s : TSystem σ) (time : UInt32) (v : Variable) : Prop :=
  ∃ r ∈ s.historyOf v, s.timeOf r = time

/-- The literal has the proposition of the variable of the time step. -/
def IsAt (s : TSystem σ) (time : UInt32) (a : ProtoAssignment) (q : PropId) : Prop :=
  ∃ r ∈ s.historyOf a.first, s.timeOf r = time ∧ s.getProp r a.second.toNat = .ok q

/-- The clause of a prototype of `m` relates no other time steps than the one that the transition
starts from and its target. -/
def Spans (S : Solver σ) (p : ProtoTransition) (m : Ref) (time : UInt32) (s : TSystem σ)
    (c : ClauseId) (s' : TSystem σ) : Prop :=
  Relates S (IsAt s (s.sourceOf time)) p m time s c s'

theorem mem_present_of_getPresentVariable {id : ℕ} (h : s.getPresentVariable id = some r) :
    r ∈ s.present := by
  unfold TSystem.getPresentVariable at h
  rw [Option.join_eq_some_iff] at h
  exact List.mem_filterMap.mpr ⟨some r, List.mem_of_getElem? h, rfl⟩

theorem Ordered.historyOf (h : Ordered D E T s) (hK : Tidy K s) (v : Variable) :
    s.historyOf v = [] ∨ ∃ r l, r ∈ s.present ∧ s.historyOf v = r :: l ∧ IsPast D T s r l := by
  unfold TSystem.historyOf
  cases hget : s.getPresentVariable v.id with
  | none => exact Or.inl rfl
  | some r =>
    have hr := mem_present_of_getPresentVariable hget
    obtain ⟨l, hl, -⟩ := h.chain r hr
    exact Or.inr ⟨r, l, hr, hl.history hK hr, hl⟩

theorem Ordered.descending_historyOf (h : Ordered D E T s) (hK : Tidy K s) (v : Variable) :
    (s.historyOf v).Pairwise fun a b => s.timeOf b < s.timeOf a := by
  rcases h.historyOf hK v with hnil | ⟨r, l, hr, heq, hl⟩
  · rw [hnil]
    exact List.Pairwise.nil
  · rw [heq]
    exact hl.descending_cons hK hr

theorem Ordered.propClosestBefore (h : Ordered D E T s) (hK : Tidy K s) {a : ProtoAssignment}
    {time : UInt32} {q : PropId} (hq : s.propClosestBefore a time = .ok q) :
    Precedes s time a q := by
  unfold TSystem.propClosestBefore at hq
  split at hq
  case h_1 r hr => exact ⟨r, Chain.find?_latest (h.descending_historyOf hK a.first) hr, hq⟩
  case h_2 => cases hq

theorem Ordered.propClosestAfter (h : Ordered D E T s) (hK : Tidy K s) {a : ProtoAssignment}
    {time : UInt32} {q : PropId} (hq : s.propClosestAfter a time = .ok q) :
    Succeeds s time a q := by
  unfold TSystem.propClosestAfter at hq
  rcases h.historyOf hK a.first with hnil | ⟨r, l, hr, heq, hl⟩
  · rw [hnil] at hq
    cases hq
  · rw [heq] at hq
    have hle : time ≤ s.timeOf r := by
      rw [(hK.present r hr).2]
      exact UInt32.not_lt.mp (not_now_lt time)
    cases hlast : ((r :: l).takeWhile fun q => decide (time ≤ s.timeOf q)).getLast? with
    | none =>
      rw [List.takeWhile_cons, if_pos (decide_eq_true hle), List.getLast?_cons] at hlast
      cases hlast
    | some r' =>
      dsimp only [TSystem.closestAfter] at hq
      rw [hlast] at hq
      refine ⟨r', ?_, hq⟩
      rw [heq]
      exact Chain.takeWhile_earliest (fun h h' => UInt32.le_trans h (UInt32.le_of_lt h'))
        (hl.descending_cons hK hr) hlast

theorem Ordered.instantiate (h : Ordered D E T s) (hK : Tidy K s) {p : ProtoTransition}
    {time : UInt32} {c : ClauseId} (hs : s.instantiate S p m (s.timeOf m) time = .ok (c, s')) :
    Connects S p m time s c s' := by
  obtain ⟨positive, hpositive, hs⟩ := Loop.bind_eq_ok hs
  obtain ⟨negative, hnegative, hs⟩ := Loop.bind_eq_ok hs
  obtain ⟨t, ht, hs⟩ := Loop.bind_eq_ok hs
  obtain ⟨transition, htransition, hs⟩ := Loop.bind_eq_ok hs
  obtain ⟨consequent, hconsequent, hs⟩ := Loop.bind_eq_ok hs
  refine ⟨positive, negative, transition, consequent, ?_, ?_, ?_, ?_, ?_⟩
  · exact (Loop.mapM_forall₂ hpositive).imp fun a q hq => h.propClosestBefore hK hq
  · exact (Loop.mapM_forall₂ hnegative).imp fun a q hq => h.propClosestBefore hK hq
  · unfold TSystem.transitionAt at ht
    dsimp only at ht
    rw [if_pos rfl] at ht
    rw [Except.ok.inj ht]
    exact htransition
  · exact h.propClosestAfter hK hconsequent
  · exact (Except.ok.inj hs).symm

/-- A state in which a progress calls `Proto_transition::instantiate` for the mode `m`. What the
calls before it in the same loop did is to create clauses. -/
inductive Progressing (S : Solver σ) (m : Ref) : TSystem σ → Prop
  | full {s s₀ x y : TSystem σ} {copied rest : List Ref} (command : Option (Ref × ℕ)) : Timely S s →
    s.timestep ≠ now → s.truncateIfNeeded S = .ok s₀ → s₀.present = copied ++ m :: rest →
    copied.foldlM (TSystem.fullProgressMode S command)
      (s₀.present.foldl (TSystem.fullProgressCopy S) s₀) = .ok x →
    x.kindOf m = .transitioned → Constrains (x.createTransitionVariable S m) y → Progressing S m y
  | minimal {s s₀ x y : TSystem σ} {copied rest : List Ref} (a : Ref × ℕ) : Timely S s →
    s.timestep ≠ now → a.1 ∈ s.present → s.kindOf a.1 = .command →
    s.truncateIfNeeded S = .ok s₀ → s₀.present = copied ++ m :: rest →
    copied.foldlM (TSystem.minimalProgressMode S
      ((s₀.copyInPast S .command a.1).2.commandAssignment a)) (s₀.copyInPast S .command a.1).2 =
        .ok x →
    x.kindOf m = .transitioned → Constrains (x.createTransitionVariable S m) y → Progressing S m y

/-- The states in which it is called for the mode `m` and a time step: by the reader, by a progress
and by a truncation. -/
inductive Instantiating (S : Solver σ) (m : Ref) : UInt32 → TSystem σ → Prop
  | initial {s s₁ y : TSystem σ} : Built S s → s.createStateVar S 0 1 = .ok s₁ → Same s₁ y →
    m ∈ y.present → y.kindOf m = .transitioned → Instantiating S m now y
  | progress {y : TSystem σ} : Progressing S m y → Instantiating S m now y
  | truncate {s s₀ s₁ y : TSystem σ} {horizon : UInt32} {nstates : ℕ} : Timely S s →
    Revalued s s₀ → s₀.createStateVar S horizon nstates = .ok s₁ → Same s₁ y →
    m ∈ y.present → y.kindOf m = .transitioned → Instantiating S m horizon y

theorem Passing.next {f : TSystem σ → Ref → Except L2Error (TSystem σ)} {x y : TSystem σ}
    {copied rest : List Ref} (h : Passing s₀ D s) (hK : Tidy K s₀)
    (hf : ∀ x m x', f x m = .ok x' → IsModeStep S m x x')
    (hD : ∀ v ∈ D, s₀.kindOf v ≠ .transitioned) (hpresent : s₀.present = copied ++ m :: rest)
    (hs : copied.foldlM f s = .ok x) (hmode : x.kindOf m = .transitioned)
    (hy : Constrains (x.createTransitionVariable S m) y) : ∃ D', Passing s₀ D' y := by
  have hnodup : (copied ++ m :: rest).Nodup := by
    rw [← hpresent, ← h.tidied.present]
    exact h.ordered.nodup
  have hmem : ∀ v ∈ copied ++ m :: rest, v ∈ s₀.present := fun v hv => hpresent ▸ hv
  obtain ⟨hcopied, -, hdisjoint⟩ := List.nodup_append'.mp hnodup
  obtain ⟨D', hD', hadded⟩ := h.modes hK hf hcopied
    (fun v hv => ⟨hmem v (List.mem_append_left _ hv), fun hmode hvD => hD v hvD hmode⟩) hs
  have hm : m ∈ s₀.present := hmem m (List.mem_append_right _ List.mem_cons_self)
  have hmD' : m ∉ D' := by
    intro hmD
    rcases hadded m hmD with hmD | hmc
    · exact hD m hmD (hD'.kindOf hK hm ▸ hmode)
    · exact hdisjoint hmc List.mem_cons_self
  exact ⟨_, (hD'.createTransitionVariable hm hmode hmD').constrains hy⟩

theorem Progressing.passing (h : Progressing S m s) : ∃ s₀ D, Passing s₀ D s := by
  cases h with
  | full command hs ht h₀ hpresent hx hmode hy =>
    obtain ⟨K, hK⟩ := hs.reachable.tidy
    obtain ⟨K₀, hK₀, hpassing, -⟩ := hs.settled.start hK ht h₀
    obtain ⟨D, hcopied, hD⟩ := hpassing.copies (S := S) hK₀
    exact ⟨_, hcopied.next hK₀ (fun _ _ _ => isModeStep_fullProgress) hD hpresent hx hmode hy⟩
  | @minimal _ s₀ _ _ _ _ a hs ht ha hkind h₀ hpresent hx hmode hy =>
    obtain ⟨K, hK⟩ := hs.reachable.tidy
    obtain ⟨K₀, hK₀, hpassing, hpresent₀, hkinds⟩ := hs.settled.start hK ht h₀
    have hkind₀ := (hkinds a.1 ha).trans hkind
    have hcopied := hpassing.copyCommand (S := S) hK₀ (hpresent₀ ▸ ha) hkind₀
    have hD : ∀ v ∈ ({a.1} : Set Ref), s₀.kindOf v ≠ .transitioned := by
      rintro v rfl
      rw [hkind₀]
      exact Kind.noConfusion
    exact ⟨_, hcopied.next hK₀ (fun _ _ _ => isModeStep_minimalProgress) hD hpresent hx hmode hy⟩

theorem Progressing.zenith (h : Progressing S m s) :
    s.timeOf (s.modeCell m).zenithTransition = s.timestep := by
  have hstep (x : TSystem σ) (hx : Constrains (x.createTransitionVariable S m) s) :
      s.timeOf (s.modeCell m).zenithTransition = s.timestep := by
    rw [(hx.same.modes m).1, (hx.same.cell _).2.1, zenith_createTransitionVariable,
      hx.adds.timestep, (adds_createTransitionVariable m x).timestep]
  cases h with
  | full _ _ _ _ _ _ _ hy => exact hstep _ hy
  | minimal _ _ _ _ _ _ _ _ _ hy => exact hstep _ hy

/-- In a progress the copies of the time step are made; before it there are none. -/
theorem Instantiating.ordered (h : Instantiating S m horizon s) : ∃ D T K, Ordered D ∅ T s ∧
    Tidy K s ∧ (horizon = now → D = ∅ ∧ T = 0 ∨ T = s.timestep ∧ T < now) := by
  cases h with
  | initial hbuilt h₁ hsame =>
    obtain ⟨K, hK⟩ := hbuilt.tidy
    exact ⟨∅, 0, K, (hbuilt.starting.ordered.createStateVar hK h₁).alike hsame.alike,
      (hK.grows (grows_createStateVar h₁)).same hsame, fun _ => Or.inl ⟨rfl, rfl⟩⟩
  | progress h =>
    obtain ⟨s₀, D, hpassing⟩ := h.passing
    have htimestep := hpassing.timestep
    obtain ⟨K, hK, -⟩ := hpassing.tidied
    exact ⟨D, s.timestep, K, hpassing.ordered, hK, fun _ => Or.inr ⟨rfl, htimestep⟩⟩
  | @truncate s _ _ _ _ _ hs hrevalued h₁ hsame =>
    obtain ⟨K, hK⟩ := hs.reachable.tidy
    have hordered := hs.settled.ordered.alike hrevalued.alike
    have hK₀ := hK.revalued hrevalued
    obtain ⟨-, -, -, hhorizon, -⟩ := createStateVar_created h₁
    exact ⟨∅, s.timestep, K, (hordered.createStateVar hK₀ h₁).alike hsame.alike,
      (hK₀.grows (grows_createStateVar h₁)).same hsame, fun heq => absurd heq hhorizon⟩

theorem le_sub_one {a b : UInt32} (h : a < b) : a ≤ b - 1 ∧ b - 1 < b := by
  have hlt := UInt32.lt_iff_toNat_lt.mp h
  have hone : 1 ≤ b := UInt32.le_iff_toNat_le.mpr (by
    rw [UInt32.toNat_one]
    omega)
  have hsub : (b - 1).toNat = b.toNat - 1 := UInt32.toNat_sub_of_le b 1 hone
  rw [UInt32.le_iff_toNat_le, UInt32.lt_iff_toNat_lt, hsub]
  omega

/-- A variable before the target of a transition is not after the time step that it starts from. -/
theorem Instantiating.le_sourceOf {time : UInt32} (h : Instantiating S m time s) {v : Variable}
    {x : Ref} (hx : x ∈ s.historyOf v) (hlt : s.timeOf x < time) :
    s.timeOf x ≤ s.sourceOf time ∧ s.sourceOf time < time := by
  obtain ⟨D, T, K, hordered, hK, hT⟩ := h.ordered
  unfold TSystem.sourceOf
  split
  case isFalse => exact le_sub_one hlt
  case isTrue hnow =>
    subst hnow
    rcases hordered.historyOf hK v with hnil | ⟨r, l, hr, heq, hl⟩
    · rw [hnil] at hx
      cases hx
    rw [heq] at hx
    rcases List.mem_cons.mp hx with rfl | hx
    · rw [(hK.present x hr).2] at hlt
      exact absurd hlt (UInt32.lt_irrefl now)
    have htime := (hl.times x hx).2
    rcases hT rfl with ⟨rfl, rfl⟩ | ⟨rfl, hT⟩
    · exact absurd (htime.resolve_right fun hD => hD.1) UInt32.not_lt_zero
    · exact ⟨htime.elim UInt32.le_of_lt fun hD => UInt32.le_of_eq hD.2, hT⟩

theorem Precedes.isAt {time : UInt32} {a : ProtoAssignment} {q : PropId}
    (h : Precedes s time a q) (hs : Instantiating S m time s)
    (hcopied : IsCopied s (s.sourceOf time) a.first) : IsAt s (s.sourceOf time) a q := by
  obtain ⟨r, ⟨hr, hlt, hlatest⟩, hq⟩ := h
  obtain ⟨x, hx, htime⟩ := hcopied
  obtain ⟨hle, hsource⟩ := hs.le_sourceOf hr hlt
  rcases hlatest x hx (htime.symm ▸ hsource) with rfl | hxr
  · exact ⟨x, hx, htime, hq⟩
  · exact absurd (htime ▸ hxr) (UInt32.not_lt.mpr hle)

theorem Relates.imp {P : ProtoAssignment → Prop} {R R' : ProtoAssignment → PropId → Prop}
    {p : ProtoTransition} {time : UInt32} {c : ClauseId} (h : Relates S R p m time s c s')
    (hP : ∀ a ∈ p.positives ++ p.negatives, P a) (himp : ∀ a q, P a → R a q → R' a q) :
    Relates S R' p m time s c s' := by
  obtain ⟨positive, negative, transition, consequent, hpositive, hnegative, hrest⟩ := h
  rw [List.forall_mem_append] at hP
  refine ⟨positive, negative, transition, consequent, ?_, ?_, hrest⟩
  · exact ((List.forall₂_and_left _ _).mpr ⟨hP.1, hpositive⟩).imp fun a q h => himp a q h.1 h.2
  · exact ((List.forall₂_and_left _ _).mpr ⟨hP.2, hnegative⟩).imp fun a q h => himp a q h.1 h.2

/-- The chains are in order in every run, and a clause that is instantiated for a transition has the
latest variables before its time step and the earliest one from it on. Where the variables of its
guard are copied, it relates the time step that the transition starts from to its target. -/
theorem timely_chains (S : Solver σ) : (∀ s, Timely S s → Chains s) ∧
    (∀ m time s, Instantiating S m time s → Chains s ∧
      ∀ p c s', s.instantiate S p m (s.timeOf m) time = .ok (c, s') →
        Connects S p m time s c s' ∧
        ((∀ a ∈ p.positives ++ p.negatives, IsCopied s (s.sourceOf time) a.first) →
          Spans S p m time s c s')) ∧
    ∀ m s, Progressing S m s → s.timeOf (s.modeCell m).zenithTransition = s.timestep := by
  refine ⟨fun s hs => ?_, fun m time s hs => ?_, fun m s hs => hs.zenith⟩
  · obtain ⟨K, hK⟩ := hs.reachable.tidy
    exact hs.settled.ordered.chains hK
  · obtain ⟨D, T, K, hordered, hK, -⟩ := hs.ordered
    refine ⟨hordered.chains hK, fun p c s' hp => ?_⟩
    have hconnects : Connects S p m time s c s' := hordered.instantiate hK hp
    exact ⟨hconnects, fun hcopied => hconnects.imp hcopied fun a q ha hq => hq.isAt hs ha⟩

theorem progress_idle (time : UInt32) (hminimal : s.progressUsesFull = false)
    (hopen : s.maxHistoryLength = 0 ∨ ¬ s.oldestTimestep + s.maxHistoryLength ≤ time) :
    TSystem.progress S none { s with timestep := time } = .ok { s with timestep := time + 1 } := by
  have hfull : TSystem.historyFull { s with timestep := time } = false :=
    decide_eq_false fun hfull => hopen.elim hfull.1 fun hroom => hroom hfull.2
  unfold TSystem.progress TSystem.minimalProgress TSystem.truncateIfNeeded
  rw [hfull, if_neg (by simp [hminimal]), if_neg Bool.false_ne_true]
  rfl

namespace Commanded

def blank : TSystem Ltms := TSystem.empty {} 0 0 false

def command : TSystem Ltms := valueOr (TSystem.createVariable ltmsSolver (.command 2 0) blank) blank

def mode : TSystem Ltms :=
  valueOr (TSystem.createVariable ltmsSolver (.mode 2 1 1) command) command

def model : TSystem Ltms :=
  TSystem.addPrototype 1 (.commanded 0 0 1 [] [⟨.command 0, 1⟩]) mode

def start : TSystem Ltms := valueOr (TSystem.createInitialState ltmsSolver [(1, 0)] model) model

def step : TSystem Ltms := valueOr (TSystem.progress ltmsSolver (some (0, 1)) start) start

/-- When the command and the mode are copied. -/
def copied : TSystem Ltms := TSystem.createTransitionVariable ltmsSolver 1
  (TSystem.copyInPast ltmsSolver .command 0 start).2

/-- The command and the old value of the mode, and the new value of the mode. -/
def moves : ProtoTransition := .guarded 1 0 0 1 [] [⟨.command 0, 1⟩]

def instantiated : ClauseId × TSystem Ltms :=
  valueOr (TSystem.instantiate ltmsSolver moves 1 (copied.timeOf 1) now copied) (0, copied)

def last : TSystem Ltms := { start with timestep := now }

def lastStep : TSystem Ltms := valueOr (TSystem.progress ltmsSolver (some (0, 0)) last) last

-- one evaluation of the runs, for all that is said of their states
theorem evaluated :
    ((TSystem.createVariable ltmsSolver (.command 2 0) blank).isOk = true ∧
      (TSystem.createVariable ltmsSolver (.mode 2 1 1) command).isOk = true ∧
      1 ∈ mode.present ∧ mode.kindOf 1 = .transitioned ∧
      (∀ v ∈ [((1, 0) : Ref × ℕ)], v.1 ∈ model.present ∧
        (model.kindOf v.1 = .transitioned ∨ model.kindOf v.1 = .observable)) ∧
      (TSystem.createInitialState ltmsSolver [(1, 0)] model).isOk = true) ∧
    (start.timestep ≠ now ∧ start.timestep = 1 ∧ start.historyFull = false ∧
      start.maxHistoryLength = 0 ∧ start.progressUsesFull = false ∧
      start.present = [0] ++ 1 :: [] ∧ (0 ∈ start.present ∧ start.kindOf 0 = .command) ∧
      (TSystem.progress ltmsSolver (some (0, 1)) start).isOk = true) ∧
    ((TSystem.copyInPast ltmsSolver .command 0 start).2.kindOf 0 ≠ .transitioned ∧
      (TSystem.copyInPast ltmsSolver .command 0 start).2.kindOf 1 = .transitioned ∧
      (TSystem.instantiate ltmsSolver moves 1 (copied.timeOf 1) now copied).isOk = true ∧
      ∀ a ∈ moves.positives ++ moves.negatives,
        ∃ r ∈ copied.historyOf a.first, copied.timeOf r = copied.sourceOf now) ∧
    ((0 ∈ last.present ∧ last.kindOf 0 = .command) ∧
      (TSystem.progress ltmsSolver (some (0, 0)) last).isOk = true ∧ 0 ∈ lastStep.present ∧
      ¬ (lastStep.history 0).Pairwise fun a b => lastStep.timeOf b < lastStep.timeOf a) ∧
    1 ∈ step.present ∧ step.kindOf 1 = .transitioned ∧
      ¬ (step.history (step.modeCell 1).zenithTransition).Pairwise fun a b =>
        step.timeOf b < step.timeOf a := by
  decide +kernel

theorem timely_start : Timely ltmsSolver start := by
  obtain ⟨⟨hcommand, hmode, hpresent, hkind, hinitial, hstart⟩, -⟩ := evaluated
  have hcommanded : Built ltmsSolver command :=
    Built.created _ (Built.empty {} 0 0 false) (eq_valueOr blank hcommand)
  have hbuilt : Built ltmsSolver mode := Built.created _ hcommanded (eq_valueOr command hmode)
  have hmodel : Built ltmsSolver model := Built.prototype _ hbuilt hpresent hkind
  exact Timely.start [(1, 0)] hmodel hinitial (eq_valueOr model hstart)

theorem timely_step : Timely ltmsSolver step := by
  obtain ⟨-, ⟨htime, -, -, -, -, -, hcommand, hprogress⟩, -⟩ := evaluated
  refine Timely.progress (some (0, 1)) timely_start htime (fun a ha => ?_)
    (eq_valueOr start hprogress)
  rw [← Option.some.inj ha]
  exact hcommand

theorem progressing_copied : Progressing ltmsSolver 1 copied := by
  obtain ⟨-, ⟨htime, -, hfull, -, -, hpresent, ⟨hmem, hcommand⟩, -⟩, ⟨hkind, hmode, -⟩, -⟩ :=
    evaluated
  refine @Progressing.minimal _ _ _ _ start _ _ [0] [] (0, 1) timely_start htime hmem hcommand ?_
    hpresent (Loop.foldlM_skip fun v hv => ?_) hmode (Constrains.refl copied)
  · unfold TSystem.truncateIfNeeded
    rw [hfull]
    rfl
  · rw [List.mem_singleton.mp hv]
    exact if_neg fun h => hkind h.1

theorem reachable_idle (n : ℕ) :
    Reachable ltmsSolver { start with timestep := UInt32.ofNat (n + 1) } := by
  obtain ⟨-, ⟨-, htime, -, hlength, hminimal, -⟩, -⟩ := evaluated
  induction n with
  | zero =>
    have hself (s : TSystem Ltms) {time : UInt32} (h : s.timestep = time) :
        { s with timestep := time } = s := by
      subst h
      rfl
    rw [hself start (htime.trans (by decide))]
    exact timely_start.reachable
  | succ n ih =>
    rw [UInt32.ofNat_add (n + 1) 1]
    exact Reachable.progress none ih (by simp) (progress_idle _ hminimal (Or.inl hlength))

theorem reachable_lastStep : Reachable ltmsSolver lastStep := by
  obtain ⟨-, -, -, ⟨hcommand, hprogress, -⟩, -⟩ := evaluated
  have hlast : Reachable ltmsSolver last := reachable_idle 4294967294
  refine Reachable.progress (some (0, 0)) hlast (fun a ha => ?_) (eq_valueOr last hprogress)
  rw [← Option.some.inj ha]
  exact hcommand

end Commanded

open Commanded

theorem timely_chains_step : Chains step ∧ Chains copied ∧
    Connects ltmsSolver moves 1 now copied instantiated.1 instantiated.2 ∧
    Spans ltmsSolver moves 1 now copied instantiated.1 instantiated.2 ∧
    copied.timeOf (copied.modeCell 1).zenithTransition = copied.timestep := by
  obtain ⟨hchains, hinstantiating, hzenith⟩ := timely_chains ltmsSolver
  obtain ⟨hcopied, hconnects⟩ :=
    hinstantiating 1 now copied (Instantiating.progress progressing_copied)
  obtain ⟨-, -, ⟨-, -, hok, hguard⟩, -⟩ := Commanded.evaluated
  have hinstantiate : TSystem.instantiate ltmsSolver moves 1 (copied.timeOf 1) now copied =
      .ok instantiated := eq_valueOr (0, copied) hok
  rw [← Prod.mk.eta (p := instantiated)] at hinstantiate
  obtain ⟨hconnects, hspans⟩ := hconnects _ _ _ hinstantiate
  exact ⟨hchains step timely_step, hcopied, hconnects, hspans hguard,
    hzenith 1 copied progressing_copied⟩

-- a mode that a command moves where another mode has its value 0, in full progress
namespace Guarding

def blank : TSystem Ltms := TSystem.empty {} 0 0 true

def command : TSystem Ltms := valueOr (TSystem.createVariable ltmsSolver (.command 2 0) blank) blank

def mode : TSystem Ltms :=
  valueOr (TSystem.createVariable ltmsSolver (.mode 2 1 1) command) command

def guarding : TSystem Ltms := valueOr (TSystem.createVariable ltmsSolver (.mode 2 1 2) mode) mode

def model : TSystem Ltms :=
  TSystem.addPrototype 1 (.commanded 0 0 1 [] [⟨.command 0, 1⟩, ⟨.mode 2, 0⟩]) guarding

def start : TSystem Ltms :=
  valueOr (TSystem.createInitialState ltmsSolver [(1, 0), (3, 0)] model) model

def idle : TSystem Ltms := valueOr (TSystem.progress ltmsSolver none start) start

/-- When the command and the first mode are copied, and the other mode is not yet. -/
def copied : TSystem Ltms := TSystem.createTransitionVariable ltmsSolver 1
  (idle.present.foldl (TSystem.fullProgressCopy ltmsSolver) idle)

def moves : ProtoTransition := .guarded 1 0 0 1 [] [⟨.command 0, 1⟩, ⟨.mode 2, 0⟩]

def instantiated : ClauseId × TSystem Ltms :=
  valueOr (TSystem.instantiate ltmsSolver moves 1 (copied.timeOf 1) now copied) (0, copied)

theorem evaluated :
    ((TSystem.createVariable ltmsSolver (.command 2 0) blank).isOk = true ∧
      (TSystem.createVariable ltmsSolver (.mode 2 1 1) command).isOk = true ∧
      (TSystem.createVariable ltmsSolver (.mode 2 1 2) mode).isOk = true ∧
      1 ∈ guarding.present ∧ guarding.kindOf 1 = .transitioned ∧
      (∀ v ∈ [((1, 0) : Ref × ℕ), (3, 0)], v.1 ∈ model.present ∧
        (model.kindOf v.1 = .transitioned ∨ model.kindOf v.1 = .observable)) ∧
      (TSystem.createInitialState ltmsSolver [(1, 0), (3, 0)] model).isOk = true) ∧
    (start.timestep ≠ now ∧ (TSystem.progress ltmsSolver none start).isOk = true) ∧
    (idle.timestep ≠ now ∧ idle.historyFull = false ∧ idle.present = [0] ++ 1 :: [3] ∧
      (idle.present.foldl (TSystem.fullProgressCopy ltmsSolver) idle).kindOf 0 ≠ .transitioned ∧
      (idle.present.foldl (TSystem.fullProgressCopy ltmsSolver) idle).kindOf 1 = .transitioned) ∧
    (TSystem.instantiate ltmsSolver moves 1 (copied.timeOf 1) now copied).isOk = true ∧
      ∀ r ∈ copied.historyOf (.mode 2), copied.timeOf r ≠ copied.sourceOf now := by
  decide +kernel

theorem timely_idle : Timely ltmsSolver idle := by
  obtain ⟨⟨hcommand, hmode, hguarding, hpresent, hkind, hinitial, hok⟩, ⟨htime, hidle⟩, -⟩ :=
    evaluated
  have hcommanded : Built ltmsSolver command :=
    Built.created _ (Built.empty {} 0 0 true) (eq_valueOr blank hcommand)
  have hmoved : Built ltmsSolver mode := Built.created _ hcommanded (eq_valueOr command hmode)
  have hbuilt : Built ltmsSolver guarding := Built.created _ hmoved (eq_valueOr mode hguarding)
  have hmodel : Built ltmsSolver model := Built.prototype _ hbuilt hpresent hkind
  have hstart := Timely.start [(1, 0), (3, 0)] hmodel hinitial (eq_valueOr model hok)
  exact Timely.progress none hstart htime (by simp) (eq_valueOr start hidle)

theorem progressing_copied : Progressing ltmsSolver 1 copied := by
  obtain ⟨-, -, ⟨htime, hfull, hpresent, hkind, hmode⟩, -⟩ := evaluated
  refine @Progressing.full _ _ _ idle _ _ _ [0] [3] (some (0, 1)) timely_idle htime
    ?_ hpresent (Loop.foldlM_skip fun v hv => ?_) hmode (Constrains.refl copied)
  · unfold TSystem.truncateIfNeeded
    rw [hfull]
    rfl
  · rw [List.mem_singleton.mp hv]
    exact if_neg hkind

end Guarding

/-- The copies of the last time step are not before the present, the transition from the horizon is
not before the others, and a guard may be of the time step before. -/
theorem not_descending :
    (¬ ∀ s : TSystem Ltms, Reachable ltmsSolver s → ∀ v ∈ s.present,
      (s.history v).Pairwise fun a b => s.timeOf b < s.timeOf a) ∧
    (¬ ∀ s : TSystem Ltms, Reachable ltmsSolver s → ∀ m ∈ s.present, s.kindOf m = .transitioned →
      (s.history (s.modeCell m).zenithTransition).Pairwise fun a b =>
        s.timeOf b < s.timeOf a) ∧
    ¬ ∀ (m : Ref) (s : TSystem Ltms), Progressing ltmsSolver m s → ∀ p c s',
      TSystem.instantiate ltmsSolver p m (s.timeOf m) now s = .ok (c, s') →
        Spans ltmsSolver p m now s c s' := by
  obtain ⟨-, -, -, ⟨-, -, hlast, hpast⟩, hmode, hkind, htransitions⟩ := Commanded.evaluated
  refine ⟨fun hall => ?_, fun hall => ?_, fun hall => ?_⟩
  · exact hpast (hall lastStep reachable_lastStep 0 hlast)
  · exact htransitions (hall step timely_step.reachable 1 hmode hkind)
  · obtain ⟨-, -, -, hok, hnone⟩ := Guarding.evaluated
    have hinstantiate : TSystem.instantiate ltmsSolver Guarding.moves 1 (Guarding.copied.timeOf 1)
        now Guarding.copied = .ok Guarding.instantiated := eq_valueOr (0, Guarding.copied) hok
    rw [← Prod.mk.eta (p := Guarding.instantiated)] at hinstantiate
    obtain ⟨-, negative, -, -, -, hnegative, -⟩ :=
      hall 1 Guarding.copied Guarding.progressing_copied _ _ _ hinstantiate
    have hnegatives : Guarding.moves.negatives = [⟨.mode 1, 0⟩, ⟨.command 0, 1⟩, ⟨.mode 2, 0⟩] := rfl
    simp only [hnegatives, List.forall₂_cons_left_iff] at hnegative
    -- the mode in the guard has a copy of the time step 1 only
    obtain ⟨-, -, -, ⟨-, -, -, ⟨-, -, ⟨r, hr, htime, -⟩, -⟩, -⟩, -⟩ := hnegative
    exact hnone r hr htime

end Transition
end Livingstone
