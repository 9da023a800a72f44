import Livingstone.Lib.Loop
import Livingstone.Transition.TSystem

/-! What most operations of the transition system leave alone: the variables that there are, their
links and their saved values. New variables have no links. -/

namespace Livingstone
namespace Transition

open Function (update)

variable {σ : Type} {S : Solver σ} {s s₁ s₂ s' : TSystem σ}

/-- Each variable stands once in the list. -/
def Listed (s : TSystem σ) : Prop := s.variableList.Nodup ∧ ∀ r ∈ s.variableList, r < s.fresh

structure Grows (s s' : TSystem σ) : Prop where
  fresh : s.fresh ≤ s'.fresh
  cell : ∀ r : ℕ, r < s.fresh → s'.kindOf r = s.kindOf r ∧ s'.timeOf r = s.timeOf r ∧
    (s'.cell r).savedAssignment = (s.cell r).savedAssignment
  links : ∀ r : ℕ, r < s.fresh → s'.links.previous r = s.links.previous r ∧
    s'.links.next r = s.links.next r
  added : ∀ r : ℕ, s.fresh ≤ r → r < s'.fresh →
    s'.links.previous r = none ∧ s'.links.next r = none
  present : s'.presentVariables = s.presentVariables
  list : ∀ r : ℕ, r ∈ s'.variableList ↔ r ∈ s.variableList ∨ s.fresh ≤ r ∧ r < s'.fresh
  listed : Listed s → Listed s'
  assumptions : ∀ r : ℕ, r ∈ s'.assumptions → r ∈ s.assumptions ∨
    (s.fresh ≤ r ∧ r < s'.fresh) ∧ (s'.kindOf r).isAssumption = true
  modes : ∀ m, (s'.modeCell m).zenithTransition = (s.modeCell m).zenithTransition ∧
    (s'.modeCell m).horizonTransition = (s.modeCell m).horizonTransition
  candidates : s'.candidates = s.candidates

structure Same (s s' : TSystem σ) : Prop where
  cell : ∀ r, s'.kindOf r = s.kindOf r ∧ s'.timeOf r = s.timeOf r ∧
    (s'.cell r).savedAssignment = (s.cell r).savedAssignment
  modes : ∀ m, (s'.modeCell m).zenithTransition = (s.modeCell m).zenithTransition ∧
    (s'.modeCell m).horizonTransition = (s.modeCell m).horizonTransition
  fresh : s'.fresh = s.fresh := by rfl
  links : s'.links = s.links := by rfl
  present : s'.presentVariables = s.presentVariables := by rfl
  list : s'.variableList = s.variableList := by rfl
  assumptions : s'.assumptions = s.assumptions := by rfl
  candidates : s'.candidates = s.candidates := by rfl
  stateVar : s'.stateVar = s.stateVar := by rfl

theorem Same.grows (h : Same s s') : Grows s s' where
  fresh := h.fresh.ge
  cell r _ := h.cell r
  links r _ := by rw [h.links]; exact ⟨rfl, rfl⟩
  added r hr hr' := by rw [h.fresh] at hr'; omega
  present := h.present
  list r := by
    rw [h.list, h.fresh]
    have hno : ¬ (s.fresh ≤ r ∧ r < s.fresh) := by omega
    simp [hno]
  listed := by
    rw [Listed, Listed, h.list, h.fresh]
    exact id
  assumptions r hr := .inl (h.assumptions ▸ hr)
  modes := h.modes
  candidates := h.candidates

theorem Same.refl (s : TSystem σ) : Same s s where
  cell _ := ⟨rfl, rfl, rfl⟩
  modes _ := ⟨rfl, rfl⟩

theorem Same.trans (h : Same s s₁) (h' : Same s₁ s') : Same s s' where
  cell r := by
    obtain ⟨hkind, htime, hsaved⟩ := h.cell r
    obtain ⟨hkind', htime', hsaved'⟩ := h'.cell r
    exact ⟨hkind'.trans hkind, htime'.trans htime, hsaved'.trans hsaved⟩
  modes m := ⟨(h'.modes m).1.trans (h.modes m).1, (h'.modes m).2.trans (h.modes m).2⟩
  fresh := h'.fresh.trans h.fresh
  links := h'.links.trans h.links
  present := h'.present.trans h.present
  list := h'.list.trans h.list
  assumptions := h'.assumptions.trans h.assumptions
  candidates := h'.candidates.trans h.candidates
  stateVar := h'.stateVar.trans h.stateVar

theorem Grows.refl (s : TSystem σ) : Grows s s := (Same.refl s).grows

theorem Grows.trans (h : Grows s s₁) (h' : Grows s₁ s') : Grows s s' where
  fresh := h.fresh.trans h'.fresh
  cell r hr := by
    obtain ⟨hkind, htime, hsaved⟩ := h.cell r hr
    obtain ⟨hkind', htime', hsaved'⟩ := h'.cell r (hr.trans_le h.fresh)
    exact ⟨hkind'.trans hkind, htime'.trans htime, hsaved'.trans hsaved⟩
  links r hr := by
    obtain ⟨hprevious, hnext⟩ := h.links r hr
    obtain ⟨hprevious', hnext'⟩ := h'.links r (hr.trans_le h.fresh)
    exact ⟨hprevious'.trans hprevious, hnext'.trans hnext⟩
  added r hr hr' := by
    by_cases hr₁ : r < s₁.fresh
    · obtain ⟨hprevious, hnext⟩ := h.added r hr hr₁
      obtain ⟨hprevious', hnext'⟩ := h'.links r hr₁
      exact ⟨hprevious'.trans hprevious, hnext'.trans hnext⟩
    · exact h'.added r (not_lt.mp hr₁) hr'
  present := h'.present.trans h.present
  list r := by
    have hfresh := h.fresh
    have hfresh' := h'.fresh
    rw [h'.list, h.list, or_assoc]
    have hsplit : s.fresh ≤ r ∧ r < s₁.fresh ∨ s₁.fresh ≤ r ∧ r < s'.fresh ↔
        s.fresh ≤ r ∧ r < s'.fresh := by omega
    rw [hsplit]
  listed hs := h'.listed (h.listed hs)
  assumptions r hr := by
    have hfresh := h.fresh
    have hfresh' := h'.fresh
    obtain hr₁ | ⟨hr₁, hkind⟩ := h'.assumptions r hr
    · obtain hr | ⟨hr, hkind⟩ := h.assumptions r hr₁
      · exact .inl hr
      · exact .inr ⟨by omega, (h'.cell r hr.2).1 ▸ hkind⟩
    · exact .inr ⟨by omega, hkind⟩
  modes m := ⟨(h'.modes m).1.trans (h.modes m).1, (h'.modes m).2.trans (h.modes m).2⟩
  candidates := h'.candidates.trans h.candidates

theorem same_setVariable {r : Ref} {v : VariableCell} (hkind : v.kind = (s.cell r).kind)
    (htime : v.timeStep = (s.cell r).timeStep)
    (hsaved : v.savedAssignment = (s.cell r).savedAssignment) : Same s (s.setVariable r v) where
  cell q := by
    unfold TSystem.kindOf TSystem.timeOf TSystem.setVariable
    by_cases hq : q = r
    · subst hq
      simp [hkind, htime, hsaved]
    · simp [hq]
  modes _ := ⟨rfl, rfl⟩

theorem same_setMode {m : Ref} {v : ModeCell}
    (hzenith : v.zenithTransition = (s.modeCell m).zenithTransition)
    (hhorizon : v.horizonTransition = (s.modeCell m).horizonTransition) :
    Same s (s.setMode m v) where
  cell _ := ⟨rfl, rfl, rfl⟩
  modes q := by
    unfold TSystem.setMode
    by_cases hq : q = m
    · subst hq
      simp [hzenith, hhorizon]
    · simp [hq]

theorem Same.solver (h : Same s s') (t : σ) : Same s { s' with solver := t } where
  cell := h.cell
  modes := h.modes
  fresh := h.fresh
  links := h.links
  present := h.present
  list := h.list
  assumptions := h.assumptions
  candidates := h.candidates
  stateVar := h.stateVar

theorem setVariable_self (r : Ref) : s.setVariable r (s.cell r) = s := by
  simp [TSystem.setVariable]

theorem assign_eq (r : Ref) (value : Option ℕ) : ∃ t, s.assign S r value =
    { s.setVariable r { s.cell r with current := value } with solver := t } := by
  by_cases hvalue : (s.cell r).current = value
  · have hself : { s.cell r with current := value } = s.cell r := by rw [← hvalue]
    refine ⟨s.solver, ?_⟩
    rw [hself, setVariable_self, TSystem.assign, if_pos hvalue]
  · rw [TSystem.assign, if_neg hvalue]
    exact ⟨_, rfl⟩

theorem unassign_eq (r : Ref) : ∃ t, s.unassign S r =
    { s.setVariable r { s.cell r with current := none } with solver := t } := by
  cases hvalue : (s.cell r).current with
  | none =>
    have hself : { s.cell r with current := none } = s.cell r := by rw [← hvalue]
    refine ⟨s.solver, ?_⟩
    rw [hself, setVariable_self]
    simp [TSystem.unassign, hvalue]
  | some i =>
    refine ⟨S.remove s.solver (s.clauseOf r i), ?_⟩
    simp [TSystem.unassign, hvalue]

theorem same_assign (r : Ref) (value : Option ℕ) : Same s (s.assign S r value) := by
  have hset : Same s (s.setVariable r { s.cell r with current := value }) :=
    same_setVariable rfl rfl rfl
  obtain ⟨t, ht⟩ := assign_eq (S := S) (s := s) r value
  rw [ht]
  exact hset.solver t

theorem same_unassign (r : Ref) : Same s (s.unassign S r) := by
  have hset : Same s (s.setVariable r { s.cell r with current := none }) :=
    same_setVariable rfl rfl rfl
  obtain ⟨t, ht⟩ := unassign_eq (S := S) (s := s) r
  rw [ht]
  exact hset.solver t

theorem same_setExogenouslyAssigned (r : Ref) (b : Bool) :
    Same s (s.setExogenouslyAssigned r b) :=
  same_setVariable rfl rfl rfl

theorem same_observe (r : Ref) (value : Option ℕ) : Same s (s.observe S r value) := by
  unfold TSystem.observe
  refine Same.trans ?_ (same_setExogenouslyAssigned _ _)
  split
  · exact same_assign r _
  · exact same_unassign r

theorem Same.foldl {α : Type} {f : TSystem σ → α → TSystem σ} (hf : ∀ s a, Same s (f s a))
    (l : List α) (s : TSystem σ) : Same s (l.foldl f s) := by
  induction l generalizing s with
  | nil => exact Same.refl s
  | cons a l ih => exact (hf s a).trans (ih (f s a))

theorem same_propagate : Same s (s.propagate S).2 := (Same.refl s).solver _

theorem same_install (c : Candidate) : Same s (s.install S c) := by
  have hdefaults : Same s (s.restoreAssumptionDefaults S) :=
    Same.foldl (fun s r => same_assign r _) s.assumptions s
  have hcandidate : Same s ((s.restoreAssumptionDefaults S).assignCandidate S c) :=
    hdefaults.trans (Same.foldl (fun s a => same_assign a.1 _) c _)
  exact hcandidate.trans same_propagate

/-- Nothing is changed but the clauses, those of the solver and of the modes. -/
structure Constrains (s s' : TSystem σ) : Prop where
  rest : ∃ t f cs, s' = { s with solver := t, modeCell := f, newClauses := cs }
  modes : ∀ m, (s'.modeCell m).zenithTransition = (s.modeCell m).zenithTransition ∧
    (s'.modeCell m).horizonTransition = (s.modeCell m).horizonTransition

theorem Constrains.refl (s : TSystem σ) : Constrains s s := ⟨⟨_, _, _, rfl⟩, fun _ => ⟨rfl, rfl⟩⟩

theorem Constrains.trans (h : Constrains s s₁) (h' : Constrains s₁ s') : Constrains s s' := by
  refine ⟨?_, fun m => ⟨(h'.modes m).1.trans (h.modes m).1, (h'.modes m).2.trans (h.modes m).2⟩⟩
  obtain ⟨t, f, cs, rfl⟩ := h.rest
  obtain ⟨t', f', cs', rfl⟩ := h'.rest
  exact ⟨t', f', cs', rfl⟩

theorem Constrains.same (h : Constrains s s') : Same s s' := by
  have hmodes := h.modes
  obtain ⟨t, f, cs, rfl⟩ := h.rest
  exact { cell := fun _ => ⟨rfl, rfl, rfl⟩, modes := hmodes }

theorem Constrains.cell (h : Constrains s s') : s'.cell = s.cell := by
  obtain ⟨t, f, cs, rfl⟩ := h.rest
  rfl

theorem Constrains.timestep (h : Constrains s s') : s'.timestep = s.timestep := by
  obtain ⟨t, f, cs, rfl⟩ := h.rest
  rfl

theorem constrains_newClauses (cs : List ClauseId) : Constrains s { s with newClauses := cs } :=
  ⟨⟨_, _, _, rfl⟩, fun _ => ⟨rfl, rfl⟩⟩

theorem constrains_setMode {m : Ref} {v : ModeCell}
    (hzenith : v.zenithTransition = (s.modeCell m).zenithTransition)
    (hhorizon : v.horizonTransition = (s.modeCell m).horizonTransition) :
    Constrains s (s.setMode m v) := ⟨⟨_, _, _, rfl⟩, (same_setMode hzenith hhorizon).modes⟩

theorem constrains_createClause (positive negative : List PropId) (inTheory : Bool) :
    Constrains s (s.createClause S positive negative inTheory).2 :=
  ⟨⟨_, _, _, rfl⟩, fun _ => ⟨rfl, rfl⟩⟩

theorem constrains_addTransitionClause (m : Ref) (c : ClauseId) :
    Constrains s (s.addTransitionClause m c) :=
  constrains_setMode rfl rfl

theorem constrains_foldlM {α : Type} {f : TSystem σ → α → Except L2Error (TSystem σ)}
    {l : List α} (hf : ∀ s a s', f s a = .ok s' → Constrains s s')
    (h : l.foldlM f s = .ok s') : Constrains s s' :=
  Loop.foldlM_inv (Constrains s) l (fun a _ s₁ s₂ h₁ hs => h₁.trans (hf s₁ a s₂ hs))
    (Constrains.refl s) h

theorem same_foldlM {α : Type} {f : TSystem σ → α → Except L2Error (TSystem σ)} {l : List α}
    (hf : ∀ s a s', f s a = .ok s' → Same s s') (h : l.foldlM f s = .ok s') : Same s s' :=
  Loop.foldlM_inv (Same s) l (fun a _ s₁ s₂ h₁ hs => h₁.trans (hf s₁ a s₂ hs)) (Same.refl s) h

theorem constrains_instantiate {p : ProtoTransition} {m : Ref} {fromTimeStep toTimeStep : UInt32}
    {c : ClauseId} (h : s.instantiate S p m fromTimeStep toTimeStep = .ok (c, s')) :
    Constrains s s' := by
  obtain ⟨positive, -, h⟩ := Loop.bind_eq_ok h
  obtain ⟨negative, -, h⟩ := Loop.bind_eq_ok h
  obtain ⟨t, -, h⟩ := Loop.bind_eq_ok h
  obtain ⟨transition, -, h⟩ := Loop.bind_eq_ok h
  obtain ⟨consequent, -, h⟩ := Loop.bind_eq_ok h
  have hs := congrArg Prod.snd (Except.ok.inj h)
  subst hs
  exact constrains_createClause _ _ _

theorem constrains_instantiateAll {ps : List ProtoTransition} {m : Ref}
    {fromTimeStep toTimeStep : UInt32}
    (h : s.instantiateAll S ps m fromTimeStep toTimeStep = .ok s') : Constrains s s' := by
  refine constrains_foldlM (fun s p s' hs => ?_) h
  obtain ⟨⟨c, s₁⟩, hc, hs⟩ := Loop.bind_eq_ok hs
  obtain rfl := Except.ok.inj hs
  exact (constrains_instantiate hc).trans (constrains_addTransitionClause m c)

theorem constrains_instantiateAutonomousClauses {m : Ref} {timestep : UInt32}
    (h : s.instantiateAutonomousClauses S m timestep = .ok s') : Constrains s s' := by
  obtain ⟨s₁, h₁, h⟩ := Loop.bind_eq_ok h
  have hclauses := constrains_instantiateAll h₁
  obtain rfl := Except.ok.inj h
  split
  · exact hclauses.trans (constrains_setMode rfl rfl)
  · exact hclauses

theorem constrains_instantiateClauses {a : Assignment} {m : Ref} {toTimeStep : UInt32}
    (h : s.instantiateClauses S a m toTimeStep = .ok s') : Constrains s s' := by
  obtain ⟨s₁, h₁, h⟩ := Loop.bind_eq_ok h
  obtain ⟨s₂, h₂, h⟩ := Loop.bind_eq_ok h
  have hindexed : Constrains s s₁ := by
    unfold TSystem.instantiateIndexedClauses at h₁
    split at h₁
    · exact constrains_instantiateAll h₁
    · obtain rfl := Except.ok.inj h₁
      exact Constrains.refl s
  exact (hindexed.trans (constrains_instantiateAll h₂)).trans
    (constrains_instantiateAutonomousClauses h)

/-- `r` is new, and there is nothing else new. -/
structure Created (kind : Kind) (timeStep : UInt32) (r : Ref) (s s' : TSystem σ) : Prop where
  ref : r = s.fresh
  fresh : s'.fresh = s.fresh + 1
  kind : s'.kindOf r = kind
  time : s'.timeOf r = timeStep
  cell : ∀ q : ℕ, q < s.fresh → s'.cell q = s.cell q
  links : s'.links = s.links.clear r
  list : ∀ q, q ∈ s'.variableList ↔ q = r ∨ q ∈ s.variableList
  listed : Listed s → Listed s'
  present : s'.presentVariables = s.presentVariables
  assumptions : s'.assumptions = s.assumptions
  modes : s'.modeCell = s.modeCell
  candidates : s'.candidates = s.candidates

theorem mem_insertInFrontOf {q r x : Ref} {l : List Ref} :
    x ∈ TSystem.insertInFrontOf q r l ↔ x = r ∨ x ∈ l := by
  induction l with
  | nil => simp [TSystem.insertInFrontOf]
  | cons y l ih =>
    rw [TSystem.insertInFrontOf]
    split
    · simp
    · simp only [List.mem_cons, ih]
      exact or_left_comm

theorem nodup_insertInFrontOf {q r : Ref} {l : List Ref} (hl : l.Nodup) (hr : r ∉ l) :
    (TSystem.insertInFrontOf q r l).Nodup := by
  induction l with
  | nil => exact List.nodup_singleton r
  | cons y l ih =>
    obtain ⟨hy, hl'⟩ := List.nodup_cons.mp hl
    rw [TSystem.insertInFrontOf]
    split
    · exact List.nodup_cons.mpr ⟨hr, hl⟩
    · obtain ⟨hry, hrl⟩ := not_or.mp (mt List.mem_cons.mpr hr)
      refine List.nodup_cons.mpr ⟨?_, ih hl' hrl⟩
      rw [mem_insertInFrontOf, not_or]
      exact ⟨Ne.symm hry, hy⟩

theorem nodup_insertVariable {r : Ref} (hl : s.variableList.Nodup) (hr : r ∉ s.variableList) :
    (s.insertVariable r).variableList.Nodup := by
  unfold TSystem.insertVariable
  split
  · exact List.nodup_cons.mpr ⟨hr, hl⟩
  · exact nodup_insertInFrontOf hl hr

theorem mem_insertVariable {r q : Ref} :
    q ∈ (s.insertVariable r).variableList ↔ q = r ∨ q ∈ s.variableList := by
  unfold TSystem.insertVariable
  split
  · exact List.mem_cons
  · exact mem_insertInFrontOf

theorem insertVariable_eq (r : Ref) (s : TSystem σ) : (s.insertVariable r).cell = s.cell ∧
    (s.insertVariable r).links = s.links ∧ (s.insertVariable r).fresh = s.fresh ∧
    (s.insertVariable r).presentVariables = s.presentVariables ∧
    (s.insertVariable r).assumptions = s.assumptions ∧
    (s.insertVariable r).modeCell = s.modeCell ∧
    (s.insertVariable r).candidates = s.candidates := by
  unfold TSystem.insertVariable
  split <;> exact ⟨rfl, rfl, rfl, rfl, rfl, rfl, rfl⟩

theorem newVariable_created (kind : Kind) (nvalues : ℕ) (timeStep id : UInt32) (s : TSystem σ) :
    Created kind timeStep (s.newVariable S kind nvalues timeStep id).1 s
      (s.newVariable S kind nvalues timeStep id).2 := by
  unfold TSystem.newVariable
  constructor
  case ref => rfl
  case fresh => simp [insertVariable_eq]
  case kind => simp [TSystem.kindOf, insertVariable_eq]
  case time => simp [TSystem.timeOf, insertVariable_eq]
  case cell =>
    intro q hq
    have hne : q ≠ s.fresh := hq.ne
    simp [insertVariable_eq, hne]
  case links => simp [insertVariable_eq]
  case list =>
    intro q
    simp [mem_insertVariable]
  case listed =>
    intro ⟨hl, hlt⟩
    refine ⟨nodup_insertVariable hl fun hr => (hlt _ hr).false, ?_⟩
    intro q hq
    simp only [insertVariable_eq]
    rcases mem_insertVariable.mp hq with rfl | hq
    · exact Nat.lt_succ_self _
    · exact (hlt q hq).trans (Nat.lt_succ_self _)
  all_goals simp [insertVariable_eq]

theorem Created.setVariable {kind : Kind} {timeStep : UInt32} {r : Ref}
    (h : Created kind timeStep r s s') {v : VariableCell} (hkind : v.kind = kind)
    (htime : v.timeStep = timeStep) (t : σ) :
    Created kind timeStep r s { s'.setVariable r v with solver := t } where
  ref := h.ref
  fresh := h.fresh
  kind := by simp [TSystem.kindOf, TSystem.setVariable, hkind]
  time := by simp [TSystem.timeOf, TSystem.setVariable, htime]
  cell q hq := by
    have hne : q ≠ r := fun heq => (h.ref ▸ heq ▸ hq).false
    simp [TSystem.setVariable, hne, h.cell q hq]
  links := h.links
  list := h.list
  listed := h.listed
  present := h.present
  assumptions := h.assumptions
  modes := h.modes
  candidates := h.candidates

theorem newAssignable_created (kind : Kind) (weights : List UInt32) (timeStep id : UInt32)
    (s : TSystem σ) : Created kind timeStep (s.newAssignable S kind weights timeStep id).1 s
      (s.newAssignable S kind weights timeStep id).2 := by
  have h := newVariable_created (S := S) kind weights.length timeStep id s
  unfold TSystem.newAssignable
  refine Created.setVariable h ?_ ?_ _
  · exact h.kind
  · exact h.time

theorem Created.grows {kind : Kind} {timeStep : UInt32} {r : Ref}
    (h : Created kind timeStep r s s') : Grows s s' where
  fresh := h.fresh ▸ Nat.le_succ _
  cell q hq := by
    simp [TSystem.kindOf, TSystem.timeOf, h.cell q hq]
  links q hq := by
    have hne : q ≠ r := fun heq => (h.ref ▸ heq ▸ hq).false
    simp [h.links, Chain.Links.clear, hne]
  added q hq hq' := by
    rw [h.fresh] at hq'
    have heq : q = r := (Nat.le_antisymm (Nat.le_of_lt_succ hq') hq).trans h.ref.symm
    subst heq
    simp [h.links, Chain.Links.clear]
  present := h.present
  list q := by
    have hlist : q ∈ s'.variableList ↔ q = r ∨ q ∈ s.variableList := h.list q
    have hr : r = s.fresh := h.ref
    rw [hlist, h.fresh, hr, or_comm]
    apply or_congr Iff.rfl
    omega
  listed := h.listed
  assumptions q hq := .inl (h.assumptions ▸ hq)
  modes m := by
    rw [h.modes]
    exact ⟨rfl, rfl⟩
  candidates := h.candidates

theorem Created.grows_registerAssumption {kind : Kind} {timeStep : UInt32} {r : Ref}
    (h : Created kind timeStep r s s') (hkind : kind.isAssumption = true) :
    Grows s (s'.registerAssumption r) where
  fresh := h.grows.fresh
  cell := h.grows.cell
  links := h.grows.links
  added := h.grows.added
  present := h.grows.present
  list := h.grows.list
  listed := h.grows.listed
  assumptions q hq := by
    have hmem : q ∈ r :: s.assumptions := h.assumptions ▸ hq
    obtain heq | hq := List.mem_cons.mp hmem
    · have hfresh : (s'.registerAssumption r).fresh = s.fresh + 1 := h.fresh
      have hq' : q = s.fresh := heq.trans h.ref
      refine .inr ⟨⟨hq'.ge, ?_⟩, ?_⟩
      · rw [hfresh, hq']
        exact Nat.lt_succ_self _
      · rw [heq, ← hkind, ← h.kind]
        rfl
    · exact .inl hq
  modes := h.grows.modes
  candidates := h.grows.candidates

theorem grows_createStateVariable (weights : List UInt32) (timeStep id : UInt32) (s : TSystem σ) :
    Grows s (s.createStateVariable S weights timeStep id).2 :=
  (newAssignable_created .stateVariable weights timeStep id s).grows_registerAssumption rfl

theorem grows_createModeTransition (costs : List UInt32) (timeStep id : UInt32) (s : TSystem σ) :
    Grows s (s.createModeTransition S costs timeStep id).2 :=
  ((newAssignable_created .transition costs timeStep id s).grows_registerAssumption rfl).trans
    (same_assign _ _).grows

theorem constrains_setInitialMode {stateVariableValueIndex : ℕ} {modeValueIndex : Option ℕ}
    {horizon : UInt32} {inTheory : Bool} {m : Ref} {c : Option ClauseId}
    (h : s.setInitialMode S stateVariableValueIndex modeValueIndex horizon inTheory m = .ok (c, s')) :
    Constrains s s' := by
  obtain ⟨state, -, h⟩ := Loop.bind_eq_ok h
  obtain ⟨nominal, -, h⟩ := Loop.bind_eq_ok h
  obtain ⟨value, -, h⟩ := Loop.bind_eq_ok h
  cases value with
  | none =>
    obtain rfl := congrArg Prod.snd (Except.ok.inj h)
    exact Constrains.refl s
  | some p =>
    obtain ⟨s₁, h₁, h⟩ := Loop.bind_eq_ok h
    obtain rfl := congrArg Prod.snd (Except.ok.inj h)
    have hclause := (constrains_createClause (S := S) (s := s) [p] [nominal, state] inTheory).trans
      (constrains_addTransitionClause m (s.createClause S [p] [nominal, state] inTheory).1)
    unfold TSystem.addFailures at h₁
    split at h₁
    · obtain rfl := Except.ok.inj h₁
      exact hclause
    · exact hclause.trans (constrains_instantiateAutonomousClauses h₁)

theorem constrains_summarizeVariables {horizon : UInt32} {i : ℕ}
    (h : s.summarizeVariables S horizon i = .ok s') : Constrains s s' := by
  refine constrains_foldlM (fun s m s' hs => ?_) h
  split at hs
  · obtain ⟨⟨c, s₁⟩, h₁, hs⟩ := Loop.bind_eq_ok hs
    have hmode := constrains_setInitialMode h₁
    obtain rfl := Except.ok.inj hs
    split
    · exact hmode.trans (constrains_newClauses _)
    · exact hmode
  · obtain rfl := Except.ok.inj hs
    exact Constrains.refl s

theorem same_truncateCandidate (horizon : UInt32) (stateEqSi : Ref × ℕ) (c : Candidate) :
    Same s (s.truncateCandidate horizon stateEqSi c).2 :=
  same_setVariable rfl rfl rfl

theorem same_atHorizon (horizon : UInt32) : Same s (s.atHorizon horizon) := by
  have hset : ∀ q, Same s { s with insertBefore := some q } :=
    fun q => { cell := fun _ => ⟨rfl, rfl, rfl⟩, modes := fun _ => ⟨rfl, rfl⟩ }
  unfold TSystem.atHorizon
  split
  · exact hset _
  · exact Same.refl s

theorem registerNewVariable_eq {r : Ref} (h : s.registerNewVariable r = .ok s') :
    s.timeOf r = now ∧ s.kindOf r ≠ .transition ∧ (s.cell r).id ≠ stateVarID ∧
      s.getPresentVariable (s.cell r).id.toNat = none ∧ s' = { s with
        presentVariables := TSystem.growAndSet s.presentVariables (s.cell r).id.toNat r } := by
  unfold TSystem.registerNewVariable at h
  dsimp only at h
  split at h
  case isTrue => cases h
  case isFalse htime =>
    split at h
    case isTrue => cases h
    case isFalse hkind =>
      split at h
      case isTrue => cases h
      case isFalse hoccupied =>
        split at h
        case isTrue => cases h
        case isFalse hid =>
          exact ⟨not_not.mp htime, hkind, hid, by simpa using hoccupied, (Except.ok.inj h).symm⟩

theorem createStateVariable_id (weights : List UInt32) (timeStep id : UInt32) (s : TSystem σ) :
    ((s.createStateVariable S weights timeStep id).2.cell
      (s.createStateVariable S weights timeStep id).1).id = id := by
  simp [TSystem.createStateVariable, TSystem.newAssignable, TSystem.newVariable,
    TSystem.registerAssumption, TSystem.setVariable, insertVariable_eq]

theorem grows_createStateVar {horizon : UInt32} {nstates : ℕ}
    (h : s.createStateVar S horizon nstates = .ok s') : Grows s s' := by
  have hcreated := (same_atHorizon (s := s) horizon).grows.trans
    (grows_createStateVariable (S := S) (List.replicate nstates 0) horizon stateVarID
      (s.atHorizon horizon))
  have hid := createStateVariable_id (S := S) (List.replicate nstates 0) horizon stateVarID
    (s.atHorizon horizon)
  unfold TSystem.createStateVar at h
  split at h
  · cases h
  dsimp only at h
  split at h
  · obtain ⟨s₁, h₁, h⟩ := Loop.bind_eq_ok h
    exact absurd hid (registerNewVariable_eq h₁).2.2.1
  · obtain rfl := Except.ok.inj h
    exact ⟨hcreated.fresh, hcreated.cell, hcreated.links, hcreated.added, hcreated.present,
      hcreated.list, hcreated.listed, hcreated.assumptions, hcreated.modes, hcreated.candidates⟩

theorem createStateVar_stateVar {horizon : UInt32} {nstates : ℕ}
    (h : s.createStateVar S horizon nstates = .ok s') :
    s'.stateVar < s'.fresh ∧ (s'.kindOf s'.stateVar).isAssumption = true := by
  have hc := newAssignable_created (S := S) .stateVariable (List.replicate nstates 0) horizon
    stateVarID (s.atHorizon horizon)
  have hid := createStateVariable_id (S := S) (List.replicate nstates 0) horizon stateVarID
    (s.atHorizon horizon)
  unfold TSystem.createStateVar at h
  split at h
  · cases h
  dsimp only at h
  split at h
  · obtain ⟨s₁, h₁, h⟩ := Loop.bind_eq_ok h
    exact absurd hid (registerNewVariable_eq h₁).2.2.1
  · obtain rfl := Except.ok.inj h
    refine ⟨hc.ref.trans_lt ?_, ?_⟩
    · exact Nat.lt_of_lt_of_eq (Nat.lt_succ_self _) hc.fresh.symm
    · have hkind := hc.kind
      exact hkind ▸ rfl

/-- The candidates that are left have assignments of theirs and of the new state variable. -/
theorem summarizeCandidates_same {horizon : UInt32} {truncationLimit i : ℕ}
    {cs cs' : List Candidate}
    (h : s.summarizeCandidates S horizon truncationLimit i cs = .ok (cs', s')) :
    Same s s' ∧ ∀ c ∈ cs', ∀ a ∈ c, (∃ c₀ ∈ cs, a ∈ c₀) ∨ a.1 = s.stateVar := by
  induction cs generalizing s i cs' with
  | nil =>
    obtain ⟨rfl, rfl⟩ := Prod.mk.inj (Except.ok.inj h)
    exact ⟨Same.refl s, by simp⟩
  | cons c cs ih =>
    unfold TSystem.summarizeCandidates at h
    split at h
    case isFalse =>
      obtain ⟨rfl, rfl⟩ := Prod.mk.inj (Except.ok.inj h)
      exact ⟨Same.refl s, by simp⟩
    case isTrue =>
      have hinstalled : Same s (((s.install S c).propagate S).2) :=
        (same_install c).trans same_propagate
      have hlater {cs' : List Candidate} {s₁ : TSystem σ} (hs : Same s s₁)
          (hrest : ∀ c ∈ cs', ∀ a ∈ c, (∃ c₀ ∈ cs, a ∈ c₀) ∨ a.1 = s₁.stateVar) :
          ∀ d ∈ cs', ∀ a ∈ d, (∃ c₀ ∈ c :: cs, a ∈ c₀) ∨ a.1 = s.stateVar := by
        intro d hd a ha
        rcases hrest d hd a ha with ⟨c₀, hc₀, ha⟩ | ha
        · exact Or.inl ⟨c₀, List.mem_cons_of_mem c hc₀, ha⟩
        · exact Or.inr (ha.trans hs.stateVar)
      dsimp only at h
      split at h
      · obtain ⟨s₁, h₁, h⟩ := Loop.bind_eq_ok h
        obtain ⟨⟨rest, s₂⟩, h₂, h⟩ := Loop.bind_eq_ok h
        obtain ⟨rfl, rfl⟩ := Prod.mk.inj (Except.ok.inj h)
        have hsame₁ := hinstalled.trans (constrains_summarizeVariables h₁).same
        have hsame := hsame₁.trans (same_truncateCandidate horizon (s₁.stateVar, i) c)
        obtain ⟨hrest, hcs⟩ := ih h₂
        refine ⟨hsame.trans hrest, List.forall_mem_cons.mpr ⟨?_, hlater hsame hcs⟩⟩
        intro a ha
        rcases List.mem_append.mp ha with ha | ha
        · exact Or.inl ⟨c, List.mem_cons_self, List.mem_of_mem_filter ha⟩
        · rw [List.mem_singleton.mp ha]
          exact Or.inr hsame₁.stateVar
      · obtain ⟨hrest, hcs⟩ := ih h
        exact ⟨hinstalled.trans hrest, hlater hinstalled hcs⟩

end Transition
end Livingstone
