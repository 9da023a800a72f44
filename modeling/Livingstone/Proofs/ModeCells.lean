import Livingstone.Proofs.TransitionCosts
import Livingstone.Transition.Additions

/-! The mode variables of the transition system and those that the reader makes. A mode of the
system holds the costs and the prototypes that are read for its variable: each operation of the
reader is one on the mode. -/

namespace Livingstone
namespace Transition

variable {σ : Type} {S : Solver σ} {s s' : TSystem σ} {m : Ref} {t t' : ModeVariable}
  {f : L2File}

/-- The mode `m` of the system is the mode variable `t`. -/
structure Holds (s : TSystem σ) (m : Ref) (t : ModeVariable) : Prop where
  prototypes : (s.modeCell m).prototypes = t.prototypes
  ntransitions : (s.modeCell m).ntransitions = t.ntransitions
  transitionCosts : (s.modeCell m).transitionCosts = t.transitionCosts.map UInt32.ofNat
  horizonWeights : (s.cell (s.modeCell m).horizonTransition).weights =
    t.horizonWeights.map UInt32.ofNat

theorem weights_createModeTransition (costs : List UInt32) (timeStep id : UInt32)
    (s : TSystem σ) :
    ((s.createModeTransition S costs timeStep id).2.cell
      (s.createModeTransition S costs timeStep id).1).weights = costs := by
  unfold TSystem.createModeTransition TSystem.restoreDefault
  dsimp only
  obtain ⟨u, hu⟩ := assign_eq (S := S) (s := (s.createTransition S costs timeStep id).2)
    (s.createTransition S costs timeStep id).1 (some 0)
  rw [hu]
  simp [TSystem.setVariable, TSystem.createTransition, TSystem.newAssignable,
    TSystem.registerAssumption]

theorem holds_newTransitioned (nvalues ntransitions : ℕ) (timeStep id : UInt32) (s : TSystem σ) :
    Holds (s.newTransitioned S nvalues ntransitions timeStep id).2
      (s.newTransitioned S nvalues ntransitions timeStep id).1
      (ModeVariable.new id.toNat ntransitions) := by
  have hweights := weights_createModeTransition (S := S) (List.replicate ntransitions 0) now id
    (s.newVariable S .transitioned nvalues timeStep id).2
  unfold TSystem.newTransitioned
  constructor
  · simp [TSystem.setMode, ModeVariable.new]
  · simp [TSystem.setMode, ModeVariable.new]
  · simp [TSystem.setMode, ModeVariable.new]
  · simpa [TSystem.setMode, ModeVariable.new] using hweights

theorem Holds.addTransitionCost (h : Holds s m t) {cost : ℕ}
    (ht : t.addTransitionCost cost = .ok t') :
    Holds (s.addTransitionCost m (UInt32.ofNat cost)) m t' := by
  unfold ModeVariable.addTransitionCost at ht
  dsimp only at ht
  split_ifs at ht
  obtain rfl := Except.ok.inj ht
  have hlength := congrArg List.length h.transitionCosts
  rw [List.length_map] at hlength
  unfold TSystem.addTransitionCost
  constructor
  · simpa [TSystem.setVariable, TSystem.setMode] using h.prototypes
  · simpa [TSystem.setVariable, TSystem.setMode] using h.ntransitions
  · simp [TSystem.setVariable, TSystem.setMode, h.transitionCosts]
  · simp [TSystem.setVariable, TSystem.setMode, h.horizonWeights, hlength]

theorem Holds.addPrototype (h : Holds s m t) (p : Prototype) :
    Holds (s.addPrototype m p) m { t with prototypes := t.prototypes.add p } := by
  unfold TSystem.addPrototype
  constructor
  · simp [TSystem.setMode, h.prototypes]
  · simpa [TSystem.setMode] using h.ntransitions
  · simpa [TSystem.setMode] using h.transitionCosts
  · simpa [TSystem.setMode] using h.horizonWeights

structure BuiltMode (S : Solver σ) (m : Ref) (t : ModeVariable) (s : TSystem σ) : Prop where
  built : Built S s
  present : m ∈ s.present
  kind : s.kindOf m = .transitioned
  holds : Holds s m t

inductive ModeOp where
  | cost (cost : UInt32)
  | prototype (p : Prototype)
  deriving Repr

def ModeOp.apply (m : Ref) (s : TSystem σ) : ModeOp → TSystem σ
  | .cost c => s.addTransitionCost m c
  | .prototype p => s.addPrototype m p

/-- By such operations the mode goes over from `t` to `t'`. -/
def Builds (S : Solver σ) (m : Ref) (t t' : ModeVariable) : Prop :=
  ∃ ops : List ModeOp, ∀ s, BuiltMode S m t s → BuiltMode S m t' (ops.foldl (ModeOp.apply m) s)

theorem builds_cost {cost : ℕ} (ht : t.addTransitionCost cost = .ok t') : Builds S m t t' := by
  refine ⟨[.cost (UInt32.ofNat cost)], fun s h => ?_⟩
  have hkind : (s.addTransitionCost m (UInt32.ofNat cost)).kindOf m = s.kindOf m := by
    unfold TSystem.addTransitionCost TSystem.kindOf TSystem.setVariable TSystem.setMode
    dsimp only
    by_cases hm : m = (s.modeCell m).horizonTransition
    · rw [← hm, Function.update_self]
    · rw [Function.update_of_ne hm]
  exact ⟨.cost _ h.built h.present h.kind, h.present, hkind.trans h.kind,
    h.holds.addTransitionCost ht⟩

theorem builds_prototype (p : Prototype) :
    Builds S m t { t with prototypes := t.prototypes.add p } :=
  ⟨[.prototype p], fun _ h =>
    ⟨.prototype p h.built h.present h.kind, h.present, h.kind, h.holds.addPrototype p⟩⟩

theorem Builds.refl (S : Solver σ) (m : Ref) (t : ModeVariable) : Builds S m t t :=
  ⟨[], fun _ h => h⟩

theorem Builds.trans {t₁ : ModeVariable} (h : Builds S m t t₁) (h' : Builds S m t₁ t') :
    Builds S m t t' := by
  obtain ⟨ops, hops⟩ := h
  obtain ⟨ops', hops'⟩ := h'
  refine ⟨ops ++ ops', fun s hs => ?_⟩
  rw [List.foldl_append]
  exact hops' _ (hops s hs)

theorem builds_foldlM {α : Type} {g : ModeVariable → α → Except ReaderError ModeVariable}
    {l : List α} (hg : ∀ t a t', g t a = .ok t' → Builds S m t t') (h : l.foldlM g t = .ok t') :
    Builds S m t t' :=
  Loop.foldlM_inv (Builds S m t) l (fun a _ u u' hu hs => hu.trans (hg u a u' hs))
    (Builds.refl S m t) h

theorem builds_addRank {x : L2rTransition} (h : addRank x t = .ok t') : Builds S m t t' := by
  unfold addRank at h
  split_ifs at h
  · exact builds_cost h
  · obtain rfl := Except.ok.inj h
    exact Builds.refl S m t

theorem builds_addGuard {x : L2rTransition} {transitionValue : ℕ} {clause : Option ℕ}
    (h : addGuard f x transitionValue t clause = .ok t') : Builds S m t t' := by
  unfold addGuard at h
  split at h
  · cases h
  · obtain ⟨k, -, h⟩ := Loop.bind_eq_ok h
    obtain ⟨⟨pos, neg⟩, -, h⟩ := Loop.bind_eq_ok h
    obtain rfl := Except.ok.inj h
    exact builds_prototype (.commanded _ _ _ pos neg)

theorem builds_addPrototypes {x : L2rTransition} {transitionValue : ℕ}
    (h : addPrototypes f x transitionValue t = .ok t') : Builds S m t t' := by
  unfold addPrototypes at h
  split_ifs at h
  · obtain rfl := Except.ok.inj h
    exact builds_prototype (.commanded 0 _ _ [] [])
  · obtain rfl := Except.ok.inj h
    exact builds_prototype (.failure _ _)
  · exact builds_foldlM (fun _ _ _ => builds_addGuard) h

theorem builds_createTransition {x : L2rTransition × ℕ} (h : createTransition f t x = .ok t') :
    Builds S m t t' := by
  obtain ⟨t₁, hrank, h⟩ := Loop.bind_eq_ok h
  exact (builds_addRank hrank).trans (builds_addPrototypes h)

theorem builds_createTransitions {id : ℕ} {x : L2rMode} (h : createTransitions f id x = .ok t) :
    Builds S m (.new id (1 + x.failure.length)) t := by
  obtain ⟨t₁, hnominal, h⟩ := Loop.bind_eq_ok h
  obtain ⟨t₂, hfailure, h⟩ := Loop.bind_eq_ok h
  split_ifs at h
  obtain rfl := Except.ok.inj h
  exact (builds_foldlM (fun _ _ _ => builds_createTransition) hnominal).trans
    (builds_foldlM (fun _ _ _ => builds_createTransition) hfailure)

theorem mem_present_growAndSet {l : List (Option Ref)} {i : ℕ} {r : Ref} :
    r ∈ (TSystem.growAndSet l i r).filterMap id := by
  have hi : i < (l ++ List.replicate (i + 1 - l.length) none).length := by
    rw [List.length_append, List.length_replicate]
    omega
  rw [TSystem.growAndSet, List.mem_filterMap]
  exact ⟨some r, List.mem_iff_getElem?.mpr ⟨i, by rw [List.getElem?_set_self hi]⟩, rfl⟩

/-- The mode that is declared goes over to the mode variable that `createTransitions` makes. -/
theorem builtMode_createTransitions {nvalues : ℕ} {id : UInt32} {x : L2rMode} (h : Built S s)
    (hs : s.createVariable S (.mode nvalues (1 + x.failure.length) id) = .ok s')
    (ht : createTransitions f id.toNat x = .ok t) :
    ∃ ops : List ModeOp, BuiltMode S s.fresh t (ops.foldl (ModeOp.apply s.fresh) s') := by
  have hbuilt : Built S s' := .created _ h hs
  obtain ⟨ops, hops⟩ := builds_createTransitions (S := S) (m := s.fresh) ht
  refine ⟨ops, hops s' ?_⟩
  have hholds := holds_newTransitioned (S := S) nvalues (1 + x.failure.length) now id s
  obtain ⟨-, href, hkind⟩ := newTransitioned_adds (S := S) nvalues (1 + x.failure.length) now id s
  rw [href] at hholds
  unfold TSystem.createVariable at hs
  dsimp only at hs
  rw [href] at hs
  obtain ⟨-, -, -, -, rfl⟩ := registerNewVariable_eq hs
  exact ⟨hbuilt, mem_present_growAndSet, hkind, hholds.1, hholds.2, hholds.3, hholds.4⟩

end Transition
end Livingstone
