import Livingstone.Jmpl.StateSpace
import Livingstone.Proofs.ClauseGeneration
import Mathlib.Data.List.ReduceOption

/-! The frame axioms of a component type: one for each state in which no transition goes without
a condition, enabled when no transition is. -/

namespace Livingstone
namespace Jmpl
namespace StateSpace

open Odometer LogicExpression

theorem flatIndex_eq {ds is : List ℕ} (h : Below ds is) : flatIndex ds is = rank ds is := by
  induction h with
  | nil => rfl
  | @cons d i ds is _ _ ih =>
    rw [rank, ← ih, mul_comm, add_comm]
    rfl

/-- The state is one of those that the indices of the from-states stand for. -/
def storesAt (indices : List (Option ℕ)) (s : List ℕ) : Bool :=
  (indices.zip s).all fun p => p.1.all (· == p.2)

/-- Each index that is no wildcard is below its dimension. -/
def Indices (ds : List ℕ) (indices : List (Option ℕ)) : Prop :=
  List.Forall₂ (fun d index => ∀ k ∈ index, k < d) ds indices

theorem exists_fill {ds : List ℕ} {indices : List (Option ℕ)} (h : Indices ds indices)
    (s : List ℕ) : (∃ is, Below (wildcards ds indices) is ∧ fill indices is = s) ↔
      Below ds s ∧ storesAt indices s = true := by
  induction h generalizing s with
  | nil =>
    constructor
    · intro ⟨is, _, hfill⟩
      rw [fill] at hfill
      rw [← hfill]
      exact ⟨List.Forall₂.nil, rfl⟩
    · intro ⟨hs, _⟩
      cases hs
      exact ⟨[], List.Forall₂.nil, rfl⟩
  | @cons d index ds indices hindex _ ih =>
    cases index with
    | none =>
      rw [wildcards]
      constructor
      · intro ⟨is, his, hfill⟩
        obtain ⟨i, js, hi, hjs, rfl⟩ := List.forall₂_cons_left_iff.mp his
        obtain ⟨hbelow, hstores⟩ := (ih _).mp ⟨js, hjs, rfl⟩
        rw [← hfill, fill]
        exact ⟨List.Forall₂.cons hi hbelow, by simpa [storesAt] using hstores⟩
      · intro ⟨hs, hstores⟩
        obtain ⟨i, t, hi, ht, rfl⟩ := List.forall₂_cons_left_iff.mp hs
        obtain ⟨js, hjs, hfill⟩ := (ih t).mpr ⟨ht, by simpa [storesAt] using hstores⟩
        exact ⟨i :: js, List.Forall₂.cons hi hjs, by rw [fill, hfill]⟩
    | some k =>
      rw [wildcards]
      constructor
      · intro ⟨is, his, hfill⟩
        obtain ⟨hbelow, hstores⟩ := (ih _).mp ⟨is, his, rfl⟩
        rw [← hfill, fill]
        exact ⟨List.Forall₂.cons (hindex k rfl) hbelow, by simpa [storesAt] using hstores⟩
      · intro ⟨hs, hstores⟩
        obtain ⟨i, t, hi, ht, rfl⟩ := List.forall₂_cons_left_iff.mp hs
        simp only [storesAt, List.zip_cons_cons, List.all_cons, Option.all_some, Bool.and_eq_true,
          beq_iff_eq] at hstores
        obtain ⟨js, hjs, hfill⟩ := (ih t).mpr ⟨ht, hstores.2⟩
        exact ⟨js, hjs, by rw [fill, hfill, hstores.1]⟩

theorem fill_inj {ds : List ℕ} {indices : List (Option ℕ)} (h : Indices ds indices)
    {is js : List ℕ} (his : Below (wildcards ds indices) is) (hjs : Below (wildcards ds indices) js)
    (heq : fill indices is = fill indices js) : is = js := by
  induction h generalizing is js with
  | nil =>
    cases his
    cases hjs
    rfl
  | @cons d index ds indices _ _ ih =>
    cases index with
    | none =>
      rw [wildcards] at his hjs
      obtain ⟨i, is', _, his', rfl⟩ := List.forall₂_cons_left_iff.mp his
      obtain ⟨j, js', _, hjs', rfl⟩ := List.forall₂_cons_left_iff.mp hjs
      rw [fill, fill, List.cons.injEq] at heq
      rw [heq.1, ih his' hjs' heq.2]
    | some k =>
      rw [fill, fill, List.cons.injEq] at heq
      exact ih his hjs heq.2

theorem wildcards_pos {ds : List ℕ} (hds : ∀ d ∈ ds, 0 < d) (indices : List (Option ℕ)) :
    ∀ d ∈ wildcards ds indices, 0 < d := by
  induction ds generalizing indices with
  | nil => cases indices <;> simp [wildcards]
  | cons d ds ih =>
    rw [List.forall_mem_cons] at hds
    cases indices with
    | nil => simp [wildcards]
    | cons index indices =>
      cases index with
      | none =>
        rw [wildcards, List.forall_mem_cons]
        exact ⟨hds.1, ih hds.2 indices⟩
      | some k => exact ih hds.2 indices

theorem valueNum_mem {values : List String} {name : String} {k : ℕ}
    (h : valueNum values name = some k) : values[k]? = some name := by
  obtain ⟨p, hfind, rfl⟩ := Option.map_eq_some_iff.mp h
  have hmem := List.mem_of_find?_eq_some hfind
  have hname := List.find?_some hfind
  rw [List.mem_reverse, List.mem_zipIdx_iff_getElem?] at hmem
  rw [hmem, eq_of_beq hname]

theorem indices_fromIndices {sv : List StateVariable} (hsv : ∀ d ∈ dimensions sv, 0 < d)
    {fromStates : List String} {indices : List (Option ℕ)}
    (h : fromIndices sv fromStates = .ok indices) : Indices (dimensions sv) indices := by
  induction sv generalizing fromStates indices with
  | nil =>
    rw [fromIndices] at h
    obtain rfl := Except.ok.inj h
    exact List.Forall₂.nil
  | cons v vs ih =>
    rw [dimensions, List.map_cons, List.forall_mem_cons] at hsv
    cases fromStates with
    | nil =>
      rw [fromIndices] at h
      obtain ⟨rest, hrest, h⟩ := Loop.bind_eq_ok h
      obtain rfl := Except.ok.inj h
      refine List.Forall₂.cons (fun k hk => ?_) (ih hsv.2 hrest)
      cases hk
      exact hsv.1
    | cons f fs =>
      rw [fromIndices] at h
      split_ifs at h with hwild
      · obtain ⟨rest, hrest, h⟩ := Loop.bind_eq_ok h
        obtain rfl := Except.ok.inj h
        exact List.Forall₂.cons (fun k hk => absurd hk (by simp)) (ih hsv.2 hrest)
      · split at h
        · cases h
        · next values hvalues =>
          split at h
          · cases h
          · next k hk =>
            obtain ⟨rest, hrest, h⟩ := Loop.bind_eq_ok h
            obtain rfl := Except.ok.inj h
            refine List.Forall₂.cons (fun k' hk' => ?_) (ih hsv.2 hrest)
            cases hk'
            rw [StateVariable.dimension, hvalues]
            exact (List.getElem?_eq_some_iff.mp (valueNum_mem hk)).1

def Holds (space : StateSpace) (g : List ℕ → Option (List LogicExpression)) : Prop :=
  ∀ s, Below (dimensions space.stateVector) s →
    space.constraints[rank (dimensions space.stateVector) s]? = some (g s)

/-- An unconditional transition takes the constraints away for good. -/
def store (x : LogicExpression) (constraints : Option (List LogicExpression)) :
    Option (List LogicExpression) :=
  constraints.bind fun xs => if x.isTrue then none else some (xs ++ [x])

theorem Holds.getConstraints {space : StateSpace} {g : List ℕ → Option (List LogicExpression)}
    (h : space.Holds g) {s : List ℕ} (hs : Below (dimensions space.stateVector) s) :
    space.getConstraints s = .ok (g s) := by
  rw [StateSpace.getConstraints, flatIndex_eq hs, h s hs]

theorem Holds.setConstraints {space : StateSpace} {g : List ℕ → Option (List LogicExpression)}
    (h : space.Holds g) {s : List ℕ} (hs : Below (dimensions space.stateVector) s)
    (value : Option (List LogicExpression)) :
    (space.setConstraints s value).Holds (Function.update g s value) := by
  intro s' hs'
  have hget := h s' hs'
  have hlt := (List.getElem?_eq_some_iff.mp (h s hs)).1
  rw [StateSpace.setConstraints, flatIndex_eq hs]
  by_cases heq : s' = s
  · rw [heq, Function.update_self]
    exact List.getElem?_set_self hlt
  · rw [Function.update_of_ne heq, ← hget]
    exact List.getElem?_set_ne fun hrank => heq (rank_inj hs hs' hrank).symm

theorem addConstraint_holds {space : StateSpace} {g : List ℕ → Option (List LogicExpression)}
    (h : space.Holds g) {s : List ℕ} (hs : Below (dimensions space.stateVector) s)
    (x : LogicExpression) :
    ∃ space', addConstraint x space s = .ok space' ∧ space'.stateVector = space.stateVector ∧
      space'.Holds (Function.update g s (store x (g s))) := by
  unfold addConstraint
  rw [h.getConstraints hs]
  cases hg : g s with
  | none =>
    refine ⟨space, rfl, rfl, ?_⟩
    rw [store, Option.bind_none, ← hg, Function.update_eq_self]
    exact h
  | some xs =>
    cases x with
    | trueExpression => exact ⟨_, rfl, rfl, h.setConstraints hs none⟩
    | _ => exact ⟨_, rfl, rfl, h.setConstraints hs _⟩

theorem addConstraints_holds {x : LogicExpression} {states : List (List ℕ)} (hnodup : states.Nodup)
    {space : StateSpace} {g : List ℕ → Option (List LogicExpression)} (h : space.Holds g)
    (hstates : ∀ s ∈ states, Below (dimensions space.stateVector) s) :
    ∃ space', states.foldlM (addConstraint x) space = .ok space' ∧
      space'.stateVector = space.stateVector ∧
      space'.Holds fun s => if s ∈ states then store x (g s) else g s := by
  induction states generalizing space g with
  | nil => exact ⟨space, rfl, rfl, by simpa using h⟩
  | cons s states ih =>
    rw [List.forall_mem_cons] at hstates
    rw [List.nodup_cons] at hnodup
    obtain ⟨space₁, hrun₁, hvector₁, hholds₁⟩ := addConstraint_holds h hstates.1 x
    obtain ⟨space₂, hrun₂, hvector₂, hholds₂⟩ :=
      ih hnodup.2 hholds₁ (by rw [hvector₁]; exact hstates.2)
    refine ⟨space₂, ?_, hvector₂.trans hvector₁, fun s' hs' => ?_⟩
    · rw [List.foldlM_cons, hrun₁]
      exact hrun₂
    · rw [hholds₂ s' hs']
      by_cases heq : s' = s
      · simp [heq, hnodup.1]
      · simp [heq]

end StateSpace

variable {c : Component}

namespace NominalTransition

/-- The code stores the guard of the transition for the state. -/
def stored (sv : List StateVariable) (t : NominalTransition c) (s : List ℕ) : Bool :=
  match StateSpace.fromIndices sv t.fromStates with
  | .ok indices => StateSpace.storesAt indices s
  | .error _ => false

/-- The from-states name the values of the state; a variable without one has any value. -/
def matchesFrom : List StateVariable → List String → List ℕ → Bool
  | v :: vs, f :: fs, i :: is => (f == "*" || v.values.bind (·[i]?) == some f) && matchesFrom vs fs is
  | _, _, _ => true

def applies (sv : List StateVariable) (t : NominalTransition c) (s : List ℕ) : Bool :=
  matchesFrom sv t.fromStates s

def unconditional (t : NominalTransition c) : Bool := t.expandedAndInstantiatedExpression.isTrue

end NominalTransition

namespace StateSpace

open Odometer LogicExpression

theorem cacheTransition_holds {space : StateSpace} {g : List ℕ → Option (List LogicExpression)}
    (h : space.Holds g) (hpos : ∀ d ∈ dimensions space.stateVector, 0 < d) {t : NominalTransition c}
    {indices : List (Option ℕ)} (ht : fromIndices space.stateVector t.fromStates = .ok indices) :
    ∃ space', space.cacheTransition t = .ok space' ∧ space'.stateVector = space.stateVector ∧
      space'.Holds fun s => if t.stored space.stateVector s then
        store t.expandedAndInstantiatedExpression (g s) else g s := by
  have hindices := indices_fromIndices hpos ht
  have hstored : ∀ s, t.stored space.stateVector s = storesAt indices s := by
    intro s
    rw [NominalTransition.stored, ht]
  have hvisits := visits_eq (wildcards_pos hpos indices)
    (Nat.le_succ (wildcards (dimensions space.stateVector) indices).prod)
  have hmem : ∀ s, s ∈ (vectors (wildcards (dimensions space.stateVector) indices)).map
      (fill indices) ↔ Below (dimensions space.stateVector) s ∧ storesAt indices s = true := by
    intro s
    rw [← exists_fill hindices, List.mem_map]
    simp only [mem_vectors]
  have hnodup : ((vectors (wildcards (dimensions space.stateVector) indices)).map
      (fill indices)).Nodup :=
    List.Nodup.map_on (fun is his js hjs => fill_inj hindices (mem_vectors.mp his) (mem_vectors.mp hjs))
      (nodup_vectors _)
  obtain ⟨space', hrun, hvector, hholds⟩ := addConstraints_holds
    (x := t.expandedAndInstantiatedExpression) hnodup h fun s hs => ((hmem s).mp hs).1
  refine ⟨space', ?_, hvector, fun s hs => ?_⟩
  · unfold cacheTransition
    rw [ht]
    simp only [bind, Except.bind, hvisits]
    rw [List.foldlM_map] at hrun
    exact hrun
  · rw [hholds s hs]
    rw [hvector] at hs
    simp only [hmem, hs, true_and, hstored]

/-- What is stored for a state: the guards of the transitions stored for it, unless one has no
condition. -/
def entry (sv : List StateVariable) (ts : List (NominalTransition c)) (s : List ℕ) :
    Option (List LogicExpression) :=
  if ts.any fun t => t.stored sv s && t.unconditional then none
  else some ((ts.filter fun t => t.stored sv s).map NominalTransition.expandedAndInstantiatedExpression)

theorem entry_concat (sv : List StateVariable) (ts : List (NominalTransition c))
    (t : NominalTransition c) (s : List ℕ) :
    entry sv (ts ++ [t]) s = if t.stored sv s then
      store t.expandedAndInstantiatedExpression (entry sv ts s) else entry sv ts s := by
  unfold entry
  rw [List.any_append, List.filter_append]
  cases hs : t.stored sv s with
  | false => simp [hs]
  | true =>
    cases hany : ts.any fun t => t.stored sv s && t.unconditional with
    | true => simp [store]
    | false =>
      cases hu : t.unconditional with
      | true =>
        rw [NominalTransition.unconditional] at hu
        simp [hs, hu, store, NominalTransition.unconditional]
      | false =>
        rw [NominalTransition.unconditional] at hu
        simp [hs, hu, store, NominalTransition.unconditional]

theorem cacheTransitions_holds {sv : List StateVariable} (hpos : ∀ d ∈ dimensions sv, 0 < d)
    {done ts : List (NominalTransition c)} {space : StateSpace} (hvector : space.stateVector = sv)
    (h : space.Holds (entry sv done))
    (hts : ∀ t ∈ ts, ∃ indices, fromIndices sv t.fromStates = .ok indices) :
    ∃ space', ts.foldlM cacheTransition space = .ok space' ∧ space'.stateVector = sv ∧
      space'.Holds (entry sv (done ++ ts)) := by
  induction ts generalizing done space with
  | nil => exact ⟨space, rfl, hvector, by simpa using h⟩
  | cons t ts ih =>
    rw [List.forall_mem_cons] at hts
    subst hvector
    obtain ⟨indices, hindices⟩ := hts.1
    obtain ⟨space₁, hrun₁, hvector₁, hholds₁⟩ := cacheTransition_holds h hpos hindices
    have hentry : space₁.Holds (entry space.stateVector (done ++ [t])) := by
      intro s hs
      rw [hholds₁ s hs, entry_concat]
    obtain ⟨space₂, hrun₂, hvector₂, hholds₂⟩ := ih hvector₁ hentry hts.2
    refine ⟨space₂, ?_, hvector₂, by simpa using hholds₂⟩
    rw [List.foldlM_cons, hrun₁]
    exact hrun₂

theorem exists_fuel {α : Type} {l : List α} {P : ℕ → α → Prop}
    (h : ∀ a ∈ l, ∃ n, ∀ fuel ≥ n, P fuel a) : ∃ n, ∀ fuel ≥ n, ∀ a ∈ l, P fuel a := by
  induction l with
  | nil => exact ⟨0, fun fuel _ a ha => absurd ha List.not_mem_nil⟩
  | cons a l ih =>
    rw [List.forall_mem_cons] at h
    obtain ⟨n, hn⟩ := h.1
    obtain ⟨m, hm⟩ := ih h.2
    refine ⟨max n m, fun fuel hfuel => ?_⟩
    rw [List.forall_mem_cons]
    exact ⟨hn fuel (by omega), hm fuel (by omega)⟩

theorem instantiateDefault_spec {xs : List LogicExpression} (hxs : ∀ x ∈ xs, Expanded x) :
    ∃ n, ∀ fuel ≥ n, ∃ clauses, instantiateDefault fuel (.orExpression xs) = .ok clauses ∧
      ∀ v, clausesHold v clauses = xs.any (reading (fun _ => false) v true) := by
  have hnnf : Nnf (pushNegationsIn (.orExpression xs)) := by
    rw [pushNegationsIn, pushAll_eq, Nnf, nnfAll_iff, List.forall_mem_map]
    exact fun x hx => (nnf_push (hxs x hx)).1
  refine ⟨need (pushNegationsIn (.orExpression xs)), fun fuel hfuel => ?_⟩
  obtain ⟨z, hz, hcompiled⟩ := pushDisjunctionsIn_compiled hnnf hfuel
  obtain ⟨clauses, hrun, hclauses⟩ := hcompiled.builds []
  refine ⟨clauses, ?_, fun v => ?_⟩
  · rw [instantiateDefault, hz]
    exact hrun
  · rw [hclauses v, pushNegationsIn, pushAll_eq, emitted, collapses, Bool.false_or, conjuncts,
      readingAny_eq, List.any_map]
    exact any_congr_mem fun x hx => (reading_push (hxs x hx)).1

theorem pushNegationsIn_of_nnf {x : LogicExpression} (hx : Nnf x) : x.pushNegationsIn = x := by
  induction x with
  | andExpression xs ih =>
    rw [pushNegationsIn, pushAll_eq]
    rw [List.map_congr_left fun x hmem => ih x hmem (nnfAll_iff.mp hx.2 x hmem), List.map_id']
  | orExpression xs ih =>
    rw [pushNegationsIn, pushAll_eq]
    rw [List.map_congr_left fun x hmem => ih x hmem (nnfAll_iff.mp hx x hmem), List.map_id']
  | notExpression x _ =>
    cases x with
    | equality e => rfl
    | _ => exact hx.elim
  | _ => rfl

theorem instantiateDefault_again {xs : List LogicExpression} (hxs : ∀ x ∈ xs, Expanded x)
    (fuel : ℕ) : instantiateDefault fuel (.orExpression (xs.map pushNegationsIn)) =
      instantiateDefault fuel (.orExpression xs) := by
  have hagain : (xs.map pushNegationsIn).map pushNegationsIn = xs.map pushNegationsIn := by
    rw [List.map_map]
    exact List.map_congr_left fun x hx => pushNegationsIn_of_nnf (nnf_push (hxs x hx)).1
  rw [instantiateDefault, instantiateDefault, pushNegationsIn, pushNegationsIn, pushAll_eq,
    pushAll_eq, hagain]

theorem stateVectorString_returns {sv : List StateVariable} {s : List ℕ}
    (hs : Below (dimensions sv) s) : ∃ name, stateVectorString sv s = .ok name := by
  have hnames : ∃ names, (sv.zip s).mapM valueName = .ok names := by
    apply Loop.mapM_total
    induction sv generalizing s with
    | nil => simp
    | cons v vs ih =>
      obtain ⟨i, t, hi, ht, rfl⟩ := List.forall₂_cons_left_iff.mp hs
      rw [List.zip_cons_cons, List.forall_mem_cons]
      refine ⟨?_, ih ht⟩
      rw [StateVariable.dimension] at hi
      cases hv : v.values with
      | none =>
        rw [hv] at hi
        exact absurd hi (Nat.not_lt_zero i)
      | some values =>
        rw [hv] at hi
        rw [valueName, hv, Option.bind_some, List.getElem?_eq_getElem hi]
        exact ⟨_, rfl⟩
  obtain ⟨names, hnames⟩ := hnames
  exact ⟨" ".intercalate names, by rw [stateVectorString, hnames]; rfl⟩

end StateSpace

/-- The transition is taken when the clauses do not all hold. -/
def DefaultTransition.enabled (d : DefaultTransition) (v : Equality → Bool) : Bool :=
  !clausesHold v d.clauses

namespace NominalTransition

/-- The guard as the clauses have it: a constant left in it counts as false. -/
def read (t : NominalTransition c) (v : Equality → Bool) : Bool :=
  t.expandedAndInstantiatedExpression.reading (fun _ => false) v true

def guard (t : NominalTransition c) (v : Equality → Bool) : Bool := t.expression.eval (c.value v)

theorem expanded (t : NominalTransition c) : LogicExpression.Expanded t.expandedAndInstantiatedExpression := by
  rw [LogicExpression.expandAndInstantiate_ok t.instantiated]
  exact LogicExpression.expanded_folded _

end NominalTransition

namespace StateSpace

open Odometer LogicExpression

def Made (sv : List StateVariable) (ts : List (NominalTransition c)) (s : List ℕ)
    (d : DefaultTransition) : Prop :=
  stateVectorString sv s = .ok d.fromState ∧ d.toState = d.fromState ∧
    ∀ v, d.enabled v = !ts.any fun t => t.stored sv s && t.read v

/-- No transition stored for the state goes without a condition. -/
def conditional (sv : List StateVariable) (ts : List (NominalTransition c)) (s : List ℕ) : Bool :=
  !ts.any fun t => t.stored sv s && t.unconditional

theorem frameAxiom_spec {space : StateSpace} {ts : List (NominalTransition c)}
    (h : space.Holds (entry space.stateVector ts)) {s : List ℕ}
    (hs : Below (dimensions space.stateVector) s) :
    ∃ n, ∀ fuel ≥ n, ∃ r, space.frameAxiom fuel s = .ok r ∧
      (r.isSome = conditional space.stateVector ts s) ∧ ∀ d ∈ r, Made space.stateVector ts s d := by
  unfold frameAxiom
  rw [h.getConstraints hs, entry]
  simp only [conditional]
  cases hany : ts.any fun t => t.stored space.stateVector s && t.unconditional with
  | true => exact ⟨0, fun fuel _ => ⟨none, rfl, rfl, fun d hd => absurd hd (by simp)⟩⟩
  | false =>
    obtain ⟨name, hname⟩ := stateVectorString_returns hs
    have hguards : ∀ x ∈ (ts.filter fun t => t.stored space.stateVector s).map
        NominalTransition.expandedAndInstantiatedExpression, Expanded x := by
      rw [List.forall_mem_map]
      exact fun t _ => t.expanded
    obtain ⟨n, hn⟩ := instantiateDefault_spec hguards
    refine ⟨n, fun fuel hfuel => ?_⟩
    obtain ⟨clauses, hrun, hclauses⟩ := hn fuel hfuel
    refine ⟨some ⟨name, name, clauses⟩, ?_, rfl, fun d hd => ?_⟩
    · simp [bind, Except.bind, pure, Except.pure, hname, hrun]
    · cases hd
      refine ⟨hname, rfl, fun v => ?_⟩
      rw [DefaultTransition.enabled, hclauses v, List.any_map, List.any_filter]
      rfl

theorem reduceOption_forall₂ {α β : Type} {l : List α} {rs : List (Option β)} {p : α → Bool}
    {R : α → β → Prop}
    (h : List.Forall₂ (fun a r => r.isSome = p a ∧ ∀ b ∈ r, R a b) l rs) :
    List.Forall₂ R (l.filter p) rs.reduceOption := by
  induction h with
  | nil => exact List.Forall₂.nil
  | @cons a r l rs har _ ih =>
    cases r with
    | none =>
      rw [List.filter_cons_of_neg (by simp [← har.1]), List.reduceOption_cons_of_none]
      exact ih
    | some b =>
      rw [List.filter_cons_of_pos har.1.symm, List.reduceOption_cons_of_some]
      exact List.Forall₂.cons (har.2 b rfl) ih

/-- A space whose array holds what is stored for each state gives a frame axiom for each state in
which no transition stored goes without a condition. -/
theorem addFrameAxioms_spec {space : StateSpace} {ts : List (NominalTransition c)}
    (hpos : ∀ d ∈ dimensions space.stateVector, 0 < d)
    (h : space.Holds (entry space.stateVector ts)) :
    ∃ n, ∀ fuel ≥ n, ∃ ds, space.addFrameAxioms fuel = .ok ds ∧
      List.Forall₂ (Made space.stateVector ts)
        ((vectors (dimensions space.stateVector)).filter (conditional space.stateVector ts)) ds := by
  obtain ⟨n, hn⟩ := exists_fuel (l := vectors (dimensions space.stateVector)) fun s hs =>
    frameAxiom_spec h (mem_vectors.mp hs)
  refine ⟨n, fun fuel hfuel => ?_⟩
  have hall := hn fuel hfuel
  obtain ⟨rs, hrs⟩ := Loop.mapM_total fun s hs => (hall s hs).imp fun r hr => hr.1
  refine ⟨rs.reduceOption, ?_, ?_⟩
  · unfold addFrameAxioms
    simp only [visits_eq hpos (Nat.le_succ (dimensions space.stateVector).prod), bind, Except.bind,
      hrs]
    rfl
  · apply reduceOption_forall₂
    have hforall := Loop.mapM_forall₂ hrs
    refine List.Forall₂.imp ?_ ((List.forall₂_and_left _ _).mpr ⟨fun s hs => hs, hforall⟩)
    intro s r ⟨hs, hr⟩
    obtain ⟨r', hr', hmade⟩ := hall s hs
    obtain rfl := Except.ok.inj (hr'.symm.trans hr)
    exact hmade

end StateSpace

/-- The default transition stays in the state, and is enabled exactly when no transition that
applies in the state has its guard true. -/
def IsFrameAxiom (sv : List StateVariable) (ts : List (NominalTransition c)) (s : List ℕ)
    (d : DefaultTransition) : Prop :=
  StateSpace.stateVectorString sv s = .ok d.fromState ∧ d.toState = d.fromState ∧
    ∀ v, d.enabled v = !ts.any fun t => t.applies sv s && t.guard v

/-- No transition that applies in the state goes without a condition. -/
def needsFrame (sv : List StateVariable) (ts : List (NominalTransition c)) (s : List ℕ) : Bool :=
  !ts.any fun t => t.applies sv s && t.unconditional

/-- From some depth of recursion on the frame axioms are made, one for each state in which every
transition that applies has a condition. -/
def FrameAxiomsRight (sv : List StateVariable) (levels : List (List (NominalTransition c))) : Prop :=
  ∃ n, ∀ fuel ≥ n, ∃ ds, instantiateFrameAxioms fuel sv levels = .ok ds ∧
    List.Forall₂ (IsFrameAxiom sv levels.flatten)
      ((Odometer.vectors (StateSpace.dimensions sv)).filter (needsFrame sv levels.flatten)) ds

/-- The transitions stored for a state speak for those that apply in it: one of them goes without
a condition when one of those does, and else one of their guards, with the constants left in it
counted as false, holds when one of those guards does. -/
def StoredSpeak (sv : List StateVariable) (ts : List (NominalTransition c)) (s : List ℕ) : Prop :=
  (∀ t ∈ ts, t.applies sv s = true → t.unconditional = true →
    ∃ u ∈ ts, u.stored sv s = true ∧ u.unconditional = true) ∧
  ((∀ t ∈ ts, t.applies sv s = true → t.unconditional = false) →
    ∀ v, ∀ t ∈ ts, t.applies sv s = true → t.guard v = true →
      ∃ u ∈ ts, u.stored sv s = true ∧ u.read v = true)

namespace LogicExpression

theorem eval_of_reading {v : Equality → Bool} {b : Bool} {x : LogicExpression}
    (h : x.reading (fun _ => false) v b = true) : x.eval v = b := by
  induction x generalizing b with
  | equality e => cases b <;> simpa [reading, eval] using h
  | trueExpression => cases h
  | falseExpression => cases h
  | andExpression xs ih =>
    cases b with
    | true =>
      rw [reading, readingAll_eq, List.all_eq_true] at h
      rw [eval, evalAll_eq, List.all_eq_true]
      exact fun x hx => ih x hx (h x hx)
    | false =>
      rw [reading, readingAny_eq, List.any_eq_true] at h
      obtain ⟨x, hx, hread⟩ := h
      rw [eval, evalAll_eq, List.all_eq_false]
      exact ⟨x, hx, by simp [ih x hx hread]⟩
  | orExpression xs ih =>
    cases b with
    | true =>
      rw [reading, readingAny_eq, List.any_eq_true] at h
      obtain ⟨x, hx, hread⟩ := h
      rw [eval, evalAny_eq, List.any_eq_true]
      exact ⟨x, hx, ih x hx hread⟩
    | false =>
      rw [reading, readingAll_eq, List.all_eq_true] at h
      rw [eval, evalAny_eq, List.any_eq_false]
      exact fun x hx => by simp [ih x hx (h x hx)]
  | notExpression x ih =>
    rw [eval, ih (b := !b) h, Bool.not_not]

end LogicExpression

namespace NominalTransition

variable {sv : List StateVariable} {s : List ℕ}

theorem guard_of_read {t : NominalTransition c} {v : Equality → Bool} (h : t.read v = true) :
    t.guard v = true := by
  have heval := LogicExpression.eval_of_reading h
  rwa [LogicExpression.expandAndInstantiate_ok t.instantiated, LogicExpression.eval_folded] at heval

theorem matchesFrom_of_storesAt {fromStates : List String} {indices : List (Option ℕ)}
    (hrun : StateSpace.fromIndices sv fromStates = .ok indices)
    (h : StateSpace.storesAt indices s = true) : matchesFrom sv fromStates s = true := by
  induction sv generalizing fromStates indices s with
  | nil => cases fromStates <;> rfl
  | cons v vs ih =>
    cases fromStates with
    | nil => rfl
    | cons f fs =>
      cases s with
      | nil => rfl
      | cons i is =>
        rw [StateSpace.fromIndices] at hrun
        rw [matchesFrom]
        split_ifs at hrun with hwild
        · obtain ⟨rest, hrest, hrun⟩ := Loop.bind_eq_ok hrun
          obtain rfl := Except.ok.inj hrun
          have hstores : StateSpace.storesAt rest is = true := by
            simpa [StateSpace.storesAt] using h
          rw [ih hrest hstores, hwild]
          rfl
        · split at hrun
          · cases hrun
          · next values hvalues =>
            split at hrun
            · cases hrun
            · next k hk =>
              obtain ⟨rest, hrest, hrun⟩ := Loop.bind_eq_ok hrun
              obtain rfl := Except.ok.inj hrun
              have hstores : k = i ∧ StateSpace.storesAt rest is = true := by
                simpa [StateSpace.storesAt] using h
              obtain ⟨rfl, hstores⟩ := hstores
              simp [ih hrest hstores, hvalues, StateSpace.valueNum_mem hk]

theorem applies_of_stored {t : NominalTransition c} (h : t.stored sv s = true) :
    t.applies sv s = true := by
  rw [stored] at h
  split at h
  · next indices hrun => exact matchesFrom_of_storesAt hrun h
  · cases h

end NominalTransition

namespace StateSpace

open Odometer

variable {sv : List StateVariable} {ts : List (NominalTransition c)} {s : List ℕ}

theorem conditional_of_needsFrame (h : needsFrame sv ts s = true) : conditional sv ts s = true := by
  rw [needsFrame, Bool.not_eq_true', List.any_eq_false] at h
  rw [conditional, Bool.not_eq_true', List.any_eq_false]
  intro t ht hboth
  rw [Bool.and_eq_true] at hboth
  apply h t ht
  rw [Bool.and_eq_true]
  exact ⟨NominalTransition.applies_of_stored hboth.1, hboth.2⟩

/-- What the code makes is right for a state exactly when the transitions stored for it speak for
all. -/
theorem storedSpeak_iff : StoredSpeak sv ts s ↔
    (conditional sv ts s = true → needsFrame sv ts s = true) ∧
      (needsFrame sv ts s = true → ∀ v, (ts.any fun t => t.stored sv s && t.read v) =
        ts.any fun t => t.applies sv s && t.guard v) := by
  have hneeds : needsFrame sv ts s = true ↔
      ∀ t ∈ ts, t.applies sv s = true → t.unconditional = false := by
    simp [needsFrame]
  have hle : ∀ v, (ts.any fun t => t.stored sv s && t.read v) = true →
      (ts.any fun t => t.applies sv s && t.guard v) = true := by
    intro v
    simp only [List.any_eq_true, Bool.and_eq_true]
    intro ⟨t, ht, hstored, hread⟩
    exact ⟨t, ht, NominalTransition.applies_of_stored hstored, NominalTransition.guard_of_read hread⟩
  constructor
  · intro ⟨hunconditional, hguards⟩
    refine ⟨fun hcond => ?_, fun hneed v => ?_⟩
    · rw [hneeds]
      intro t ht happlies
      rw [Bool.eq_false_iff]
      intro hu
      obtain ⟨u, hmem, hstored, hu⟩ := hunconditional t ht happlies hu
      rw [conditional, Bool.not_eq_true', List.any_eq_false] at hcond
      exact hcond u hmem (by rw [hstored, hu]; rfl)
    · rw [Bool.eq_iff_iff]
      refine ⟨hle v, ?_⟩
      simp only [List.any_eq_true, Bool.and_eq_true]
      intro ⟨t, ht, happlies, hguard⟩
      exact hguards (hneeds.mp hneed) v t ht happlies hguard
  · intro ⟨hcond, hguards⟩
    refine ⟨fun t ht happlies hu => ?_, fun hnone v t ht happlies hguard => ?_⟩
    · by_contra hnot
      have hconditional : conditional sv ts s = true := by
        rw [conditional, Bool.not_eq_true', List.any_eq_false]
        intro u hmem hboth
        rw [Bool.and_eq_true] at hboth
        exact hnot ⟨u, hmem, hboth⟩
      rw [hneeds.mp (hcond hconditional) t ht happlies] at hu
      cases hu
    · have hany : (ts.any fun t => t.applies sv s && t.guard v) = true :=
        List.any_eq_true.mpr ⟨t, ht, by rw [happlies, hguard]; rfl⟩
      rw [← hguards (hneeds.mpr hnone) v, List.any_eq_true] at hany
      simpa using hany

theorem initializeConstraints_ok {ds : List ℕ} {constraints : List (Option (List LogicExpression))}
    (h : initializeConstraints ds = .ok constraints) :
    ∃ n, ds = [n] ∧ constraints = List.replicate n (some []) := by
  unfold initializeConstraints at h
  split at h
  · cases h
  · next n => exact ⟨n, rfl, (Except.ok.inj h).symm⟩
  · split_ifs at h

theorem cacheTransitions_flatten (space : StateSpace) (levels : List (List (NominalTransition c))) :
    cacheTransitions space levels = levels.flatten.foldlM cacheTransition space := by
  rw [cacheTransitions]
  induction levels generalizing space with
  | nil => rfl
  | cons ts levels ih =>
    rw [List.flatten_cons, List.foldlM_append, List.foldlM_cons]
    congr 1
    funext space'
    exact ih space'

/-- A space that starts with the empty array of a single variable holds what is stored. -/
theorem create_holds {v : StateVariable} (hpos : 0 < v.dimension)
    {levels : List (List (NominalTransition c))}
    (hvalid : ∀ t ∈ levels.flatten, ∃ indices, fromIndices [v] t.fromStates = .ok indices) :
    ∃ space, create [v] levels = .ok space ∧ space.stateVector = [v] ∧
      space.Holds (entry [v] levels.flatten) := by
  have hstart : Holds ⟨[v], List.replicate v.dimension (some [])⟩
      (entry [v] ([] : List (NominalTransition c))) := by
    intro s hs
    have hrank := rank_lt hs
    rw [dimensions, List.map_singleton, List.prod_singleton] at hrank
    simp [entry, dimensions, hrank]
  have hdims : ∀ d ∈ dimensions [v], 0 < d := by simpa [dimensions] using hpos
  obtain ⟨space, hrun, hvector, hholds⟩ := cacheTransitions_holds hdims rfl hstart hvalid
  refine ⟨space, ?_, hvector, hholds⟩
  rw [create, dimensions, List.map_singleton, initializeConstraints]
  simp only [bind, Except.bind]
  rw [cacheTransitions_flatten, hrun]

/-- Neither the state vector nor the size of the array changes. -/
def SameShape (space space' : StateSpace) : Prop :=
  space'.stateVector = space.stateVector ∧ space'.constraints.length = space.constraints.length

theorem addConstraint_sameShape {x : LogicExpression} {space space' : StateSpace} {s : List ℕ}
    (h : addConstraint x space s = .ok space') : SameShape space space' := by
  unfold addConstraint at h
  obtain ⟨r, -, h⟩ := Loop.bind_eq_ok h
  cases r with
  | none =>
    obtain rfl := Except.ok.inj h
    exact ⟨rfl, rfl⟩
  | some xs =>
    cases x <;> rw [← Except.ok.inj h] <;> exact ⟨rfl, List.length_set⟩

theorem fromIndices_of_cacheTransition {space space' : StateSpace} {t : NominalTransition c}
    (h : space.cacheTransition t = .ok space') : SameShape space space' ∧
      ∃ indices, fromIndices space.stateVector t.fromStates = .ok indices := by
  unfold cacheTransition at h
  obtain ⟨indices, hindices, h⟩ := Loop.bind_eq_ok h
  refine ⟨?_, indices, hindices⟩
  refine Loop.foldlM_inv (SameShape space) _ (fun is _ sp sp' hsp hrun => ?_) ⟨rfl, rfl⟩ h
  have hshape := addConstraint_sameShape hrun
  exact ⟨hshape.1.trans hsp.1, hshape.2.trans hsp.2⟩

theorem fromIndices_of_cacheTransitions {ts : List (NominalTransition c)} {space space' : StateSpace}
    (h : ts.foldlM cacheTransition space = .ok space') : SameShape space space' ∧
      ∀ t ∈ ts, ∃ indices, fromIndices space.stateVector t.fromStates = .ok indices := by
  induction ts generalizing space with
  | nil =>
    obtain rfl := Except.ok.inj h
    exact ⟨⟨rfl, rfl⟩, fun t ht => absurd ht List.not_mem_nil⟩
  | cons t ts ih =>
    rw [List.foldlM_cons] at h
    obtain ⟨space₁, hrun, h⟩ := Loop.bind_eq_ok h
    obtain ⟨hshape, hindices⟩ := fromIndices_of_cacheTransition hrun
    obtain ⟨hshape', hrest⟩ := ih h
    rw [List.forall_mem_cons]
    rw [hshape.1] at hrest
    exact ⟨⟨hshape'.1.trans hshape.1, hshape'.2.trans hshape.2⟩, hindices, hrest⟩

theorem of_instantiateFrameAxioms {fuel : ℕ} {sv : List StateVariable}
    {levels : List (List (NominalTransition c))} {ds : List DefaultTransition}
    (h : instantiateFrameAxioms fuel sv levels = .ok ds) :
    (∃ v, sv = [v] ∧ 0 < v.dimension) ∧
      ∀ t ∈ levels.flatten, ∃ indices, fromIndices sv t.fromStates = .ok indices := by
  obtain ⟨space, hcreate, hadd⟩ := Loop.bind_eq_ok h
  obtain ⟨constraints, hinit, hcache⟩ := Loop.bind_eq_ok hcreate
  rw [cacheTransitions_flatten] at hcache
  obtain ⟨n, hdims, rfl⟩ := initializeConstraints_ok hinit
  obtain ⟨⟨hvector, hlength⟩, hvalid⟩ := fromIndices_of_cacheTransitions hcache
  refine ⟨?_, hvalid⟩
  obtain ⟨v, rfl, rfl⟩ := List.map_eq_singleton_iff.mp hdims
  refine ⟨v, rfl, Nat.pos_of_ne_zero fun hzero => ?_⟩
  -- Without a value the first state that is visited is outside the array.
  obtain ⟨transitions, hmap, -⟩ := Loop.bind_eq_ok hadd
  rw [hvector, hdims, hzero] at hmap
  rw [hzero, List.length_replicate] at hlength
  have hnil := List.eq_nil_of_length_eq_zero hlength
  obtain ⟨r, -, hframe, -, -⟩ := List.forall₂_cons_left_iff.mp (Loop.mapM_forall₂ hmap)
  obtain ⟨r', hget, -⟩ := Loop.bind_eq_ok hframe
  simp [getConstraints, hnil] at hget

end StateSpace

theorem forall₂_pair {α β : Type} {R R' : α → β → Prop} {l : List α} {bs : List β}
    (h : List.Forall₂ R l bs) (h' : List.Forall₂ R' l bs) {a : α} (ha : a ∈ l) :
    ∃ b, R a b ∧ R' a b := by
  induction h with
  | nil => cases ha
  | cons hab _ ih =>
    cases h' with
    | cons hab' htail =>
      cases ha with
      | head => exact ⟨_, hab, hab'⟩
      | tail _ ha => exact ih htail ha

open StateSpace in
/-- The frame axioms are right exactly for a single state variable with a value, from-states that
name values, and in each state transitions stored that speak for all that apply. -/
theorem frameAxiomsRight_iff (sv : List StateVariable) (levels : List (List (NominalTransition c))) :
    FrameAxiomsRight sv levels ↔ (∃ v, sv = [v] ∧ 0 < v.dimension) ∧
      (∀ t ∈ levels.flatten, ∃ indices, fromIndices sv t.fromStates = .ok indices) ∧
      ∀ s ∈ Odometer.vectors (dimensions sv), StoredSpeak sv levels.flatten s := by
  have hmade : (∃ v, sv = [v] ∧ 0 < v.dimension) →
      (∀ t ∈ levels.flatten, ∃ indices, fromIndices sv t.fromStates = .ok indices) →
      ∃ n, ∀ fuel ≥ n, ∃ ds, instantiateFrameAxioms fuel sv levels = .ok ds ∧
        List.Forall₂ (Made sv levels.flatten)
          ((Odometer.vectors (dimensions sv)).filter (conditional sv levels.flatten)) ds := by
    intro ⟨v, hv, hpos⟩ hvalid
    subst hv
    obtain ⟨space, hcreate, hvector, hholds⟩ := create_holds hpos hvalid
    have hdims : ∀ d ∈ dimensions space.stateVector, 0 < d := by
      simpa [hvector, dimensions] using hpos
    obtain ⟨n, hn⟩ := addFrameAxioms_spec hdims (by rw [hvector]; exact hholds)
    refine ⟨n, fun fuel hfuel => ?_⟩
    obtain ⟨ds, hrun, hds⟩ := hn fuel hfuel
    rw [hvector] at hds
    refine ⟨ds, ?_, hds⟩
    rw [instantiateFrameAxioms, hcreate]
    exact hrun
  constructor
  · intro ⟨n, hright⟩
    obtain ⟨ds₀, hrun₀, -⟩ := hright n le_rfl
    obtain ⟨hsingle, hvalid⟩ := of_instantiateFrameAxioms hrun₀
    obtain ⟨m, hm⟩ := hmade hsingle hvalid
    obtain ⟨ds, hrun, haxioms⟩ := hright (max n m) (by omega)
    obtain ⟨ds', hrun', hds⟩ := hm (max n m) (by omega)
    obtain rfl := Except.ok.inj (hrun.symm.trans hrun')
    -- The states that need a frame are among those that get one, and as many.
    have hfilters : (Odometer.vectors (dimensions sv)).filter (needsFrame sv levels.flatten) =
        (Odometer.vectors (dimensions sv)).filter (conditional sv levels.flatten) :=
      (List.monotone_filter_right _ fun s => conditional_of_needsFrame).eq_of_length
        (haxioms.length_eq.trans hds.length_eq.symm)
    refine ⟨hsingle, hvalid, fun s hs => storedSpeak_iff.mpr ⟨fun hcond => ?_, fun hneed v => ?_⟩⟩
    · have hmem := List.mem_filter.mpr ⟨hs, hcond⟩
      rw [← hfilters] at hmem
      exact (List.mem_filter.mp hmem).2
    · rw [← hfilters] at hds
      obtain ⟨d, hframe, hd⟩ := forall₂_pair haxioms hds (List.mem_filter.mpr ⟨hs, hneed⟩)
      exact Bool.not_inj ((hd.2.2 v).symm.trans (hframe.2.2 v))
  · intro ⟨hsingle, hvalid, hspeak⟩
    obtain ⟨n, hn⟩ := hmade hsingle hvalid
    refine ⟨n, fun fuel hfuel => ?_⟩
    obtain ⟨ds, hrun, hds⟩ := hn fuel hfuel
    refine ⟨ds, hrun, ?_⟩
    have hfilters : (Odometer.vectors (dimensions sv)).filter (needsFrame sv levels.flatten) =
        (Odometer.vectors (dimensions sv)).filter (conditional sv levels.flatten) :=
      List.filter_congr fun s hs => Bool.eq_iff_iff.mpr
        ⟨conditional_of_needsFrame, (storedSpeak_iff.mp (hspeak s hs)).1⟩
    rw [hfilters]
    refine List.Forall₂.imp ?_ ((List.forall₂_and_left _ _).mpr ⟨fun s hs => hs, hds⟩)
    intro s d ⟨hs, hname, hto, henabled⟩
    rw [← hfilters, List.mem_filter] at hs
    refine ⟨hname, hto, fun v => ?_⟩
    rw [henabled v, (storedSpeak_iff.mp (hspeak s hs.1)).2 hs.2 v]

namespace NominalTransition

theorem valueNum_eq {values : List String} (hvalues : values.Nodup) {name : String} {i k : ℕ}
    (hi : values[i]? = some name) (hk : StateSpace.valueNum values name = some k) : k = i := by
  obtain ⟨hlt, hname⟩ := List.getElem?_eq_some_iff.mp hi
  obtain ⟨hlt', hname'⟩ := List.getElem?_eq_some_iff.mp (StateSpace.valueNum_mem hk)
  exact (List.Nodup.getElem_inj_iff hvalues).mp (hname'.trans hname.symm)

theorem storesAt_of_matchesFrom {sv : List StateVariable}
    (hvalues : ∀ v ∈ sv, ∀ values ∈ v.values, values.Nodup) {s : List ℕ} {fromStates : List String}
    (hall : sv.length ≤ fromStates.length) {indices : List (Option ℕ)}
    (hrun : StateSpace.fromIndices sv fromStates = .ok indices)
    (h : matchesFrom sv fromStates s = true) : StateSpace.storesAt indices s = true := by
  induction sv generalizing fromStates indices s with
  | nil =>
    rw [StateSpace.fromIndices] at hrun
    rw [← Except.ok.inj hrun]
    rfl
  | cons v vs ih =>
    rw [List.forall_mem_cons] at hvalues
    cases fromStates with
    | nil => simp at hall
    | cons f fs =>
      cases s with
      | nil => simp [StateSpace.storesAt]
      | cons i is =>
        rw [StateSpace.fromIndices] at hrun
        rw [matchesFrom, Bool.and_eq_true] at h
        have hlength : vs.length ≤ fs.length := Nat.le_of_succ_le_succ hall
        split_ifs at hrun with hwild
        · obtain ⟨rest, hrest, hrun⟩ := Loop.bind_eq_ok hrun
          obtain rfl := Except.ok.inj hrun
          simpa [StateSpace.storesAt] using ih hvalues.2 hlength hrest h.2
        · split at hrun
          · cases hrun
          · next values hv =>
            split at hrun
            · cases hrun
            · next k hk =>
              obtain ⟨rest, hrest, hrun⟩ := Loop.bind_eq_ok hrun
              obtain rfl := Except.ok.inj hrun
              have hname : values[i]? = some f := by simpa [hwild, hv] using h.1
              have hki := valueNum_eq (hvalues.1 values hv) hname hk
              simpa [StateSpace.storesAt, hki] using ih hvalues.2 hlength hrest h.2

end NominalTransition

/-- From-states for all variables, and no constant in a guard that is no constant itself, are
enough for the transitions stored to speak for all. -/
theorem storedSpeak_of_named {sv : List StateVariable} {ts : List (NominalTransition c)}
    (hvalues : ∀ v ∈ sv, ∀ values ∈ v.values, values.Nodup)
    (hvalid : ∀ t ∈ ts, ∃ indices, StateSpace.fromIndices sv t.fromStates = .ok indices)
    (hnamed : ∀ t ∈ ts, sv.length ≤ t.fromStates.length)
    (hguards : ∀ t ∈ ts, t.expandedAndInstantiatedExpression.isConstant = true ∨
      LogicExpression.ConstantFree t.expandedAndInstantiatedExpression) (s : List ℕ) :
    StoredSpeak sv ts s := by
  have hstored : ∀ t ∈ ts, t.applies sv s = true → t.stored sv s = true := by
    intro t ht happlies
    obtain ⟨indices, hindices⟩ := hvalid t ht
    rw [NominalTransition.stored, hindices]
    exact NominalTransition.storesAt_of_matchesFrom hvalues (hnamed t ht) hindices happlies
  refine ⟨fun t ht happlies hu => ⟨t, ht, hstored t ht happlies, hu⟩, ?_⟩
  intro hnone v t ht happlies hguard
  refine ⟨t, ht, hstored t ht happlies, ?_⟩
  have heval : t.expandedAndInstantiatedExpression.eval v = true := by
    rw [LogicExpression.expandAndInstantiate_ok t.instantiated, LogicExpression.eval_folded]
    exact hguard
  have hcond := hnone t ht happlies
  rw [NominalTransition.unconditional] at hcond
  rw [NominalTransition.read]
  cases hguards t ht with
  | inr hfree => rw [hfree.reading, heval]; rfl
  | inl hconst => cases hx : t.expandedAndInstantiatedExpression <;> simp_all [LogicExpression.isTrue,
      LogicExpression.isConstant, LogicExpression.eval]

/-- With two state variables there is no state space. -/
theorem not_frameAxiomsRight : ¬ FrameAxiomsRight
    [⟨"valve", some ["open", "closed"]⟩, ⟨"power", some ["on", "off"]⟩]
    ([] : List (List (NominalTransition ⟨fun _ => .ok none⟩))) := by
  intro ⟨n, hright⟩
  obtain ⟨ds, hrun, -⟩ := hright n le_rfl
  cases hrun

end Jmpl
end Livingstone
