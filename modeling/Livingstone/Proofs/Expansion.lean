import Livingstone.Readers.Expand
import Livingstone.Tms.Operations

/-! The expansion of a clause into clauses of the engine. The literals gathered for one
comparison are lost when the next one is split, so only the first comparison of a
clause counts. -/

namespace Livingstone.ToTSystem

open Loop

variable {f : L2File} {V : Variables f} {s : Singles} {d : L2rPropVarVar} {a : ℕ → ℕ}

/-- The literals of the clauses that come of a partition with these comparisons, in the
order of their creation. -/
def outcomes (f : L2File) (singles : Singles) : List L2rPropVarVar → Singles → List Singles
  | [], s => [s]
  | d :: tail, _ => (split f singles d).reverse.flatMap (outcomes f singles tail)

theorem foldl_push {α β : Type*} (g : α → β) (l : List α) (stack : List β) :
    l.foldl (fun stack x => g x :: stack) stack = l.reverse.map g ++ stack := by
  induction l generalizing stack with
  | nil => rfl
  | cons x l ih => simp [ih]

theorem sum_turns_push (singles : Singles) (tail : List L2rPropVarVar) (l : List Singles)
    (stack : List Partition) :
    ((l.foldl (fun stack s => ⟨s, tail⟩ :: stack) stack).map fun p =>
      turns f singles p.duals).sum = l.length * turns f singles tail +
        (stack.map fun p => turns f singles p.duals).sum := by
  rw [foldl_push (fun s => Partition.mk s tail)]
  simp [Function.comp_def]

/-- The stack is worked off with the fuel it is given, and the clauses are those of its
partitions. -/
theorem expand_loop {singles : Singles} {n : ℕ} {stack : List Partition} {out : List Clause}
    (ht : ∀ p ∈ stack, ∀ d ∈ p.duals, f.type d.var = f.type d.otherVar)
    (hn : (stack.map fun p => turns f singles p.duals).sum < n) :
    whileM .outOfFuel (expandTurn V singles) n (stack, out) =
      ((stack.flatMap fun p => outcomes f singles p.duals p.singles).mapM
        fun s => createConstraint V s.1 s.2) >>= fun ks => pure (out ++ ks) := by
  induction n generalizing stack out with
  | zero => omega
  | succ n ih =>
    cases stack with
    | nil =>
      rw [whileM_inr (r := out) _ _ rfl]
      simp [bind, Except.bind, pure, Except.pure]
    | cons p stack =>
      have hstack : ∀ q ∈ stack, ∀ d ∈ q.duals, f.type d.var = f.type d.otherVar :=
        fun q hq => ht q (List.mem_cons_of_mem p hq)
      simp only [List.map_cons, List.sum_cons] at hn
      rw [List.flatMap_cons]
      cases hd : p.duals with
      | nil =>
        rw [hd] at hn
        simp only [turns] at hn
        simp only [outcomes, List.singleton_append, List.mapM_cons]
        cases hk : createConstraint V p.singles.1 p.singles.2 with
        | error e =>
          simp only [whileM, expandTurn, hd, hk, bind, Except.bind]
        | ok k =>
          have hturn : expandTurn V singles (p :: stack, out) = .ok (.inl (stack, out ++ [k])) := by
            simp only [expandTurn, hd, hk, bind, Except.bind, pure, Except.pure]
          rw [whileM_inl _ _ hturn, ih hstack (by omega)]
          cases (stack.flatMap fun p => outcomes f singles p.duals p.singles).mapM
            fun s => createConstraint V s.1 s.2 with
          | error e => rfl
          | ok ks => simp [bind, Except.bind, pure, Except.pure]
      | cons d tail =>
        have htail : ∀ e ∈ d :: tail, f.type e.var = f.type e.otherVar :=
          hd ▸ ht p List.mem_cons_self
        have hturn : expandTurn V singles (p :: stack, out) =
            .ok (.inl ((split f singles d).foldl (fun stack s => ⟨s, tail⟩ :: stack) stack,
              out)) := by
          simp only [expandTurn, hd, htail d List.mem_cons_self, if_true]
        rw [hd] at hn
        simp only [turns] at hn
        rw [whileM_inl _ _ hturn, ih ?_ (by rw [sum_turns_push]; omega)]
        · rw [foldl_push (fun s => Partition.mk s tail), List.flatMap_append, List.flatMap_map]
          rfl
        · rw [foldl_push (fun s => Partition.mk s tail)]
          intro q hq
          rcases List.mem_append.mp hq with hq | hq
          · obtain ⟨s, -, rfl⟩ := List.mem_map.mp hq
            exact fun e he => htail e (List.mem_cons_of_mem d he)
          · exact hstack q hq

theorem expandClauseEquality_eq (V : Variables f) {equality : List L2rPropVarVar} (s : Singles)
    (ht : ∀ d ∈ equality, f.type d.var = f.type d.otherVar) :
    expandClauseEquality V equality s =
      (outcomes f s equality s).mapM fun s => createConstraint V s.1 s.2 := by
  unfold expandClauseEquality
  rw [expand_loop (by simpa using ht) (by simp)]
  simp only [List.flatMap_cons, List.flatMap_nil, List.append_nil, List.nil_append]
  cases (outcomes f s equality s).mapM fun s => createConstraint V s.1 s.2 <;> rfl

theorem mem_split {singles s' : Singles} : s' ∈ split f singles d ↔ ∃ j < f.nmembers d.var,
    (d.positive = true ∧
      (s' = (singles.1 ++ [(d.otherVar, j)], singles.2 ++ [(d.var, j)]) ∨
        s' = (singles.1 ++ [(d.var, j)], singles.2 ++ [(d.otherVar, j)]))) ∨
    (d.positive = false ∧ s' = (singles.1, singles.2 ++ [(d.var, j)] ++ [(d.otherVar, j)])) := by
  unfold split
  simp only [List.mem_flatMap, List.mem_range]
  constructor
  · intro ⟨i, hi, hs⟩
    refine ⟨f.nmembers d.var - i - 1, by omega, ?_⟩
    cases hp : d.positive with
    | true => simpa [hp] using hs
    | false => simpa [hp] using hs
  · intro ⟨j, hj, hs⟩
    refine ⟨f.nmembers d.var - j - 1, by omega, ?_⟩
    have hjj : f.nmembers d.var - (f.nmembers d.var - j - 1) - 1 = j := by omega
    rw [hjj]
    rcases hs with ⟨hp, hs⟩ | ⟨hp, hs⟩
    · simpa [hp] using hs
    · simpa [hp] using hs

/-- Only the last comparison is split into the result; the others repeat it, as long as
there are values to repeat it for. -/
theorem mem_outcomes {singles s' : Singles} (ds : List L2rPropVarVar) (d : L2rPropVarVar)
    (s : Singles) : s' ∈ outcomes f singles (ds ++ [d]) s ↔
      (∀ e ∈ ds, 0 < f.nmembers e.var) ∧ s' ∈ split f singles d := by
  have hpos (e : L2rPropVarVar) : (∃ x, x ∈ split f singles e) ↔ 0 < f.nmembers e.var := by
    simp only [mem_split]
    constructor
    · intro ⟨_, j, hj, _⟩
      omega
    · intro h
      cases hp : e.positive with
      | true => exact ⟨_, 0, h, Or.inl ⟨rfl, Or.inl rfl⟩⟩
      | false => exact ⟨_, 0, h, Or.inr ⟨rfl, rfl⟩⟩
  induction ds generalizing s with
  | nil => simp [outcomes]
  | cons e ds ih =>
    simp only [List.cons_append, outcomes, List.mem_flatMap, List.mem_reverse, ih,
      List.forall_mem_cons, ← hpos e]
    tauto

/-- The clause with these literals holds under `a`. -/
def HoldsFor (a : ℕ → ℕ) (s : Singles) : Prop :=
  (∃ x ∈ s.1, a x.1 = x.2) ∨ ∃ x ∈ s.2, a x.1 ≠ x.2

theorem holdsFor_append {P N : List ProtoAssignment} :
    HoldsFor a (s.1 ++ P, s.2 ++ N) ↔ HoldsFor a s ∨ HoldsFor a (P, N) := by
  simp only [HoldsFor, List.mem_append, or_and_right, exists_or]
  exact or_or_or_comm

theorem holdsFor_split (hv : a d.var < f.nmembers d.var) :
    (∀ s' ∈ split f s d, HoldsFor a s') ↔ HoldsFor a s ∨ (L2rProposition.varVar d).Holds a := by
  simp only [mem_split, L2rProposition.Holds]
  cases hp : d.positive with
  | true =>
    simp only [true_and, Bool.true_eq_false, false_and, or_false, iff_true]
    constructor
    · intro h
      have h₁ := h _ ⟨a d.var, hv, Or.inl rfl⟩
      rw [holdsFor_append] at h₁
      refine h₁.imp_right fun h₁ => ?_
      simpa [HoldsFor, eq_comm] using h₁
    · rintro h s' ⟨j, hj, rfl | rfl⟩
      · rw [holdsFor_append]
        refine h.imp_right fun h => ?_
        simp only [HoldsFor, List.mem_singleton, exists_eq_left, h]
        tauto
      · rw [holdsFor_append]
        refine h.imp_right fun h => ?_
        simp only [HoldsFor, List.mem_singleton, exists_eq_left, h]
        tauto
  | false =>
    simp only [Bool.false_eq_true, false_and, true_and, false_or, iff_false]
    have happ (j : ℕ) : HoldsFor a (s.1, s.2 ++ [(d.var, j)] ++ [(d.otherVar, j)]) ↔
        HoldsFor a s ∨ (a d.var ≠ j ∨ a d.otherVar ≠ j) := by
      have := holdsFor_append (a := a) (s := s) (P := []) (N := [(d.var, j), (d.otherVar, j)])
      simp only [List.append_nil] at this
      rw [List.append_assoc]
      refine this.trans (or_congr_right ?_)
      simp [HoldsFor]
    constructor
    · intro h
      have h₁ := h _ ⟨a d.var, hv, rfl⟩
      rw [happ] at h₁
      refine h₁.imp_right fun h₁ he => ?_
      simp [he] at h₁
    · rintro h s' ⟨j, hj, rfl⟩
      rw [happ]
      refine h.imp_right fun h => ?_
      by_contra hn
      push Not at hn
      exact h (hn.1.trans hn.2.symm)

/-- The comparisons of a clause, in its order. -/
def comparisons (f : L2File) (c : L2rClause) : List L2rPropVarVar :=
  (f.clauseProps c).filterMap fun
    | .varVar p => some p
    | .varValue _ => none

def values (f : L2File) (c : L2rClause) : Singles :=
  ((f.clauseProps c).foldl collect ([], [], [])).2

theorem collect_foldl (ps : List L2rProposition) (x : List L2rPropVarVar × Singles) :
    (ps.foldl collect x).1 = (ps.filterMap fun
      | .varVar p => some p
      | .varValue _ => none).reverse ++ x.1 ∧
    ∀ a, HoldsFor a (ps.foldl collect x).2 ↔
      HoldsFor a x.2 ∨ ∃ p, L2rProposition.varValue p ∈ ps ∧ (L2rProposition.varValue p).Holds a := by
  induction ps generalizing x with
  | nil => simp
  | cons q ps ih =>
    rw [List.foldl_cons]
    obtain ⟨h₁, h₂⟩ := ih (collect x q)
    rw [h₁]
    refine ⟨?_, fun a => (h₂ a).trans ?_⟩
    · cases q with
      | varVar p => simp [collect]
      | varValue p => cases hp : p.positive <;> simp [collect, hp]
    · cases q with
      | varVar p => simp [collect]
      | varValue p =>
        simp only [List.mem_cons, L2rProposition.varValue.injEq, or_and_right, exists_or, ← or_assoc]
        refine or_congr_left ?_
        cases hp : p.positive with
        | true =>
          have := holdsFor_append (a := a) (s := x.2) (P := [(p.var, p.value)]) (N := [])
          rw [List.append_nil] at this
          simpa [collect, hp, HoldsFor, L2rProposition.Holds] using this
        | false =>
          have := holdsFor_append (a := a) (s := x.2) (P := []) (N := [(p.var, p.value)])
          rw [List.append_nil] at this
          simpa [collect, hp, HoldsFor, L2rProposition.Holds] using this

theorem expandClause_eq (V : Variables f) {c : L2rClause}
    (ht : ∀ d ∈ comparisons f c, f.type d.var = f.type d.otherVar) :
    expandClause V c = (outcomes f (values f c) (comparisons f c).reverse (values f c)).mapM
      fun s => createConstraint V s.1 s.2 := by
  have hcoll := (collect_foldl (f.clauseProps c) ([], [], [])).1
  rw [List.append_nil] at hcoll
  unfold expandClause
  simp only
  rw [hcoll, ← comparisons, expandClauseEquality_eq]
  · rfl
  · intro d hd
    exact ht d (List.mem_reverse.mp hd)

theorem clauseHolds_iff {c : L2rClause} : f.ClauseHolds a c ↔ HoldsFor a (values f c) ∨
    ∃ d ∈ comparisons f c, (L2rProposition.varVar d).Holds a := by
  have hvals := (collect_foldl (f.clauseProps c) ([], [], [])).2 a
  rw [← values] at hvals
  have hnil : ¬ HoldsFor a (([], []) : Singles) := by simp [HoldsFor]
  rw [hvals, or_iff_right hnil, L2File.ClauseHolds]
  simp only [comparisons, List.mem_filterMap]
  constructor
  · rintro ⟨p | p, hp, hh⟩
    · exact Or.inl ⟨p, hp, hh⟩
    · exact Or.inr ⟨p, ⟨_, hp, rfl⟩, hh⟩
  · rintro (⟨p, hp, hh⟩ | ⟨d, ⟨p, hp, he⟩, hh⟩)
    · exact ⟨_, hp, hh⟩
    · cases p with
      | varValue p => cases he
      | varVar p =>
        obtain rfl := Option.some.inj he
        exact ⟨_, hp, hh⟩

/-- A valuation of the propositions that says what `a` says. -/
def Represents (V : Variables f) (a : ℕ → ℕ) (τ : PropId → Bool) : Prop :=
  ∀ (v x : ℕ) (p : PropId), (V.propositions v)[x]? = some p → (τ p = true ↔ a v = x)

theorem exists_represents (V : Variables f) (a : ℕ → ℕ) : ∃ τ, Represents V a τ := by
  classical
  refine ⟨fun p => decide (∃ v x, (V.propositions v)[x]? = some p ∧ a v = x), fun v x p hp => ?_⟩
  rw [decide_eq_true_iff]
  constructor
  · intro ⟨w, y, hw, hy⟩
    obtain ⟨rfl, rfl⟩ := V.unique v w x y p hp hw
    exact hy
  · intro h
    exact ⟨v, x, hp, h⟩

def HoldsIn (τ : PropId → Bool) (k : Clause) : Prop := ∃ l ∈ k.lits, τ l.1 = l.2

def Small (s : Singles) : Prop := s.1.toFinset.card + s.2.toFinset.card ≤ 127

instance (s : Singles) : Decidable (Small s) := inferInstanceAs (Decidable (_ ≤ _))

/-- Each literal gives a variable one of its values. -/
def InRange (f : L2File) (s : Singles) : Prop := ∀ x ∈ s.1 ++ s.2, x.2 < f.nmembers x.1

def prop (V : Variables f) (x : ProtoAssignment) : PropId := (V.propositions x.1).getD x.2 0

theorem getElem?_prop {x : ProtoAssignment} (hx : x.2 < f.nmembers x.1) :
    (V.propositions x.1)[x.2]? = some (prop V x) := by
  rw [← V.length_eq] at hx
  rw [prop, List.getD_eq_getElem?_getD, List.getElem?_eq_getElem hx, Option.getD_some]

theorem mapM_getProp {xs : List ProtoAssignment} (h : ∀ x ∈ xs, x.2 < f.nmembers x.1) :
    xs.mapM (getProp V) = .ok (xs.map (prop V)) := by
  induction xs with
  | nil => rfl
  | cons x xs ih =>
    have hx : getProp V x = .ok (prop V x) := by
      simp only [getProp, getElem?_prop (h x List.mem_cons_self)]
    rw [List.mapM_cons, hx, ih fun y hy => h y (List.mem_cons_of_mem x hy)]
    rfl

theorem prop_inj {x y : ProtoAssignment} (hx : x.2 < f.nmembers x.1) (hy : y.2 < f.nmembers y.1)
    (h : prop V x = prop V y) : x = y := by
  obtain ⟨h₁, h₂⟩ := V.unique x.1 y.1 x.2 y.2 _ (getElem?_prop hx) (h ▸ getElem?_prop hy)
  exact Prod.ext h₁ h₂

theorem length_eraseDups {α : Type*} [DecidableEq α] (xs : List α) :
    xs.eraseDups.length = xs.toFinset.card := by
  rw [← List.toFinset_card_of_nodup (nodup_eraseDups xs)]
  congr 1
  ext x
  simp [List.mem_eraseDups]

theorem card_props {xs : List ProtoAssignment} (h : ∀ x ∈ xs, x.2 < f.nmembers x.1) :
    (xs.map (prop V)).reverse.eraseDups.length = xs.toFinset.card := by
  have himage : (xs.map (prop V)).toFinset = xs.toFinset.image (prop V) := by
    ext p
    simp
  rw [length_eraseDups, List.toFinset_reverse, himage, Finset.card_image_of_injOn]
  intro x hx y hy he
  exact prop_inj (h x (List.mem_toFinset.mp hx)) (h y (List.mem_toFinset.mp hy)) he

theorem lengthT_lt (n : ℤ) : lengthT n < 128 := by
  have := @Int.bmod_lt n 256 (by decide)
  unfold lengthT
  omega

-- the wrap of a counter is never computed here
attribute [local irreducible] lengthT

theorem numLits_eq_iff (pos neg : List PropId) :
    (Clause.construct none pos neg false).numLits =
      (Clause.construct none pos neg false).literals.length ↔ Fits pos neg := by
  constructor
  · intro h
    have hlt : (Clause.construct none pos neg false).numLits < 128 := lengthT_lt _
    have hlen : (Clause.construct none pos neg false).literals = pos.eraseDups ++ neg.eraseDups :=
      rfl
    rw [h, hlen] at hlt
    unfold Fits
    omega
  · intro h
    exact (construct_counts none false h).2

theorem createConstraint_eq (hs : InRange f s) : createConstraint V s.1 s.2 =
    if Small s then
      .ok (Clause.construct none (s.1.map (prop V)).reverse (s.2.map (prop V)).reverse false)
    else .error .overrun := by
  have h₁ : ∀ x ∈ s.1, x.2 < f.nmembers x.1 := fun x hx => hs x (List.mem_append_left _ hx)
  have h₂ : ∀ x ∈ s.2, x.2 < f.nmembers x.1 := fun x hx => hs x (List.mem_append_right _ hx)
  have hfits : Fits (s.1.map (prop V)).reverse (s.2.map (prop V)).reverse ↔ Small s := by
    rw [Fits, List.length_append, card_props h₁, card_props h₂, Small]
  unfold createConstraint
  simp only [mapM_getProp h₁, mapM_getProp h₂, bind, Except.bind, numLits_eq_iff, hfits]
  rfl

theorem holdsIn_construct {τ : PropId → Bool} (hs : InRange f s) (hsmall : Small s)
    (hτ : Represents V a τ) :
    HoldsIn τ (Clause.construct none (s.1.map (prop V)).reverse (s.2.map (prop V)).reverse false) ↔
      HoldsFor a s := by
  have h₁ : ∀ x ∈ s.1, x.2 < f.nmembers x.1 := fun x hx => hs x (List.mem_append_left _ hx)
  have h₂ : ∀ x ∈ s.2, x.2 < f.nmembers x.1 := fun x hx => hs x (List.mem_append_right _ hx)
  have hfits : Fits (s.1.map (prop V)).reverse (s.2.map (prop V)).reverse := by
    rw [Fits, List.length_append, card_props h₁, card_props h₂]
    exact hsmall
  have hval {x : ProtoAssignment} (hx : x.2 < f.nmembers x.1) :
      τ (prop V x) = true ↔ a x.1 = x.2 := hτ x.1 x.2 _ (getElem?_prop hx)
  constructor
  · rintro ⟨⟨p, b⟩, hl, hb⟩
    rw [mem_lits_construct none false hfits] at hl
    cases b with
    | true =>
      obtain ⟨x, hx, rfl⟩ := List.mem_map.mp (List.mem_reverse.mp hl)
      exact Or.inl ⟨x, hx, (hval (h₁ x hx)).mp hb⟩
    | false =>
      obtain ⟨x, hx, rfl⟩ := List.mem_map.mp (List.mem_reverse.mp hl)
      refine Or.inr ⟨x, hx, fun he => ?_⟩
      rw [(hval (h₂ x hx)).mpr he] at hb
      cases hb
  · rintro (⟨x, hx, he⟩ | ⟨x, hx, hne⟩)
    · refine ⟨(prop V x, true), ?_, (hval (h₁ x hx)).mpr he⟩
      rw [mem_lits_construct none false hfits]
      exact List.mem_reverse.mpr (List.mem_map_of_mem hx)
    · refine ⟨(prop V x, false), ?_, eq_false_of_ne_true fun ht => hne ((hval (h₂ x hx)).mp ht)⟩
      rw [mem_lits_construct none false hfits]
      exact List.mem_reverse.mpr (List.mem_map_of_mem hx)

theorem inRange_append {P N : List ProtoAssignment} :
    InRange f (s.1 ++ P, s.2 ++ N) ↔ InRange f s ∧ InRange f (P, N) := by
  simp only [InRange, List.mem_append, or_imp, forall_and]
  tauto

theorem inRange_values {c : L2rClause} (ht : ∀ p ∈ f.clauseProps c, f.Typed p) :
    InRange f (values f c) := by
  have hfold (ps : List L2rProposition) (x : List L2rPropVarVar × Singles)
      (hx : InRange f x.2) (hps : ∀ p ∈ ps, f.Typed p) : InRange f (ps.foldl collect x).2 := by
    induction ps generalizing x with
    | nil => exact hx
    | cons q ps ih =>
      refine ih _ ?_ fun p hp => hps p (List.mem_cons_of_mem q hp)
      have hq := hps q List.mem_cons_self
      cases q with
      | varVar p => exact hx
      | varValue p =>
        have hone : p.value < f.nmembers p.var := hq.2
        cases hp : p.positive with
        | true =>
          have := inRange_append (f := f) (s := x.2) (P := [(p.var, p.value)]) (N := [])
          simp only [List.append_nil] at this
          simpa only [collect, hp, if_true] using this.mpr ⟨hx, by simpa [InRange] using hone⟩
        | false =>
          have := inRange_append (f := f) (s := x.2) (P := []) (N := [(p.var, p.value)])
          simp only [List.append_nil] at this
          simpa only [collect, hp, Bool.false_eq_true, if_false] using
            this.mpr ⟨hx, by simpa [InRange] using hone⟩
  exact hfold _ _ (by simp [InRange]) ht

theorem inRange_split {s' : Singles} (hs : InRange f s)
    (ht : f.Typed (.varVar d)) (h : s' ∈ split f s d) : InRange f s' := by
  have htype : f.nmembers d.otherVar = f.nmembers d.var := by
    simp only [L2File.nmembers, ht.2.2]
  obtain ⟨j, hj, ⟨-, rfl | rfl⟩ | ⟨-, rfl⟩⟩ := mem_split.mp h
  · exact inRange_append.mpr ⟨hs, by simpa [InRange, htype] using hj⟩
  · exact inRange_append.mpr ⟨hs, by simpa [InRange, htype] using hj⟩
  · have := inRange_append (f := f) (s := s) (P := []) (N := [(d.var, j), (d.otherVar, j)])
    simp only [List.append_nil] at this
    rw [List.append_assoc]
    exact this.mpr ⟨hs, by simpa [InRange, htype] using hj⟩

/-- The literals of a clause without its comparisons, or of its first comparison split,
are few enough. When a later comparison has no value to be split for, none is created. -/
def Room (f : L2File) (c : L2rClause) : Prop :=
  match comparisons f c with
  | [] => Small (values f c)
  | d :: rest => (∀ e ∈ rest, 0 < f.nmembers e.var) → ∀ s ∈ split f (values f c) d, Small s

/-- Whatever satisfies a comparison of the clause after the first satisfies the first or
a literal that is none. -/
def Redundant (f : L2File) (c : L2rClause) : Prop :=
  ∀ a, f.Valid a → ∀ e ∈ (comparisons f c).tail, (L2rProposition.varVar e).Holds a →
    HoldsFor a (values f c) ∨
      ∃ d ∈ (comparisons f c).head?, (L2rProposition.varVar d).Holds a

theorem forall₂_mem {α β : Type*} {R : α → β → Prop} {xs : List α} {ys : List β}
    (h : List.Forall₂ R xs ys) : (∀ x ∈ xs, ∃ y ∈ ys, R x y) ∧ ∀ y ∈ ys, ∃ x ∈ xs, R x y := by
  induction h with
  | nil => simp
  | cons hxy _ ih =>
    simp only [List.forall_mem_cons, List.exists_mem_cons_iff]
    exact ⟨⟨Or.inl hxy, fun x hx => Or.inr (ih.1 x hx)⟩, Or.inl hxy, fun y hy => Or.inr (ih.2 y hy)⟩

/-- The clauses are created if and only if each is small, and then they say what their
literals say. -/
theorem mapM_createConstraint {ss : List Singles} (hs : ∀ s ∈ ss, InRange f s) :
    ((∃ ks, (ss.mapM fun s => createConstraint V s.1 s.2) = .ok ks) ↔ ∀ s ∈ ss, Small s) ∧
    ∀ ks, (ss.mapM fun s => createConstraint V s.1 s.2) = .ok ks → ∀ a τ, Represents V a τ →
      ((∀ k ∈ ks, HoldsIn τ k) ↔ ∀ s ∈ ss, HoldsFor a s) := by
  have hone {s : Singles} {k : Clause} (hm : s ∈ ss) (h : createConstraint V s.1 s.2 = .ok k) :
      Small s ∧ ∀ a τ, Represents V a τ → (HoldsIn τ k ↔ HoldsFor a s) := by
    rw [createConstraint_eq (hs s hm)] at h
    split_ifs at h with hsmall
    obtain rfl := Except.ok.inj h
    exact ⟨hsmall, fun a τ hτ => holdsIn_construct (hs s hm) hsmall hτ⟩
  refine ⟨⟨fun ⟨ks, h⟩ s hm => ?_, fun h => mapM_total fun s hm => ?_⟩, fun ks h a τ hτ => ?_⟩
  · obtain ⟨k, -, hk⟩ := (forall₂_mem (mapM_forall₂ h)).1 s hm
    exact (hone hm hk).1
  · exact ⟨_, by rw [createConstraint_eq (hs s hm), if_pos (h s hm)]⟩
  · obtain ⟨hfor, hback⟩ := forall₂_mem (mapM_forall₂ h)
    constructor
    · intro hk s hm
      obtain ⟨k, hks, hsk⟩ := hfor s hm
      exact ((hone hm hsk).2 a τ hτ).mp (hk k hks)
    · intro hall k hk
      obtain ⟨s, hm, hsk⟩ := hback k hk
      exact ((hone hm hsk).2 a τ hτ).mpr (hall s hm)

section
variable {c : L2rClause}

theorem mem_outcomes_clause {s' : Singles} :
    s' ∈ outcomes f (values f c) (comparisons f c).reverse (values f c) ↔
      match comparisons f c with
      | [] => s' = values f c
      | d :: rest => (∀ e ∈ rest, 0 < f.nmembers e.var) ∧ s' ∈ split f (values f c) d := by
  cases comparisons f c with
  | nil => simp [outcomes]
  | cons d rest =>
    rw [List.reverse_cons, mem_outcomes]
    simp

theorem room_iff : (∀ s ∈ outcomes f (values f c) (comparisons f c).reverse (values f c), Small s) ↔
    Room f c := by
  simp only [mem_outcomes_clause, Room]
  cases comparisons f c with
  | nil => simp
  | cons d rest => simp only [and_imp, forall_comm (α := Singles)]

variable (ht : ∀ p ∈ f.clauseProps c, f.Typed p)
include ht

theorem typed_comparison {d : L2rPropVarVar} (hd : d ∈ comparisons f c) :
    f.Typed (.varVar d) := by
  obtain ⟨p, hp, he⟩ := List.mem_filterMap.mp hd
  cases p with
  | varValue p => cases he
  | varVar p => exact Option.some.inj he ▸ ht _ hp

theorem inRange_outcomes {s' : Singles}
    (hs : s' ∈ outcomes f (values f c) (comparisons f c).reverse (values f c)) :
    InRange f s' := by
  have htyped {d : L2rPropVarVar} (hd : d ∈ comparisons f c) := typed_comparison ht hd
  rw [mem_outcomes_clause] at hs
  cases hc : comparisons f c with
  | nil =>
    rw [hc] at hs
    exact hs ▸ inRange_values ht
  | cons d rest =>
    rw [hc] at hs
    exact inRange_split (inRange_values ht) (htyped (hc ▸ List.mem_cons_self)) hs.2

theorem holdsFor_outcomes (ha : f.Valid a) :
    (∀ s ∈ outcomes f (values f c) (comparisons f c).reverse (values f c), HoldsFor a s) ↔
      HoldsFor a (values f c) ∨
        ∃ d ∈ (comparisons f c).head?, (L2rProposition.varVar d).Holds a := by
  have hlt {d : L2rPropVarVar} (hd : d ∈ comparisons f c) : a d.var < f.nmembers d.var :=
    ha _ (typed_comparison ht hd).1
  simp only [mem_outcomes_clause]
  cases hc : comparisons f c with
  | nil => simp
  | cons d rest =>
    have hpos : ∀ e ∈ rest, 0 < f.nmembers e.var := fun e he =>
      Nat.zero_lt_of_lt (hlt (hc ▸ List.mem_cons_of_mem d he))
    simp only [List.head?_cons, Option.mem_some_iff, exists_eq_left', and_imp]
    rw [← holdsFor_split (hlt (hc ▸ List.mem_cons_self))]
    exact ⟨fun h s hs => h s hpos hs, fun h s _ hs => h s hs⟩

/-- The created clauses together say what the clause of the model says. -/
def Equivalent (V : Variables f) (c : L2rClause) : Prop :=
  ∃ ks, expandClause V c = .ok ks ∧ ∀ a, f.Valid a → ∀ τ, Represents V a τ →
    ((∀ k ∈ ks, HoldsIn τ k) ↔ f.ClauseHolds a c)

theorem Equivalent.redundant (h : Equivalent V c) : Redundant f c := by
  obtain ⟨ks, hks, heq⟩ := h
  rw [expandClause_eq V fun d hd => (typed_comparison ht hd).2.2] at hks
  intro a ha e he hh
  obtain ⟨τ, hτ⟩ := exists_represents V a
  have hholds := (mapM_createConstraint fun s hs => inRange_outcomes ht hs).2 ks hks a τ hτ
  rw [← holdsFor_outcomes ht ha, ← hholds, heq a ha τ hτ, clauseHolds_iff]
  exact Or.inr ⟨e, List.mem_of_mem_tail he, hh⟩

end

/-- The clauses that the engine gets are equivalent to the clause of the model if and
only if its comparisons after the first are redundant, and the clauses are small. -/
theorem expandClause_equivalent_iff (V : Variables f) {c : L2rClause}
    (ht : ∀ p ∈ f.clauseProps c, f.Typed p) :
    Equivalent V c ↔ Room f c ∧ Redundant f c := by
  have hspec := mapM_createConstraint (V := V) fun s hs => inRange_outcomes (c := c) ht hs
  have hexp := expandClause_eq V fun d hd => (typed_comparison (c := c) ht hd).2.2
  rw [room_iff] at hspec
  constructor
  · intro h
    refine ⟨?_, h.redundant ht⟩
    obtain ⟨ks, hks, -⟩ := h
    exact hspec.1.mp ⟨ks, hexp ▸ hks⟩
  · intro ⟨hroom, hred⟩
    obtain ⟨ks, hks⟩ := hspec.1.mpr hroom
    refine ⟨ks, hexp.trans hks, fun a ha τ hτ => ?_⟩
    rw [hspec.2 ks hks a τ hτ, holdsFor_outcomes ht ha, clauseHolds_iff]
    refine ⟨Or.imp_right fun ⟨d, hd, hh⟩ => ⟨d, List.mem_of_mem_head? hd, hh⟩, ?_⟩
    rintro (h | ⟨d, hd, hh⟩)
    · exact Or.inl h
    · cases hc : comparisons f c with
      | nil => simp [hc] at hd
      | cons e rest =>
        rw [hc] at hd
        rcases List.mem_cons.mp hd with rfl | hd
        · exact Or.inr ⟨d, rfl, hh⟩
        · have := hred a ha d (by rw [hc]; exact hd) hh
          rwa [hc] at this

/-- Variables whose propositions are numbered by variable and value. -/
def numbered (f : L2File) : Variables f where
  propositions v := (List.range (f.nmembers v)).map (Nat.pair v)
  length_eq v := by simp
  unique v w x y p hx hy := by
    simp only [List.getElem?_map, Option.map_eq_some_iff] at hx hy
    obtain ⟨x', hx', rfl⟩ := hx
    obtain ⟨y', hy', he⟩ := hy
    obtain ⟨rfl, rfl⟩ := Nat.pair_eq_pair.mp he.symm
    rw [List.getElem?_eq_some_iff] at hx' hy'
    obtain ⟨_, hx'⟩ := hx'
    obtain ⟨_, hy'⟩ := hy'
    rw [List.getElem_range] at hx' hy'
    exact ⟨rfl, hx'.trans hy'.symm⟩

/-- Three variables of two values each, compared in a row. -/
def compared : L2File where
  enums := [2]
  vars := [⟨0, .unknown, none, {}⟩, ⟨0, .unknown, none, {}⟩, ⟨0, .unknown, none, {}⟩]
  props := [.varVar ⟨0, true, 1⟩, .varVar ⟨1, true, 2⟩]
  clauses := [⟨[0], true⟩, ⟨[0, 1], true⟩]

theorem expandClause_equivalent_compared : Equivalent (numbered compared) ⟨[0], true⟩ :=
  (expandClause_equivalent_iff (numbered compared) (by decide)).mpr
    ⟨fun _ => by decide, fun a _ e he => by cases he⟩

/-- The second comparison is lost: the engine excludes the assignment 0, 1, 1. -/
theorem expandClause_drops_comparison : ¬ Equivalent (numbered compared) ⟨[0, 1], true⟩ := by
  intro h
  have hred := h.redundant (by decide) (fun v => if v = 0 then 0 else 1) ?_ ⟨1, true, 2⟩
    (by decide) (by decide)
  · rcases hred with h | ⟨d, hd, hh⟩
    · exact absurd h (by simp [HoldsFor, values, compared, L2File.clauseProps, collect])
    · obtain rfl : (⟨0, true, 1⟩ : L2rPropVarVar) = d := by
        simpa [comparisons, compared, L2File.clauseProps] using hd
      simp [L2rProposition.Holds] at hh
  · intro v hv
    have hv : v < 3 := hv
    interval_cases v <;> decide

end Livingstone.ToTSystem
