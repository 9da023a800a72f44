import Livingstone.Jmpl.Clauses
import Livingstone.Lib.Loop

/-! What the normal form of an expression says, and what its clauses say. Expansion leaves
a constant only under a negation, and then the constant gets into the normal form: without
the negations over it, and in the clauses it is dropped. -/

namespace Livingstone
namespace Jmpl
namespace LogicExpression

-- the sign says whether the expression or its negation is read
mutual

/-- A constant `b` reads `c b` under any number of negations. -/
def reading (c : Bool → Bool) (v : Equality → Bool) : Bool → LogicExpression → Bool
  | s, .equality e => v e == s
  | _, .trueExpression => c true
  | _, .falseExpression => c false
  | true, .andExpression xs => readingAll c v true xs
  | false, .andExpression xs => readingAny c v false xs
  | true, .orExpression xs => readingAny c v true xs
  | false, .orExpression xs => readingAll c v false xs
  | s, .notExpression x => reading c v (!s) x

def readingAll (c : Bool → Bool) (v : Equality → Bool) (s : Bool) : List LogicExpression → Bool
  | [] => true
  | x :: xs => reading c v s x && readingAll c v s xs

def readingAny (c : Bool → Bool) (v : Equality → Bool) (s : Bool) : List LogicExpression → Bool
  | [] => false
  | x :: xs => reading c v s x || readingAny c v s xs

end

mutual

/-- A `False` is a conjunct of the whole. -/
def collapses : Bool → LogicExpression → Bool
  | _, .equality _ => false
  | _, .trueExpression => false
  | _, .falseExpression => true
  | true, .andExpression xs => collapsesAny true xs
  | false, .andExpression _ => false
  | true, .orExpression _ => false
  | false, .orExpression xs => collapsesAny false xs
  | s, .notExpression x => collapses (!s) x

def collapsesAny (s : Bool) : List LogicExpression → Bool
  | [] => false
  | x :: xs => collapses s x || collapsesAny s xs

end

mutual

/-- The conjuncts of the whole are read: a constant among them is left out, and one in a
disjunction reads as false. -/
def conjuncts (v : Equality → Bool) : Bool → LogicExpression → Bool
  | s, .equality e => v e == s
  | _, .trueExpression => true
  | _, .falseExpression => true
  | true, .andExpression xs => conjunctsAll v true xs
  | false, .andExpression xs => readingAny (fun _ => false) v false xs
  | true, .orExpression xs => readingAny (fun _ => false) v true xs
  | false, .orExpression xs => conjunctsAll v false xs
  | s, .notExpression x => conjuncts v (!s) x

def conjunctsAll (v : Equality → Bool) (s : Bool) : List LogicExpression → Bool
  | [] => true
  | x :: xs => conjuncts v s x && conjunctsAll v s xs

end

/-- What the clauses say: nothing when a `False` is among the conjuncts. -/
def emitted (v : Equality → Bool) (s : Bool) (x : LogicExpression) : Bool :=
  collapses s x || conjuncts v s x

variable {c : Bool → Bool} {v : Equality → Bool} {s : Bool}

@[simp]
theorem readingAll_eq (xs : List LogicExpression) :
    readingAll c v s xs = xs.all (reading c v s) := by
  induction xs with
  | nil => rfl
  | cons x xs ih => rw [readingAll, ih, List.all_cons]

@[simp]
theorem readingAny_eq (xs : List LogicExpression) :
    readingAny c v s xs = xs.any (reading c v s) := by
  induction xs with
  | nil => rfl
  | cons x xs ih => rw [readingAny, ih, List.any_cons]

@[simp]
theorem collapsesAny_eq (xs : List LogicExpression) :
    collapsesAny s xs = xs.any (collapses s) := by
  induction xs with
  | nil => rfl
  | cons x xs ih => rw [collapsesAny, ih, List.any_cons]

@[simp]
theorem conjunctsAll_eq (xs : List LogicExpression) :
    conjunctsAll v s xs = xs.all (conjuncts v s) := by
  induction xs with
  | nil => rfl
  | cons x xs ih => rw [conjunctsAll, ih, List.all_cons]

def isConstant : LogicExpression → Bool
  | .trueExpression => true
  | .falseExpression => true
  | _ => false

mutual

/-- A member of an n-ary expression is no constant, and there is one. -/
def Expanded : LogicExpression → Prop
  | .andExpression xs => xs ≠ [] ∧ ExpandedAll xs
  | .orExpression xs => xs ≠ [] ∧ ExpandedAll xs
  | .notExpression x => Expanded x
  | _ => True

def ExpandedAll : List LogicExpression → Prop
  | [] => True
  | x :: xs => (x.isConstant = false ∧ Expanded x) ∧ ExpandedAll xs

end

mutual

/-- Negations stand on atoms, and a conjunction has a member. -/
def Nnf : LogicExpression → Prop
  | .andExpression xs => xs ≠ [] ∧ NnfAll xs
  | .orExpression xs => NnfAll xs
  | .notExpression (.equality _) => True
  | .notExpression _ => False
  | _ => True

def NnfAll : List LogicExpression → Prop
  | [] => True
  | x :: xs => Nnf x ∧ NnfAll xs

end

mutual

def Disjunctive : LogicExpression → Prop
  | .andExpression _ => False
  | .orExpression xs => DisjunctiveAll xs
  | .notExpression (.equality _) => True
  | .notExpression _ => False
  | _ => True

def DisjunctiveAll : List LogicExpression → Prop
  | [] => True
  | x :: xs => Disjunctive x ∧ DisjunctiveAll xs

end

mutual

/-- Conjunctive normal form: negations stand on atoms, and no conjunction is in a
disjunction. -/
def Cnf : LogicExpression → Prop
  | .andExpression xs => CnfAll xs
  | .orExpression xs => DisjunctiveAll xs
  | .notExpression (.equality _) => True
  | .notExpression _ => False
  | _ => True

def CnfAll : List LogicExpression → Prop
  | [] => True
  | x :: xs => Cnf x ∧ CnfAll xs

end

theorem expandedAll_iff {xs : List LogicExpression} :
    ExpandedAll xs ↔ ∀ x ∈ xs, x.isConstant = false ∧ Expanded x := by
  induction xs with
  | nil => simp [ExpandedAll]
  | cons x xs ih => rw [ExpandedAll, ih, List.forall_mem_cons]

theorem nnfAll_iff {xs : List LogicExpression} : NnfAll xs ↔ ∀ x ∈ xs, Nnf x := by
  induction xs with
  | nil => simp [NnfAll]
  | cons x xs ih => rw [NnfAll, ih, List.forall_mem_cons]

theorem disjunctiveAll_iff {xs : List LogicExpression} :
    DisjunctiveAll xs ↔ ∀ x ∈ xs, Disjunctive x := by
  induction xs with
  | nil => simp [DisjunctiveAll]
  | cons x xs ih => rw [DisjunctiveAll, ih, List.forall_mem_cons]

theorem all_congr_mem {α : Type} {f g : α → Bool} {l : List α} (h : ∀ x ∈ l, f x = g x) :
    l.all f = l.all g := by
  induction l with
  | nil => rfl
  | cons a l ih =>
    rw [List.forall_mem_cons] at h
    rw [List.all_cons, List.all_cons, h.1, ih h.2]

theorem any_congr_mem {α : Type} {f g : α → Bool} {l : List α} (h : ∀ x ∈ l, f x = g x) :
    l.any f = l.any g := by
  induction l with
  | nil => rfl
  | cons a l ih =>
    rw [List.forall_mem_cons] at h
    rw [List.any_cons, List.any_cons, h.1, ih h.2]

theorem eval_eq_reading {x : LogicExpression} (hx : Nnf x) : x.eval v = x.reading id v true := by
  induction x with
  | equality e => simp [eval, reading]
  | trueExpression => rfl
  | falseExpression => rfl
  | andExpression xs ih =>
    have hxs := nnfAll_iff.mp hx.2
    simp only [eval, evalAll_eq, reading, readingAll_eq]
    exact all_congr_mem fun x hmem => ih x hmem (hxs x hmem)
  | orExpression xs ih =>
    have hxs := nnfAll_iff.mp hx
    simp only [eval, evalAny_eq, reading, readingAny_eq]
    exact any_congr_mem fun x hmem => ih x hmem (hxs x hmem)
  | notExpression x _ =>
    cases x with
    | equality e => simp [eval, reading]
    | _ => exact hx.elim

mutual

def depth : LogicExpression → ℕ
  | .andExpression xs => depthAll xs + 1
  | .orExpression xs => depthAll xs + 1
  | _ => 0

def depthAll : List LogicExpression → ℕ
  | [] => 0
  | x :: xs => max (depth x) (depthAll xs)

end

theorem depthAll_le {xs : List LogicExpression} {d : ℕ} :
    depthAll xs ≤ d ↔ ∀ x ∈ xs, x.depth ≤ d := by
  induction xs with
  | nil => simp [depthAll]
  | cons x xs ih => rw [depthAll, max_le_iff, ih, List.forall_mem_cons]

/-- What a member of a conjunction is flattened to. -/
def spliceAnd : LogicExpression → List LogicExpression
  | .andExpression xs => flattenAnd xs
  | x => [flatten x]

/-- What a member of a disjunction is flattened to. -/
def spliceOr : LogicExpression → List LogicExpression
  | .orExpression xs => flattenOr xs
  | x => [flatten x]

theorem flattenAnd_eq (xs : List LogicExpression) : flattenAnd xs = xs.flatMap spliceAnd := by
  induction xs with
  | nil => rfl
  | cons x xs ih => cases x <;> simp [flattenAnd, spliceAnd, ih]

theorem flattenOr_eq (xs : List LogicExpression) : flattenOr xs = xs.flatMap spliceOr := by
  induction xs with
  | nil => rfl
  | cons x xs ih => cases x <;> simp [flattenOr, spliceOr, ih]

theorem all_flatMap_congr {α β : Type} {f : α → List β} {p : β → Bool} {q : α → Bool} {l : List α}
    (h : ∀ x ∈ l, (f x).all p = q x) : (l.flatMap f).all p = l.all q := by
  rw [List.all_flatMap]
  exact all_congr_mem h

theorem any_flatMap_congr {α β : Type} {f : α → List β} {p : β → Bool} {q : α → Bool} {l : List α}
    (h : ∀ x ∈ l, (f x).any p = q x) : (l.flatMap f).any p = l.any q := by
  rw [List.any_flatMap]
  exact any_congr_mem h

theorem reading_flatten (x : LogicExpression) :
    reading c v true x.flatten = reading c v true x ∧
      (spliceAnd x).all (reading c v true) = reading c v true x ∧
      (spliceOr x).any (reading c v true) = reading c v true x := by
  induction x with
  | equality e => simp [flatten, spliceAnd, spliceOr]
  | trueExpression => simp [flatten, spliceAnd, spliceOr]
  | falseExpression => simp [flatten, spliceAnd, spliceOr]
  | notExpression x _ => simp [flatten, spliceAnd, spliceOr]
  | andExpression xs ih =>
    have hall : (flattenAnd xs).all (reading c v true) = xs.all (reading c v true) := by
      rw [flattenAnd_eq]
      exact all_flatMap_congr fun x hx => (ih x hx).2.1
    simp [flatten, spliceAnd, spliceOr, reading, hall]
  | orExpression xs ih =>
    have hany : (flattenOr xs).any (reading c v true) = xs.any (reading c v true) := by
      rw [flattenOr_eq]
      exact any_flatMap_congr fun x hx => (ih x hx).2.2
    simp [flatten, spliceAnd, spliceOr, reading, hany]

theorem any_flattenOr (xs : List LogicExpression) :
    (flattenOr xs).any (reading c v true) = xs.any (reading c v true) := by
  rw [flattenOr_eq]
  exact any_flatMap_congr fun x _ => (reading_flatten x).2.2

def isOr : LogicExpression → Bool
  | .orExpression _ => true
  | _ => false

/-- Flattening keeps the normal form and does not nest deeper, and no disjunction is left as
a member of one. -/
theorem shape_flatten {x : LogicExpression} (hx : Nnf x) :
    (Nnf x.flatten ∧ x.flatten.depth ≤ x.depth) ∧
      (spliceAnd x ≠ [] ∧ ∀ y ∈ spliceAnd x, Nnf y ∧ y.depth ≤ x.depth) ∧
      ∀ y ∈ spliceOr x, Nnf y ∧ y.depth ≤ x.depth ∧ y.isOr = false := by
  induction x with
  | equality e => simp [flatten, spliceAnd, spliceOr, Nnf, isOr]
  | trueExpression => simp [flatten, spliceAnd, spliceOr, Nnf, isOr]
  | falseExpression => simp [flatten, spliceAnd, spliceOr, Nnf, isOr]
  | notExpression x _ => simp [flatten, spliceAnd, spliceOr, hx, isOr]
  | andExpression xs ih =>
    obtain ⟨hne, hxs⟩ := hx
    rw [nnfAll_iff] at hxs
    have hmem : ∀ y ∈ flattenAnd xs, Nnf y ∧ y.depth ≤ depthAll xs := by
      rw [flattenAnd_eq, List.forall_mem_flatMap]
      intro x hx y hy
      obtain ⟨hnnf, hle⟩ := (ih x hx (hxs x hx)).2.1.2 y hy
      exact ⟨hnnf, hle.trans (depthAll_le.mp le_rfl x hx)⟩
    have hne' : flattenAnd xs ≠ [] := by
      obtain ⟨x, xs, rfl⟩ := List.exists_cons_of_ne_nil hne
      rw [flattenAnd_eq, List.flatMap_cons]
      exact List.append_ne_nil_of_left_ne_nil
        (ih x List.mem_cons_self (hxs x List.mem_cons_self)).2.1.1 _
    have hflat : Nnf (flatten (.andExpression xs)) ∧
        (flatten (.andExpression xs)).depth ≤ depth (.andExpression xs) :=
      ⟨⟨hne', nnfAll_iff.mpr fun y hy => (hmem y hy).1⟩,
        Nat.succ_le_succ (depthAll_le.mpr fun y hy => (hmem y hy).2)⟩
    refine ⟨hflat, ⟨hne', fun y hy => ⟨(hmem y hy).1, (hmem y hy).2.trans (Nat.le_succ _)⟩⟩, ?_⟩
    intro y hy
    obtain rfl := List.mem_singleton.mp hy
    exact ⟨hflat.1, hflat.2, rfl⟩
  | orExpression xs ih =>
    have hxs := nnfAll_iff.mp hx
    have hmem : ∀ y ∈ flattenOr xs, Nnf y ∧ y.depth ≤ depthAll xs ∧ y.isOr = false := by
      rw [flattenOr_eq, List.forall_mem_flatMap]
      intro x hx y hy
      obtain ⟨hnnf, hle, hor⟩ := (ih x hx (hxs x hx)).2.2 y hy
      exact ⟨hnnf, hle.trans (depthAll_le.mp le_rfl x hx), hor⟩
    have hflat : Nnf (flatten (.orExpression xs)) ∧
        (flatten (.orExpression xs)).depth ≤ depth (.orExpression xs) :=
      ⟨nnfAll_iff.mpr fun y hy => (hmem y hy).1,
        Nat.succ_le_succ (depthAll_le.mpr fun y hy => (hmem y hy).2.1)⟩
    refine ⟨hflat, ⟨by simp [spliceAnd], ?_⟩, fun y hy =>
      ⟨(hmem y hy).1, (hmem y hy).2.1.trans (Nat.le_succ _), (hmem y hy).2.2⟩⟩
    intro y hy
    obtain rfl := List.mem_singleton.mp hy
    exact hflat

theorem shape_flattenOr {xs : List LogicExpression} (hxs : NnfAll xs) :
    ∀ y ∈ flattenOr xs, Nnf y ∧ y.depth ≤ depthAll xs ∧ y.isOr = false := by
  rw [flattenOr_eq, List.forall_mem_flatMap]
  intro x hx y hy
  obtain ⟨hnnf, hle, hor⟩ := (shape_flatten (nnfAll_iff.mp hxs x hx)).2.2 y hy
  exact ⟨hnnf, hle.trans (depthAll_le.mp le_rfl x hx), hor⟩

theorem pick_cons {row : List LogicExpression} {rows : List (List LogicExpression)} {i : ℕ}
    {is : List ℕ} {x : LogicExpression} {xs : List LogicExpression} (hx : row[i]? = some x)
    (hxs : pick rows is = .ok xs) : pick (row :: rows) (i :: is) = .ok (x :: xs) := by
  unfold pick at hxs ⊢
  rw [List.zip_cons_cons, List.mapM_cons, hxs]
  simp [hx, bind, Except.bind, pure, Except.pure]

theorem pick_of_below {rows : List (List LogicExpression)} {is : List ℕ}
    (h : Odometer.Below (rows.map List.length) is) :
    ∃ xs, pick rows is = .ok xs ∧ List.Forall₂ (fun row x => x ∈ row) rows xs := by
  induction rows generalizing is with
  | nil =>
    cases h
    exact ⟨[], rfl, List.Forall₂.nil⟩
  | cons row rows ih =>
    obtain ⟨i, js, hi, hjs, rfl⟩ := List.forall₂_cons_left_iff.mp h
    obtain ⟨xs, hpick, hxs⟩ := ih hjs
    exact ⟨row[i] :: xs, pick_cons (List.getElem?_eq_getElem hi) hpick,
      List.Forall₂.cons (List.getElem_mem hi) hxs⟩

theorem exists_pick {rows : List (List LogicExpression)} {xs : List LogicExpression}
    (h : List.Forall₂ (fun row x => x ∈ row) rows xs) :
    ∃ is, Odometer.Below (rows.map List.length) is ∧ pick rows is = .ok xs := by
  induction h with
  | nil => exact ⟨[], List.Forall₂.nil, rfl⟩
  | @cons row x rows xs hx _ ih =>
    obtain ⟨is, hbelow, hpick⟩ := ih
    obtain ⟨i, hi, rfl⟩ := List.mem_iff_getElem.mp hx
    exact ⟨i :: is, List.Forall₂.cons hi hbelow, pick_cons (List.getElem?_eq_getElem hi) hpick⟩

theorem mem_row_of_mem {α : Type} {rows : List (List α)} {xs : List α}
    (h : List.Forall₂ (fun row x => x ∈ row) rows xs) {x : α} (hx : x ∈ xs) :
    ∃ row ∈ rows, x ∈ row := by
  induction h with
  | nil => cases hx
  | cons hmem _ ih =>
    cases hx with
    | head => exact ⟨_, List.mem_cons_self, hmem⟩
    | tail _ hx =>
      obtain ⟨row, hrow, hxrow⟩ := ih hx
      exact ⟨row, List.mem_cons_of_mem _ hrow, hxrow⟩

theorem exists_forall₂_mem {α : Type} {rows : List (List α)} (hrows : ∀ row ∈ rows, row ≠ []) :
    ∃ xs, List.Forall₂ (fun row x => x ∈ row) rows xs := by
  induction rows with
  | nil => exact ⟨[], List.Forall₂.nil⟩
  | cons row rows ih =>
    rw [List.forall_mem_cons] at hrows
    obtain ⟨x, hx⟩ := List.exists_mem_of_ne_nil row hrows.1
    obtain ⟨xs, hxs⟩ := ih hrows.2
    exact ⟨x :: xs, List.Forall₂.cons hx hxs⟩

theorem distribute_spec {rows : List (List LogicExpression)} (hrows : ∀ row ∈ rows, row ≠ []) :
    ∃ ors, distribute rows = .ok ors ∧
      ∀ o, o ∈ ors ↔ ∃ xs, o = .orExpression xs ∧ List.Forall₂ (fun row x => x ∈ row) rows xs := by
  have hpos : ∀ r ∈ rows.map List.length, 0 < r := by
    rw [List.forall_mem_map]
    exact fun row hrow => List.length_pos_iff.mpr (hrows row hrow)
  have hvisits : Odometer.visits ((rows.map List.length).prod + 1) (rows.map List.length)
      (List.replicate rows.length 0) = Odometer.vectors (rows.map List.length) := by
    rw [← Odometer.visits_eq hpos (Nat.le_succ _), List.length_map]
  have hbody : ∀ is ∈ Odometer.vectors (rows.map List.length), ∃ xs, pick rows is = .ok xs ∧
      (do let xs ← pick rows is; return .orExpression xs : Except String LogicExpression) =
        .ok (.orExpression xs) := by
    intro is his
    obtain ⟨xs, hpick, -⟩ := pick_of_below (Odometer.mem_vectors.mp his)
    exact ⟨xs, hpick, by simp [hpick, bind, Except.bind, pure, Except.pure]⟩
  obtain ⟨ors, hors⟩ := Loop.mapM_total fun is his =>
    let ⟨xs, _, hxs⟩ := hbody is his
    ⟨_, hxs⟩
  refine ⟨ors, ?_, fun o => ?_⟩
  · unfold distribute
    dsimp only
    rw [hvisits]
    exact hors
  · rw [Loop.mem_mapM hors]
    constructor
    · intro ⟨is, his, ho⟩
      obtain ⟨xs, hpick, hxs⟩ := pick_of_below (Odometer.mem_vectors.mp his)
      obtain ⟨ys, hpick', heq⟩ := hbody is his
      obtain rfl := Except.ok.inj (hpick.symm.trans hpick')
      exact ⟨xs, (Except.ok.inj (heq.symm.trans ho)).symm, hxs⟩
    · intro ⟨xs, ho, hxs⟩
      obtain ⟨is, hbelow, hpick⟩ := exists_pick hxs
      have his := Odometer.mem_vectors.mpr hbelow
      obtain ⟨ys, hpick', heq⟩ := hbody is his
      obtain rfl := Except.ok.inj (hpick.symm.trans hpick')
      exact ⟨is, his, ho ▸ heq⟩

/-- A disjunction of conjunctions is the conjunction of the disjunctions that take one member
from each. -/
theorem all_any_iff {α : Type} (p : α → Bool) (rows : List (List α)) :
    (∀ xs, List.Forall₂ (fun row x => x ∈ row) rows xs → xs.any p = true) ↔
      rows.any (fun row => row.all p) = true := by
  induction rows with
  | nil => simp
  | cons row rows ih =>
    rw [List.any_cons, Bool.or_eq_true, ← ih]
    constructor
    · intro h
      by_contra hnot
      rw [not_or] at hnot
      obtain ⟨hrow, hrest⟩ := hnot
      simp only [List.all_eq_true, not_forall] at hrow hrest
      obtain ⟨x, hx, hpx⟩ := hrow
      obtain ⟨xs, hxs, hpxs⟩ := hrest
      have hany := h (x :: xs) (List.Forall₂.cons hx hxs)
      rw [List.any_cons, Bool.or_eq_true] at hany
      exact hany.elim hpx hpxs
    · intro h xs hxs
      obtain ⟨x, rest, hx, hrest, rfl⟩ := List.forall₂_cons_left_iff.mp hxs
      rw [List.any_cons, Bool.or_eq_true]
      exact h.imp (fun hrow => List.all_eq_true.mp hrow x hx) fun hr => hr rest hrest

theorem all_ors {flat ors : List LogicExpression} (hor : ∀ y ∈ flat, y.isOr = false)
    (hmem : ∀ o, o ∈ ors ↔ ∃ xs, o = .orExpression xs ∧
      List.Forall₂ (fun row x => x ∈ row) (flat.map row) xs) :
    ors.all (reading c v true) = flat.any (reading c v true) := by
  have hrow : ∀ y ∈ flat, y.row.all (reading c v true) = reading c v true y := by
    intro y hy
    have hy' := hor y hy
    cases y with
    | orExpression xs => cases hy'
    | andExpression xs => simp [row, reading]
    | _ => simp [row]
  rw [Bool.eq_iff_iff, List.all_eq_true, ← any_congr_mem hrow]
  have hdist := all_any_iff (reading c v true) (flat.map row)
  rw [List.any_map] at hdist
  rw [show (flat.any fun y => y.row.all (reading c v true)) =
    flat.any ((fun row => row.all (reading c v true)) ∘ row) from rfl, ← hdist]
  constructor
  · intro h xs hxs
    have ho := h (.orExpression xs) ((hmem _).mpr ⟨xs, rfl, hxs⟩)
    rwa [reading, readingAny_eq] at ho
  · intro h o ho
    obtain ⟨xs, rfl, hxs⟩ := (hmem o).mp ho
    rw [reading, readingAny_eq]
    exact h xs hxs

end LogicExpression

def Clause.holds (v : Equality → Bool) (clause : Clause) : Bool :=
  clause.any fun t => v ⟨t.argument1, t.argument2⟩ == t.sign

def clausesHold (v : Equality → Bool) (clauses : List Clause) : Bool :=
  clauses.all (Clause.holds v)

namespace LogicExpression

theorem buildTerms_spec {x : LogicExpression} (hx : Disjunctive x) (clause : Clause) :
    ∃ new, buildTerms clause x = .ok (clause ++ new) ∧
      ∀ v, Clause.holds v new = reading (fun _ => false) v true x := by
  induction x generalizing clause with
  | equality e => exact ⟨_, rfl, fun v => by simp [Clause.holds, reading]⟩
  | trueExpression => exact ⟨[], by simp [buildTerms], fun v => rfl⟩
  | falseExpression => exact ⟨[], by simp [buildTerms], fun v => rfl⟩
  | andExpression xs _ => exact hx.elim
  | notExpression x _ =>
    cases x with
    | equality e => exact ⟨_, rfl, fun v => by simp [Clause.holds, reading]⟩
    | _ => exact hx.elim
  | orExpression xs ih =>
    have hxs := disjunctiveAll_iff.mp hx
    have hall : ∀ ys, (∀ y ∈ ys, y ∈ xs) → ∀ clause, ∃ new,
        buildTermsAll clause ys = .ok (clause ++ new) ∧
          ∀ v, Clause.holds v new = ys.any (reading (fun _ => false) v true) := by
      intro ys
      induction ys with
      | nil => exact fun _ clause => ⟨[], by simp [buildTermsAll], fun v => rfl⟩
      | cons y ys ihs =>
        intro hsub clause
        rw [List.forall_mem_cons] at hsub
        obtain ⟨new, hrun, hnew⟩ := ih y hsub.1 (hxs y hsub.1) clause
        obtain ⟨rest, hruns, hrest⟩ := ihs hsub.2 (clause ++ new)
        refine ⟨new ++ rest, ?_, fun v => ?_⟩
        · rw [buildTermsAll, hrun, ← List.append_assoc]
          exact hruns
        · rw [Clause.holds, List.any_append, List.any_cons, ← hnew v, ← hrest v]
          rfl
    obtain ⟨new, hrun, hnew⟩ := hall xs (fun _ hy => hy) clause
    refine ⟨new, hrun, fun v => ?_⟩
    rw [hnew v, reading, readingAny_eq]

/-- What `pushDisjunctionsIn` makes of an expression in negation normal form. -/
structure Compiled (x y : LogicExpression) : Prop where
  eq_false : y = .falseExpression ↔ collapses true x = true
  cnf : Cnf y
  reads : ∀ v, y.eval v = reading id v true x
  builds : ∀ clauses, ∃ new, buildInstance clauses y = .ok (clauses ++ new) ∧
    ∀ v, clausesHold v new = emitted v true x

theorem buildAll_spec {xs ys : List LogicExpression} (h : List.Forall₂ Compiled xs ys)
    (clauses : List Clause) :
    ∃ new, buildAll clauses ys = .ok (clauses ++ new) ∧
      ∀ v, clausesHold v new = xs.all (emitted v true) := by
  induction h generalizing clauses with
  | nil => exact ⟨[], by simp [buildAll], fun v => rfl⟩
  | cons hxy _ ih =>
    obtain ⟨new, hrun, hnew⟩ := hxy.builds clauses
    obtain ⟨rest, hruns, hrest⟩ := ih (clauses ++ new)
    refine ⟨new ++ rest, ?_, fun v => ?_⟩
    · rw [buildAll, hrun, ← List.append_assoc]
      exact hruns
    · rw [clausesHold, List.all_append, List.all_cons, ← hnew v, ← hrest v]
      rfl

theorem compiled_and {xs ys : List LogicExpression} (h : List.Forall₂ Compiled xs ys)
    (hxs : ∀ x ∈ xs, collapses true x = false) :
    Compiled (.andExpression xs) (.andExpression ys) where
  eq_false := by
    have hnone : xs.any (collapses true) = false := by
      rw [List.any_eq_false]
      exact fun x hx => by simp [hxs x hx]
    simp [collapses, hnone]
  cnf := by
    rw [Cnf]
    clear hxs
    induction h with
    | nil => trivial
    | cons hxy _ ih => exact ⟨hxy.cnf, ih⟩
  reads v := by
    rw [eval, evalAll_eq, reading, readingAll_eq]
    clear hxs
    induction h with
    | nil => rfl
    | cons hxy _ ih => rw [List.all_cons, List.all_cons, hxy.reads v, ih]
  builds clauses := by
    obtain ⟨new, hrun, hnew⟩ := buildAll_spec h clauses
    refine ⟨new, hrun, fun v => ?_⟩
    rw [hnew v, emitted, collapses, collapsesAny_eq, conjuncts, conjunctsAll_eq]
    have hnone : xs.any (collapses true) = false := by
      rw [List.any_eq_false]
      exact fun x hx => by simp [hxs x hx]
    rw [hnone, Bool.false_or]
    exact all_congr_mem fun x hx => by rw [emitted, hxs x hx, Bool.false_or]

theorem replaceAll_compiled {f : LogicExpression → Except String LogicExpression}
    {done members : List LogicExpression} (hdone : List.Forall₂ Compiled done members)
    (hnone : ∀ x ∈ done, collapses true x = false) {xs : List LogicExpression}
    (hxs : ∀ x ∈ xs, ∃ y, f x = .ok y ∧ Compiled x y) :
    ∃ y, replaceAll f members xs = .ok y ∧ Compiled (.andExpression (done ++ xs)) y := by
  induction xs generalizing done members with
  | nil =>
    rw [List.append_nil]
    exact ⟨_, rfl, compiled_and hdone hnone⟩
  | cons x xs ih =>
    rw [List.forall_mem_cons] at hxs
    obtain ⟨y, hrun, hxy⟩ := hxs.1
    cases hcol : collapses true x with
    | true =>
      obtain rfl := hxy.eq_false.mpr hcol
      have hwhole : collapses true (.andExpression (done ++ x :: xs)) = true := by
        simp [collapses, hcol]
      refine ⟨.falseExpression, ?_, by simp [hwhole], trivial, fun v => ?_, fun clauses =>
        ⟨[], by simp [buildInstance], fun v => ?_⟩⟩
      · simp [replaceAll, hrun, bind, Except.bind, pure, Except.pure]
      · have hx := hxy.reads v
        rw [eval] at hx
        simp [eval, reading, ← hx]
      · simp [clausesHold, emitted, hwhole]
    | false =>
      have hne : y ≠ .falseExpression := fun heq => by
        rw [hxy.eq_false, hcol] at heq
        cases heq
      have hdone' : List.Forall₂ Compiled (done ++ [x]) (members ++ [y]) :=
        List.rel_append hdone (List.Forall₂.cons hxy List.Forall₂.nil)
      obtain ⟨z, hz, hcompiled⟩ := ih hdone'
        (List.forall_mem_append.mpr ⟨hnone, by simpa using hcol⟩) hxs.2
      refine ⟨z, ?_, by simpa using hcompiled⟩
      rw [replaceAll, hrun]
      cases y <;> first | exact absurd rfl hne | exact hz

/-- The depth of the recursion of `pushDisjunctionsIn`. -/
def need : LogicExpression → ℕ
  | .andExpression xs => 2 * depth (.andExpression xs)
  | .orExpression xs => 2 * depth (.orExpression xs) + 1
  | _ => 1

theorem need_le (x : LogicExpression) : x.need ≤ 2 * x.depth + 1 := by
  cases x <;> simp [need, depth]

theorem compiled_clause {xs ys : List LogicExpression} (hys : DisjunctiveAll ys)
    (hnnf : ∀ y ∈ ys, Nnf y) (hreads : ∀ c v, ys.any (reading c v true) = xs.any (reading c v true)) :
    Compiled (.orExpression xs) (.andExpression [.orExpression ys]) where
  eq_false := by simp [collapses]
  cnf := ⟨hys, trivial⟩
  reads v := by
    rw [reading, readingAny_eq, ← hreads]
    simp only [eval, evalAll, Bool.and_true, evalAny_eq]
    exact any_congr_mem fun y hy => eval_eq_reading (hnnf y hy)
  builds clauses := by
    obtain ⟨new, hrun, hnew⟩ := buildTerms_spec (x := .orExpression ys) hys []
    refine ⟨[new], ?_, fun v => ?_⟩
    · rw [buildTerms, List.nil_append] at hrun
      simp [buildInstance, buildAll, hrun, bind, Except.bind, pure, Except.pure]
    · have hv := hnew v
      rw [reading, readingAny_eq, hreads] at hv
      simp [clausesHold, hv, emitted, collapses, conjuncts]

theorem Compiled.congr {x x' y : LogicExpression} (h : Compiled x y)
    (hcollapses : collapses true x' = collapses true x)
    (hreads : ∀ v, reading id v true x' = reading id v true x)
    (hemitted : ∀ v, emitted v true x' = emitted v true x) : Compiled x' y where
  eq_false := by rw [hcollapses]; exact h.eq_false
  cnf := h.cnf
  reads v := (h.reads v).trans (hreads v).symm
  builds clauses := by
    obtain ⟨new, hrun, hnew⟩ := h.builds clauses
    exact ⟨new, hrun, fun v => (hnew v).trans (hemitted v).symm⟩

theorem compiled_equality (e : Equality) :
    Compiled (.equality e) (.andExpression [.orExpression [.equality e]]) := by
  have hclause : Compiled (.orExpression [.equality e])
      (.andExpression [.orExpression [.equality e]]) :=
    compiled_clause ⟨trivial, trivial⟩ (fun y hy => by rw [List.mem_singleton.mp hy]; trivial)
      fun _ _ => rfl
  apply hclause.congr
  · rfl
  · intro v
    simp [reading]
  · intro v
    simp [emitted, collapses, conjuncts, reading]

theorem compiled_not (e : Equality) :
    Compiled (.notExpression (.equality e))
      (.andExpression [.orExpression [.notExpression (.equality e)]]) := by
  have hclause : Compiled (.orExpression [.notExpression (.equality e)])
      (.andExpression [.orExpression [.notExpression (.equality e)]]) :=
    compiled_clause ⟨trivial, trivial⟩ (fun y hy => by rw [List.mem_singleton.mp hy]; trivial)
      fun _ _ => rfl
  apply hclause.congr
  · rfl
  · intro v
    simp [reading]
  · intro v
    simp [emitted, collapses, conjuncts, reading]

theorem row_spec {y : LogicExpression} (hy : Nnf y) (hor : y.isOr = false) :
    y.row ≠ [] ∧ ∀ z ∈ y.row, Nnf z ∧ z.depth ≤ y.depth - 1 := by
  cases y with
  | orExpression xs => cases hor
  | andExpression xs =>
    exact ⟨hy.1, fun z hz => ⟨nnfAll_iff.mp hy.2 z hz, depthAll_le.mp le_rfl z hz⟩⟩
  | _ => simp [row, hy, depth]

/-- One step of the distribution: a conjunction that does not nest deeper, of which no member
is a constant alone. -/
theorem distribute_flattenOr {xs : List LogicExpression} (hxs : NnfAll xs)
    (hflat : (flattenOr xs).all (fun x => !x.isNary) = false) :
    ∃ ors, distribute ((flattenOr xs).map row) = .ok ors ∧ Nnf (.andExpression ors) ∧
      depth (.andExpression ors) ≤ depth (.orExpression xs) ∧
      ∀ y, Compiled (.andExpression ors) y → Compiled (.orExpression xs) y := by
  have hshape := shape_flattenOr hxs
  have hrows : ∀ r ∈ (flattenOr xs).map row, r ≠ [] := by
    rw [List.forall_mem_map]
    exact fun y hy => (row_spec (hshape y hy).1 (hshape y hy).2.2).1
  obtain ⟨ors, hrun, hmem⟩ := distribute_spec hrows
  -- An n-ary member of the flattened disjunction is as deep as a member of the picked ones.
  have hdeep : 1 ≤ depthAll xs := by
    obtain ⟨y, hy, hnary⟩ := List.all_eq_false.mp hflat
    apply le_trans _ (hshape y hy).2.1
    cases y <;> simp_all [isNary, depth]
  have hpicked : ∀ zs, List.Forall₂ (fun row z => z ∈ row) ((flattenOr xs).map row) zs →
      ∀ z ∈ zs, Nnf z ∧ z.depth ≤ depthAll xs - 1 := by
    intro zs hzs z hz
    obtain ⟨r, hr, hzr⟩ := mem_row_of_mem hzs hz
    obtain ⟨y, hy, rfl⟩ := List.mem_map.mp hr
    obtain ⟨hnnf, hle⟩ := (row_spec (hshape y hy).1 (hshape y hy).2.2).2 z hzr
    have hy' := (hshape y hy).2.1
    exact ⟨hnnf, by omega⟩
  have hne : ors ≠ [] := by
    obtain ⟨zs, hzs⟩ := exists_forall₂_mem hrows
    exact List.ne_nil_of_mem ((hmem _).mpr ⟨zs, rfl, hzs⟩)
  have hors : ∀ o ∈ ors, Nnf o ∧ o.depth ≤ depthAll xs ∧ collapses true o = false := by
    intro o ho
    obtain ⟨zs, rfl, hzs⟩ := (hmem o).mp ho
    have hz := hpicked zs hzs
    refine ⟨nnfAll_iff.mpr fun z hz' => (hz z hz').1, ?_, rfl⟩
    have hle := depthAll_le.mpr fun z hz' => (hz z hz').2
    rw [depth]
    omega
  have hreads : ∀ c v, reading c v true (.orExpression xs) = reading c v true (.andExpression ors) := by
    intro c v
    simp only [reading, readingAny_eq, readingAll_eq]
    rw [all_ors (fun y hy => (hshape y hy).2.2) hmem, any_flattenOr]
  have hcollapses : collapses true (.andExpression ors) = false := by
    rw [collapses, collapsesAny_eq, List.any_eq_false]
    exact fun o ho => by simp [(hors o ho).2.2]
  refine ⟨ors, hrun, ⟨hne, nnfAll_iff.mpr fun o ho => (hors o ho).1⟩,
    Nat.succ_le_succ (depthAll_le.mpr fun o ho => (hors o ho).2.1), fun y hy => ?_⟩
  apply hy.congr
  · rw [hcollapses]
    rfl
  · exact fun v => hreads id v
  · intro v
    have hconjuncts : conjuncts v true (.andExpression ors) =
        reading (fun _ => false) v true (.andExpression ors) := by
      rw [conjuncts, conjunctsAll_eq, reading, readingAll_eq]
      apply all_congr_mem
      intro o ho
      obtain ⟨zs, rfl, -⟩ := (hmem o).mp ho
      rfl
    rw [emitted, emitted, hcollapses, hconjuncts, ← hreads]
    rfl

/-- `pushDisjunctionsIn` returns, with the same reading and with clauses that say what is left
of the expression without its constants. -/
theorem pushDisjunctionsIn_compiled {fuel : ℕ} {x : LogicExpression} (hx : Nnf x)
    (hfuel : x.need ≤ fuel) : ∃ y, pushDisjunctionsIn fuel x = .ok y ∧ Compiled x y := by
  induction fuel generalizing x with
  | zero => cases x <;> simp [need, depth] at hfuel
  | succ n ih =>
    cases x with
    | trueExpression =>
      exact ⟨_, rfl, by simp [collapses], trivial, fun v => rfl, fun clauses =>
        ⟨[], by simp [buildInstance], fun v => rfl⟩⟩
    | falseExpression =>
      exact ⟨_, rfl, by simp [collapses], trivial, fun v => rfl, fun clauses =>
        ⟨[], by simp [buildInstance], fun v => rfl⟩⟩
    | equality e => exact ⟨_, rfl, compiled_equality e⟩
    | notExpression x =>
      cases x with
      | equality e => exact ⟨_, rfl, compiled_not e⟩
      | _ => exact hx.elim
    | andExpression xs =>
      have hmembers : ∀ x ∈ xs, ∃ y, pushDisjunctionsIn n x = .ok y ∧ Compiled x y := by
        intro x hmem
        apply ih (nnfAll_iff.mp hx.2 x hmem)
        have hle := depthAll_le.mp le_rfl x hmem
        have hneed := x.need_le
        rw [need, depth] at hfuel
        omega
      exact replaceAll_compiled List.Forall₂.nil (fun x hx => absurd hx List.not_mem_nil) hmembers
    | orExpression xs =>
      have hshape := shape_flattenOr hx
      rw [pushDisjunctionsIn]
      split_ifs with hflat
      · refine ⟨_, rfl, compiled_clause ?_ (fun y hy => (hshape y hy).1) fun c v => any_flattenOr xs⟩
        rw [disjunctiveAll_iff]
        intro y hy
        have hnary := List.all_eq_true.mp hflat y hy
        have hnnf := (hshape y hy).1
        cases y with
        | andExpression ys => cases hnary
        | orExpression ys => cases hnary
        | notExpression y => cases y <;> trivial
        | _ => trivial
      · obtain ⟨ors, hrun, hnnf, hle, htransfer⟩ :=
          distribute_flattenOr hx (Bool.not_eq_true _ ▸ hflat)
        obtain ⟨y, hy, hcompiled⟩ := ih hnnf (by simp only [need] at hfuel ⊢; omega)
        refine ⟨y, ?_, htransfer y hcompiled⟩
        rw [hrun]
        exact hy

end LogicExpression
end Jmpl
end Livingstone
