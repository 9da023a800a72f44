import Livingstone.Lib.Loop
import Livingstone.Readers.L2File
import Livingstone.Tms.Ptheory

/-! The clauses that the engine gets for a clause of a model (`to_t_system.cpp`). Its
literals that compare two variables are distributed over the values by means of a stack
of partitions. -/

namespace Livingstone

open Loop

/-- The variables of the engine, made from those of the file: one proposition for each
value, and no two of them the same. -/
structure Variables (f : L2File) where
  propositions : ℕ → List PropId
  length_eq : ∀ v, (propositions v).length = f.nmembers v
  unique : ∀ (v w x y : ℕ) (p : PropId), (propositions v)[x]? = some p → (propositions w)[y]? = some p →
    v = w ∧ x = y

/-- A variable and the index of a value. -/
abbrev ProtoAssignment := ℕ × ℕ

namespace ToTSystem

variable {f : L2File} (V : Variables f)

def getProp (x : ProtoAssignment) : Except ReaderError PropId :=
  match (V.propositions x.1)[x.2]? with
  | some p => .ok p
  | none => .error (.bounds "variable propositions" x.2 (V.propositions x.1).length)

/-- `T_system::create_constraint`. The array of a clause has `num_lits` cells, and where
that count has wrapped the constructor writes past its end. -/
def createConstraint (positive negative : List ProtoAssignment) : Except ReaderError Clause := do
  let pos ← positive.mapM (getProp V)
  let neg ← negative.mapM (getProp V)
  let k := Clause.construct none pos.reverse neg.reverse false
  if k.numLits = k.literals.length then return k else .error .overrun

/-- The positive and the negative literals of a clause. -/
abbrev Singles := List ProtoAssignment × List ProtoAssignment

structure Partition where
  singles : Singles
  duals : List L2rPropVarVar

variable (f) in
/-- The literals for each value of the variables that `d` compares, in the order in which
the partitions are pushed. -/
def split (singles : Singles) (d : L2rPropVarVar) : List Singles :=
  let n := f.nmembers d.var
  (List.range n).flatMap fun i =>
    let j := n - i - 1
    if d.positive then
      [(singles.1 ++ [(d.otherVar, j)], singles.2 ++ [(d.var, j)]),
        (singles.1 ++ [(d.var, j)], singles.2 ++ [(d.otherVar, j)])]
    else [(singles.1, singles.2 ++ [(d.var, j)] ++ [(d.otherVar, j)])]

/-- One turn of `expandClauseEquality`. The new partitions start from the literals the
function was called with. -/
def expandTurn (singles : Singles) (x : List Partition × List Clause) :
    Except ReaderError ((List Partition × List Clause) ⊕ List Clause) :=
  match x.1 with
  | [] => .ok (.inr x.2)
  | p :: stack =>
    match p.duals with
    | [] => do
      let k ← createConstraint V p.singles.1 p.singles.2
      return .inl (stack, x.2 ++ [k])
    | d :: tail =>
      if f.type d.var = f.type d.otherVar then
        .ok (.inl ((split f singles d).foldl (fun stack s => ⟨s, tail⟩ :: stack) stack, x.2))
      else .error (.reader "Type mismatch in equality")

variable (f) in
/-- The number of turns that a partition with these comparisons takes. -/
def turns (singles : Singles) : List L2rPropVarVar → ℕ
  | [] => 1
  | d :: tail => 1 + (split f singles d).length * turns singles tail

def expandClauseEquality (equality : List L2rPropVarVar) (singles : Singles) :
    Except ReaderError (List Clause) :=
  whileM .outOfFuel (expandTurn V singles) (turns f singles equality + 1)
    ([⟨singles, equality⟩], [])

/-- A literal is put on its list: comparisons in front, the others at the end. -/
def collect (x : List L2rPropVarVar × Singles) : L2rProposition → List L2rPropVarVar × Singles
  | .varVar p => (p :: x.1, x.2)
  | .varValue p =>
    if p.positive then (x.1, x.2.1 ++ [(p.var, p.value)], x.2.2)
    else (x.1, x.2.1, x.2.2 ++ [(p.var, p.value)])

def expandClause (c : L2rClause) : Except ReaderError (List Clause) :=
  let (equality, singles) := (f.clauseProps c).foldl collect ([], [], [])
  expandClauseEquality V equality singles

end ToTSystem

end Livingstone
