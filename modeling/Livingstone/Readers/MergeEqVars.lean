import Livingstone.Readers.Translator

/-! Merging the variables that the background clauses make equal
(`xlate_merge_eq_vars.cpp`). Two classes are the same object when they have the same
members, since no variable is in two. -/

namespace Livingstone

structure EqClass where
  members : List ℕ
  representative : ℕ
  deriving DecidableEq, Repr

namespace MergeEqVars

variable (source : L2File)

def singleton (v : ℕ) : EqClass := ⟨[v], v⟩

/-- `EqClass::add`: a variable with a kind becomes the representative. -/
def add (c : EqClass) (v : ℕ) : Except ReaderError EqClass := do
  let x ← source.getVar v
  if x.kind ≠ .unknown then do
    let r ← source.getVar c.representative
    if r.kind = .unknown then return ⟨v :: c.members, v⟩
    else .error (.optimizer ("Multiple representatives (" ++ Nat.repr c.representative ++ ", " ++
      Nat.repr v ++ ") found for an equivalence class"))
  else return { c with members := v :: c.members }

def absorb (c other : EqClass) : Except ReaderError EqClass :=
  other.members.foldlM (add source) c

/-- The class of a variable, and a new one in front where it has none. -/
def getEquivalenceClass (classes : List EqClass) (v : ℕ) : EqClass × List EqClass :=
  match classes.find? fun c => v ∈ c.members with
  | some c => (c, classes)
  | none => (singleton v, singleton v :: classes)

/-- One turn of `compute_equivalence_classes`. -/
def mergeTurn (classes : List EqClass) (p : L2rPropVarVar) : Except ReaderError (List EqClass) :=
  let (c₁, classes) := getEquivalenceClass classes p.var
  let (c₂, classes) := getEquivalenceClass classes p.otherVar
  if c₁ ≠ c₂ then do
    let c ← absorb source c₁ c₂
    return (classes.replace c₁ c).filter (· ≠ c₂)
  else .ok classes

/-- The comparison that a clause consists of, if it does. -/
def getEquivalence (c : L2rClause) : Option L2rPropVarVar :=
  match source.clauseProps c with
  | [.varVar p] => some p
  | _ => none

/-- The comparisons that the background clauses consist of, the last one first. -/
def equivalences : List L2rPropVarVar :=
  (source.clauses.filterMap fun c =>
    if c.isInBackground then getEquivalence source c else none).reverse

def findEquivalences : Except ReaderError (List EqClass) :=
  (equivalences source).foldlM (mergeTurn source)
    ((List.range source.vars.length).reverse.map singleton)

/-- The variable for a class: the copy of its representative, to which all its members
are mapped. -/
def copyClass (m : Mapping) (id : ℕ) (c : EqClass) : Except ReaderError (Mapping × L2rVariable) := do
  let x ← Translation.copyVar source m c.representative id
  c.members.foldlM (fun x v => Translation.addVarMapping source x.1 x.2 id v) x

def copyAllVars (t : Translation) : Except ReaderError Translation := do
  let classes ← findEquivalences source
  classes.foldlM (fun t c => do
    let (m, x) ← copyClass source t.vars t.dest.vars.length c
    return { t with vars := m, dest := { t.dest with vars := t.dest.vars ++ [x] } }) t

def translate : Except ReaderError Translation := do
  let t := Translation.copyAllEnums source {}
  let t ← copyAllVars source t
  let t ← Translation.copyAllProps source t
  let t ← Translation.copyAllClauses source t
  Translation.copyAllTransitions source t

end MergeEqVars

end Livingstone
