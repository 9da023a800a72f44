import Mathlib.Tactic

/-! The clauses that are read from an XMPL file (`from_xmpl.cpp`). The propositions are known by
their addresses. -/

namespace Livingstone.FromXmpl

/-- The clauses so far, the last one first, each with its number. -/
structure Clauses where
  clauses : List (ℕ × List ℕ) := []
  nclauses : ℕ := 0

/-- `add_clause_prop`. The insertion is after the last smaller one, or after the first one if that
is larger. -/
def addClauseProp (prop : ℕ) (clauseProps : List ℕ) : List ℕ :=
  let k := clauseProps.findIdx fun q => prop = q ∨ prop < q
  if clauseProps[k]? = some prop then clauseProps
  else if clauseProps = [] then [prop]
  else clauseProps.insertIdx (k - 1 + 1) prop

/-- `clause_eq_clause_props`, of one clause after the other. -/
def Clauses.findClause (s : Clauses) (clauseProps : List ℕ) : Option ℕ :=
  (s.clauses.find? fun c => c.2 = clauseProps).map (·.1)

def findOrCreateClause (clauseProps : List ℕ) (s : Clauses) : Option ℕ × Clauses :=
  if clauseProps.length = 0 then (none, s)
  else match s.findClause clauseProps with
    | some c => (some c, s)
    | none => (some s.nclauses,
      { clauses := (s.nclauses, clauseProps) :: s.clauses, nclauses := s.nclauses + 1 })

/-- The list after the propositions of a clause were read. -/
def addAll (props : List ℕ) : List ℕ := props.foldl (fun l p => addClauseProp p l) []

/-- One clause of the file, whose propositions come in the order `props`. -/
def readClause (props : List ℕ) (s : Clauses) : Option ℕ × Clauses :=
  findOrCreateClause (addAll props) s

def readClauses (file : List (List ℕ)) (s : Clauses) : Clauses :=
  file.foldl (fun s props => (readClause props s).2) s

end Livingstone.FromXmpl
