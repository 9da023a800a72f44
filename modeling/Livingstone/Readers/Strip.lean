import Livingstone.Readers.Translator

/-! Stripping the names from a model (`xlate_strip.cpp`). Types with the same number of members
become one. -/

namespace Livingstone

namespace Strip

variable (source : L2File)

/-- One turn of `copy_all_enums`: the types of the destination, which are found by their sizes, and
the type for each of the source. -/
def copyEnumTurn (s : List ℕ × Mapping) (e : ℕ × ℕ) : Except ReaderError (List ℕ × Mapping) :=
  match s.1.idxOf? e.1 with
  | none => do return (s.1 ++ [e.1], ← s.2.addMapping e.2 s.1.length)
  | some i => do return (s.1, ← s.2.addMapping e.2 i)

def copyAllEnums (t : Translation) : Except ReaderError (Translation × Mapping) := do
  let (enums, map) ← source.enums.zipIdx.foldlM copyEnumTurn ([], [])
  return ({ t with dest := { t.dest with enums := enums } }, map)

/-- One turn of `copy_all_vars`. -/
def copyVar (types m : Mapping) (v : ℕ) : Except ReaderError (Mapping × L2rVariable) := do
  let src ← source.getVar v
  match types.getDestination src.type with
  | none => .error (.reader ("no matching enumeration found for source var " ++ Nat.repr v ++
      " of type " ++ Nat.repr src.type))
  | some type => do
    let x : L2rVariable := { type := type, initial := src.initial }
    let x ← x.setKind v src.kind
    Translation.addVarMapping source m x v v

def copyAllVars (types : Mapping) (t : Translation) : Except ReaderError Translation :=
  (List.range source.vars.length).foldlM (fun t v => do
    let (m, x) ← copyVar source types t.vars v
    return { t with vars := m, dest := { t.dest with vars := t.dest.vars ++ [x] } }) t

/-- The clauses and the transitions are copied without their names, which the model does not
have. -/
def translate : Except ReaderError Translation := do
  let (t, types) ← copyAllEnums source {}
  let t ← copyAllVars source types t
  let t ← Translation.copyAllProps source t
  let t ← Translation.copyAllClauses source t
  Translation.copyAllTransitions source t

end Strip

end Livingstone
