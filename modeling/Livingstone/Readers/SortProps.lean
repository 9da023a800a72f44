import Livingstone.Readers.ToBin
import Livingstone.Readers.Translator

/-! Sorting the propositions by their kinds (`xlate_sort_props.cpp`). -/

namespace Livingstone

namespace SortProps

inductive Block where
  | positive
  | negative
  | same
  | different
  deriving DecidableEq, Repr

def block (p : L2rProposition) : Block :=
  if p.isEquality then if p.isPositive then .same else .different
  else if p.isPositive then .positive else .negative

/-- `pos_idx`, `neg_idx`, `same_idx` and `diff_idx` before the loop. -/
def firstIndex (n : PropCounts) : Block → ℕ
  | .positive => 0
  | .negative => n.npos
  | .same => n.npos + n.nneg
  | .different => n.npos + n.nneg + n.nsame

structure Sorting where
  translation : Translation
  array : List (Option L2rProposition)
  index : Block → ℕ

/-- One turn of `copy_all_props`, for the proposition `i`. -/
def copyPropTurn (s : Sorting) (p : L2rProposition × ℕ) : Except ReaderError Sorting := do
  let id := s.index (block p.1)
  let q ← Translation.copyProp s.translation.vars p.1
  let props ← s.translation.props.addMapping p.2 id
  let _ ← boundsCheckAccess id s.array "propositions"
  return {
    translation := { s.translation with props := props }
    array := s.array.set id (some q)
    index := Function.update s.index (block p.1) (id + 1) }

variable (source : L2File)

/-- No place of the array must be left null. -/
def copyAllProps (t : Translation) : Except ReaderError Translation := do
  let n ← ToBin.countProps source
  let s ← source.props.zipIdx.foldlM copyPropTurn {
    translation := t
    array := List.replicate source.props.length none
    index := firstIndex n }
  if s.array.all Option.isSome then
    return { s.translation with dest := { s.translation.dest with props := s.array.reduceOption } }
  else .error .nullPointer

def translate : Except ReaderError Translation := do
  let t := Translation.copyAllEnums source {}
  let t ← Translation.copyAllVars source t
  let t ← copyAllProps source t
  let t ← Translation.copyAllClauses source t
  Translation.copyAllTransitions source t

end SortProps

end Livingstone
