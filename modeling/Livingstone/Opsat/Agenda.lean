import Livingstone.ConflictDb.Conflict
import Livingstone.Lib.BinaryHeap

/-! The agenda of the best-first search (`candidate.cpp`, `agenda_types.h`,
`cbfs_agenda.cpp`): its elements in the order of their weight, and the elements that
follow the one popped last. Weights are unsigned and wrap. -/

namespace Livingstone

abbrev Candidate := List Assignment

namespace Candidate

def sumAssignmentWeights (D : Assignables) (assignments : List Assignment) : Weight :=
  assignments.foldl (fun result a => result + D.weight a) 0

def getWeight (D : Assignables) (candidate : Candidate) : Weight :=
  sumAssignmentWeights D candidate

def consistentAssignment (candidate : Candidate) (a : Assignment) : Bool :=
  candidate.all fun b => b.var ≠ a.var

end Candidate

structure CbfsElement where
  candidatePrefix : Candidate := []
  currentAssignment : Option Assignment := none
  remainingAssignments : List Assignment := []
  weight : Weight := 0

namespace CbfsElement

def computeElementWeight (D : Assignables) (emptyElementWeight : Weight) (e : CbfsElement) :
    Weight :=
  emptyElementWeight + e.candidatePrefix.getWeight D +
    match e.currentAssignment with
    | none => 0
    | some a => D.weight a

def generateCandidate (e : CbfsElement) : Candidate :=
  e.candidatePrefix ++ e.currentAssignment.toList

theorem sumAssignmentWeights_append (D : Assignables) (as : List Assignment) (a : Assignment) :
    Candidate.sumAssignmentWeights D (as ++ [a]) =
      Candidate.sumAssignmentWeights D as + D.weight a := by
  simp [Candidate.sumAssignmentWeights]

/-- The weight of an element is that of its candidate on top of the empty one's. -/
theorem computeElementWeight_eq (D : Assignables) (w : Weight) (e : CbfsElement) :
    e.computeElementWeight D w = w + e.generateCandidate.getWeight D := by
  cases h : e.currentAssignment with
  | none => simp [computeElementWeight, generateCandidate, h]
  | some a =>
    simp only [computeElementWeight, generateCandidate, Candidate.getWeight, h, Option.toList_some,
      sumAssignmentWeights_append, UInt32.add_assoc]

def isAssignmentUseful (D : Assignables) (candidate : Candidate) (a : Assignment) : Bool :=
  !D.isDefault a && candidate.consistentAssignment a && !candidate.contains a

def shiftAssignment (a : Assignment) (remaining : List Assignment) (e : CbfsElement) :
    CbfsElement :=
  { e with currentAssignment := some a, remainingAssignments := remaining }

end CbfsElement

/-- `Conflict::resolving_assignments`, with `Assignment::append_other_values`. -/
def Conflict.resolvingAssignments (D : Assignables) (k : Conflict) : List Assignment :=
  k.assignments.foldl (fun newItems a => newItems ++ (D.others a).reverse) []

/-- The heap ordered by `weight`, with the weight of every element the sum that `insert`
computes. -/
structure CbfsAgenda (D : Assignables) where
  emptyElementWeight : Weight
  elements : List CbfsElement
  ordered : BinaryHeap.Ordered (fun e : CbfsElement => e.weight.toNat) elements
  weighed : ∀ e ∈ elements, e.weight = e.computeElementWeight D emptyElementWeight

namespace CbfsAgenda

variable {D : Assignables}

def emptyAgenda (agenda : CbfsAgenda D) : Bool := agenda.elements.isEmpty

def top (agenda : CbfsAgenda D) : Option CbfsElement := agenda.elements[0]?

def insert (agenda : CbfsAgenda D) (e : CbfsElement) : CbfsAgenda D :=
  let e := { e with weight := e.computeElementWeight D agenda.emptyElementWeight }
  { agenda with
    elements := BinaryHeap.insert (fun e : CbfsElement => e.weight.toNat) e agenda.elements
    ordered := BinaryHeap.ordered_insert agenda.ordered e
    weighed := by
      intro d hd
      rcases List.mem_cons.mp ((BinaryHeap.insert_perm e agenda.elements).mem_iff.mp hd) with rfl | hd
      · rfl
      · exact agenda.weighed d hd }

/-- The element popped and the agenda without it. -/
def pop (agenda : CbfsAgenda D) : Option (CbfsElement × CbfsAgenda D) :=
  match h : BinaryHeap.pop (fun e : CbfsElement => e.weight.toNat) agenda.elements with
  | none => none
  | some (e, l) => some (e,
    { agenda with
      elements := l
      ordered := BinaryHeap.ordered_pop agenda.ordered h
      weighed := fun d hd => agenda.weighed d
        ((BinaryHeap.pop_perm h).mem_iff.mpr (List.mem_cons_of_mem e hd)) })

/-- Agendas as the constructor and `initialize_agenda` build them. -/
def empty (D : Assignables) (emptyElementWeight : Weight) : CbfsAgenda D where
  emptyElementWeight := emptyElementWeight
  elements := []
  ordered i _ x p hx := by simp at hx
  weighed e he := absurd he List.not_mem_nil

def initializeAgenda (D : Assignables) (emptyElementWeight : Weight) (candidates : List Candidate) :
    CbfsAgenda D :=
  if candidates.isEmpty then (empty D emptyElementWeight).insert {}
  else candidates.reverse.foldl (fun agenda c => agenda.insert { candidatePrefix := c })
    (empty D emptyElementWeight)

def popAll : ℕ → List Assignment → List Assignment
  | 0, _ => []
  | n + 1, workheap =>
    match BinaryHeap.pop (fun a => (D.weight a).toNat) workheap with
    | none => []
    | some (a, workheap) => a :: popAll n workheap

def popUselessAssignments (D : Assignables) (assignments : List Assignment) (candidate : Candidate) :
    List Assignment :=
  assignments.dropWhile fun a => !CbfsElement.isAssignmentUseful D candidate a

def getNewAssignments (D : Assignables) (candidate : Candidate) (k : Conflict) : List Assignment :=
  let assignments := k.resolvingAssignments D
  let workheap := assignments.foldl
    (fun heap a => BinaryHeap.insert (fun a => (D.weight a).toNat) a heap) []
  popUselessAssignments D (popAll (D := D) workheap.length workheap) candidate

/-- The part of `expand_element` for a candidate with a conflict. -/
def expandConflict (agenda : CbfsAgenda D) (last : CbfsElement) (conflict : Option Conflict) :
    CbfsAgenda D :=
  match conflict with
  | none => agenda
  | some k =>
    let candidate := last.generateCandidate
    match getNewAssignments D candidate k with
    | [] => agenda
    | a :: assignments =>
      agenda.insert
        { candidatePrefix := candidate, currentAssignment := some a,
          remainingAssignments := assignments }

def expandElement (agenda : CbfsAgenda D) (last : CbfsElement) (conflict : Option Conflict) :
    CbfsAgenda D :=
  let agenda := agenda.expandConflict last conflict
  match popUselessAssignments D last.remainingAssignments last.candidatePrefix with
  | [] => agenda
  | a :: remaining => agenda.insert (last.shiftAssignment a remaining)

theorem top_le {agenda : CbfsAgenda D} {e : CbfsElement} (htop : agenda.top = some e) :
    ∀ d ∈ agenda.elements, e.weight ≤ d.weight := fun d hd =>
  UInt32.le_iff_toNat_le.mpr (BinaryHeap.root_le agenda.ordered htop d hd)

theorem pop_eq_none {agenda : CbfsAgenda D} : agenda.pop = none ↔ agenda.elements = [] := by
  unfold pop
  split
  · next h => simpa using BinaryHeap.pop_eq_none.mp h
  · next h => simpa using fun hnil => by simp [hnil, BinaryHeap.pop] at h

theorem pop_top {agenda agenda' : CbfsAgenda D} {e : CbfsElement}
    (h : agenda.pop = some (e, agenda')) :
    agenda.top = some e ∧ agenda'.emptyElementWeight = agenda.emptyElementWeight := by
  unfold pop at h
  split at h
  · cases h
  · next hpop =>
    obtain ⟨rfl, rfl⟩ := Prod.mk.inj (Option.some.inj h)
    exact ⟨BinaryHeap.pop_top hpop, rfl⟩

theorem insert_perm (agenda : CbfsAgenda D) (e : CbfsElement) :
    (agenda.insert e).elements.Perm
      ({ e with weight := e.computeElementWeight D agenda.emptyElementWeight } ::
        agenda.elements) :=
  BinaryHeap.insert_perm _ agenda.elements

theorem pop_perm {agenda agenda' : CbfsAgenda D} {e : CbfsElement}
    (h : agenda.pop = some (e, agenda')) : agenda.elements.Perm (e :: agenda'.elements) := by
  unfold pop at h
  split at h
  · cases h
  · next hpop =>
    obtain ⟨rfl, rfl⟩ := Prod.mk.inj (Option.some.inj h)
    exact BinaryHeap.pop_perm hpop

@[simp]
theorem insert_emptyElementWeight (agenda : CbfsAgenda D) (e : CbfsElement) :
    (agenda.insert e).emptyElementWeight = agenda.emptyElementWeight := rfl

@[simp]
theorem expandConflict_emptyElementWeight (agenda : CbfsAgenda D) (e : CbfsElement)
    (k : Option Conflict) :
    (agenda.expandConflict e k).emptyElementWeight = agenda.emptyElementWeight := by
  unfold expandConflict
  split
  · rfl
  · dsimp only
    split
    · rfl
    · rfl

@[simp]
theorem expandElement_emptyElementWeight (agenda : CbfsAgenda D) (e : CbfsElement)
    (k : Option Conflict) :
    (agenda.expandElement e k).emptyElementWeight = agenda.emptyElementWeight := by
  unfold expandElement
  dsimp only
  split
  · exact expandConflict_emptyElementWeight agenda e k
  · exact expandConflict_emptyElementWeight agenda e k

end CbfsAgenda

end Livingstone
