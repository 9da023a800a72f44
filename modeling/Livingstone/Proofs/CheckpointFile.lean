import Mathlib
import Livingstone.Checkpoint.File

/-! The round trip of a checkpoint through its file: what the handler makes of the elements that
`serialize` writes, and which checkpoints come back. -/

namespace Livingstone
namespace Checkpoint

/-- What is read of a list comes back as the list of what is read of its members. -/
theorem foldlM_flatMap_append {σ ε α β : Type} (step : σ → ε → Except String σ) (write : α → List ε)
    (read : α → β) (state : List β → σ)
    (hstep : ∀ l a, (write a).foldlM step (state l) = .ok (state (l ++ [read a])))
    (xs : List α) (l : List β) :
    (xs.flatMap write).foldlM step (state l) = .ok (state (l ++ xs.map read)) := by
  induction xs generalizing l with
  | nil => simp [pure, Except.pure]
  | cons a xs ih =>
    rw [List.flatMap_cons, List.foldlM_append, hstep l a]
    simp only [bind, Except.bind]
    rw [ih (l ++ [read a])]
    simp

theorem map_eq_self_iff {α : Type} {f : α → α} {xs : List α} :
    xs.map f = xs ↔ ∀ x ∈ xs, f x = x := by
  conv_lhs => rhs; rw [← List.map_id xs]
  exact List.map_inj_left

namespace Data

def assignmentUnsigneds (a : CPAssignment) : List UInt32 := [a.varID, a.time, a.value]

/-- The numbers that are written and are read back by `atoi` as unsigned. -/
def unsigneds (d : Data) : List UInt32 :=
  [d.oldestTimestep, d.ntimesteps] ++ d.cmdsObs.flatMap assignmentUnsigneds ++
    d.initialModes.flatMap (fun m => m.modes.flatMap fun v => [v.varID, v.value]) ++
    d.candidates.flatMap (fun k => k.si :: k.failures.flatMap assignmentUnsigneds) ++
    d.conflicts.flatMap (fun k => k.assignments.flatMap assignmentUnsigneds) ++
    d.commandHistory.map Prod.snd

/-- Each failure of a candidate has the first value of its variable. -/
def FailuresAtZero (d : Data) : Prop := ∀ k ∈ d.candidates, ∀ f ∈ k.failures, f.value = 0

end Data

namespace Conversions

variable (c : Conversions)

/-- The number that is read for a number that was written. -/
def reread (n : UInt32) : UInt32 := c.readUnsigned (unsigned n)

def rereadAssignment (a : CPAssignment) : CPAssignment :=
  ⟨c.reread a.varID, c.reread a.time, c.reread a.value⟩

def rereadFailure (a : CPAssignment) : CPAssignment := ⟨c.reread a.varID, c.reread a.time, 0⟩

def rereadInitialValue (v : InitialValue) : InitialValue := ⟨c.reread v.varID, c.reread v.value⟩

def rereadInitialModes (m : InitialModeAssignments) : InitialModeAssignments :=
  ⟨m.weight, m.modes.map c.rereadInitialValue⟩

def rereadCandidate (k : CPCandidate) : CPCandidate :=
  ⟨c.reread k.si, k.failures.map c.rereadFailure⟩

def rereadConflict (k : CPConflict) : CPConflict := ⟨k.assignments.map c.rereadAssignment⟩

def rereadCommand (command : Int32 × UInt32) : Int32 × UInt32 := (command.1, c.reread command.2)

def restored (d : Data) : Data where
  oldestTimestep := c.reread d.oldestTimestep
  ntimesteps := c.reread d.ntimesteps
  cmdsObs := d.cmdsObs.map c.rereadAssignment
  initialModes := d.initialModes.map c.rereadInitialModes
  candidates := d.candidates.map c.rereadCandidate
  conflicts := d.conflicts.map c.rereadConflict
  commandHistory := d.commandHistory.map c.rereadCommand

/-- The handler reads what stands between the tags and then what stands behind them. -/
theorem foldlM_element (h : Handler) (name : String) (attributes : List (String × String))
    (content : List Event) :
    (element name attributes content).foldlM c.handle h =
      (do
        let h₁ ← c.startElement h name attributes
        let h₂ ← content.foldlM c.handle h₁
        endElement h₂ name) := by
  simp [element, handle]

/-- The elements that the handler passes over. -/
def groups : List String :=
  ["cp:L2checkpoint", "cp:StateVariable", "cp:CandidateSet", "cp:ConflictSet", "cp:CommandHistory"]

theorem foldlM_group (h : Handler) {name : String} (hname : name ∈ groups)
    (attributes : List (String × String)) (content : List Event) :
    (element name attributes content).foldlM c.handle h = content.foldlM c.handle h := by
  have hstart : c.startElement h name attributes = .ok h := by
    simp only [groups, List.mem_cons, List.not_mem_nil, or_false] at hname
    obtain rfl | rfl | rfl | rfl | rfl := hname <;> rfl
  have hend : ∀ h₂, endElement h₂ name = .ok h₂ := by
    intro h₂
    simp only [groups, List.mem_cons, List.not_mem_nil, or_false] at hname
    obtain rfl | rfl | rfl | rfl | rfl := hname <;> rfl
  rw [foldlM_element, hstart]
  simp only [bind, Except.bind]
  cases content.foldlM c.handle h with
  | error message => rfl
  | ok h₂ => exact hend h₂

/-- The elements without others in them. -/
def leaves : List String :=
  ["cp:Times", "cp:Assignment", "cp:InitialValue", "cp:Failure", "cp:Command"]

theorem foldlM_leaf (h : Handler) {name : String} (hname : name ∈ leaves)
    (attributes : List (String × String)) :
    (leaf name attributes).foldlM c.handle h = c.startElement h name attributes := by
  have hend : ∀ h₂, endElement h₂ name = .ok h₂ := by
    intro h₂
    simp only [leaves, List.mem_cons, List.not_mem_nil, or_false] at hname
    obtain rfl | rfl | rfl | rfl | rfl := hname <;> rfl
  have hleaf : leaf name attributes = element name attributes [] := rfl
  rw [hleaf, foldlM_element]
  simp only [List.foldlM_nil, bind, Except.bind, pure, Except.pure]
  cases c.startElement h name attributes with
  | error message => rfl
  | ok h₁ => exact hend h₁

theorem read_times (h : Handler) (d : Data) :
    (serializeTimes d).foldlM c.handle h =
      .ok { h with theData := { h.theData with
        oldestTimestep := c.reread d.oldestTimestep
        ntimesteps := c.reread d.ntimesteps } } := by
  rw [serializeTimes, c.foldlM_leaf h (by decide), startElement_times]
  simp [handleStartTimes, readAttribute, reread]

theorem read_commandsAndObservations (h : Handler) (d : Data) :
    (serializeCommandsAndObservations d).foldlM c.handle h =
      .ok { h with
        theData := { h.theData with
          cmdsObs := h.theData.cmdsObs ++ d.cmdsObs.map c.rereadAssignment }
        inCommandsAndObservations := false } := by
  have hstep : ∀ l a, (serializeAssignment a).foldlM c.handle
      { h with theData := { h.theData with cmdsObs := l }, inCommandsAndObservations := true } =
      .ok { h with
        theData := { h.theData with cmdsObs := l ++ [c.rereadAssignment a] }
        inCommandsAndObservations := true } := by
    intro l a
    rw [serializeAssignment, c.foldlM_leaf _ (by decide), startElement_assignment]
    simp [handleStartAssignment, readAttribute, rereadAssignment, reread]
  have hread := foldlM_flatMap_append c.handle serializeAssignment c.rereadAssignment
    (fun l => { h with
      theData := { h.theData with cmdsObs := l }, inCommandsAndObservations := true })
    hstep d.cmdsObs h.theData.cmdsObs
  rw [serializeCommandsAndObservations, foldlM_element]
  simp only [startElement_commandsAndObservations, bind, Except.bind]
  rw [hread]
  rfl

theorem read_initialModes (h : Handler) (hnone : h.initialModeAssignments = none)
    (m : InitialModeAssignments) :
    (serializeInitialModeAssignments m).foldlM c.handle h =
      .ok { h with theData := { h.theData with
        initialModes := h.theData.initialModes ++ [c.rereadInitialModes m] } } := by
  have hstep : ∀ l v, (serializeInitialValue v).foldlM c.handle
      { h with initialModeAssignments := some ⟨m.weight, l⟩ } =
      .ok { h with
        initialModeAssignments := some ⟨m.weight, l ++ [c.rereadInitialValue v]⟩ } := by
    intro l v
    rw [serializeInitialValue, c.foldlM_leaf _ (by decide), startElement_initialValue]
    simp [handleStartInitialValue, readAttribute, rereadInitialValue, reread]
  have hread := foldlM_flatMap_append c.handle serializeInitialValue c.rereadInitialValue
    (fun l => { h with initialModeAssignments := some ⟨m.weight, l⟩ }) hstep m.modes []
  have hweight : readAttribute [("weight", unsigned m.weight)] "weight" c.atof 0 = m.weight := by
    simp [readAttribute, c.atof_unsigned]
  rw [serializeInitialModeAssignments, foldlM_element]
  simp only [startElement_initialModeAssignmentSet, handleStartInitialModeAssignments, hnone,
    hweight, bind, Except.bind]
  rw [hread]
  dsimp only
  rw [endElement_initialModeAssignmentSet rfl]
  simp [rereadInitialModes]

theorem read_stateVariables (h : Handler) (hnone : h.initialModeAssignments = none) (d : Data) :
    (serializeStateVariables d).foldlM c.handle h =
      .ok { h with theData := { h.theData with
        initialModes := h.theData.initialModes ++ d.initialModes.map c.rereadInitialModes } } := by
  have hread := foldlM_flatMap_append c.handle serializeInitialModeAssignments c.rereadInitialModes
    (fun l => { h with theData := { h.theData with initialModes := l } })
    (fun l m => c.read_initialModes
      { h with theData := { h.theData with initialModes := l } } hnone m) d.initialModes h.theData.initialModes
  rw [serializeStateVariables, c.foldlM_group h (by decide)]
  exact hread

theorem read_candidate (h : Handler) (hnone : h.candidate = none) (k : CPCandidate) :
    (serializeCandidate k).foldlM c.handle h =
      .ok { h with theData := { h.theData with
        candidates := h.theData.candidates ++ [c.rereadCandidate k] } } := by
  -- the value of a failure is under a name that is not looked for
  have hstep : ∀ l a, (serializeFailure a).foldlM c.handle { h with candidate := some ⟨c.reread k.si, l⟩ } =
      .ok { h with candidate := some ⟨c.reread k.si, l ++ [c.rereadFailure a]⟩ } := by
    intro l a
    rw [serializeFailure, c.foldlM_leaf _ (by decide), startElement_failure]
    simp [handleStartFailure, readAttribute, rereadFailure, reread]
  have hread := foldlM_flatMap_append c.handle serializeFailure c.rereadFailure
    (fun l => { h with candidate := some ⟨c.reread k.si, l⟩ }) hstep k.failures []
  have hindex : readAttribute [("index", unsigned k.si)] "index" c.readUnsigned 0 =
      c.reread k.si := by
    simp [readAttribute, reread]
  rw [serializeCandidate, foldlM_element]
  simp only [startElement_candidate, handleStartCandidate, hnone, hindex, bind, Except.bind]
  rw [hread]
  dsimp only
  rw [endElement_candidate rfl]
  simp [rereadCandidate]

theorem read_candidates (h : Handler) (hnone : h.candidate = none) (d : Data) :
    (serializeCandidates d).foldlM c.handle h =
      .ok { h with theData := { h.theData with
        candidates := h.theData.candidates ++ d.candidates.map c.rereadCandidate } } := by
  have hread := foldlM_flatMap_append c.handle serializeCandidate c.rereadCandidate
    (fun l => { h with theData := { h.theData with candidates := l } })
    (fun l k => c.read_candidate
      { h with theData := { h.theData with candidates := l } } hnone k) d.candidates h.theData.candidates
  rw [serializeCandidates, c.foldlM_group h (by decide)]
  exact hread

theorem read_conflict (h : Handler) (hout : h.inCommandsAndObservations = false)
    (hin : h.inConflict = false) (hnone : h.conflict = none) (k : CPConflict) :
    (serializeConflict k).foldlM c.handle h =
      .ok { h with theData := { h.theData with
        conflicts := h.theData.conflicts ++ [c.rereadConflict k] } } := by
  have hstep : ∀ l a, (serializeAssignment a).foldlM c.handle
      { h with conflict := some ⟨l⟩, inConflict := true } =
      .ok { h with conflict := some ⟨l ++ [c.rereadAssignment a]⟩, inConflict := true } := by
    intro l a
    rw [serializeAssignment, c.foldlM_leaf _ (by decide), startElement_assignment]
    simp [handleStartAssignment, readAttribute, rereadAssignment, reread, hout]
  have hread := foldlM_flatMap_append c.handle serializeAssignment c.rereadAssignment
    (fun l => { h with conflict := some ⟨l⟩, inConflict := true }) hstep k.assignments []
  rw [serializeConflict, foldlM_element]
  simp only [startElement_conflict, handleStartConflict, hnone, bind, Except.bind]
  rw [hread]
  dsimp only
  rw [endElement_conflict rfl]
  simp [rereadConflict, hin]

theorem read_conflicts (h : Handler) (hout : h.inCommandsAndObservations = false)
    (hin : h.inConflict = false) (hnone : h.conflict = none) (d : Data) :
    (serializeConflicts d).foldlM c.handle h =
      .ok { h with theData := { h.theData with
        conflicts := h.theData.conflicts ++ d.conflicts.map c.rereadConflict } } := by
  have hread := foldlM_flatMap_append c.handle serializeConflict c.rereadConflict
    (fun l => { h with theData := { h.theData with conflicts := l } })
    (fun l k => c.read_conflict
      { h with theData := { h.theData with conflicts := l } } hout hin hnone k) d.conflicts h.theData.conflicts
  rw [serializeConflicts, c.foldlM_group h (by decide)]
  exact hread

theorem read_commandHistory (h : Handler) (d : Data) :
    (serializeCommandHistory d).foldlM c.handle h =
      .ok { h with theData := { h.theData with
        commandHistory := h.theData.commandHistory ++ d.commandHistory.map c.rereadCommand } } := by
  have hstep : ∀ l p, (serializeCommand p).foldlM c.handle
      { h with theData := { h.theData with commandHistory := l } } =
      .ok { h with theData := { h.theData with commandHistory := l ++ [c.rereadCommand p] } } := by
    intro l p
    have hid : c.atoi p.1.toInt.repr = p.1 := c.atoi_toString p.1
    rw [serializeCommand, c.foldlM_leaf _ (by decide), startElement_command]
    simp [handleStartCommand, readAttribute, rereadCommand, reread, hid]
  have hread := foldlM_flatMap_append c.handle serializeCommand c.rereadCommand
    (fun l => { h with theData := { h.theData with commandHistory := l } })
    hstep d.commandHistory h.theData.commandHistory
  rw [serializeCommandHistory, c.foldlM_group h (by decide)]
  exact hread

theorem deserialize_serialize (oldestTimestep ntimesteps : UInt32) (d : Data) :
    c.deserialize oldestTimestep ntimesteps (serialize d) = .ok (c.restored d) := by
  rw [deserialize, serialize, c.foldlM_group _ (by decide)]
  simp only [List.foldlM_append, read_times, read_commandsAndObservations, bind, Except.bind]
  rw [c.read_stateVariables _ rfl]
  simp only
  rw [c.read_candidates _ rfl]
  simp only
  rw [c.read_conflicts _ rfl rfl rfl]
  simp only
  rw [c.read_commandHistory]
  simp [restored, pure, Except.pure]

theorem reread_of_lt {n : UInt32} (hn : n < 2 ^ 31) : c.reread n = n := by
  have hlt : n.toNat < 2 ^ 31 := UInt32.lt_iff_toNat_lt.mp hn
  have htoInt : n.toInt32.toInt = n.toNat := by
    rw [← UInt32.ofNat_toNat (x := n), UInt32.toInt32_ofNat', Int32.toInt_ofNat_of_lt hlt]
    simp
  have hprint : unsigned n = toString n.toInt32.toInt := by
    rw [htoInt]
    rfl
  rw [reread, readUnsigned, hprint, c.atoi_toString]
  exact UInt32.toUInt32_toInt32 n

/-- An `atoi` that reads a number which is too large as the largest `int`, as where a `long` has
32 bits. -/
def saturating : Conversions where
  atoi s := Int32.ofIntClamp (s.toInt?.getD 0)
  atof s := UInt32.ofNat (s.toInt?.getD 0).toNat
  atoi_toString i := by
    have htoInt : (toString i.toInt).toInt? = some i.toInt := Int.toInt?_repr i.toInt
    rw [htoInt]
    simp
  atof_unsigned w := by
    have htoInt : (unsigned w).toInt? = some (w.toNat : Int) := Nat.toInt?_repr w.toNat
    rw [htoInt]
    simp

theorem toUInt32_ofIntClamp_lt (n : UInt32) : (Int32.ofIntClamp n.toNat).toUInt32 < 2 ^ 31 := by
  have hmin : Int32.minValue.toInt ≤ n.toNat := by
    have hneg : Int32.minValue.toInt = -2147483648 := rfl
    omega
  by_cases hn : (n.toNat : Int) ≤ Int32.maxValue.toInt
  · have hlt : n.toNat < 2 ^ 31 := by
      have hmax : Int32.maxValue.toInt = 2147483647 := rfl
      omega
    have hclamp : (Int32.ofIntClamp n.toNat).toUInt32 = n := by
      rw [Int32.ofIntClamp, dif_pos hmin, dif_pos hn, Int32.ofIntLE, Int32.ofInt_eq_ofNat,
        Int32.toUInt32_ofNat', UInt32.ofNat_toNat]
    rw [hclamp]
    exact UInt32.lt_iff_toNat_lt.mpr hlt
  · have hmax : Int32.ofIntClamp n.toNat = Int32.maxValue := by
      rw [Int32.ofIntClamp, dif_pos hmin, dif_neg hn]
    rw [hmax]
    decide

theorem saturating_reread_lt (n : UInt32) : saturating.reread n < 2 ^ 31 := by
  have htoInt : (unsigned n).toInt? = some (n.toNat : Int) := Nat.toInt?_repr n.toNat
  have hread : saturating.reread n = (Int32.ofIntClamp n.toNat).toUInt32 := by
    simp [reread, readUnsigned, saturating, htoInt]
  rw [hread]
  exact toUInt32_ofIntClamp_lt n

theorem lt_of_reread {n : UInt32} (hn : ∀ c : Conversions, c.reread n = n) : n < 2 ^ 31 := by
  have hlt := saturating_reread_lt n
  rwa [hn saturating] at hlt

/-- The checkpoint that is read is the one that was written, whatever the times were before. -/
def KeptByFile (d : Data) : Prop :=
  ∀ oldestTimestep ntimesteps, c.deserialize oldestTimestep ntimesteps (serialize d) = .ok d

theorem rereadAssignment_eq_self {a : CPAssignment} :
    c.rereadAssignment a = a ↔ ∀ n ∈ Data.assignmentUnsigneds a, c.reread n = n := by
  cases a
  simp [rereadAssignment, Data.assignmentUnsigneds]

theorem rereadFailure_eq_self {a : CPAssignment} :
    c.rereadFailure a = a ↔ a.value = 0 ∧ ∀ n ∈ Data.assignmentUnsigneds a, c.reread n = n := by
  have hzero : c.reread 0 = 0 := c.reread_of_lt (by decide)
  cases a
  simp only [rereadFailure, Data.assignmentUnsigneds, CPAssignment.mk.injEq, List.forall_mem_cons]
  constructor
  · rintro ⟨hid, htime, rfl⟩
    exact ⟨rfl, hid, htime, hzero, by simp⟩
  · intro ⟨hvalue, hid, htime, _⟩
    exact ⟨hid, htime, hvalue.symm⟩

theorem rereadInitialValue_eq_self {v : InitialValue} :
    c.rereadInitialValue v = v ↔ ∀ n ∈ [v.varID, v.value], c.reread n = n := by
  cases v
  simp [rereadInitialValue]

theorem rereadInitialModes_eq_self {m : InitialModeAssignments} :
    c.rereadInitialModes m = m ↔
      ∀ n ∈ m.modes.flatMap (fun v => [v.varID, v.value]), c.reread n = n := by
  cases m
  simp only [rereadInitialModes, InitialModeAssignments.mk.injEq, true_and, map_eq_self_iff,
    rereadInitialValue_eq_self, List.forall_mem_flatMap]

theorem rereadCandidate_eq_self {k : CPCandidate} :
    c.rereadCandidate k = k ↔ (∀ f ∈ k.failures, f.value = 0) ∧
      ∀ n ∈ k.si :: k.failures.flatMap Data.assignmentUnsigneds, c.reread n = n := by
  cases k
  simp only [rereadCandidate, CPCandidate.mk.injEq, map_eq_self_iff, rereadFailure_eq_self,
    List.forall_mem_cons, List.forall_mem_flatMap, forall_and]
  exact and_left_comm

theorem rereadConflict_eq_self {k : CPConflict} :
    c.rereadConflict k = k ↔
      ∀ n ∈ k.assignments.flatMap Data.assignmentUnsigneds, c.reread n = n := by
  cases k
  simp only [rereadConflict, CPConflict.mk.injEq, map_eq_self_iff, rereadAssignment_eq_self,
    List.forall_mem_flatMap]

theorem rereadCommand_eq_self {command : Int32 × UInt32} :
    c.rereadCommand command = command ↔ c.reread command.2 = command.2 := by
  simp [rereadCommand, Prod.ext_iff]

/-- For a given `atoi`: each number is read back, and no failure has a value that is lost. -/
theorem keptByFile_iff_reread (d : Data) :
    c.KeptByFile d ↔ d.FailuresAtZero ∧ ∀ n ∈ d.unsigneds, c.reread n = n := by
  have hrestored : c.KeptByFile d ↔ c.restored d = d := by
    simp [KeptByFile, deserialize_serialize]
  rw [hrestored]
  cases d
  simp only [restored, Data.mk.injEq, map_eq_self_iff, rereadAssignment_eq_self,
    rereadInitialModes_eq_self, rereadCandidate_eq_self, rereadConflict_eq_self,
    rereadCommand_eq_self, Data.FailuresAtZero, Data.unsigneds, List.forall_mem_append,
    List.forall_mem_cons, List.forall_mem_flatMap, List.forall_mem_map, forall_and]
  tauto

end Conversions

/-- The file keeps a checkpoint exactly if its failures have the first values and an `int` holds
its numbers. -/
theorem keptByFile_iff (d : Data) :
    (∀ c : Conversions, c.KeptByFile d) ↔ d.FailuresAtZero ∧ ∀ n ∈ d.unsigneds, n < 2 ^ 31 := by
  simp only [Conversions.keptByFile_iff_reread]
  constructor
  · intro h
    exact ⟨(h .saturating).1, fun n hn => Conversions.lt_of_reread fun c => (h c).2 n hn⟩
  · intro ⟨hzero, hlt⟩ c
    exact ⟨hzero, fun n hn => c.reread_of_lt (hlt n hn)⟩

/-- A candidate with a failure: the variable 1 has its second value in the first step. -/
def lostFailure : Data where
  oldestTimestep := 0
  ntimesteps := 2
  candidates := [⟨0, [⟨1, 0, 1⟩]⟩]

/-- The value of the failure is lost with every `atoi`. -/
theorem not_keptByFile_lostFailure : ¬ ∃ c : Conversions, c.KeptByFile lostFailure := by
  intro ⟨c, h⟩
  have hzero := ((c.keptByFile_iff_reread lostFailure).mp h).1
  exact absurd (hzero ⟨0, [⟨1, 0, 1⟩]⟩ (by decide) ⟨1, 0, 1⟩ (by decide)) (by decide)

end Checkpoint
end Livingstone
