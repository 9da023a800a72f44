import Mathlib.Tactic

/-! The file of a checkpoint (`checkpoint.cpp`): the elements that `serialize` writes, and the
handler that makes a checkpoint of them. A parser delivers the elements and their attributes in
the order in which they stand in the file. -/

namespace Livingstone
namespace Checkpoint

structure CPAssignment where
  varID : UInt32
  time : UInt32
  value : UInt32
  deriving DecidableEq, Repr

structure InitialValue where
  varID : UInt32
  value : UInt32
  deriving DecidableEq, Repr

structure InitialModeAssignments where
  weight : UInt32
  modes : List InitialValue := []
  deriving DecidableEq, Repr

structure CPCandidate where
  si : UInt32
  failures : List CPAssignment := []
  deriving DecidableEq, Repr

structure CPConflict where
  assignments : List CPAssignment := []
  deriving DecidableEq, Repr

/-- What a checkpoint stores of the engine (`L2_checkpoint::data`). -/
structure Data where
  oldestTimestep : UInt32
  ntimesteps : UInt32
  cmdsObs : List CPAssignment := []
  initialModes : List InitialModeAssignments := []
  candidates : List CPCandidate := []
  conflicts : List CPConflict := []
  commandHistory : List (Int32 × UInt32) := []
  deriving DecidableEq, Repr

/-- What the parser calls the handler with. -/
inductive Event where
  | startElement (name : String) (attributes : List (String × String))
  | endElement (name : String)
  deriving DecidableEq, Repr

def unsigned (n : UInt32) : String := toString n.toNat

def leaf (name : String) (attributes : List (String × String)) : List Event :=
  [.startElement name attributes, .endElement name]

def element (name : String) (attributes : List (String × String)) (content : List Event) :
    List Event :=
  .startElement name attributes :: content ++ [.endElement name]

def serializeTimes (d : Data) : List Event :=
  leaf "cp:Times" [("oldest", unsigned d.oldestTimestep), ("count", unsigned d.ntimesteps)]

def serializeAssignment (a : CPAssignment) : List Event :=
  leaf "cp:Assignment" [("id", unsigned a.varID), ("timeStep", unsigned a.time),
    ("currentValueIndex", unsigned a.value)]

def serializeCommandsAndObservations (d : Data) : List Event :=
  element "cp:CommandsAndObservations" [] (d.cmdsObs.flatMap serializeAssignment)

def serializeInitialValue (v : InitialValue) : List Event :=
  leaf "cp:InitialValue" [("id", unsigned v.varID), ("value", unsigned v.value)]

def serializeInitialModeAssignments (m : InitialModeAssignments) : List Event :=
  element "cp:InitialModeAssignmentSet" [("weight", unsigned m.weight)]
    (m.modes.flatMap serializeInitialValue)

def serializeStateVariables (d : Data) : List Event :=
  element "cp:StateVariable" [] (d.initialModes.flatMap serializeInitialModeAssignments)

def serializeFailure (failure : CPAssignment) : List Event :=
  leaf "cp:Failure" [("id", unsigned failure.varID), ("timeStep", unsigned failure.time),
    ("currentValueIndex", unsigned failure.value)]

def serializeCandidate (candidate : CPCandidate) : List Event :=
  element "cp:Candidate" [("index", unsigned candidate.si)]
    (candidate.failures.flatMap serializeFailure)

def serializeCandidates (d : Data) : List Event :=
  element "cp:CandidateSet" [] (d.candidates.flatMap serializeCandidate)

def serializeConflict (conflict : CPConflict) : List Event :=
  element "cp:Conflict" [] (conflict.assignments.flatMap serializeAssignment)

def serializeConflicts (d : Data) : List Event :=
  element "cp:ConflictSet" [] (d.conflicts.flatMap serializeConflict)

def serializeCommand (command : Int32 × UInt32) : List Event :=
  leaf "cp:Command" [("id", toString command.1.toInt), ("valueIndex", unsigned command.2)]

def serializeCommandHistory (d : Data) : List Event :=
  element "cp:CommandHistory" [] (d.commandHistory.flatMap serializeCommand)

def serialize (d : Data) : List Event :=
  element "cp:L2checkpoint" [("xmlns:cp", "http://www.w3.org/1999/XSL/Format")]
    (serializeTimes d ++ serializeCommandsAndObservations d ++ serializeStateVariables d ++
      serializeCandidates d ++ serializeConflicts d ++ serializeCommandHistory d)

/-- `atoi`, and `atof` with the conversion to a weight, as C promises them: `atoi` gives the value of
a numeral that an `int` can have and may give anything for another, and a `double` holds
each weight. -/
structure Conversions where
  atoi : String → Int32
  atof : String → UInt32
  atoi_toString : ∀ i : Int32, atoi (toString i.toInt) = i
  atof_unsigned : ∀ w, atof (unsigned w) = w

structure Handler where
  theData : Data
  inCommandsAndObservations : Bool := false
  inConflict : Bool := false
  initialModeAssignments : Option InitialModeAssignments := none
  candidate : Option CPCandidate := none
  conflict : Option CPConflict := none

/-- The loop over the attributes, for one of the names that it looks for. -/
def readAttribute {α : Type} (attributes : List (String × String)) (name : String)
    (convert : String → α) (initial : α) : α :=
  attributes.foldl (fun v a => if a.1 = name then convert a.2 else v) initial

namespace Conversions

variable (c : Conversions)

def readUnsigned (value : String) : UInt32 := (c.atoi value).toUInt32

def handleStartTimes (h : Handler) (attributes : List (String × String)) : Handler :=
  { h with theData := { h.theData with
      oldestTimestep := readAttribute attributes "oldest" c.readUnsigned h.theData.oldestTimestep
      ntimesteps := readAttribute attributes "count" c.readUnsigned h.theData.ntimesteps } }

def handleStartAssignment (h : Handler) (attributes : List (String × String)) :
    Except String Handler :=
  let id := readAttribute attributes "id" c.readUnsigned 0
  let timeStep := readAttribute attributes "timeStep" c.readUnsigned 0
  let currentValueIndex := readAttribute attributes "currentValueIndex" c.readUnsigned 0
  let assignment : CPAssignment := ⟨id, timeStep, currentValueIndex⟩
  if h.inCommandsAndObservations then
    .ok { h with theData := { h.theData with cmdsObs := h.theData.cmdsObs ++ [assignment] } }
  else if h.inConflict then
    match h.conflict with
    | none => .error "null conflict"
    | some conflict => .ok { h with conflict := some ⟨conflict.assignments ++ [assignment]⟩ }
  else .ok h

def handleStartInitialModeAssignments (h : Handler) (attributes : List (String × String)) :
    Except String Handler :=
  let weight := readAttribute attributes "weight" c.atof 0
  match h.initialModeAssignments with
  | some _ => .error "assert(initialModeAssignments == 0)"
  | none => .ok { h with initialModeAssignments := some ⟨weight, []⟩ }

def handleStartInitialValue (h : Handler) (attributes : List (String × String)) :
    Except String Handler :=
  let id := readAttribute attributes "id" c.readUnsigned 0
  let valueIndex := readAttribute attributes "value" c.readUnsigned 0
  match h.initialModeAssignments with
  | none => .error "null initialModeAssignments"
  | some m =>
    .ok { h with initialModeAssignments := some ⟨m.weight, m.modes ++ [⟨id, valueIndex⟩]⟩ }

def handleStartCandidate (h : Handler) (attributes : List (String × String)) :
    Except String Handler :=
  let index := readAttribute attributes "index" c.readUnsigned 0
  match h.candidate with
  | some _ => .error "assert(candidate == 0)"
  | none => .ok { h with candidate := some ⟨index, []⟩ }

/-- The value of a failure is looked for under another name than it is written with. -/
def handleStartFailure (h : Handler) (attributes : List (String × String)) :
    Except String Handler :=
  let id := readAttribute attributes "id" c.readUnsigned 0
  let timeStep := readAttribute attributes "timeStep" c.readUnsigned 0
  let valueIndex := readAttribute attributes "value" c.readUnsigned 0
  match h.candidate with
  | none => .error "assert(candidate != 0)"
  | some candidate =>
    .ok { h with candidate := some ⟨candidate.si, candidate.failures ++ [⟨id, timeStep, valueIndex⟩]⟩ }

def handleStartConflict (h : Handler) : Except String Handler :=
  match h.conflict with
  | some _ => .error "assert(conflict == 0)"
  | none => .ok { h with conflict := some ⟨[]⟩, inConflict := true }

def handleStartCommand (h : Handler) (attributes : List (String × String)) : Handler :=
  let id := readAttribute attributes "id" c.atoi 0
  let valueIndex := readAttribute attributes "valueIndex" c.readUnsigned 0
  { h with theData := { h.theData with
      commandHistory := h.theData.commandHistory ++ [(id, valueIndex)] } }

/-- Other elements have nothing to be done, or are reported as unknown. -/
def startElement (h : Handler) (name : String) (attributes : List (String × String)) :
    Except String Handler :=
  match name with
  | "cp:Times" => .ok (c.handleStartTimes h attributes)
  | "cp:CommandsAndObservations" => .ok { h with inCommandsAndObservations := true }
  | "cp:Assignment" => c.handleStartAssignment h attributes
  | "cp:InitialModeAssignmentSet" => c.handleStartInitialModeAssignments h attributes
  | "cp:InitialValue" => c.handleStartInitialValue h attributes
  | "cp:Candidate" => c.handleStartCandidate h attributes
  | "cp:Failure" => c.handleStartFailure h attributes
  | "cp:Conflict" => handleStartConflict h
  | "cp:Command" => .ok (c.handleStartCommand h attributes)
  | _ => .ok h

def endElement (h : Handler) (name : String) : Except String Handler :=
  match name with
  | "cp:CommandsAndObservations" => .ok { h with inCommandsAndObservations := false }
  | "cp:InitialModeAssignmentSet" =>
    match h.initialModeAssignments with
    | none => .error "assert(initialModeAssignments != 0)"
    | some m =>
      .ok { h with
        theData := { h.theData with initialModes := h.theData.initialModes ++ [m] }
        initialModeAssignments := none }
  | "cp:Candidate" =>
    match h.candidate with
    | none => .error "null candidate"
    | some candidate =>
      .ok { h with
        theData := { h.theData with candidates := h.theData.candidates ++ [candidate] }
        candidate := none }
  | "cp:Conflict" =>
    match h.conflict with
    | none => .error "null conflict"
    | some conflict =>
      .ok { h with
        theData := { h.theData with conflicts := h.theData.conflicts ++ [conflict] }
        conflict := none
        inConflict := false }
  | _ => .ok h

section
variable (h : Handler) (attributes : List (String × String))

@[simp] theorem startElement_times :
    c.startElement h "cp:Times" attributes = .ok (c.handleStartTimes h attributes) := rfl

@[simp] theorem startElement_commandsAndObservations :
    c.startElement h "cp:CommandsAndObservations" attributes =
      .ok { h with inCommandsAndObservations := true } := rfl

@[simp] theorem startElement_assignment :
    c.startElement h "cp:Assignment" attributes = c.handleStartAssignment h attributes := rfl

@[simp] theorem startElement_initialModeAssignmentSet :
    c.startElement h "cp:InitialModeAssignmentSet" attributes =
      c.handleStartInitialModeAssignments h attributes := rfl

@[simp] theorem startElement_initialValue :
    c.startElement h "cp:InitialValue" attributes = c.handleStartInitialValue h attributes := rfl

@[simp] theorem startElement_candidate :
    c.startElement h "cp:Candidate" attributes = c.handleStartCandidate h attributes := rfl

@[simp] theorem startElement_failure :
    c.startElement h "cp:Failure" attributes = c.handleStartFailure h attributes := rfl

@[simp] theorem startElement_conflict :
    c.startElement h "cp:Conflict" attributes = handleStartConflict h := rfl

@[simp] theorem startElement_command :
    c.startElement h "cp:Command" attributes = .ok (c.handleStartCommand h attributes) := rfl

@[simp] theorem endElement_commandsAndObservations :
    endElement h "cp:CommandsAndObservations" =
      .ok { h with inCommandsAndObservations := false } := rfl

variable {h}

theorem endElement_initialModeAssignmentSet {m : InitialModeAssignments}
    (hm : h.initialModeAssignments = some m) :
    endElement h "cp:InitialModeAssignmentSet" = .ok { h with
      theData := { h.theData with initialModes := h.theData.initialModes ++ [m] }
      initialModeAssignments := none } := by
  cases h
  cases hm
  rfl

theorem endElement_candidate {candidate : CPCandidate} (hk : h.candidate = some candidate) :
    endElement h "cp:Candidate" = .ok { h with
      theData := { h.theData with candidates := h.theData.candidates ++ [candidate] }
      candidate := none } := by
  cases h
  cases hk
  rfl

theorem endElement_conflict {conflict : CPConflict} (hk : h.conflict = some conflict) :
    endElement h "cp:Conflict" = .ok { h with
      theData := { h.theData with conflicts := h.theData.conflicts ++ [conflict] }
      conflict := none
      inConflict := false } := by
  cases h
  cases hk
  rfl

end

def handle (h : Handler) : Event → Except String Handler
  | .startElement name attributes => c.startElement h name attributes
  | .endElement name => endElement h name

/-- `deserialize` of what the parser delivers; the times are not initialized. -/
def deserialize (oldestTimestep ntimesteps : UInt32) (events : List Event) : Except String Data := do
  let h ← events.foldlM c.handle { theData := ⟨oldestTimestep, ntimesteps, [], [], [], [], []⟩ }
  return h.theData

end Conversions

end Checkpoint
end Livingstone
