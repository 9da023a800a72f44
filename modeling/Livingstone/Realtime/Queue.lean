import Mathlib.Tactic

/-! The realtime interface over POSIX threads (`realtime_api/posix`): clients and timeouts put
messages on a guarded queue, and a dispatcher thread takes them off and calls the tracker.
A step of a thread is a call of the thread library or the code up to the next one; what
stands between `lock` and `release` no other thread can see. -/

namespace Livingstone
namespace Realtime

inductive LivingstoneMessageCall where
  | command
  | observation
  | startCommandAndTime
  | startObserveAndTime
  | findCandidates
  | abortCommand
  | reportFullState
  deriving DecidableEq, Repr

structure LivingstoneMessage where
  fcnName : LivingstoneMessageCall
  arg1 : UInt32 := 0
  arg2 : UInt32 := 0
  arg3 : UInt32 := 0
  deriving DecidableEq, Repr

inductive TrackerCall where
  | progress (cmdIndex cmdValue : UInt32)
  | observe (obsIndex valueIndex : UInt32)
  | findCandidates
  deriving DecidableEq, Repr

/-- What `parse_msg` calls on the tracker. -/
def parseMsg (msg : LivingstoneMessage) : Option TrackerCall :=
  match msg.fcnName with
  | .command => some (.progress msg.arg1 msg.arg2)
  | .observation => some (.observe msg.arg1 msg.arg2)
  | .findCandidates => some .findCandidates
  | _ => none

/-- The calls of `L2_rtapi` that use the queue. -/
inductive ClientCall where
  | queueCommand (cmdIndex cmdValue : UInt32)
  | queueObservation (obsIndex valueIndex : UInt32)
  | queueFindCandidates
  | queueReportFullState
  | queueStartCommandAndTime (cmdIndex cmdValue : UInt32)
  | queueObservationsAndTime (obsIndex valueIndex : UInt32)
  | isDoneEmpty
  deriving DecidableEq, Repr

/-- Where a thread is in `add_message_to_queue`. -/
inductive AddPoint where
  | lock
  | check
  | waitNotFull
  | release
  deriving DecidableEq, Repr

/-- Where a thread is in `is_done_empty`; the Boolean tells the second call of `is_empty`.
The wait for `hzero_event` is without its mutex, which leaves the behaviour undefined. -/
inductive DonePoint where
  | lock (second : Bool)
  | check (second : Bool)
  | waitIsEmpty (second : Bool)
  | release (second : Bool)
  | readTimeouts
  | undefined
  deriving DecidableEq, Repr

/-- A client in a call, or a timer (`rti_timer` with the default handlers). -/
inductive Thread where
  | adding (timer : Bool) (msg : LivingstoneMessage) (point : AddPoint)
  | creating (msg : LivingstoneMessage)
  | counting (msg : LivingstoneMessage)
  | sleeping
  | decrementing
  | done (point : DonePoint)
  | ended
  deriving DecidableEq, Repr

/-- Where the dispatcher is: in `get_message_from_queue`, or in `parse_msg`. -/
inductive Dispatcher where
  | lock
  | first
  | waitNotEmpty
  | relock
  | again
  | release (msg : LivingstoneMessage)
  | parsing (msg : LivingstoneMessage)
  deriving DecidableEq, Repr

inductive Owner where
  | dispatcher
  | thread (i : ℕ)
  deriving DecidableEq, Repr

/-- `GuardedQueue`, the threads, and two records that the code does not keep: the messages pushed
on the queue and those that `parse_msg` has returned from. -/
structure State where
  messages : List LivingstoneMessage := []
  messagesInQueue : ℕ := 0
  timeoutHandlers : ℤ := 0
  queueItemsMutex : Option Owner := none
  dispatcher : Dispatcher := .lock
  threads : List Thread := []
  pushed : List LivingstoneMessage := []
  parsed : List LivingstoneMessage := []
  deriving DecidableEq, Repr

def maxMsgs : ℕ := 100

namespace Thread

/-- The effect of a broadcast of `notFull`. -/
def wakeNotFull : Thread → Thread
  | .adding timer msg .waitNotFull => .adding timer msg .lock
  | t => t

/-- The effect of a broadcast of `isEmpty`. -/
def wakeIsEmpty : Thread → Thread
  | .done (.waitIsEmpty second) => .done (.lock second)
  | t => t

end Thread

/-- The effect of a broadcast of `notEmpty`. -/
def Dispatcher.wakeNotEmpty : Dispatcher → Dispatcher
  | .waitNotEmpty => .relock
  | d => d

def ClientCall.start : ClientCall → Thread
  | .queueCommand i v => .adding false ⟨.command, i, v, 0⟩ .lock
  | .queueObservation i v => .adding false ⟨.observation, i, v, 0⟩ .lock
  | .queueFindCandidates => .adding false ⟨.findCandidates, 0, 0, 0⟩ .lock
  | .queueReportFullState => .adding false ⟨.reportFullState, 0, 0, 0⟩ .lock
  | .queueStartCommandAndTime i v => .creating ⟨.command, i, v, 0⟩
  | .queueObservationsAndTime i v => .creating ⟨.observation, i, v, 0⟩
  | .isDoneEmpty => .done (.lock false)

inductive Action where
  | call (c : ClientCall)
  | thread (i : ℕ)
  | wake (i : ℕ)
  | dispatcher
  | wakeDispatcher
  deriving DecidableEq, Repr

namespace State

def put (s : State) (i : ℕ) (t : Thread) : State := { s with threads := s.threads.set i t }

def take (s : State) (o : Owner) : State := { s with queueItemsMutex := some o }

def drop (s : State) : State := { s with queueItemsMutex := none }

/-- `add_message_to_queue` between `lock` and `release`. -/
def push (s : State) (msg : LivingstoneMessage) : State :=
  { s with
    messages := s.messages ++ [msg]
    messagesInQueue := s.messagesInQueue + 1
    dispatcher := s.dispatcher.wakeNotEmpty
    pushed := s.pushed ++ [msg] }

/-- The next step of the thread with the number `i`, if it has one. -/
def stepThread (s : State) (i : ℕ) : Thread → Option State
  | .adding timer msg .lock =>
    if s.queueItemsMutex = none then
      some ((s.take (.thread i)).put i (.adding timer msg .check))
    else none
  | .adding timer msg .check =>
    if s.messagesInQueue = maxMsgs then some (s.drop.put i (.adding timer msg .waitNotFull))
    else some ((s.push msg).put i (.adding timer msg .release))
  | .adding _ _ .waitNotFull => none
  | .adding timer _ .release => some (s.drop.put i (if timer then .decrementing else .ended))
  | .creating msg =>
    let s := s.put i (.counting msg)
    some { s with threads := s.threads ++ [.sleeping] }
  | .counting msg =>
    some { s.put i (.adding false msg .lock) with timeoutHandlers := s.timeoutHandlers + 1 }
  | .sleeping => some (s.put i (.adding true ⟨.findCandidates, 0, 0, 0⟩ .lock))
  | .decrementing => some { s.put i .ended with timeoutHandlers := s.timeoutHandlers - 1 }
  | .done (.lock second) =>
    if s.queueItemsMutex = none then some ((s.take (.thread i)).put i (.done (.check second)))
    else none
  | .done (.check second) =>
    if s.messagesInQueue = 0 then some (s.put i (.done (.release second)))
    else some (s.drop.put i (.done (.waitIsEmpty second)))
  | .done (.waitIsEmpty _) => none
  | .done (.release second) => some (s.drop.put i (if second then .ended else .done .readTimeouts))
  | .done .readTimeouts =>
    some (s.put i (.done (if s.timeoutHandlers = 0 then .lock true else .undefined)))
  | .done .undefined => none
  | .ended => none

/-- A message is copied and taken off the queue. -/
def pop (s : State) : Option State :=
  match s.messages with
  | [] => none
  | msg :: messages =>
    some { s with
      messages := messages
      messagesInQueue := s.messagesInQueue - 1
      dispatcher := .release msg
      threads := s.threads.map Thread.wakeNotFull }

def stepDispatcher (s : State) : Option State :=
  match s.dispatcher with
  | .lock =>
    if s.queueItemsMutex = none then some { s.take .dispatcher with dispatcher := .first } else none
  | .first =>
    if s.messagesInQueue = 0 then
      some { s.drop with
        dispatcher := .waitNotEmpty
        threads := s.threads.map Thread.wakeIsEmpty }
    else s.pop
  | .waitNotEmpty => none
  | .relock =>
    if s.queueItemsMutex = none then some { s.take .dispatcher with dispatcher := .again } else none
  | .again =>
    if s.messagesInQueue = 0 then some { s.drop with dispatcher := .waitNotEmpty } else s.pop
  | .release msg => some { s.drop with dispatcher := .parsing msg }
  | .parsing msg => some { s with dispatcher := .lock, parsed := s.parsed ++ [msg] }

/-- A client begins a call, a thread goes on, or a thread that waits wakes up by itself. -/
def step (s : State) : Action → Option State
  | .call c => some { s with threads := s.threads ++ [c.start] }
  | .thread i => s.threads[i]?.bind (s.stepThread i)
  | .wake i => s.threads[i]?.map fun t => s.put i t.wakeNotFull.wakeIsEmpty
  | .dispatcher => s.stepDispatcher
  | .wakeDispatcher => some { s with dispatcher := s.dispatcher.wakeNotEmpty }

end State

/-- The property holds of each step of the actions, from the state on, up to the first action that
is not possible. -/
def EveryStep (P : State → Action → State → Prop) : State → List Action → Prop
  | _, [] => True
  | s, a :: as =>
    match s.step a with
    | none => True
    | some s' => P s a s' ∧ EveryStep P s' as

instance EveryStep.decidable {P : State → Action → State → Prop}
    [∀ s a s', Decidable (P s a s')] : ∀ s as, Decidable (EveryStep P s as)
  | _, [] => inferInstanceAs (Decidable True)
  | s, a :: as =>
    match h : s.step a with
    | none => .isTrue (by simp [EveryStep, h])
    | some s' =>
      have := EveryStep.decidable (P := P) s' as
      decidable_of_iff (P s a s' ∧ EveryStep P s' as) (by simp [EveryStep, h])

end Realtime
end Livingstone
