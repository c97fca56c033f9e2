import Mathlib.Data.List.FinRange
import Mathlib.Logic.Function.Basic
import ScalaNeko.Kernel.Impl.Scheduler

/-!
The lockstep execution of the activities of a simulated system, after `neko.kernel.ActivityManager`,
`neko.ActiveProtocol` and the barrier action of `neko.kernel.NekoSystem`.

An activity and the others only meet in the scheduler, in the queues and at the barrier, so that a
step here is what an activity does between two of these.
-/

namespace Lockstep

open Kernel (Time TaskID KernelTask)

inductive Status where
  | running
  | waiting
  | finished
  | aborted
  deriving DecidableEq

/--
`delay` is the argument of the call and `task` the identifier of the wake-up task, which is scheduled
at `deadline`.
-/
structure Wakeup where
  delay : Time
  deadline : Time
  task : TaskID

inductive Wait where
  | receive
  | receiveTimed (u : Wakeup)
  | sleep (u : Wakeup)

def Wait.wakeup : Wait → Option Wakeup
  | receive => none
  | receiveTimed u => some u
  | sleep u => some u

-- The condition of the loop around `willWait`.
def Wait.blocks {E : Type} (currentTime : Time) (blockingQueue : List E) : Wait → Bool
  | receive => blockingQueue.isEmpty
  | receiveTimed u => blockingQueue.isEmpty && decide (currentTime < u.deadline)
  | sleep u => decide (currentTime < u.deadline)

/--
A call of `receive` or `sleep`. The fields after the first record the clock value, the number of events
that were enqueued anywhere so far and the queue of the activity, all at the call.
-/
structure Call (E : Type) where
  wait : Wait
  since : Time
  start : Nat
  pending : List E

/--
Where the thread of an activity is: in its own code, before the test of the loop condition, in
`willWait`, after the loop or in `willFinish`.
-/
inductive Control (E : Type) where
  | running
  | polling (c : Call E)
  | waiting (c : Call E)
  | leaving (c : Call E)
  | finished

def Control.call {E : Type} : Control E → Option (Call E)
  | running => none
  | polling c => some c
  | waiting c => some c
  | leaving c => some c
  | finished => none

-- In `barrier.await`.
def Control.arrived {E : Type} : Control E → Bool
  | waiting _ => true
  | finished => true
  | _ => false

def Control.isBlockedInReceive {E : Type} : Control E → Bool
  | waiting ⟨.receive, _, _, _⟩ => true
  | _ => false

structure Activity (E : Type) where
  status : Status := .running
  control : Control E := .running
  blockingQueue : List E := []
  messageCount : Int32 := 0

def Activity.hasPendingMessages {E : Type} (a : Activity E) : Bool := decide (0 < a.messageCount)

-- The capacity of a `LinkedBlockingQueue`.
def capacity : Nat := 0x7fffffff

inductive Phase where
  | lockstep
  -- the barrier action executes a batch
  | advancing
  | aborted
  | ended
  deriving DecidableEq

-- An event that is enqueued, by the action of a task or by an activity.
structure Arrival (n : Nat) (E : Type) where
  dest : Fin n
  clock : Time
  event : E
  byTask : Bool

/--
A call that has returned. `stop` is the number of events that were enqueued anywhere until then.
-/
structure Return (n : Nat) (E : Type) where
  who : Fin n
  call : Call E
  clock : Time
  stop : Nat
  result : Option E

/--
The activities are registered and the manager has started. `handed` tells whether an activity has
enqueued an event for one that is blocked in `receive()`, since the barrier was last released.
-/
structure System (n : Nat) (E : Type) where
  run : Kernel.Run Unit := {}
  activities : Fin n → Activity E := fun _ => {}
  phase : Phase := .lockstep
  handed : Bool := false
  arrivals : List (Arrival n E) := []
  returns : List (Return n E) := []

inductive Actor (n : Nat) where
  | activity (i : Fin n)
  -- the task that runs
  | task

def Actor.isTask {n : Nat} : Actor n → Bool
  | activity _ => false
  | task => true

inductive Op (n : Nat) (E : Type) where
  | schedule (task : KernelTask Unit)
  | cancel (taskID : TaskID)
  -- `isDefinedAt` tells whether `onReceive` of the protocol handles the event
  | deliver (dest : Fin n) (event : E) (isDefinedAt : Bool)

inductive Action (n : Nat) (E : Type) where
  | act (who : Actor n) (op : Op n E)
  | receive (i : Fin n)
  | receiveTimed (i : Fin n) (withTimeout : Time) (taskID : TaskID)
  | sleep (i : Fin n) (duration : Time) (taskID : TaskID)
  | poll (i : Fin n)
  | leave (i : Fin n)
  | finish (i : Fin n)
  | barrier
  | call
  | finishTask (willReschedule : Bool)
  | release

namespace System

variable {n : Nat} {E : Type}

def currentTime (s : System n E) : Time := s.run.sched.currentTime

def update (s : System n E) (i : Fin n) (a : Activity E) : System n E :=
  { s with activities := Function.update s.activities i a }

def isRunning (s : System n E) (i : Fin n) : Bool :=
  match (s.activities i).control with
  | .running => true
  | _ => false

def mayAct (s : System n E) : Actor n → Bool
  | .activity i => s.isRunning i
  | .task => s.run.running.isSome

def hasPendingMessages (s : System n E) : Bool :=
  (List.finRange n).any fun i =>
    decide ((s.activities i).status = .waiting) && (s.activities i).hasPendingMessages

-- `ActiveProtocol.deliver` for an event that `onReceive` does not handle.
def deliver (s : System n E) (byTask : Bool) (dest : Fin n) (event : E) : System n E :=
  let a := s.activities dest
  let counted := { a with messageCount := a.messageCount + 1 }
  let arrival : Arrival n E := ⟨dest, s.currentTime, event, byTask⟩
  let s := { s with handed := s.handed || !byTask && a.control.isBlockedInReceive }
  if a.blockingQueue.length < capacity then
    let s := { s with arrivals := s.arrivals ++ [arrival] }
    s.update dest { counted with blockingQueue := a.blockingQueue ++ [event] }
  else
    -- `offer` returns `false`
    s.update dest counted

def perform (s : System n E) (who : Actor n) : Op n E → System n E
  | .schedule task => { s with run := s.run.schedule task }
  | .cancel taskID =>
    { s with run := { s.run with
        sched := s.run.sched.cancel taskID
        cancelled := taskID :: s.run.cancelled } }
  | .deliver dest event isDefinedAt => if isDefinedAt then s else s.deliver who.isTask dest event

def enter (s : System n E) (i : Fin n) (wait : Wait) : System n E :=
  let a := s.activities i
  s.update i { a with
    control := .polling ⟨wait, s.currentTime, s.arrivals.length, a.blockingQueue⟩ }

def enterTimed (s : System n E) (i : Fin n) (wait : Wakeup → Wait) (delay : Time) (taskID : TaskID)
    : System n E :=
  let deadline := s.currentTime + delay
  let s := s.enter i (wait ⟨delay, deadline, taskID⟩)
  { s with run := s.run.schedule (.simple deadline () taskID false) }

def poll (s : System n E) (i : Fin n) (c : Call E) : System n E :=
  let a := s.activities i
  if c.wait.blocks s.currentTime a.blockingQueue then
    s.update i { a with status := .waiting, control := .waiting c }
  else
    s.update i { a with control := .leaving c }

-- What is left of the queue and the result.
def take (blockingQueue : List E) : Wait → Option (List E × Option E)
  | .receive =>
    match blockingQueue with
    -- `take` blocks
    | [] => none
    | event :: rest => some (rest, some event)
  | .receiveTimed _ =>
    match blockingQueue with
    | [] => some ([], none)
    | event :: rest => some (rest, some event)
  | .sleep _ => some (blockingQueue, none)

def cancelWakeup (s : System n E) (wait : Wait) : System n E :=
  match wait.wakeup with
  | none => s
  | some u => s.perform .task (.cancel u.task)

def ret (s : System n E) (i : Fin n) (c : Call E) (blockingQueue : List E) (result : Option E)
    : System n E :=
  let a := s.activities i
  let ret : Return n E := ⟨i, c, s.currentTime, s.arrivals.length, result⟩
  let s := s.cancelWakeup c.wait
  let s := { s with returns := s.returns ++ [ret] }
  let messageCount := if result.isSome then a.messageCount - 1 else a.messageCount
  s.update i { a with control := .running, blockingQueue, messageCount }

def leave (s : System n E) (i : Fin n) (c : Call E) : Option (System n E) :=
  (take (s.activities i).blockingQueue c.wait).map fun (blockingQueue, result) =>
    s.ret i c blockingQueue result

-- `ActivityManager.reset`
def reset (s : System n E) : System n E :=
  { s with
    activities := fun i =>
      let a := s.activities i
      if a.status = .finished then a else { a with status := .aborted }
    phase := .aborted }

def barrierAction (s : System n E) : Option (System n E) :=
  if (List.finRange n).all (fun i => decide ((s.activities i).status = .finished)) then
    some { s with phase := .ended }
  else if s.run.sched.isEmpty && !s.hasPendingMessages then
    some s.reset
  else
    -- `simulator.advanceTime()`
    (s.run.step .executeNext).map fun run => { s with run, phase := .advancing }

def release (s : System n E) : System n E :=
  { s with
    activities := fun i =>
      let a := s.activities i
      match a.control with
      | .waiting c => { a with status := .running, control := .polling c }
      | _ => a
    phase := .lockstep
    handed := false }

def step (s : System n E) : Action n E → Option (System n E)
  | .act who op => if s.mayAct who then some (s.perform who op) else none
  | .receive i => if s.isRunning i then some (s.enter i .receive) else none
  | .receiveTimed i withTimeout taskID =>
    if s.isRunning i then some (s.enterTimed i .receiveTimed withTimeout taskID) else none
  | .sleep i duration taskID =>
    if s.isRunning i then
      if 0 < duration then some (s.enterTimed i .sleep duration taskID) else some s
    else
      none
  | .poll i =>
    match (s.activities i).control with
    | .polling c => some (s.poll i c)
    | _ => none
  | .leave i =>
    match (s.activities i).control with
    | .leaving c => s.leave i c
    | _ => none
  | .finish i =>
    if s.isRunning i then
      some (s.update i { s.activities i with status := .finished, control := .finished })
    else
      none
  | .barrier =>
    if s.phase = .lockstep ∧ (List.finRange n).all (fun i => (s.activities i).control.arrived) then
      s.barrierAction
    else
      none
  | .call => (s.run.step .call).map fun run => { s with run }
  | .finishTask willReschedule =>
    (s.run.step (.finish willReschedule)).map fun run => { s with run }
  | .release =>
    if s.phase = .advancing ∧ s.run.batch.isEmpty ∧ s.run.running.isNone then
      some s.release
    else
      none

def lts (n : Nat) (E : Type) : LTS (System n E) (Action n E) where
  init := fun s => s = {}
  step := fun s a s' => s.step a = some s'

end System

end Lockstep
