import Mathlib.Data.Prod.Lex
import ScalaNeko.Lib.SortedSet
import ScalaNeko.Lib.Transition

/-!
The scheduler, after `neko.kernel.Scheduler` and `neko.kernel.SequentialScheduler`, and its runs.
-/

namespace Kernel

abbrev Time := Int64

abbrev TaskID := Int

class Task (τ : Type) where
  time : τ → Time
  id : τ → TaskID
  isDaemon : τ → Bool

def Task.key {τ : Type} [Task τ] (t : τ) : Int ×ₗ Int := toLex ((Task.time t).toInt, Task.id t)

inductive KernelTask (A : Type) where
  -- `daemon` stands for the trait `Task.Daemon`
  | simple (time : Time) (action : A) (id : TaskID) (daemon : Bool)
  | periodic (time period : Time) (repeatAction : A) (id : TaskID) (daemon : Bool)

namespace KernelTask

variable {A : Type}

def time : KernelTask A → Time
  | simple time _ _ _ => time
  | periodic time _ _ _ _ => time

def id : KernelTask A → TaskID
  | simple _ _ id _ => id
  | periodic _ _ _ id _ => id

def isDaemon : KernelTask A → Bool
  | simple _ _ _ daemon => daemon
  | periodic _ _ _ _ daemon => daemon

def isSimple : KernelTask A → Bool
  | simple _ _ _ _ => true
  | periodic _ _ _ _ _ => false

instance : Task (KernelTask A) where
  time := time
  id := id
  isDaemon := isDaemon

/--
The task that the action of a task schedules when it ends at the clock value `now`, if any.
`willReschedule` is the result of `repeatAction`. The copy of a task is not a `Task.Daemon`.
-/
def next (now : Time) (willReschedule : Bool) : KernelTask A → Option (KernelTask A)
  | simple _ _ _ _ => none
  | periodic _ period repeatAction id _ =>
    if willReschedule then some (periodic (now + period) period repeatAction id false) else none

end KernelTask

structure Scheduler (τ : Type) where
  taskQueue : List τ := []
  currentTime : Time := 0

namespace Scheduler

variable {τ : Type} [Task τ]

def isEmpty (s : Scheduler τ) : Bool := s.taskQueue.isEmpty

def nonEmptyBesideDaemons (s : Scheduler τ) : Bool := s.taskQueue.any (fun t => !Task.isDaemon t)

def schedule (s : Scheduler τ) (task : τ) : Scheduler τ :=
  { s with taskQueue := SortedSet.insert Task.key task s.taskQueue }

def cancel (s : Scheduler τ) (taskID : TaskID) : Scheduler τ :=
  { s with taskQueue := s.taskQueue.filter (fun t => Task.id t != taskID) }

def executeNext (s : Scheduler τ) : Scheduler τ × Option (List τ) :=
  match s.taskQueue with
  | [] => (s, none)
  | head :: _ =>
    let currentTime := max (s.currentTime + 1) (Task.time head)
    let (batch, remainder) := s.taskQueue.partition (fun t => decide (Task.time t ≤ currentTime))
    -- the actions of the batch are called one by one, see `Run.step`
    ({ s with taskQueue := remainder, currentTime }, some batch)

end Scheduler

/--
The scheduler of a system with its sequential execution of batches. A task in the queue is stamped
with the clock value at which it was scheduled, which the scheduler does not read.
-/
structure Stamped (A : Type) where
  task : KernelTask A
  since : Time

instance {A : Type} : Task (Stamped A) where
  time := fun t => t.task.time
  id := fun t => t.task.id
  isDaemon := fun t => t.task.isDaemon

/--
`batch` is the rest of the batch that is executed and `running` the task whose action runs. The other
fields record all tasks ever scheduled, all identifiers ever cancelled and all actions called, with
the clock value.
-/
structure Run (A : Type) where
  sched : Scheduler (Stamped A) := {}
  batch : List (Stamped A) := []
  running : Option (Stamped A) := none
  scheduled : List (Stamped A) := []
  cancelled : List TaskID := []
  executed : List (Time × Stamped A) := []

inductive Action (A : Type) where
  | schedule (task : KernelTask A)
  | cancel (taskID : TaskID)
  | executeNext
  | call
  | finish (willReschedule : Bool)

namespace Run

variable {A : Type}

def schedule (r : Run A) (task : KernelTask A) : Run A :=
  let t : Stamped A := ⟨task, r.sched.currentTime⟩
  { r with sched := r.sched.schedule t, scheduled := r.scheduled ++ [t] }

def step (r : Run A) : Action A → Option (Run A)
  | .schedule task => some (r.schedule task)
  | .cancel taskID =>
    some { r with sched := r.sched.cancel taskID, cancelled := taskID :: r.cancelled }
  | .executeNext =>
    match r.batch, r.running with
    | [], none =>
      let (sched, batch) := r.sched.executeNext
      some { r with sched, batch := batch.getD [] }
    | _, _ => none
  | .call =>
    match r.batch, r.running with
    | t :: batch, none =>
      some { r with
        batch
        running := some t
        executed := r.executed ++ [(r.sched.currentTime, t)] }
    | _, _ => none
  | .finish willReschedule =>
    match r.running with
    | none => none
    | some t =>
      let r := { r with running := none }
      match t.task.next r.sched.currentTime willReschedule with
      | none => some r
      | some task => some (r.schedule task)

def lts (A : Type) : LTS (Run A) (Action A) where
  init := fun r => r = {}
  step := fun r a r' => r.step a = some r'

end Run

end Kernel
