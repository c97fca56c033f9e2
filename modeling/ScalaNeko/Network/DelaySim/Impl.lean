import ScalaNeko.Kernel.Impl.Scheduler
import ScalaNeko.Network.Impl

/-!
Runs of a simulated network on the scheduler, after `neko.network.sim.DelaySimNetwork` and
`neko.network.sim.ConstantSimNetwork`.
-/

open AsyncNetwork (Envelope)
open Kernel (Time TaskID KernelTask Stamped)

namespace DelaySimNetwork

/--
The action of a task. `deliver n e` is the one that `DelaySimNetwork.sendTo` creates in the `n`th call
of `send`.
-/
inductive Job (N : Nat) (M : Type) where
  | deliver (n : Nat) (e : Envelope (PID N) M)
  | other

def Job.isDeliver {N : Nat} {M : Type} : Job N M → Bool
  | deliver _ _ => true
  | other => false

def isDelivery {N : Nat} {M : Type} : KernelTask (Job N M) → Bool
  | .simple _ job _ _ => job.isDeliver
  | .periodic _ _ job _ _ => job.isDeliver

/--
A call of `send` with a message: the clock value, what `delayForMessage` returned for each destination
and the identifiers of the tasks.
-/
structure Sent (N : Nat) (M : Type) where
  msg : M
  since : Time
  delayForMessage : PID N → M → Option Time
  ids : PID N → TaskID

structure SimRun (N : Nat) (M : Type) where
  run : Kernel.Run (Job N M) := {}
  sends : List (Sent N M) := []

structure Receipt (M : Type) where
  clock : Time
  sent : Nat
  msg : M
  deriving DecidableEq

inductive Action (N : Nat) (S M : Type) where
  | send (event : Event S M) (delayForMessage : PID N → M → Option Time) (ids : PID N → TaskID)
  | kernel (a : Kernel.Action (Job N M))

variable {N : Nat} {S M : Type} [Message N M]

section

variable (neighborsFor : PID N → Option (Finset (PID N)))

def Sent.inFlight (x : Sent N M) : List (Envelope (PID N) M × Time) :=
  Network.send ⟨neighborsFor, x.delayForMessage⟩ (.message x.msg : Event Empty M)

end

-- `Timer.scheduleAfter`
def Sent.task (x : Sent N M) (n : Nat) (p : Envelope (PID N) M × Time) : KernelTask (Job N M) :=
  .simple (x.since + p.2) (.deliver n p.1) (x.ids p.1.dest) false

def Sent.stamped (x : Sent N M) (n : Nat) (p : Envelope (PID N) M × Time) : Stamped (Job N M) :=
  ⟨x.task n p, x.since⟩

namespace SimRun

def send (neighborsFor : PID N → Option (Finset (PID N))) (s : SimRun N M)
    (delayForMessage : PID N → M → Option Time) (ids : PID N → TaskID)
    : Event S M → SimRun N M
  -- signals are dropped
  | .signal _ => s
  | .message msg =>
    let x : Sent N M := ⟨msg, s.run.sched.currentTime, delayForMessage, ids⟩
    let tasks := (x.inFlight neighborsFor).map (x.task s.sends.length)
    { run := tasks.foldl Kernel.Run.schedule s.run, sends := s.sends ++ [x] }

def step (neighborsFor : PID N → Option (Finset (PID N))) (s : SimRun N M)
    : Action N S M → Option (SimRun N M)
  | .send event delayForMessage ids => some (s.send neighborsFor delayForMessage ids event)
  | .kernel a => (s.run.step a).map (fun run => { s with run })

-- What the task of a delivery hands to the receiver of `q`.
def receipt (q : PID N) (e : Time × Stamped (Job N M)) : Option (Receipt M) :=
  match e.2.task with
  | .simple _ (.deliver n env) _ _ =>
    if env.dest = q then (Network.deliver env).map (⟨e.1, n, ·⟩) else none
  | _ => none

def received (s : SimRun N M) (q : PID N) : List (Receipt M) := s.run.executed.filterMap (receipt q)

def lts (S : Type) (neighborsFor : PID N → Option (Finset (PID N)))
    : LTS (SimRun N M) (Action N S M) where
  init := fun s => s = {}
  step := fun s a s' => s.step neighborsFor a = some s'

end SimRun

end DelaySimNetwork

-- `ConstantSimNetwork.delayForMessage`, where `lambda` is a number of nanoseconds.
def ConstantSimNetwork.delayForMessage {N : Nat} {M : Type} (lambda : Time)
    : PID N → M → Option Time :=
  fun _ _ => some lambda
