import ScalaNeko.Network.DelaySim.Impl

/-!
Simulated systems, after `neko.NekoProcess`, `neko.kernel.NekoSystem` and
`neko.kernel.sim.NekoSimSystem`: processes that run their protocols on top of a `DelaySimNetwork`, all
of them driven by one scheduler.
-/

open AsyncNetwork (Envelope Program)
open Kernel (Time TaskID Stamped)
open DelaySimNetwork (Job SimRun Sent isDelivery)

/--
The processes of a system: what the protocols of a process hand to the network when something happens
at the process, and when its receiver is delivered a message. `none` says that this is not possible,
`κ` is what the environment chooses.
-/
structure NekoProcess (N : Nat) (σ ι κ S M : Type) where
  init : PID N → σ
  input : PID N → ι → σ → Option (σ × List (Event S M))
  deliver : PID N → M → κ → σ → Option (σ × List (Event S M))

namespace NekoProcess

variable {N : Nat} {σ ι κ S M : Type} [Message N M]

/--
No process hands over messages of another one.
-/
structure Own (proc : NekoProcess N σ ι κ S M) : Prop where
  input : ∀ me i s s' sends, proc.input me i s = some (s', sends) →
    ∀ m, .message m ∈ sends → Message.fromPID m = me
  deliver : ∀ me m k s s' sends, proc.deliver me m k s = some (s', sends) →
    ∀ m, .message m ∈ sends → Message.fromPID m = me

/--
What the network puts in flight for each event that a process hands to it, when it drops nothing.
-/
def emit (neighborsFor : PID N → Option (Finset (PID N))) (sends : List (Event S M))
    : List (Envelope (PID N) M) :=
  (sends.flatMap (Network.lossless neighborsFor (fun _ _ => ())).send).map Prod.fst

/--
The same processes over a network that delivers in any order, where `out` is what a network puts in
flight for the events that it is handed.
-/
def program (proc : NekoProcess N σ ι κ S M) (out : List (Event S M) → List (Envelope (PID N) M))
    : Program (PID N) σ ι κ M where
  init := proc.init
  input := fun me i s => (proc.input me i s).map (fun (s, sends) => (s, out sends))
  receive := fun me m k s => (proc.deliver me m k s).map (fun (s, sends) => (s, out sends))

-- The same processes over FIFO channels, where a message comes from its sender.
def fifoProgram (proc : NekoProcess N σ ι κ S M)
    (out : List (Event S M) → List (Envelope (PID N) M))
    : Program (PID N) σ ι (PID N × κ) M where
  init := proc.init
  input := (proc.program out).input
  receive := fun me m (q, k) s =>
    if Message.fromPID m = q then (proc.program out).receive me m k s else none

end NekoProcess

/--
What `delayForMessage` returns in one call of `send`, and the identifiers of the tasks.
-/
structure Draw (N : Nat) (M : Type) where
  delayForMessage : PID N → M → Option Time
  ids : PID N → TaskID

structure NekoSimSystem (N : Nat) (σ M : Type) where
  processes : PID N → σ
  network : SimRun N M := {}

namespace NekoSimSystem

variable {N : Nat} {σ ι κ S M : Type} [Message N M]

/--
What happens in the system. `kernel` is a step of the scheduler other than the call of the action of a
delivery, which is `deliver`. Each event that is handed to the network takes the next of the draws.
-/
inductive Action (N : Nat) (ι κ M : Type) where
  | input (p : PID N) (i : ι) (draws : Nat → Draw N M)
  | kernel (a : Kernel.Action (Job N M))
  | deliver (k : κ) (draws : Nat → Draw N M)

def sendAll (neighborsFor : PID N → Option (Finset (PID N)))
    : List (Event S M) → (Nat → Draw N M) → SimRun N M → SimRun N M
  | [], _, network => network
  | e :: sends, draws, network =>
    sendAll neighborsFor sends (fun n => draws (n + 1))
      (network.send neighborsFor (draws 0).delayForMessage (draws 0).ids e)

-- The envelope of a delivery.
def envelope (t : Stamped (Job N M)) : Option (Envelope (PID N) M) :=
  match t.task with
  | .simple _ (.deliver _ env) _ _ => some env
  | _ => none

def nextDelivery (run : Kernel.Run (Job N M)) : Option (Envelope (PID N) M) :=
  run.batch.head?.bind envelope

def update (neighborsFor : PID N → Option (Finset (PID N))) (s : NekoSimSystem N σ M) (p : PID N)
    (state : σ) (sends : List (Event S M)) (draws : Nat → Draw N M)
    : NekoSimSystem N σ M where
  processes := Function.update s.processes p state
  network := sendAll neighborsFor sends draws s.network

def step (proc : NekoProcess N σ ι κ S M) (neighborsFor : PID N → Option (Finset (PID N)))
    (s : NekoSimSystem N σ M)
    : Action N ι κ M → Option (NekoSimSystem N σ M)
  | .input p i draws => do
    let (state, sends) ← proc.input p i (s.processes p)
    return s.update neighborsFor p state sends draws
  | .kernel a => do
    match a, nextDelivery s.network.run with
    | .call, some _ => none
    | _, _ =>
      let run ← s.network.run.step a
      return { s with network := { s.network with run } }
  | .deliver k draws => do
    let env ← nextDelivery s.network.run
    let run ← s.network.run.step .call
    let s := { s with network := { s.network with run } }
    match Network.deliver env with
    -- the network writes an error into the logs
    | none => return s
    | some m =>
      let (state, sends) ← proc.deliver env.dest m k (s.processes env.dest)
      return s.update neighborsFor env.dest state sends draws

def initial (proc : NekoProcess N σ ι κ S M) : NekoSimSystem N σ M where
  processes := proc.init

def lts (proc : NekoProcess N σ ι κ S M) (neighborsFor : PID N → Option (Finset (PID N)))
    : LTS (NekoSimSystem N σ M) (Action N ι κ M) where
  init := fun s => s = initial proc
  step := fun s a s' => s.step proc neighborsFor a = some s'

-- The messages that have been sent and not delivered: their tasks are in the queue or in the batch.
def inFlight (network : SimRun N M) : Multiset (Envelope (PID N) M) :=
  ↑((network.run.batch ++ network.run.sched.taskQueue).filterMap envelope)

-- The system as a network of processes sees it.
def world (s : NekoSimSystem N σ M) : AsyncNetwork.World (PID N) σ M where
  node := s.processes
  net := inFlight s.network

end NekoSimSystem
