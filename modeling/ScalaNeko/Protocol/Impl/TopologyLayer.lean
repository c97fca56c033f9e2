import ScalaNeko.NekoSimSystem.Impl
import ScalaNeko.Protocol.Impl.ArbitraryTopology

/-!
Processes whose protocols send through an `ArbitraryTopology`. It delivers a message that a process sends
to itself before `SEND` returns, so what a protocol does after a `SEND` may see the effects.
-/

/--
What a protocol does when it reacts: it returns, or it calls `SEND` in the state `s` and goes on in the
state in which this call leaves the process.
-/
inductive Reaction (σ S M : Type) where
  | done (s : σ)
  | send (s : σ) (e : Event S M) (next : σ → Reaction σ S M)

namespace Reaction

variable {σ S M : Type}

-- On a network, `SEND` only hands the event over.
def atomic : Reaction σ S M → σ × List (Event S M)
  | .done s => (s, [])
  | .send s e next =>
    let (s', sends) := (next s).atomic
    (s', e :: sends)

/--
A reaction with nothing left but to send what is known beforehand.
-/
def sending : List (Event S M) → σ → Reaction σ S M
  | [], s => .done s
  | e :: sends, s => .send s e (sending sends)

end Reaction

/--
Processes as in `NekoProcess`, one `SEND` after the other.
-/
structure ReactiveProcess (N : Nat) (σ ι κ S M : Type) where
  init : PID N → σ
  input : PID N → ι → σ → Option (Reaction σ S M)
  deliver : PID N → M → κ → σ → Option (Reaction σ S M)

namespace ReactiveProcess

variable {N : Nat} {σ ι κ S M : Type}

-- The same processes directly over the network.
def atomic (proc : ReactiveProcess N σ ι κ S M) : NekoProcess N σ ι κ S M where
  init := proc.init
  input := fun me i s => (proc.input me i s).map Reaction.atomic
  deliver := fun me m k s => (proc.deliver me m k s).map Reaction.atomic

/--
Every reaction of the protocols first changes the state and then sends.
-/
structure SendsLast (proc : ReactiveProcess N σ ι κ S M) : Prop where
  input : ∀ me i s r, proc.input me i s = some r → ∃ s' sends, r = .sending sends s'
  deliver : ∀ me m k s r, proc.deliver me m k s = some r → ∃ s' sends, r = .sending sends s'

end ReactiveProcess

namespace ArbitraryTopology

variable {N : Nat} {σ ι κ S M : Type} [Message N M]

/--
No protocol above sends a `BroadcastMessage`: it has no destinations, so that nobody would receive it.
-/
structure NoBroadcast (proc : NekoProcess N σ ι κ S M) : Prop where
  input : ∀ me i s s' sends, proc.input me i s = some (s', sends) →
    ∀ m, .message m ∈ sends → Message.isBroadcast m = false
  deliver : ∀ me m k s s' sends, proc.deliver me m k s = some (s', sends) →
    ∀ m, .message m ∈ sends → Message.isBroadcast m = false

/--
What is left to do when the current call returns: the rest of a reaction, or a `DELIVER`.
-/
inductive Frame (σ S M : Type) where
  | resume (next : σ → Reaction σ S M)
  | deliver (m : M)

/--
What the environment chooses in one reaction: how many calls it takes, and what the protocols above
choose in each of them.
-/
structure Turn (κ : Type) where
  steps : Nat
  choices : Nat → κ

/--
Runs a reaction of the protocols above, and then `frames`. A message to itself is delivered to the
process while it is sent.
-/
def run (a : ArbitraryTopology N) (proc : ReactiveProcess N σ ι κ S M) (choices : Nat → κ)
    : Nat → Reaction σ S M → List (Frame σ S M) → Option (σ × List (Event S (MessageShell N M)))
  | 0, _, _ => none
  | _ + 1, .done s, [] => some (s, [])
  | steps + 1, .done s, .resume next :: frames => a.run proc choices steps (next s) frames
  | steps + 1, .done s, .deliver m :: frames => do
    let r ← proc.deliver a.me m (choices steps) s
    a.run proc choices steps r frames
  | steps + 1, .send s e next, frames => do
    let (shells, deliveries) := a.onSend e
    let (s, outs) ← a.run proc choices steps (.done s) (deliveries.map .deliver ++ .resume next :: frames)
    return (s, shells ++ outs)

def emulating (topology : FinGraph Int) (proc : ReactiveProcess N σ ι κ S M)
    : NekoProcess N σ (ι × Turn κ) (Turn κ) S (MessageShell N M) where
  init := proc.init
  input := fun me (i, turn) s => do
    let a ← create topology me
    let r ← proc.input me i s
    a.run proc turn.choices turn.steps r []
  deliver := fun me shell turn s => do
    let a ← create topology me
    a.run proc turn.choices turn.steps (.done s) ((onReceive shell).map .deliver)

end ArbitraryTopology
