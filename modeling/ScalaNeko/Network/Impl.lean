import ScalaNeko.Event
import ScalaNeko.Lib.AsyncNetwork

/-!
Sending over the network, after `neko.network.AbstractNetwork` and
`neko.network.sim.DelaySimNetwork`.
-/

open AsyncNetwork (Envelope)

structure Network (N : Nat) (M τ : Type) where
  neighborsFor : PID N → Option (Finset (PID N))
  delayForMessage : PID N → M → Option τ

namespace Network

variable {N : Nat} {M τ S : Type}

def lossless (neighborsFor : PID N → Option (Finset (PID N))) (delay : PID N → M → τ)
    : Network N M τ where
  neighborsFor := neighborsFor
  delayForMessage := fun dest m => some (delay dest m)

def clique (p : PID N) : Option (Finset (PID N)) := some (Finset.univ.erase p)

variable [Message N M]

open Message

-- In `DelaySimNetwork`, a process is its own neighbour.
def neighborhoodFor (net : Network N M τ) (p : PID N) : Finset (PID N) :=
  insert p ((net.neighborsFor p).getD ∅)

def sendTo (net : Network N M τ) (dest : PID N) (m : M) : List (Envelope (PID N) M × τ) :=
  if dest ∈ net.neighborhoodFor (fromPID m) then
    match net.delayForMessage dest m with
    | some delay => [(⟨dest, m⟩, delay)]
    | none => []
  else
    []

def send (net : Network N M τ) : Event S M → List (Envelope (PID N) M × τ)
  -- signals are dropped
  | .signal _ => []
  | .message m =>
    if isBroadcast m then
      let neighbors := (net.neighborsFor (fromPID m)).getD ∅
      let dests := (List.finRange N).filter (fun dest => dest ∈ neighbors && dest != fromPID m)
      dests.flatMap (net.sendTo · m)
    else
      (destList m).flatMap (net.sendTo · m)

/--
`AbstractNetwork.sendTo`, which runs when the task of an envelope is executed: the message that the
receiver of the process gets, if any.
-/
def deliver (e : Envelope (PID N) M) : Option M :=
  if e.dest ∈ destinations e.msg || isBroadcast e.msg then
    some e.msg
  else
    none

def delivered (net : Network N M τ) (sends : List (Event S M)) : List (PID N × M) :=
  (sends.flatMap net.send).filterMap (fun task => (deliver task.1).map (fun m => (task.1.dest, m)))

end Network

-- What a fully connected network puts in flight.
def fanOut {N : Nat} {M : Type} [Message N M] (m : M) : List (Envelope (PID N) M) :=
  (Message.destList m).map (⟨·, m⟩)

def transmit {N : Nat} {S M : Type} [Message N M] (sends : List (Event S M))
    : List (Envelope (PID N) M) :=
  sends.flatMap fun
    | .signal _ => []
    | .message m => fanOut m
