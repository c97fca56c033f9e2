import ScalaNeko.Lib.Causality.History
import ScalaNeko.Network.Impl
import ScalaNeko.Protocol.Impl.LamportClock
import ScalaNeko.Protocol.Impl.VectorClock

/-!
The runs of processes that use a logical clock. The clock protocols share the trait `LogicalClock`
and the way in which they are driven: internal events, events sent from above, receptions.
-/

open AsyncNetwork
open Causality (EventId History)

structure LogicalClock (N : Nat) (S M W σ T : Type) where
  init : σ
  time : σ → T
  internal : PID N → σ → σ
  onSend : PID N → σ → Event S M → σ × List (Event S W)
  onReceive : PID N → σ → W → σ × M
  timestamp : W → T

namespace LogicalClock

variable {N : Nat} {S M W σ T : Type}

/--
A process with the record of its events: the event that sent the message it received, if any, and
the time right after it.
-/
structure Node (N : Nat) (σ T : Type) where
  clock : σ
  log : List (Option (EventId (PID N)))
  times : List T

structure Sent (N : Nat) (W : Type) where
  wrapped : W
  sentBy : EventId (PID N)
  deriving DecidableEq

inductive Input (S M : Type) where
  | internal
  | send (e : Event S M)

def Node.record (node : Node N σ T) (C : LogicalClock N S M W σ T) (clock : σ)
    (src : Option (EventId (PID N)))
    : Node N σ T where
  clock := clock
  log := node.log ++ [src]
  times := node.times ++ [C.time clock]

def transmit [Message N W] (sentBy : EventId (PID N)) : Event S W → List (Envelope (PID N) (Sent N W))
  -- signals are dropped
  | .signal _ => []
  | .message w => (fanOut w).map (fun e => ⟨e.dest, ⟨e.msg, sentBy⟩⟩)

def program [Message N W] (C : LogicalClock N S M W σ T)
    : Program (PID N) (Node N σ T) (Input S M) Unit (Sent N W) where
  init := fun _ => { clock := C.init, log := [], times := [] }
  input := fun me i node =>
    match i with
    | .internal => some (node.record C (C.internal me node.clock) none, [])
    | .send e =>
      let (clock, sends) := C.onSend me node.clock e
      some (node.record C clock none, sends.flatMap (transmit ⟨me, node.log.length⟩))
  receive := fun me e _ node =>
    let (clock, _) := C.onReceive me node.clock e.wrapped
    some (node.record C clock (some e.sentBy), [])

def history (w : World (PID N) (Node N σ T) (Sent N W)) : History (PID N) :=
  fun p => (w.node p).log

def timeOf (w : World (PID N) (Node N σ T) (Sent N W)) (e : EventId (PID N)) : Option T :=
  (w.node e.proc).times[e.idx]?

end LogicalClock

def LamportClock.protocol (N : Nat) (S M : Type)
    : LogicalClock N S M (LCTimeStamped M) LamportClock Int64 where
  init := {}
  time := LamportClock.time
  internal := fun _ => LamportClock.internal
  onSend := fun _ => LamportClock.onSend
  onReceive := fun _ => LamportClock.onReceive
  timestamp := LCTimeStamped.ts

def VectorClock.protocol (N : Nat) (S M : Type)
    : LogicalClock N S M (VCTimeStamped N M) (VectorClock N) (PID N → Int64) where
  init := {}
  time := VectorClock.time
  internal := VectorClock.internal
  onSend := VectorClock.onSend
  onReceive := VectorClock.onReceive
  timestamp := VCTimeStamped.ts
