import Mathlib.Data.List.FinRange
import ScalaNeko.Kernel.Impl.Dispatcher
import ScalaNeko.Protocol.Impl.FIFOChannel

/-!
Processes with several FIFO channels each, which register with the dispatcher of the process.
-/

open AsyncNetwork
open Kernel (SimpleDispatcher Handler Receiver)

namespace FIFOChannels

variable {k N : Nat} {S M : Type}

inductive EventClass where
  | fifoSequenced
  deriving DecidableEq

instance : Receiver (Fin k) where
  equals := fun i j => i == j

-- The instances call `listenTo` in the order in which they are created.
def dispatcher (k : Nat) : SimpleDispatcher EventClass (Fin k) :=
  (List.finRange k).foldl (fun d i => d.registerFor .fifoSequenced i) {}

structure Node (k N : Nat) (M : Type) where
  channels : Fin k → FIFOChannel N M := fun _ => {}
  sent : List (Fin k × M) := []
  received : List (FIFOSequenced N M) := []
  delivered : List (Fin k × M) := []

variable [Message N M]

def deliver (e : FIFOSequenced N M) (node : Node k N M) : Handler (Fin k) → Node k N M
  | .protocol i =>
    let (channel, delivered) := (node.channels i).onReceive e
    { node with
      channels := Function.update node.channels i channel
      delivered := node.delivered ++ delivered.map (fun m => (i, m)) }
  | .orphan => node

def program : Program (PID N) (Node k N M) (Fin k × Event S M) Unit (FIFOSequenced N M) where
  init := fun _ => {}
  input := fun me (i, e) node =>
    let (channel, sends) := (node.channels i).onSend e
    let node := { node with channels := Function.update node.channels i channel }
    match e with
    | .signal _ => some (node, transmit sends)
    | .message m =>
      if Message.fromPID m = me then
        some ({ node with sent := node.sent ++ [(i, m)] }, transmit sends)
      else
        none
  receive := fun _ e _ node =>
    let node := ((dispatcher k).protocolsFor .fifoSequenced).foldl (deliver e) node
    some ({ node with received := node.received ++ [e] }, [])

end FIFOChannels
