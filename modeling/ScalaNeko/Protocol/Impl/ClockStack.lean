import ScalaNeko.NekoSimSystem.Impl
import ScalaNeko.Protocol.Impl.LogicalClock

/-!
The processes of a simulated system that use a logical clock. The application above is what is sent,
and a message carries the event that sent it, as in the runs without a simulator.
-/

open Causality (EventId)

namespace LogicalClock

variable {N : Nat} {S M W σ T : Type}

-- The additional data changes nothing for the network.
instance [Message N W] : Message N (Sent N W) where
  fromPID := fun m => Message.fromPID m.wrapped
  destinations := fun m => Message.destinations m.wrapped
  isBroadcast := fun m => Message.isBroadcast m.wrapped

def tag (sentBy : EventId (PID N)) : Event S W → Event S (Sent N W)
  | .signal ie => .signal ie
  | .message w => .message ⟨w, sentBy⟩

def process (C : LogicalClock N S M W σ T)
    : NekoProcess N (Node N σ T) (Input S M) Unit S (Sent N W) where
  init := fun _ => { clock := C.init, log := [], times := [] }
  input := fun me i node =>
    match i with
    | .internal => some (node.record C (C.internal me node.clock) none, [])
    | .send e =>
      let (clock, sends) := C.onSend me node.clock e
      some (node.record C clock none, sends.map (tag ⟨me, node.log.length⟩))
  deliver := fun me m _ node =>
    let (clock, _) := C.onReceive me node.clock m.wrapped
    some (node.record C clock (some m.sentBy), [])

end LogicalClock
