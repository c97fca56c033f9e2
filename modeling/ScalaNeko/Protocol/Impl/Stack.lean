import ScalaNeko.Protocol.Impl.FIFOChannel
import ScalaNeko.Protocol.Impl.LamportClock
import ScalaNeko.Protocol.Impl.SafraTerminationDetection
import ScalaNeko.Protocol.Impl.VectorClock

/-!
Stacks of protocol layers between the sender of a message and the network.
-/

/--
The layers that turn messages `M` of the sender into messages `W` for the network. The layer that is
added last is the lowest one.
-/
inductive Stack (N : Nat) (M : Type) : Type → Type 1 where
  | empty : Stack N M M
  | lamport {W : Type} (clock : LamportClock) (above : Stack N M W) : Stack N M (LCTimeStamped W)
  | vector {W : Type} (clock : VectorClock N) (above : Stack N M W) : Stack N M (VCTimeStamped N W)
  | safra {W : Type} (safra : SafraTerminationDetection) (above : Stack N M W) :
      Stack N M (SafraTerminationDetection.SafraMessage N W)
  | fifo {W : Type} (channel : FIFOChannel N W) (above : Stack N M W) : Stack N M (FIFOSequenced N W)

namespace Stack

variable {N : Nat} {S M W : Type}

@[reducible]
def message [Message N M] : {W : Type} → Stack N M W → Message N W
  | _, empty => inferInstance
  | _, lamport _ above => let _ := above.message; inferInstance
  | _, vector _ above => let _ := above.message; inferInstance
  | _, safra _ above => let _ := above.message; inferInstance
  | _, fifo _ above => let _ := above.message; inferInstance

-- The events that one layer sends pass through the layer below in their order.
def through {σ E F : Type} (onSend : σ → E → Option (σ × List F)) : σ → List E → Option (σ × List F)
  | s, [] => some (s, [])
  | s, e :: es => do
    let (s, sends) ← onSend s e
    let (s, rest) ← through onSend s es
    return (s, sends ++ rest)

def onSend [Message N M] [NeZero N] (me : PID N)
    : {W : Type} → Stack N M W → Event (TerminationSignal S) M →
      Option (Stack N M W × List (Event (TerminationSignal S) W))
  | _, empty, e => some (empty, [e])
  | _, lamport clock above, e =>
    (above.onSend me e).bind fun (above, sends) =>
      (through (fun clock e => some (clock.onSend e)) clock sends).map fun (clock, sends) =>
        (lamport clock above, sends)
  | _, vector clock above, e =>
    (above.onSend me e).bind fun (above, sends) =>
      (through (fun clock e => some (clock.onSend me e)) clock sends).map fun (clock, sends) =>
        (vector clock above, sends)
  | _, safra s above, e =>
    let _ := above.message
    let onSend := fun s e =>
      (SafraTerminationDetection.onSend me s e).map fun (s, effects) => (s, effects.sends)
    (above.onSend me e).bind fun (above, sends) =>
      (through onSend s sends).map fun (s, sends) =>
        (safra s above, sends)
  | _, fifo channel above, e =>
    let _ := above.message
    (above.onSend me e).bind fun (above, sends) =>
      (through (fun channel e => some (channel.onSend e)) channel sends).map fun (channel, sends) =>
        (fifo channel above, sends)

def Active : {W : Type} → Stack N M W → Prop
  | _, empty => True
  | _, lamport _ above => above.Active
  | _, vector _ above => above.Active
  | _, safra s above => s.state = .active ∧ above.Active
  | _, fifo _ above => above.Active

def isEmpty : {W : Type} → Stack N M W → Bool
  | _, empty => true
  | _, _ => false

-- The message of the sender inside of a message on the network.
def unwrap : {W : Type} → Stack N M W → W → Option M
  | _, empty, m => some m
  | _, lamport _ above, w => above.unwrap w.m
  | _, vector _ above, w => above.unwrap w.m
  | _, safra _ above, w =>
    match w with
    | .payload w => above.unwrap w
    | _ => none
  | _, fifo _ above, w => above.unwrap w.m

def delivered {τ : Type} [Message N M] (st : Stack N M W) (net : Network N W τ)
    (sends : List (Event S W))
    : List (PID N × W) :=
  let _ := st.message
  net.delivered sends

end Stack
