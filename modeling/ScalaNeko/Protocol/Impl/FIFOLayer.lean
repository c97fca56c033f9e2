import ScalaNeko.NekoSimSystem.Impl
import ScalaNeko.Protocol.Impl.FIFOChannel

/-!
Processes whose protocols send through a `FIFOChannel`.
-/

namespace FIFOChannel

variable {N : Nat} {σ ι κ S M : Type}

structure Layered (N : Nat) (σ M : Type) where
  above : σ
  fifo : Node N M := {}

variable [Message N M]

def send (fifo : Node N M) (e : Event S M) : Node N M × List (Event S (FIFOSequenced N M)) :=
  let (channel, sends) := fifo.channel.onSend e
  match e with
  | .signal _ => ({ fifo with channel }, sends)
  | .message m => ({ fifo with channel, sent := fifo.sent ++ [m] }, sends)

def sendAll (fifo : Node N M)
    : List (Event S M) → Node N M × List (Event S (FIFOSequenced N M))
  | [] => (fifo, [])
  | e :: es =>
    let (fifo, sends) := send fifo e
    let (fifo, rest) := sendAll fifo es
    (fifo, sends ++ rest)

/--
The deliveries of one reaction of the channel, each with what the protocols above send while they
handle it. The loop of the channel does not read what `onSend` changes.
-/
def deliverAll (proc : NekoProcess N σ ι κ S M) (me : PID N)
    : List M → (Nat → κ) → Layered N σ M →
      Option (Layered N σ M × List (Event S (FIFOSequenced N M)))
  | [], _, s => some (s, [])
  | m :: ms, ks, s => do
    let (above, sends) ← proc.deliver me m (ks 0) s.above
    let (fifo, out) := sendAll s.fifo sends
    let (s, outs) ← deliverAll proc me ms (fun n => ks (n + 1)) ⟨above, fifo⟩
    return (s, out ++ outs)

def receive (fifo : Node N M) (e : FIFOSequenced N M) : Node N M × List M :=
  let (channel, delivered) := fifo.channel.onReceive e
  ({ fifo with
      channel
      received := fifo.received ++ [e]
      delivered := fifo.delivered ++ delivered },
    delivered)

def under (proc : NekoProcess N σ ι κ S M)
    : NekoProcess N (Layered N σ M) ι (Nat → κ) S (FIFOSequenced N M) where
  init := fun me => { above := proc.init me }
  input := fun me i s => do
    let (above, sends) ← proc.input me i s.above
    let (fifo, out) := sendAll s.fifo sends
    return (⟨above, fifo⟩, out)
  deliver := fun me e ks s =>
    let (fifo, delivered) := receive s.fifo e
    deliverAll proc me delivered ks { s with fifo }

end FIFOChannel
