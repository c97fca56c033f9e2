import Mathlib.Data.List.Sort
import ScalaNeko.Network.Impl

/-!
FIFO channels, after `neko.protocol.FIFOChannel`, and the runs of processes that use them. Arrays
with one entry for each process are functions on the processes.
-/

open AsyncNetwork

structure FIFOSequenced (N : Nat) (M : Type) where
  m : M
  dest : PID N
  seqNum : Int64
  deriving DecidableEq

instance {N : Nat} {M : Type} [Message N M] : Message N (FIFOSequenced N M) where
  fromPID := fun e => Message.fromPID e.m
  destinations := fun e => {e.dest}
  isBroadcast := fun _ => false

structure FIFOInfo (N : Nat) (M : Type) where
  fromPID : PID N
  seqNum : Int64
  msg : M
  deriving DecidableEq

-- The order on the pairs `(-seqNum, from)`.
def FIFOOrdering.gt {N : Nat} {M : Type} (a b : FIFOInfo N M) : Prop :=
  -b.seqNum < -a.seqNum ∨ (-b.seqNum = -a.seqNum ∧ b.fromPID < a.fromPID)

instance {N : Nat} {M : Type} : DecidableRel (@FIFOOrdering.gt N M) :=
  fun _ _ => inferInstanceAs (Decidable (_ ∨ _))

/--
A message buffer is a priority queue, given as the list of its elements with the greatest first.
-/
structure FIFOChannel (N : Nat) (M : Type) where
  nextSendTo : PID N → Int64 := fun _ => 0
  nextReceiveFrom : PID N → Int64 := fun _ => 0
  messageBuffer : PID N → List (FIFOInfo N M) := fun _ => []

namespace FIFOChannel

variable {N : Nat} {S M : Type}

def enqueue (buffer : List (FIFOInfo N M)) (info : FIFOInfo N M) : List (FIFOInfo N M) :=
  buffer.orderedInsert FIFOOrdering.gt info

-- The body of the loop over the destinations.
def sendTo (m : M) (acc : FIFOChannel N M × List (Event S (FIFOSequenced N M))) (dest : PID N)
    : FIFOChannel N M × List (Event S (FIFOSequenced N M)) :=
  let (channel, sends) := acc
  let sn := channel.nextSendTo dest
  let channel := { channel with nextSendTo := Function.update channel.nextSendTo dest (sn + 1) }
  (channel, sends ++ [.message ⟨m, dest, sn⟩])

def onSend [Message N M] (channel : FIFOChannel N M)
    : Event S M → FIFOChannel N M × List (Event S (FIFOSequenced N M))
  | .signal ie => (channel, [.signal ie])
  | .message m => (Message.destList m).foldl (sendTo m) (channel, [])

/--
The loop that delivers pending messages: the messages that it delivers, the remaining buffer and the
next number that is expected.
-/
def deliverPending : List (FIFOInfo N M) → Int64 → List M × List (FIFOInfo N M) × Int64
  | [], next => ([], [], next)
  | info :: buffer, next =>
    if info.seqNum = next then
      let (delivered, rest) := deliverPending buffer (next + 1)
      (info.msg :: delivered, rest)
    else
      ([], info :: buffer, next)

def onReceive [Message N M] (channel : FIFOChannel N M) (e : FIFOSequenced N M)
    : FIFOChannel N M × List M :=
  let p := Message.fromPID e.m
  let buffer := enqueue (channel.messageBuffer p) ⟨p, e.seqNum, e.m⟩
  let (delivered, buffer, next) := deliverPending buffer (channel.nextReceiveFrom p)
  let channel :=
    { channel with
        messageBuffer := Function.update channel.messageBuffer p buffer
        nextReceiveFrom := Function.update channel.nextReceiveFrom p next }
  (channel, delivered)

structure Node (N : Nat) (M : Type) where
  channel : FIFOChannel N M := {}
  sent : List M := []
  received : List (FIFOSequenced N M) := []
  delivered : List M := []

def program [Message N M]
    : Program (PID N) (Node N M) (Event S M) Unit (FIFOSequenced N M) where
  init := fun _ => {}
  input := fun me e node =>
    let (channel, sends) := node.channel.onSend e
    match e with
    | .signal _ => some ({ node with channel }, transmit sends)
    | .message m =>
      -- the layer above sends messages of its own process
      if Message.fromPID m = me then
        some ({ node with channel, sent := node.sent ++ [m] }, transmit sends)
      else
        none
  receive := fun _ e _ node =>
    let (channel, delivered) := node.channel.onReceive e
    some ({ node with
      channel
      received := node.received ++ [e]
      delivered := node.delivered ++ delivered }, [])

end FIFOChannel
