import ScalaNeko.Network.Impl

/-!
Rounds, after `neko.protocol.RoundBased`, and the runs of processes that use them. A map is a
function to `Option`, or a function to the default of the map.
-/

open AsyncNetwork

structure Round (M : Type) where
  msg : M
  round : Int32
  deriving DecidableEq

instance {N : Nat} {M : Type} [Message N M] : Message N (Round M) := Message.wrapper Round.msg

structure StartRound (N : Nat) (M : Type) where
  round : Int32
  msgs : PID N → Option (Option M)

inductive RoundSignal (N : Nat) (M : Type) where
  | initRound
  | startRound (e : StartRound N M)

structure RoundBased (M : Type) where
  sendRound : Int32 := 0
  -- a set
  sendBatch : List M := []
  recvRound : Int32 := 0
  recvStash : Int32 → List M := fun _ => []

namespace RoundBased

variable {N : Nat} {S M : Type} [Message N M]

def severalMessages (me : PID N) : String :=
  PID.name me ++ " attempts to send several messages to the same process in the same round."

def batchSize (batch : List M) : Nat :=
  batch.foldl (fun a m => a + (Message.destinations m).card) 0

def onSend [DecidableEq M] (rounds : RoundBased M) (me : PID N)
    : Event S M → Except String (RoundBased M × List (Event S (Round M)))
  | .signal ie => .ok (rounds, [.signal ie])
  | .message m =>
    if rounds.sendBatch.any
        (fun b => (Message.destinations b ∩ Message.destinations m).Nonempty) then
      .error (severalMessages me)
    else
      let batch := rounds.sendBatch.insert m
      if batchSize batch = N then
        let round := rounds.sendRound
        .ok ({ rounds with sendBatch := [], sendRound := round + 1 },
          batch.map (fun m => .message ⟨m, round⟩))
      else
        .ok ({ rounds with sendBatch := batch }, [])

-- In the conversion of a list of pairs to a map, the last pair of a key counts.
def toMap {α : Type} (pairs : List (PID N × α)) : PID N → Option α :=
  pairs.foldl (fun map pair => Function.update map pair.1 (some pair.2)) (fun _ => none)

def messageVector (batch : List M) : PID N → Option (Option M) :=
  toMap (batch.map (fun m => (Message.fromPID m, some m)))

def collect (rounds : RoundBased M) (e : Round M) : RoundBased M × Option (StartRound N M) :=
  let recvStash :=
    Function.update rounds.recvStash e.round (e.msg :: rounds.recvStash e.round)
  let batch := recvStash rounds.recvRound
  if batch.length = N then
    let recvStash := Function.update recvStash rounds.recvRound []
    let recvRound := rounds.recvRound + 1
    ({ rounds with recvStash, recvRound }, some ⟨recvRound, messageVector batch⟩)
  else
    ({ rounds with recvStash }, none)

def onReceive (rounds : RoundBased M) (e : Round M)
    : Option (RoundBased M × Option (StartRound N M)) :=
  if rounds.recvRound ≤ e.round then
    some (rounds.collect e)
  else
    -- the warning about a message from an older round
    none

/--
An instance of the protocol with the record of what it did: `emitted` on the network in `flushes`
batches, `collected` from the network, ignored as `older`, delivered as `signals` to its client and
thrown as `exceptions` to its client.
-/
structure Party (N : Nat) (M : Type) where
  rounds : RoundBased M := {}
  emitted : List (Round M) := []
  flushes : Nat := 0
  collected : List (Round M) := []
  older : List (Round M) := []
  signals : List (RoundSignal N M) := []
  exceptions : List String := []

def messages {W : Type} (sends : List (Event S W)) : List W :=
  sends.filterMap fun
    | .signal _ => none
    | .message w => some w

namespace Party

def onSend [DecidableEq M] (party : Party N M) (me : PID N) (e : Event S M)
    : Party N M × List (Event S (Round M)) :=
  match party.rounds.onSend me e with
  | .error exception => ({ party with exceptions := party.exceptions ++ [exception] }, [])
  | .ok (rounds, sends) =>
    ({ party with
        rounds
        emitted := party.emitted ++ messages sends
        flushes := if (messages sends).isEmpty then party.flushes else party.flushes + 1 },
      sends)

def deliver (party : Party N M) (s : RoundSignal N M) : Party N M :=
  { party with signals := party.signals ++ [s] }

def onReceive (party : Party N M) (e : Round M) : Party N M × Option (StartRound N M) :=
  match party.rounds.onReceive e with
  | none => ({ party with older := party.older ++ [e] }, none)
  | some (rounds, none) => ({ party with rounds, collected := party.collected ++ [e] }, none)
  | some (rounds, some start) =>
    (({ party with rounds, collected := party.collected ++ [e] } : Party N M).deliver
      (.startRound start), some start)

end Party

/--
A process: its instance of the protocol and its client, which reacts to each signal with a batch of
messages. The client hands over the messages of `outbox` one by one, during the delivery of the
signal or later, since the delivery is the last thing that the protocol does in a reaction.
-/
structure Node (N : Nat) (M : Type) where
  party : Party N M := {}
  isStarted : Bool := false
  reactions : List (List M) := []
  handed : List M := []
  outbox : List M := []

inductive Input (S M : Type) where
  | preStart (reaction : List M)
  | handOver
  | signal (ie : S)

namespace Node

def react (node : Node N M) (reaction : List M) : Node N M :=
  { node with
      reactions := node.reactions ++ [reaction]
      outbox := node.outbox ++ reaction }

def preStart (node : Node N M) (reaction : List M) : Node N M :=
  ({ node with party := node.party.deliver .initRound, isStarted := true } : Node N M).react reaction

def handOver [DecidableEq M] (S : Type) (node : Node N M) (me : PID N)
    : Option (Node N M × List (Event S (Round M))) :=
  match node.outbox with
  | [] => none
  | m :: outbox =>
    let (party, sends) := node.party.onSend me (.message m : Event S M)
    some ({ node with party, outbox, handed := node.handed ++ [m] }, sends)

def onReceive (node : Node N M) (e : Round M) (reaction : List M) : Node N M :=
  match node.party.onReceive e with
  | (party, none) => { node with party }
  | (party, some _) => ({ node with party } : Node N M).react reaction

end Node

def program [DecidableEq M]
    : Program (PID N) (Node N M) (Input S M) (List M) (Round M) where
  init := fun _ => {}
  input := fun me i node =>
    match i with
    | .preStart reaction =>
      if node.isStarted then none else some (node.preStart reaction, [])
    | .handOver => (node.handOver S me).map (fun (node, sends) => (node, transmit sends))
    | .signal ie =>
      let (party, sends) := node.party.onSend me (.signal ie)
      some ({ node with party }, transmit sends)
  receive := fun _ e reaction node => some (node.onReceive e reaction, [])

end RoundBased
