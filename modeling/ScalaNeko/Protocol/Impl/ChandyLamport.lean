import ScalaNeko.Lib.FIFONetwork
import ScalaNeko.Network.Impl

/-!
The snapshots of `ChandyLamport`, in the experiments, and the runs of processes that use them over
FIFO channels.
-/

open AsyncNetwork (Envelope Program)

inductive SnapshotClient (M : Type) where
  | saveState
  | snapshotDone (recorded : Finset M)

inductive Initiate where
  | initiate

namespace ChandyLamport

inductive StateColor where
  | red
  | white
  deriving DecidableEq

end ChandyLamport

open ChandyLamport in
structure ChandyLamport (M : Type) where
  color : StateColor := .white
  record : Finset M := ∅
  -- does not leave 32 bits: it starts below the number of neighbours, and each of them sends one marker
  snapshotCount : Int

namespace ChandyLamport

inductive Wire (N : Nat) (M : Type) where
  | payload (msg : M) (color : StateColor)
  | snapshot (fromPID : PID N) (dests : Finset (PID N))

variable {N : Nat} {M : Type} [Message N M]

-- A `Payload` is a `Wrapper`, a `Snapshot` is a `MulticastMessage`.
instance : Message N (Wire N M) where
  fromPID
    | .payload m _ => Message.fromPID m
    | .snapshot p _ => p
  destinations
    | .payload m _ => Message.destinations m
    | .snapshot _ dests => dests
  isBroadcast := fun _ => false

def new (neighbors : Finset (PID N)) : ChandyLamport M where
  snapshotCount := neighbors.card - 1

/--
A process turns red: it sends the marker after `reaction`, which is what the client sends while it
handles `SaveState`.
-/
def turnRed (snap : ChandyLamport M) (me : PID N) (neighbors : Finset (PID N)) (reaction : List M)
    : ChandyLamport M × List (Event (SnapshotClient M) M) × List (Event Initiate (Wire N M)) :=
  ({ snap with color := .red }, [.signal .saveState],
    reaction.map (fun m => .message (.payload m .red)) ++ [.message (.snapshot me neighbors)])

def onSend (snap : ChandyLamport M) (me : PID N) (neighbors : Finset (PID N)) (reaction : List M)
    : Event Initiate M
      → ChandyLamport M × List (Event (SnapshotClient M) M) × List (Event Initiate (Wire N M))
  | .signal .initiate =>
    if snap.color = .white then
      snap.turnRed me neighbors reaction
    else
      (snap, [], [])
  | .message m => (snap, [], [.message (.payload m snap.color)])

def onReceive [DecidableEq M] (snap : ChandyLamport M) (me : PID N) (neighbors : Finset (PID N))
    (reaction : List M)
    : Wire N M
      → ChandyLamport M × List (Event (SnapshotClient M) M) × List (Event Initiate (Wire N M))
  | .payload m .white =>
    if snap.color = .red then
      ({ snap with record := insert m snap.record }, [.message m], [])
    else
      (snap, [.message m], [])
  | .payload m .red => (snap, [.message m], [])
  | .snapshot _ _ =>
    let (snap, deliveries, sends) :=
      if snap.color = .white then snap.turnRed me neighbors reaction else (snap, [], [])
    let snapshotCount := snap.snapshotCount - 1
    let done := if snapshotCount = 0 then [.signal (.snapshotDone snap.record)] else []
    ({ snap with snapshotCount }, deliveries ++ done, sends)

/--
What happens at a process: what its application sends and is delivered, and the markers that are
received. The process from which something is received is the one at the other end of the channel.
-/
inductive Entry (N : Nat) (M : Type) where
  | sent (m : M)
  | received (q : PID N) (m : M)
  | marker (q : PID N)
  | saveState
  | snapshotDone (recorded : Finset M)

structure Node (N : Nat) (M : Type) where
  snap : ChandyLamport M
  log : List (Entry N M) := []

/--
The entry of a delivery while something from `q` is handled. The delivery of `SaveState` lets the
client send `reaction`.
-/
def Entry.deliver (q : PID N) (reaction : List M) : Event (SnapshotClient M) M → List (Entry N M)
  | .message m => [.received q m]
  | .signal .saveState => .saveState :: reaction.map .sent
  | .signal (.snapshotDone recorded) => [.snapshotDone recorded]

def Entry.handOver : Event Initiate M → List (Entry N M)
  | .message m => [.sent m]
  | .signal .initiate => []

def Entry.arrive (q : PID N) : Wire N M → List (Entry N M)
  | .payload _ _ => []
  | .snapshot _ _ => [.marker q]

def program [DecidableEq M] (neighborsFor : PID N → Option (Finset (PID N)))
    : Program (PID N) (Node N M) (Event Initiate M × List M) (PID N × List M) (Wire N M) where
  init := fun me => { snap := new ((neighborsFor me).getD ∅) }
  input := fun me (e, reaction) node =>
    let (snap, deliveries, sends) := node.snap.onSend me ((neighborsFor me).getD ∅) reaction e
    let entries := deliveries.flatMap (Entry.deliver me reaction)
    some ({ snap, log := node.log ++ Entry.handOver e ++ entries }, transmit sends)
  receive := fun me w (q, reaction) node =>
    let (snap, deliveries, sends) := node.snap.onReceive me ((neighborsFor me).getD ∅) reaction w
    let entries := deliveries.flatMap (Entry.deliver q reaction)
    some ({ snap, log := node.log ++ Entry.arrive q w ++ entries }, transmit sends)

end ChandyLamport
