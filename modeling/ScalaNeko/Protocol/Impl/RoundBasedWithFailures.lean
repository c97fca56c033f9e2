import ScalaNeko.Protocol.Impl.RoundBased

/-!
Rounds with crashes, after `neko.protocol.RoundBasedWithFailures`, and the runs of processes that use
them, from the registration of the protocols in `neko.ProcessConfig` and `neko.NekoProcess.preStart`
on.
-/

open AsyncNetwork
open RoundBased (Party)

namespace RoundBasedWithFailures

variable {N : Nat} {S M : Type}

inductive State where
  | running
  | crashing
  | crashed
  deriving DecidableEq

inductive Msg (N : Nat) (M : Type) where
  | plain (m : M)
  | partialCrashed (msg : M) (lost : Finset (PID N))
  | crashed (fromPID : PID N) (dests : Finset (PID N))
  deriving DecidableEq

namespace Msg

variable [Message N M]

def fromPID : Msg N M → PID N
  | plain m => Message.fromPID m
  | partialCrashed m _ => Message.fromPID m
  | crashed p _ => p

def destinations : Msg N M → Finset (PID N)
  | plain m => Message.destinations m
  | partialCrashed m _ => Message.destinations m
  | crashed _ dests => dests

def isBroadcast : Msg N M → Bool
  | plain m => Message.isBroadcast m
  | partialCrashed _ _ => false
  | crashed _ _ => false

instance : Message N (Msg N M) where
  fromPID := fromPID
  destinations := destinations
  isBroadcast := isBroadcast

end Msg

end RoundBasedWithFailures

structure RoundBasedWithFailures where
  state : RoundBasedWithFailures.State := .running
  round : Int32 := 0

namespace RoundBasedWithFailures

variable {N : Nat} {S M : Type}

-- `coin` is the result of `nextBoolean`.
def checkCrashing (f : RoundBasedWithFailures) (faultySet : Finset (PID N)) (me : PID N) (coin : Bool)
    : RoundBasedWithFailures :=
  if me ∈ faultySet && coin then { f with state := .crashing } else f

def onSend [Message N M] (f : RoundBasedWithFailures) (me : PID N) (destShuffle : List (PID N))
    (e : Event S M)
    : RoundBasedWithFailures × List (Event S (Msg N M)) :=
  match f.state, e with
  | .crashed, _ => (f, [])
  | _, .signal ie => (f, [.signal ie])
  | .crashing, .message m =>
    -- `destShuffle` is the result of `rand.shuffle`
    let lost := destShuffle.take (destShuffle.length - 1)
    let other := Finset.univ \ Message.destinations m
    ({ f with state := .crashed },
      .message (.partialCrashed m lost.toFinset)
        :: if other.Nonempty then [.message (.crashed me other)] else [])
  | .running, .message m => (f, [.message (.plain m)])

def interpret (me : PID N) : Option (Msg N M) → Option M
  | some (.crashed _ _) => none
  | some (.partialCrashed m crashed) => if me ∈ crashed then none else some m
  | some (.plain m) => some m
  | none => none

def onReceive (f : RoundBasedWithFailures) (faultySet : Finset (PID N)) (me : PID N) (coin : Bool)
    (s : RoundSignal N (Msg N M))
    : RoundBasedWithFailures × List (Event S (Msg N M)) × Option (RoundSignal N M) :=
  match f.state, s with
  | .crashed, _ => (f, [.message (.crashed me Finset.univ)], none)
  | _, .initRound => (f.checkCrashing faultySet me coin, [], some .initRound)
  | _, .startRound ⟨r, msgs⟩ =>
    let batch := fun q => (msgs q).map (interpret me)
    (({ f with round := r } : RoundBasedWithFailures).checkCrashing faultySet me coin, [],
      some (.startRound ⟨r, batch⟩))

inductive Proto where
  | failures
  | roundBased
  | other (id : Nat)
  deriving DecidableEq

structure ProcessConfig where
  registeredProtocols : List Proto := []

-- Every constructor of a protocol starts with that of `ProtocolImpl`, which registers it.
def ProcessConfig.register (config : ProcessConfig) (proto : Proto) : ProcessConfig where
  registeredProtocols := config.registeredProtocols.insert proto

def newRoundBased (config : ProcessConfig) : ProcessConfig := config.register .roundBased

def newRoundBasedWithFailures (config : ProcessConfig) : ProcessConfig :=
  newRoundBased (config.register .failures)

def newOthers (ids : List Nat) (config : ProcessConfig) : ProcessConfig :=
  ids.foldl (fun config id => config.register (.other id)) config

def initializer (before after : List Nat) : ProcessConfig :=
  newOthers after (newRoundBasedWithFailures (newOthers before {}))

-- What `NekoProcess.preStart` does.
inductive Call where
  | preStart (proto : Proto)
  | checkCrashing
  deriving DecidableEq

/--
A process. Its client reacts to each signal with some messages, which it hands over one by one, during
the delivery of the signal or later. `signals` are those delivered to the client, `calls` is `none`
before `NekoProcess.preStart`, and `hasCrashed` records that the state has been `Crashed`.
-/
structure Node (N : Nat) (M : Type) where
  protocols : List Proto
  calls : Option (List Call) := none
  failures : RoundBasedWithFailures := {}
  hasCrashed : Bool := false
  party : Party N (Msg N M) := {}
  signals : List (RoundSignal N M) := []
  reactions : List (List M) := []
  outbox : List M := []

inductive Input (N : Nat) (S M : Type) where
  | preStart (order : List Proto)
  | call (coin : Bool) (reaction : List M)
  | handOver (destShuffle : List (PID N))
  | signal (ie : S)

variable [Message N M] [DecidableEq M]

/--
`SEND` goes to the `RoundBased` of the process. An exception is thrown to the caller, which sends no
more.
-/
def sendAll (party : Party N (Msg N M)) (me : PID N)
    : List (Event S (Msg N M)) → Party N (Msg N M) × List (Event S (Round (Msg N M)))
  | [] => (party, [])
  | e :: sends =>
    let (party', out) := party.onSend me e
    if party'.exceptions = party.exceptions then
      let (party'', out') := sendAll party' me sends
      (party'', out ++ out')
    else
      (party', out)

namespace Node

def deliver (S : Type) (node : Node N M) (faultySet : Finset (PID N)) (me : PID N) (coin : Bool)
    (reaction : List M) (s : RoundSignal N (Msg N M))
    : Node N M × List (Event S (Round (Msg N M))) :=
  let (failures, sends, delivered) := node.failures.onReceive faultySet me coin s
  let (party, out) := sendAll node.party me (sends : List (Event S (Msg N M)))
  match delivered with
  | none => ({ node with failures, party }, out)
  | some s =>
    ({ node with
        failures
        party
        signals := node.signals ++ [s]
        reactions := node.reactions ++ [reaction]
        outbox := node.outbox ++ reaction }, out)

def preStartRoundBased (S : Type) (node : Node N M) (faultySet : Finset (PID N)) (me : PID N)
    (coin : Bool) (reaction : List M)
    : Node N M × List (Event S (Round (Msg N M))) :=
  ({ node with party := node.party.deliver .initRound } : Node N M).deliver S faultySet me coin
    reaction .initRound

def call (S : Type) (node : Node N M) (faultySet : Finset (PID N)) (me : PID N) (coin : Bool)
    (reaction : List M)
    : Option (Node N M × List (Event S (Round (Msg N M)))) :=
  match node.calls with
  | some (.preStart .roundBased :: calls) =>
    some (({ node with calls := some calls } : Node N M).preStartRoundBased S faultySet me coin
      reaction)
  | some (.preStart .failures :: calls) =>
    some (({ node with calls := some (.checkCrashing :: calls) } : Node N M).preStartRoundBased S
      faultySet me coin reaction)
  -- other protocols send nothing
  | some (.preStart (.other _) :: calls) => some ({ node with calls := some calls }, [])
  | some (.checkCrashing :: calls) =>
    some ({ node with
      calls := some calls
      failures := node.failures.checkCrashing faultySet me coin }, [])
  | _ => none

def send (node : Node N M) (me : PID N) (destShuffle : List (PID N)) (e : Event S M)
    : Node N M × List (Event S (Round (Msg N M))) :=
  let (failures, sends) := node.failures.onSend me destShuffle e
  let (party, out) := sendAll node.party me sends
  ({ node with
      failures
      hasCrashed := node.hasCrashed || failures.state = .crashed
      party }, out)

def receive (S : Type) (node : Node N M) (faultySet : Finset (PID N)) (me : PID N) (coin : Bool)
    (reaction : List M) (e : Round (Msg N M))
    : Node N M × List (Event S (Round (Msg N M))) :=
  match node.party.onReceive e with
  | (party, none) => ({ node with party }, [])
  | (party, some start) =>
    ({ node with party } : Node N M).deliver S faultySet me coin reaction (.startRound start)

end Node

def program (faultySet : Finset (PID N)) (before after : List Nat)
    : Program (PID N) (Node N M) (Input N S M) (Bool × List M) (Round (Msg N M)) where
  init := fun _ => { protocols := (initializer before after).registeredProtocols }
  input := fun me i node =>
    match i with
    | .preStart order =>
      if node.calls = none ∧ order.Perm node.protocols then
        some ({ node with calls := some (order.map .preStart) }, [])
      else
        none
    | .call coin reaction =>
      (node.call S faultySet me coin reaction).map (fun (node, sends) => (node, transmit sends))
    | .handOver destShuffle =>
      match node.outbox with
      | [] => none
      | m :: outbox =>
        if destShuffle.Perm (Message.destList m) then
          let (node, sends) :=
            ({ node with outbox } : Node N M).send me destShuffle (.message m : Event S M)
          some (node, transmit sends)
        else
          none
    | .signal ie =>
      let (node, sends) := node.send me [] (.signal ie)
      some (node, transmit sends)
  receive := fun me e (coin, reaction) node =>
    let (node, sends) := node.receive S faultySet me coin reaction e
    some (node, transmit sends)

end RoundBasedWithFailures
