import ScalaNeko.Protocol.Impl.SynchronousRounds

/-!
Anonymous rounds over synchronous rounds, after `neko.protocol.AnonymousRounds`, and the runs of
processes that use them. The type `A` is that of the contents, the subclasses of `Anonymous`.
-/

open AsyncNetwork

structure Anonymized (N : Nat) (A : Type) where
  fromPID : PID N
  dests : Finset (PID N)
  content : A
  deriving DecidableEq

instance {N : Nat} {A : Type} : Message N (Anonymized N A) where
  fromPID := Anonymized.fromPID
  destinations := Anonymized.dests
  isBroadcast := fun _ => false

structure AnonymousStart (A : Type) where
  round : Int32
  mine : A
  other : List A
  deriving DecidableEq

namespace AnonymousRounds

variable {N : Nat} {S M A : Type}

inductive ClientSignal (S A : Type) where
  | anonymous (a : A)
  | done
  | other (ie : S)

inductive RoundSignal (A : Type) where
  | initRound
  | startRound (e : AnonymousStart A)

def anonymized (me : PID N) (a : A) : Anonymized N A := ⟨me, Finset.univ, a⟩

/--
`none` is the error of a partial function where it is not defined.
-/
def onSend (me : PID N)
    : Event (ClientSignal S A) M → Option (Event (SynchronousRounds.ClientSignal S) (Anonymized N A))
  | .signal (.anonymous a) => some (.message (anonymized me a))
  | .signal .done => some (.signal .done)
  | .signal (.other ie) => some (.signal (.other ie))
  | .message _ => none

/--
The own content and those of the others before they are shuffled. All messages are `Anonymized`,
since `onSend` hands over no others. `none` is the exception where the own message is missing.
-/
def onReceive (me : PID N) (start : StartRound N (Anonymized N A)) : Option (A × List A) :=
  match start.msgs me with
  | some (some m) =>
    let others := (List.finRange N).filter (fun q => q ≠ me)
    some (m.content, others.filterMap (fun q => (start.msgs q).join.map Anonymized.content))
  | _ => none

/--
A process with the record of the signals that its client was `delivered` and of its `answers`, one to
each signal.
-/
structure Node (N : Nat) (A : Type) where
  rounds : SynchronousRounds.Node N (Anonymized N A) := {}
  delivered : List (RoundSignal A) := []
  answers : List A := []

inductive Input (S M A : Type) where
  | run (answer : A)
  | test
  -- `shuffled` is the result of `Random.shuffle`
  | take (shuffled : List A) (answer : A)
  | handOver
  | client (e : Event (ClientSignal S A) M)

variable [DecidableEq A]

namespace Node

def take (node : Node N A) (me : PID N) (e : Round (Anonymized N A))
    (queue : List (Round (Anonymized N A))) (shuffled : List A) (answer : A)
    : Option (Node N A) :=
  match (node.rounds.party.onReceive e).2 with
  | none => some { node with rounds := node.rounds.take e queue [] }
  | some start =>
    match onReceive me start with
    -- the exception stops the thread
    | none => some { node with rounds := { node.rounds.take e queue [] with control := .failed } }
    | some (mine, other) =>
      if shuffled.Perm other then
        some { node with
          rounds := node.rounds.take e queue [anonymized me answer]
          delivered := node.delivered ++ [.startRound ⟨start.round, mine, shuffled⟩]
          answers := node.answers ++ [answer] }
      else
        none

-- A step of the rounds below that does not concern the client.
def below (S : Type) (node : Node N A) (me : PID N)
    (i : SynchronousRounds.Input S (Anonymized N A))
    : Option (Node N A × List (Envelope (PID N) (Round (Anonymized N A)))) :=
  (SynchronousRounds.program.input me i node.rounds).map fun (rounds, out) =>
    ({ node with rounds }, out)

end Node

def program
    : Program (PID N) (Node N A) (Input S M A) Unit (Round (Anonymized N A)) where
  init := fun _ => {}
  input := fun me i node =>
    match i with
    | .run answer =>
      if node.rounds.control = .new then
        some ({ node with
          rounds := node.rounds.run [anonymized me answer]
          delivered := node.delivered ++ [.initRound]
          answers := node.answers ++ [answer] }, [])
      else
        none
    | .test => node.below S me .test
    | .take shuffled answer =>
      match node.rounds.control, node.rounds.queue with
      | .receive, e :: queue => (node.take me e queue shuffled answer).map (fun node => (node, []))
      | _, _ => none
    | .handOver => node.below S me .handOver
    | .client e =>
      match onSend me e with
      | some (.signal ie) => node.below S me (.signal ie)
      -- the client sends no `Anonymous` signal but its answers, which are handed over
      | _ => none
  receive := fun _ e _ node =>
    some ({ node with rounds := { node.rounds with queue := node.rounds.queue ++ [e] } }, [])

end AnonymousRounds
