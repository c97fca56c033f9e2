import ScalaNeko.Protocol.Impl.RoundBasedWithFailures
import ScalaNeko.Protocol.Lemmas.RoundExchange

/-!
What one step of a process with crashes can do.
-/

open AsyncNetwork
open RoundBased (Party messages)

namespace RoundBasedWithFailures

variable {N : Nat} {S M : Type}

def interpretSignal (me : PID N) : RoundSignal N (Msg N M) → RoundSignal N M
  | .initRound => .initRound
  | .startRound start => .startRound ⟨start.round, fun q => (start.msgs q).map (interpret me)⟩

theorem checkCrashing_of_not {f : RoundBasedWithFailures} {faultySet : Finset (PID N)} {me : PID N}
    {coin : Bool} (h : ¬ (me ∈ faultySet ∧ coin = true))
    : f.checkCrashing faultySet me coin = f := by
  unfold checkCrashing
  rw [if_neg (by simpa using h)]

theorem checkCrashing_state_ne {f : RoundBasedWithFailures} {faultySet : Finset (PID N)} {me : PID N}
    {coin : Bool} (h : f.state ≠ .crashed)
    : (f.checkCrashing faultySet me coin).state ≠ .crashed := by
  unfold checkCrashing
  split
  . nofun
  . exact h

theorem onReceive_of_not_crashed {f : RoundBasedWithFailures} (h : f.state ≠ .crashed)
    (faultySet : Finset (PID N)) (me : PID N) (coin : Bool) (s : RoundSignal N (Msg N M))
    : ∃ f' : RoundBasedWithFailures, f'.state ≠ .crashed
        ∧ f.onReceive (S := S) faultySet me coin s = (f', [], some (interpretSignal me s)) := by
  unfold onReceive
  cases hstate : f.state with
  | crashed => exact absurd hstate h
  | running =>
    cases s with
    | initRound => exact ⟨_, checkCrashing_state_ne h, rfl⟩
    | startRound start => exact ⟨_, checkCrashing_state_ne (f := ⟨.running, start.round⟩) nofun, rfl⟩
  | crashing =>
    cases s with
    | initRound => exact ⟨_, checkCrashing_state_ne h, rfl⟩
    | startRound start => exact ⟨_, checkCrashing_state_ne (f := ⟨.crashing, start.round⟩) nofun, rfl⟩

variable [Message N M] [DecidableEq M]

theorem sendAll_message (party : Party N (Msg N M)) (me : PID N) (x : Msg N M)
    : sendAll party me [(.message x : Event S (Msg N M))] = party.onSend me (.message x) := by
  unfold sendAll
  dsimp only
  split
  . rw [sendAll, List.append_nil]
  . rfl

theorem sendAll_signal (party : Party N (Msg N M)) (me : PID N) (ie : S)
    : sendAll party me [(.signal ie : Event S (Msg N M))] = (party, [.signal ie]) := by
  unfold sendAll
  rw [Party.onSend_signal]
  dsimp only
  rw [if_pos rfl, sendAll]
  rfl

namespace Node

variable {node : Node N M} {faultySet : Finset (PID N)} {me : PID N} {coin : Bool} {reaction : List M}

theorem deliver_of_crashed (h : node.failures.state = .crashed) (s : RoundSignal N (Msg N M))
    : node.deliver S faultySet me coin reaction s
      = ({ node with party := (node.party.onSend me
            (.message (.crashed me Finset.univ) : Event S (Msg N M))).1 },
          (node.party.onSend me (.message (.crashed me Finset.univ))).2) := by
  unfold Node.deliver onReceive
  rw [h]
  dsimp only
  rw [sendAll_message]

theorem deliver_of_not_crashed (h : node.failures.state ≠ .crashed) (s : RoundSignal N (Msg N M))
    : ∃ failures : RoundBasedWithFailures, failures.state ≠ .crashed
        ∧ node.deliver S faultySet me coin reaction s
          = ({ node with
                failures
                signals := node.signals ++ [interpretSignal me s]
                reactions := node.reactions ++ [reaction]
                outbox := node.outbox ++ reaction }, []) := by
  obtain ⟨failures, hstate, heq⟩ := onReceive_of_not_crashed (S := S) h faultySet me coin s
  refine ⟨failures, hstate, ?_⟩
  unfold Node.deliver
  rw [heq]
  rfl

theorem send_of_crashed (h : node.failures.state = .crashed) (destShuffle : List (PID N))
    (e : Event S M)
    : node.send me destShuffle e = ({ node with hasCrashed := true }, []) := by
  unfold Node.send onSend
  rw [h]
  dsimp only
  rw [sendAll]
  simp [h]

theorem send_of_crashing (h : node.failures.state = .crashing) (destShuffle : List (PID N)) {m : M}
    (hm : Message.destinations m = Finset.univ)
    : ∃ lost, node.send me destShuffle (.message m : Event S M)
        = ({ node with
              failures := { node.failures with state := .crashed }
              hasCrashed := true
              party := (node.party.onSend me
                (.message (.partialCrashed m lost) : Event S (Msg N M))).1 },
            (node.party.onSend me (.message (.partialCrashed m lost))).2) := by
  refine ⟨(destShuffle.take (destShuffle.length - 1)).toFinset, ?_⟩
  unfold Node.send onSend
  rw [h]
  dsimp only
  rw [hm, sdiff_self, if_neg (by simp), sendAll_message]
  simp

theorem send_of_running (h : node.failures.state = .running) (destShuffle : List (PID N)) (m : M)
    : node.send me destShuffle (.message m : Event S M)
      = ({ node with party := (node.party.onSend me (.message (.plain m) : Event S (Msg N M))).1 },
          (node.party.onSend me (.message (.plain m))).2) := by
  unfold Node.send onSend
  rw [h]
  dsimp only
  rw [sendAll_message]
  simp [h]

theorem send_signal (node : Node N M) (me : PID N) (destShuffle : List (PID N)) (ie : S)
    : ∃ out, node.send me destShuffle (.signal ie)
        = ({ node with hasCrashed := node.hasCrashed || node.failures.state = .crashed }, out)
        ∧ messages out = [] := by
  cases h : node.failures.state with
  | crashed => exact ⟨[], by rw [send_of_crashed h]; simp, rfl⟩
  | running =>
    refine ⟨[.signal ie], ?_, rfl⟩
    unfold Node.send onSend
    rw [h]
    dsimp only
    rw [sendAll_signal]
    simp [h]
  | crashing =>
    refine ⟨[.signal ie], ?_, rfl⟩
    unfold Node.send onSend
    rw [h]
    dsimp only
    rw [sendAll_signal]
    simp [h]

theorem deliver_frame (s : RoundSignal N (Msg N M))
    : (node.deliver S faultySet me coin reaction s).1.calls = node.calls
        ∧ (node.deliver S faultySet me coin reaction s).1.hasCrashed = node.hasCrashed
        ∧ (node.deliver S faultySet me coin reaction s).1.party.startRounds
          = node.party.startRounds := by
  by_cases h : node.failures.state = .crashed
  . obtain ⟨-, -, hsignals, -, -⟩ := (Party.onSend_cases (S := S) node.party me
      (.crashed me Finset.univ)).frame
    rw [deliver_of_crashed h, Party.startRounds, hsignals]
    exact ⟨rfl, rfl, rfl⟩
  . obtain ⟨failures, -, heq⟩ := deliver_of_not_crashed h s
    rw [heq]
    exact ⟨rfl, rfl, rfl⟩

theorem receive_cases (e : Round (Msg N M))
    : ∃ result, node.party.ReceiveCase e result
        ∧ ((result.2 = none
            ∧ node.receive S faultySet me coin reaction e = ({ node with party := result.1 }, []))
          ∨ (∃ start, result.2 = some start
            ∧ node.receive S faultySet me coin reaction e
              = ({ node with party := result.1 } : Node N M).deliver S faultySet me coin reaction
                  (.startRound start))) := by
  refine ⟨_, Party.onReceive_cases node.party e, ?_⟩
  unfold Node.receive
  cases hresult : node.party.onReceive e with
  | mk party start =>
    cases start with
    | none => exact .inl ⟨rfl, rfl⟩
    | some start => exact .inr ⟨start, rfl, rfl⟩

theorem receive_eq {before after : List Nat} {e : Round (Msg N M)} {k : Bool × List M}
    {node' : Node N M} {out : List (Envelope (PID N) (Round (Msg N M)))}
    (h : (program (S := S) faultySet before after).receive me e k node = some (node', out))
    : node' = (node.receive S faultySet me k.1 k.2 e).1
        ∧ out = transmit (node.receive S faultySet me k.1 k.2 e).2 := by
  cases h
  exact ⟨rfl, rfl⟩

inductive InputCase (node : Node N M) (faultySet : Finset (PID N)) (me : PID N)
    : Input N S M → Node N M × List (Event S (Round (Msg N M))) → Prop where
  | preStart (order : List Proto) :
      node.calls = none →
      order.Perm node.protocols →
      InputCase node faultySet me (.preStart order)
        ({ node with calls := some (order.map .preStart) }, [])
  | roundBased (coin : Bool) (reaction : List M) (calls : List Call) :
      node.calls = some (.preStart .roundBased :: calls) →
      InputCase node faultySet me (.call coin reaction)
        (({ node with calls := some calls } : Node N M).preStartRoundBased S faultySet me coin
          reaction)
  | failures (coin : Bool) (reaction : List M) (calls : List Call) :
      node.calls = some (.preStart .failures :: calls) →
      InputCase node faultySet me (.call coin reaction)
        (({ node with calls := some (.checkCrashing :: calls) } : Node N M).preStartRoundBased S
          faultySet me coin reaction)
  | other (coin : Bool) (reaction : List M) (id : Nat) (calls : List Call) :
      node.calls = some (.preStart (.other id) :: calls) →
      InputCase node faultySet me (.call coin reaction) ({ node with calls := some calls }, [])
  | checkCrashing (coin : Bool) (reaction : List M) (calls : List Call) :
      node.calls = some (.checkCrashing :: calls) →
      InputCase node faultySet me (.call coin reaction)
        ({ node with
            calls := some calls
            failures := node.failures.checkCrashing faultySet me coin }, [])
  | handOver (destShuffle : List (PID N)) (m : M) (outbox : List M) :
      node.outbox = m :: outbox →
      InputCase node faultySet me (.handOver destShuffle)
        (({ node with outbox } : Node N M).send me destShuffle (.message m))
  | signal (ie : S) :
      InputCase node faultySet me (.signal ie) (node.send me [] (.signal ie))

theorem call_cases {result : Node N M × List (Event S (Round (Msg N M)))}
    (h : node.call S faultySet me coin reaction = some result)
    : node.InputCase faultySet me (.call coin reaction) result := by
  unfold Node.call at h
  split at h
  . next hcalls =>
    cases h
    exact .roundBased coin reaction _ hcalls
  . next hcalls =>
    cases h
    exact .failures coin reaction _ hcalls
  . next hcalls =>
    cases h
    exact .other coin reaction _ _ hcalls
  . next hcalls =>
    cases h
    exact .checkCrashing coin reaction _ hcalls
  . cases h

theorem input_cases {before after : List Nat} {i : Input N S M} {node' : Node N M}
    {out : List (Envelope (PID N) (Round (Msg N M)))}
    (h : (program faultySet before after).input me i node = some (node', out))
    : ∃ result, node.InputCase faultySet me i result ∧ node' = result.1
        ∧ out = transmit result.2 := by
  cases i with
  | preStart order =>
    simp only [program] at h
    split at h
    . next horder =>
      cases h
      exact ⟨_, .preStart order horder.1 horder.2, rfl, rfl⟩
    . cases h
  | call coin reaction =>
    simp only [program, Option.map_eq_some_iff] at h
    obtain ⟨result, hcall, hresult⟩ := h
    cases hresult
    exact ⟨result, call_cases hcall, rfl, rfl⟩
  | handOver destShuffle =>
    simp only [program] at h
    split at h
    . cases h
    . next m outbox houtbox =>
      split at h
      . cases h
        exact ⟨_, .handOver destShuffle m outbox houtbox, rfl, rfl⟩
      . cases h
  | signal ie =>
    simp only [program] at h
    cases h
    exact ⟨_, .signal ie, rfl, rfl⟩

theorem deliver_crashed (h : node.failures.state = .crashed) (s : RoundSignal N (Msg N M))
    : (node.deliver S faultySet me coin reaction s).1.failures.state = .crashed := by
  rw [deliver_of_crashed h]
  exact h

theorem receive_crashed (h : node.failures.state = .crashed) (e : Round (Msg N M))
    : (node.receive S faultySet me coin reaction e).1.failures.state = .crashed := by
  obtain ⟨result, -, ⟨-, heq⟩ | ⟨start, -, heq⟩⟩ := node.receive_cases e
  . rw [heq]
    exact h
  . rw [heq]
    apply deliver_crashed
    exact h

theorem send_crashed (h : node.failures.state = .crashed) (destShuffle : List (PID N)) (e : Event S M)
    : (node.send me destShuffle e).1.failures.state = .crashed := by
  rw [send_of_crashed h]
  exact h

theorem InputCase.crashed {i : Input N S M} {result : Node N M × List (Event S (Round (Msg N M)))}
    (hcase : node.InputCase faultySet me i result) (h : node.failures.state = .crashed)
    (hguard : ∀ coin reaction calls, i = .call coin reaction →
      node.calls = some (.checkCrashing :: calls) → ¬ (me ∈ faultySet ∧ coin = true))
    : result.1.failures.state = .crashed := by
  cases hcase with
  | preStart => exact h
  | roundBased =>
    apply deliver_crashed
    exact h
  | failures =>
    apply deliver_crashed
    exact h
  | other => exact h
  | checkCrashing coin reaction calls hcalls =>
    dsimp only
    rw [checkCrashing_of_not (hguard coin reaction calls rfl hcalls)]
    exact h
  | handOver destShuffle m outbox =>
    apply send_crashed
    exact h
  | signal ie => exact send_crashed h [] _

end Node

end RoundBasedWithFailures
