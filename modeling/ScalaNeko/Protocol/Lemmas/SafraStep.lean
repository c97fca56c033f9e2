import Mathlib.Data.Multiset.Count
import ScalaNeko.Network.Lemmas
import ScalaNeko.Protocol.Impl.SafraTerminationDetection

/-!
What the steps of Safra's detection do to the processes and to the messages on the network.
-/

open AsyncNetwork

namespace SafraTerminationDetection

variable {N : Nat} {S M : Type}

abbrev Run (N : Nat) (M : Type) := World (PID N) Node (SafraMessage N M)

def SafraMessage.isPayload : SafraMessage N M → Bool
  | payload _ => true
  | _ => false

def SafraMessage.isAnnounce : SafraMessage N M → Bool
  | announce _ _ => true
  | _ => false

def payloads (net : Multiset (Envelope (PID N) (SafraMessage N M))) : Nat :=
  net.countP (fun env => env.msg.isPayload)

def holders (net : Multiset (Envelope (PID N) (SafraMessage N M))) : Multiset (PID N × Token) :=
  net.filterMap fun env =>
    match env.msg with
    | .tokenHolder _ _ tok => some (env.dest, tok)
    | _ => none

section Network

variable {s t : Multiset (Envelope (PID N) (SafraMessage N M))}

@[simp]
theorem payloads_add : payloads (s + t) = payloads s + payloads t :=
  Multiset.countP_add _ _ _

@[simp]
theorem holders_add : holders (s + t) = holders s + holders t :=
  Multiset.filterMap_add _ _ _

@[simp]
theorem holders_cons_payload {p : PID N} {m : M} : holders (⟨p, .payload m⟩ ::ₘ s) = holders s :=
  Multiset.filterMap_cons_none _ _ rfl

@[simp]
theorem holders_cons_announce {p q : PID N} {dests : Finset (PID N)}
    : holders (⟨p, .announce q dests⟩ ::ₘ s) = holders s :=
  Multiset.filterMap_cons_none _ _ rfl

@[simp]
theorem holders_cons_tokenHolder {p q dest : PID N} {tok : Token}
    : holders (⟨p, .tokenHolder q dest tok⟩ ::ₘ s) = (p, tok) ::ₘ holders s :=
  Multiset.filterMap_cons_some _ _ _ rfl

end Network

section Transmit

variable [Message N M]

@[simp]
theorem transmit_message {m : M} : transmit [(.message m : Event S M)] = fanOut m := by
  simp [transmit]

theorem payloads_fanOut_payload (m : M)
    : payloads (Multiset.ofList (fanOut (.payload m : SafraMessage N M))) = (Message.destinations m).card := by
  have hall : ∀ env, env ∈ fanOut (.payload m : SafraMessage N M) → env.msg.isPayload := by
    intro env henv
    rw [mem_fanOut] at henv
    rw [henv.2]
    rfl
  rw [payloads, Multiset.coe_countP, List.countP_eq_length.mpr (by simpa using hall), length_fanOut]
  rfl

theorem holders_fanOut_payload (m : M)
    : holders (Multiset.ofList (fanOut (.payload m : SafraMessage N M))) = 0 := by
  rw [holders, Multiset.filterMap_coe, Multiset.coe_eq_zero, List.filterMap_eq_nil_iff]
  intro env henv
  rw [mem_fanOut] at henv
  rw [henv.2]

theorem payloads_fanOut_announce (p : PID N)
    : payloads (Multiset.ofList (fanOut (.announce p Finset.univ : SafraMessage N M))) = 0 := by
  rw [payloads, Multiset.coe_countP, List.countP_eq_zero]
  intro env henv
  rw [mem_fanOut] at henv
  rw [henv.2]
  exact Bool.false_ne_true

theorem holders_fanOut_announce (p : PID N)
    : holders (Multiset.ofList (fanOut (.announce p Finset.univ : SafraMessage N M))) = 0 := by
  rw [holders, Multiset.filterMap_coe, Multiset.coe_eq_zero, List.filterMap_eq_nil_iff]
  intro env henv
  rw [mem_fanOut] at henv
  rw [henv.2]

theorem fanOut_tokenHolder {p dest : PID N} {tok : Token}
    : fanOut (.tokenHolder p dest tok : SafraMessage N M) = [⟨dest, .tokenHolder p dest tok⟩] :=
  fanOut_singleton rfl

theorem mem_fanOut_announce {p : PID N} {env : Envelope (PID N) (SafraMessage N M)}
    : env ∈ fanOut (.announce p Finset.univ : SafraMessage N M) ↔ env.msg = .announce p Finset.univ := by
  rw [mem_fanOut]
  constructor
  . exact And.right
  . intro h
    exact ⟨Finset.mem_univ _, h⟩

end Transmit

def passOn [NeZero N] (me : PID N) (s : SafraTerminationDetection) (tok : Token) : Token :=
  if me = initiator then ⟨.white, 0⟩
  else ⟨if s.color = .black then .black else tok.color, s.msgCount.toInt64 + tok.count⟩

theorem transmitToken_some [NeZero N] (me : PID N) (s : SafraTerminationDetection) (tok : Token)
    : transmitToken me s (some tok)
      = ({ s with color := .white, token := none },
          ({ sends := [.message (.tokenHolder me (nextProcess me) (passOn me s tok))] }
            : Effects N S M)) := by
  rcases s with ⟨msgCount, state, color, token⟩
  unfold transmitToken passOn
  dsimp only
  split
  . rfl
  . cases color with
    | black => rfl
    | white => rfl

inductive Change [Message N M] [NeZero N] (node : Node)
    : Action (PID N) (Event (TerminationSignal S) M) Unit (SafraMessage N M) → Node →
      List (Envelope (PID N) (SafraMessage N M)) → Prop where
  | skip (p : PID N) (ie : TerminationSignal S) : Change node (.input p (.signal ie)) node []
  | passivate (p : PID N) : node.safra.state = .active → node.safra.token = none →
      Change node (.input p (.signal .becomePassive))
        { node with safra := { node.safra with state := .passive, token := none } } []
  | passToken (p : PID N) (tok : Token) : node.safra.state = .active → node.safra.token = some tok →
      Change node (.input p (.signal .becomePassive))
        { node with safra := { node.safra with state := .passive, color := .white, token := none } }
        [⟨nextProcess p, .tokenHolder p (nextProcess p) (passOn p node.safra tok)⟩]
  | send (p : PID N) (m : M) : node.safra.state = .active →
      Change node (.input p (.message m))
        { node with
            safra := { node.safra with
              msgCount := node.safra.msgCount + Int32.ofNat (Message.destinations m).card }
            sent := node.sent + (Message.destinations m).card }
        (fanOut (.payload m))
  | announce (p q : PID N) (dests : Finset (PID N)) :
      Change node (.receive p (.announce q dests) ()) node []
  | payload (p : PID N) (m : M) :
      Change node (.receive p (.payload m) ())
        { node with
            safra := { node.safra with
              color := .black, state := .active, msgCount := node.safra.msgCount - 1 }
            received := node.received + 1 }
        []
  | detect (p q dest : PID N) (tok : Token) : tok.color = .white → p = initiator →
      node.safra.msgCount.toInt64 + tok.count = 0 → node.safra.color = .white →
      node.safra.state = .passive →
      Change node (.receive p (.tokenHolder q dest tok) ()) node (fanOut (.announce p Finset.univ))
  | hold (p q dest : PID N) (tok : Token) : node.safra.state = .active →
      Change node (.receive p (.tokenHolder q dest tok) ())
        { node with safra := { node.safra with token := some tok } } []
  | forward (p q dest : PID N) (tok : Token) : node.safra.state = .passive →
      Change node (.receive p (.tokenHolder q dest tok) ())
        { node with safra := { node.safra with state := .passive, color := .white, token := none } }
        [⟨nextProcess p, .tokenHolder p (nextProcess p) (passOn p node.safra tok)⟩]

theorem input_change [Message N M] [NeZero N] {p : PID N} {e : Event (TerminationSignal S) M}
    {node node' : Node} {out : List (Envelope (PID N) (SafraMessage N M))}
    (h : program.input p e node = some (node', out))
    : Change node (.input p e) node' out := by
  simp only [program, Option.bind_eq_bind, Option.pure_def, Option.bind_eq_some_iff,
    Option.some.injEq, Prod.exists, Prod.mk.injEq] at h
  obtain ⟨safra, effects, hsend, rfl, rfl⟩ := h
  cases e with
  | signal ie =>
    cases ie with
    | becomePassive =>
      simp only [onSend] at hsend
      split at hsend
      . next hactive =>
        rw [Option.some.injEq] at hsend
        cases htok : node.safra.token with
        | none =>
          rw [htok] at hsend
          cases hsend
          exact .passivate p hactive htok
        | some tok =>
          rw [htok, transmitToken_some] at hsend
          cases hsend
          rw [transmit_message, fanOut_tokenHolder]
          exact .passToken p tok hactive htok
      . simp at hsend
    | initiate =>
      simp only [onSend, Option.some.injEq] at hsend
      cases hsend
      exact .skip p _
    | terminate =>
      simp only [onSend] at hsend
      split at hsend
      . cases hsend
        exact .skip p _
      . simp at hsend
    | other s =>
      simp only [onSend] at hsend
      split at hsend
      . cases hsend
        exact .skip p _
      . simp at hsend
  | message m =>
    simp only [onSend] at hsend
    split at hsend
    . next hactive =>
      cases hsend
      rw [transmit_message]
      exact .send p m hactive
    . simp at hsend

theorem receive_change [Message N M] [NeZero N] {p : PID N} {m : SafraMessage N M}
    {node node' : Node} {out : List (Envelope (PID N) (SafraMessage N M))}
    (h : (program (S := S)).receive p m () node = some (node', out))
    : @Change N S M _ _ node (.receive p m ()) node' out := by
  simp only [program, Option.some.injEq, Prod.mk.injEq] at h
  obtain ⟨rfl, rfl⟩ := h
  cases m with
  | announce q dests => exact .announce p q dests
  | payload m => exact .payload p m
  | tokenHolder q dest tok =>
    simp only [onReceive]
    split
    . next h =>
      obtain ⟨hcolor, hp, hsum, hwhite, hpassive⟩ := h
      rw [transmit_message]
      exact .detect p q dest tok hcolor hp hsum hwhite hpassive
    . split
      . next hactive => exact .hold p q dest tok hactive
      . next hpassive =>
        rw [transmitToken_some, transmit_message, fanOut_tokenHolder]
        have hforward := @Change.forward N S M _ _ node p q dest tok hpassive
        rw [← hpassive] at hforward
        exact hforward

theorem exec_change [Message N M] [NeZero N]
    {a : Action (PID N) (Event (TerminationSignal S) M) Unit (SafraMessage N M)}
    {node node' : Node} {out : List (Envelope (PID N) (SafraMessage N M))}
    (h : program.exec a node = some (node', out))
    : Change node a node' out := by
  cases a with
  | input p e => exact input_change h
  | receive p m k => exact receive_change h

end SafraTerminationDetection
