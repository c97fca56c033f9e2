import ScalaNeko.Protocol.Impl.SynchronousRounds
import ScalaNeko.Protocol.Lemmas.RoundBased

/-!
The active protocol synchronises rounds as the reactive one does. What waits in the queue of a
process is still to be received.
-/

open AsyncNetwork

namespace SynchronousRounds

open Message (destinations)
open RoundBased (Lockstep Regular Synchronised messages)

section Node

variable {N : Nat} {S M : Type} [Message N M] [DecidableEq M]

theorem Node.onSend_signal (node : Node N M) (p : PID N) (ie : ClientSignal S)
    : (node.onSend p (.signal ie)).1.toNode = node.toNode
        ∧ (node.onSend p (.signal ie)).1.queue = node.queue
        ∧ (node.onSend p (.signal ie)).1.control = node.control
        ∧ (transmit (node.onSend p (.signal ie)).2 : List (Envelope (PID N) (Round M))) = [] := by
  cases ie with
  | done => exact ⟨rfl, rfl, rfl, rfl⟩
  | other ie =>
    unfold Node.onSend
    dsimp only
    rw [RoundBased.Party.onSend_signal]
    exact ⟨rfl, rfl, rfl, rfl⟩

theorem Node.handOver_cases {node node' : Node N M} {p : PID N}
    {sends : List (Event (ClientSignal S) (Round M))} (h : node.handOver S p = some (node', sends))
    : node.toNode.handOver (ClientSignal S) p = some (node'.toNode, sends)
        ∧ node'.queue = node.queue ∧ node'.control = node.control
        ∧ node'.isStarted = node.isStarted := by
  unfold Node.handOver at h
  split at h
  . cases h
  . next m outbox houtbox =>
    cases h
    unfold RoundBased.Node.handOver
    rw [houtbox]
    exact ⟨rfl, rfl, rfl, rfl⟩

end Node

variable {N : Nat} {S M : Type}

def flight (node : PID N → Node N M) (net : Multiset (Envelope (PID N) (Round M))) (p : PID N)
    : Multiset (Round M) :=
  undelivered net p + ↑(node p).queue

variable {node : PID N → Node N M} {net : Multiset (Envelope (PID N) (Round M))} {p : PID N}

theorem flight_update {node' : Node N M} (net' : Multiset (Envelope (PID N) (Round M)))
    (hqueue : node'.queue = (node p).queue)
    : flight (Function.update node p node') net' = flight node net' := by
  funext q
  rw [flight, field_update Node.queue hqueue]
  rfl

variable [Message N M]

structure Inv (node : PID N → Node N M) (net : Multiset (Envelope (PID N) (Round M))) : Prop where
  lockstep : Lockstep (fun p => (node p).toNode) (flight node net)
  new : ∀ p, (node p).control = .new → (node p).isStarted = false
  running : ∀ p, (node p).control ≠ .failed

theorem Inv.update {node' : Node N M} {net' : Multiset (Envelope (PID N) (Round M))}
    (h : Inv node net)
    (hlockstep : Lockstep (Function.update (fun p => (node p).toNode) p node'.toNode)
      (flight (Function.update node p node') net'))
    (hnew : node'.control = .new → node'.isStarted = false) (hrunning : node'.control ≠ .failed)
    : Inv (Function.update node p node') net' := by
  constructor
  . have hnode : (fun q => (Function.update node p node' q).toNode)
        = Function.update (fun q => (node q).toNode) p node'.toNode :=
      Function.comp_update Node.toNode node p node'
    rw [hnode]
    exact hlockstep
  . exact (Function.forall_update_iff node
      (fun _ x => Node.control x = .new → x.isStarted = false)).mpr ⟨hnew, fun q _ => h.new q⟩
  . exact (Function.forall_update_iff node (fun _ x => Node.control x ≠ .failed)).mpr
      ⟨hrunning, fun q _ => h.running q⟩

theorem Inv.init : Inv (fun _ => ({} : Node N M)) 0 where
  lockstep := .init
  new := fun _ _ => rfl
  running := nofun

theorem Inv.control {node' : Node N M} (h : Inv node net) (hnode : node'.toNode = (node p).toNode)
    (hqueue : node'.queue = (node p).queue)
    (hnew : node'.control = .new → node'.isStarted = false) (hrunning : node'.control ≠ .failed)
    : Inv (Function.update node p node') net := by
  apply h.update _ hnew hrunning
  rw [flight_update net hqueue, hnode, Function.update_eq_self]
  exact h.lockstep

theorem Inv.run (h : Inv node net) (hcontrol : (node p).control = .new) (reaction : List M)
    : Inv (Function.update node p ((node p).run reaction)) net := by
  apply h.update
  . rw [flight_update]
    . exact h.lockstep.preStart (h.new p hcontrol) reaction
    . rfl
  . simp [Node.run]
  . simp [Node.run]

theorem Inv.take {e : Round M} {queue : List (Round M)} {reaction : List M} (h : Inv node net)
    (hqueue : (node p).queue = e :: queue)
    (hlt : ((node p).toNode.onReceive e reaction).party.startRounds.length < 2 ^ 31)
    : Inv (Function.update node p ((node p).take e queue reaction)) net := by
  have hflight : flight node net p = e ::ₘ (undelivered net p + ↑queue) := by
    rw [flight, hqueue, ← Multiset.cons_coe, Multiset.add_cons]
  have hround := h.lockstep.exchange.not_older (p := p) (e := e)
    (by rw [hflight]; exact Multiset.mem_cons_self e _)
  have hcontrol : ((node p).take e queue reaction).control = .loop := by
    simp only [Node.take, RoundBased.onReceive, if_pos hround, Option.isSome_some, if_true]
  apply h.update
  . have htaken : flight (Function.update node p ((node p).take e queue reaction)) net
        = Function.update (flight node net) p (undelivered net p + ↑queue) := by
      funext q
      by_cases hq : q = p
      . rw [hq, Function.update_self, flight, Function.update_self]
        rfl
      . rw [Function.update_of_ne hq, flight, Function.update_of_ne hq]
        rfl
    rw [htaken]
    exact h.lockstep.receive hflight hlt
  . simp [hcontrol]
  . simp [hcontrol]

theorem Inv.handOver [DecidableEq M] {node' : Node N M}
    {sends : List (Event (ClientSignal S) (Round M))} (h : Inv node net)
    (hbatches : ∀ reaction, reaction ∈ (node p).reactions → RoundBased.IsBatch p reaction)
    (hst : (node p).handOver S p = some (node', sends))
    : Inv (Function.update node p node') (↑(transmit sends) + net) := by
  obtain ⟨hhand, hqueue, hcontrol, hstarted⟩ := Node.handOver_cases hst
  apply h.update
  . have hflight : flight node (↑(transmit sends) + net)
        = fun q => ↑((messages sends).filter (fun e => q ∈ destinations e.msg)) + flight node net q := by
      funext q
      rw [flight, RoundBased.undelivered_transmit_add, Multiset.add_assoc]
      rfl
    rw [flight_update _ hqueue, hflight]
    exact h.lockstep.handOver hbatches hhand
  . rw [hcontrol, hstarted]
    exact h.new p
  . rw [hcontrol]
    exact h.running p

theorem Inv.deliver {e : Round M} {rest : Multiset (Envelope (PID N) (Round M))} (h : Inv node net)
    (hnet : net = ⟨p, e⟩ ::ₘ rest)
    : Inv (Function.update node p { node p with queue := (node p).queue ++ [e] }) rest := by
  apply h.update
  . have hflight : flight (Function.update node p { node p with queue := (node p).queue ++ [e] }) rest
        = flight node net := by
      funext q
      rw [flight, flight]
      by_cases hq : q = p
      . rw [hq, Function.update_self, undelivered_taken hnet, ← Multiset.coe_add, Multiset.coe_singleton,
          ← Multiset.add_assoc, Multiset.add_comm, Multiset.singleton_add, Multiset.cons_add]
      . rw [Function.update_of_ne hq, undelivered_rest hnet, Function.update_of_ne hq]
    rw [hflight, Function.update_eq_self]
    exact h.lockstep
  . exact h.new p
  . exact h.running p

variable [DecidableEq M]

theorem inv_of_reach {w : World (PID N) (Node N M) (Round M)}
    (h : (program (S := S)).lts.Reach (fun _ _ w => Regular (fun p => (w.node p).toNode)) w)
    : Inv w.node w.net := by
  apply LTS.Reach.invariant (I := fun w => Inv w.node w.net) _ _ h
  . rintro w rfl
    exact .init
  . rintro w l w' _ hinv hst hreg
    cases hst with
    | @input p i node' out hinput =>
      dsimp only at hreg ⊢
      cases i with
      | run reaction =>
        simp only [program] at hinput
        split at hinput
        . next hcontrol =>
          cases hinput
          rw [Multiset.coe_nil, Multiset.zero_add]
          exact hinv.run hcontrol reaction
        . cases hinput
      | test =>
        simp only [program] at hinput
        split at hinput
        . cases hinput
          rw [Multiset.coe_nil, Multiset.zero_add]
          apply hinv.control
          . rfl
          . rfl
          . unfold Node.test
            split <;> nofun
          . unfold Node.test
            split <;> nofun
        . cases hinput
      | take reaction =>
        simp only [program] at hinput
        split at hinput
        . next hqueue =>
          cases hinput
          have hlt := hreg.startRounds_lt p
          rw [Function.update_self] at hlt
          rw [Multiset.coe_nil, Multiset.zero_add]
          exact hinv.take hqueue hlt
        . cases hinput
      | handOver =>
        simp only [program, Option.map_eq_some_iff, Prod.exists, Prod.mk.injEq] at hinput
        obtain ⟨_, sends, hhand, rfl, rfl⟩ := hinput
        have hbatches := hreg.batches p
        rw [Function.update_self,
          RoundBased.reactions_of_handOver (Node.handOver_cases hhand).1] at hbatches
        exact hinv.handOver hbatches hhand
      | signal ie =>
        obtain ⟨hnode, hqueue, hcontrol, htransmit⟩ := (w.node p).onSend_signal p ie
        simp only [program] at hinput
        cases hinput
        rw [htransmit, Multiset.coe_nil, Multiset.zero_add]
        apply hinv.control hnode hqueue
        . rw [hcontrol, hnode]
          exact hinv.new p
        . rw [hcontrol]
          exact hinv.running p
    | @receive p e _ node' out rest hnet hreceive =>
      cases hreceive
      rw [Multiset.coe_nil, Multiset.zero_add]
      exact hinv.deliver hnet

theorem synchronised_of_regular
    : (∀ w, (RoundBased.program (S := S) (M := M)).lts.Reach (fun _ _ w => Regular w.node) w →
          Synchronised w.node (undelivered w.net))
        ∧ (∀ w, (program (S := S) (M := M)).lts.Reach
            (fun _ _ w => Regular (fun p => (w.node p).toNode)) w →
          Synchronised (fun p => (w.node p).toNode) (flight w.node w.net)
            ∧ ∀ p, (w.node p).control ≠ .failed) := by
  constructor
  . intro w h
    apply (RoundBased.lockstep_of_reach h).synchronised
    cases h with
    | init h0 =>
      rw [h0]
      intro p reaction hreaction
      cases hreaction
    | step _ _ hreg => exact hreg.batches
  . intro w h
    have hinv := inv_of_reach h
    refine ⟨hinv.lockstep.synchronised ?_, hinv.running⟩
    cases h with
    | init h0 =>
      rw [h0]
      intro p reaction hreaction
      cases hreaction
    | step _ _ hreg => exact hreg.batches

section Pair

attribute [local instance] PID.twoProcesses

open RoundBased (PairNode toAll regular_pair)

-- The message that `p` sends to `q` in the round.
def packet (p q : PID 2) (round : Int32) : Envelope (PID 2) (Round (AppMessage 2 Unit)) := ⟨q, ⟨toAll p, round⟩⟩

/--
The first process has started round 1 and sent its message, which reaches the second one in round 0.
-/
theorem exists_drifted
    : ∃ w : World (PID 2) PairNode (Round (AppMessage 2 Unit)),
        (RoundBased.program (S := Unit)).lts.Reach (fun _ _ w => Regular w.node) w
          ∧ (w.node 0).party.startRounds.length = 1 ∧ (w.node 1).party.startRounds.length = 0
          ∧ (w.node 1).party.rounds.recvStash 1 = [toAll 0] := by
  have h0 : (RoundBased.program (S := Unit) (M := AppMessage 2 Unit)).lts.Reach
      (fun _ _ w => Regular w.node) RoundBased.program.initWorld := .init rfl
  have h1 := Program.Reach.input h0 0 (.preStart [toAll 0]) rfl (regular_pair (by decide) (by decide))
  have h2 := Program.Reach.input h1 1 (.preStart [toAll 1]) rfl (regular_pair (by decide) (by decide))
  have h3 := Program.Reach.input h2 0 .handOver rfl (regular_pair (by decide) (by decide))
  have h4 := Program.Reach.input h3 1 .handOver rfl (regular_pair (by decide) (by decide))
  have h5 := Program.Reach.receive h4 0 ⟨toAll 1, 0⟩ []
    (.ofList [packet 1 1 0, packet 0 0 0, packet 0 1 0]) rfl rfl (regular_pair (by decide) (by decide))
  have h6 := Program.Reach.receive h5 0 ⟨toAll 0, 0⟩ [toAll 0]
    (.ofList [packet 1 1 0, packet 0 1 0]) (by decide) rfl (regular_pair (by decide) (by decide))
  have h7 := Program.Reach.input h6 0 .handOver rfl (regular_pair (by decide) (by decide))
  have h8 := Program.Reach.receive h7 1 ⟨toAll 0, 1⟩ []
    (.ofList [packet 0 0 1, packet 1 1 0, packet 0 1 0]) (by decide) rfl
    (regular_pair (by decide) (by decide))
  exact ⟨_, h8, by decide, by decide, by decide⟩

/--
The same with the active protocol.
-/
theorem exists_drifted_active
    : ∃ w : World (PID 2) (Node 2 (AppMessage 2 Unit)) (Round (AppMessage 2 Unit)),
        (program (S := Unit)).lts.Reach (fun _ _ w => Regular (fun p => (w.node p).toNode)) w
          ∧ (w.node 0).party.startRounds.length = 1 ∧ (w.node 1).party.startRounds.length = 0
          ∧ (w.node 1).party.rounds.recvStash 1 = [toAll 0] := by
  have h0 : (program (S := Unit) (M := AppMessage 2 Unit)).lts.Reach
      (fun _ _ w => Regular (fun p => (w.node p).toNode)) program.initWorld := .init rfl
  have h1 := Program.Reach.input h0 0 (.run [toAll 0]) rfl (regular_pair (by decide) (by decide))
  have h2 := Program.Reach.input h1 0 .test rfl (regular_pair (by decide) (by decide))
  have h3 := Program.Reach.input h2 0 .handOver rfl (regular_pair (by decide) (by decide))
  have h4 := Program.Reach.input h3 1 (.run [toAll 1]) rfl (regular_pair (by decide) (by decide))
  have h5 := Program.Reach.input h4 1 .test rfl (regular_pair (by decide) (by decide))
  have h6 := Program.Reach.input h5 1 .handOver rfl (regular_pair (by decide) (by decide))
  have h7 := Program.Reach.receive h6 0 ⟨toAll 1, 0⟩ ()
    (.ofList [packet 1 1 0, packet 0 0 0, packet 0 1 0]) rfl rfl (regular_pair (by decide) (by decide))
  have h8 := Program.Reach.receive h7 0 ⟨toAll 0, 0⟩ ()
    (.ofList [packet 1 1 0, packet 0 1 0]) (by decide) rfl (regular_pair (by decide) (by decide))
  have h9 := Program.Reach.input h8 0 (.take []) rfl (regular_pair (by decide) (by decide))
  have h10 := Program.Reach.input h9 0 .test rfl (regular_pair (by decide) (by decide))
  have h11 := Program.Reach.input h10 0 (.take [toAll 0]) rfl (regular_pair (by decide) (by decide))
  have h12 := Program.Reach.input h11 0 .handOver rfl (regular_pair (by decide) (by decide))
  have h13 := Program.Reach.receive h12 1 ⟨toAll 0, 1⟩ ()
    (.ofList [packet 0 0 1, packet 1 1 0, packet 0 1 0]) (by decide) rfl
    (regular_pair (by decide) (by decide))
  have h14 := Program.Reach.input h13 1 (.take []) rfl (regular_pair (by decide) (by decide))
  exact ⟨_, h14, by decide, by decide, by decide⟩

theorem synchronised_of_regular_pair
    : (∃ w : World (PID 2) PairNode (Round (AppMessage 2 Unit)),
          (RoundBased.program (S := Unit)).lts.Reach (fun _ _ w => Regular w.node) w
            ∧ (w.node 0).party.startRounds.length = 1 ∧ (w.node 1).party.startRounds.length = 0
            ∧ (w.node 1).party.rounds.recvStash 1 = [toAll 0]
            ∧ Synchronised w.node (undelivered w.net))
        ∧ ∃ w : World (PID 2) (Node 2 (AppMessage 2 Unit)) (Round (AppMessage 2 Unit)),
          (program (S := Unit)).lts.Reach (fun _ _ w => Regular (fun p => (w.node p).toNode)) w
            ∧ (w.node 0).party.startRounds.length = 1 ∧ (w.node 1).party.startRounds.length = 0
            ∧ (w.node 1).party.rounds.recvStash 1 = [toAll 0]
            ∧ Synchronised (fun p => (w.node p).toNode) (flight w.node w.net)
            ∧ ∀ p, (w.node p).control ≠ .failed := by
  constructor
  . obtain ⟨w, h, hfirst, hsecond, hstash⟩ := exists_drifted
    exact ⟨w, h, hfirst, hsecond, hstash, synchronised_of_regular.1 w h⟩
  . obtain ⟨w, h, hfirst, hsecond, hstash⟩ := exists_drifted_active
    exact ⟨w, h, hfirst, hsecond, hstash, synchronised_of_regular.2 w h⟩

end Pair

open RoundBased.Alone (AloneWorld)

theorem not_synchronised_of_overflow
    : ¬ ∀ w : AloneWorld,
        (RoundBased.program (S := Unit) (M := AppMessage 1 Unit)).lts.Reach
            (fun _ _ w => ∀ p reaction, reaction ∈ (w.node p).reactions →
              RoundBased.IsBatch p reaction) w →
          Synchronised w.node (undelivered w.net) := by
  intro hall
  obtain ⟨w, hreach, -, hafter⟩ := RoundBased.Alone.exists_after (2 ^ 31) (2 ^ 31) (Nat.le_refl _)
  have hsync := hall w (hreach.mono (fun _ _ _ h p => (h p).1))
  have hlt : 2 ^ 31 - 1 < (w.node 0).party.startRounds.length := by
    rw [hafter.length]
    decide
  have hstart := List.getElem?_eq_getElem hlt
  have hnumber := hsync.numbers 0 _ _ hstart
  rw [hafter.numbers _ _ hstart] at hnumber
  revert hnumber
  decide

end SynchronousRounds
