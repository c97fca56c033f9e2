import ScalaNeko.Protocol.Lemmas.RoundClient

/-!
Rounds are synchronised: every process starts the same rounds with the messages of all processes.
-/

open AsyncNetwork
open DisjointCover

namespace RoundBased

variable {N : Nat} {S M : Type} [Message N M]

open Message (destinations fromPID)

/--
The invariant of the runs. A process starts a round as soon as it has received the whole batch.
-/
structure Lockstep (node : PID N → Node N M) (flight : PID N → Multiset (Round M)) : Prop where
  exchange : Exchange (fun p => (node p).party) flight
  follows : ∀ p, (node p).Follows
  reacted : ∀ p, (node p).Reacted
  caughtUp : ∀ p,
    (batch (node p).party.collected (node p).party.rounds.recvRound).length ≠ N

namespace Lockstep

variable {node : PID N → Node N M} {flight : PID N → Multiset (Round M)} {p : PID N}

theorem init : Lockstep (fun _ => ({} : Node N M)) (fun _ => 0) where
  exchange := .init
  follows := fun _ => .init
  reacted := fun _ => .init
  caughtUp := fun p => (@Party.Sends.init N M _ p).batch_open

theorem length_reactions_le (h : Lockstep node flight) (p : PID N)
    : (node p).reactions.length ≤ (node p).party.startRounds.length + 1 := by
  rw [h.reacted p]
  split
  . exact Nat.le_refl _
  . exact Nat.le_succ _

theorem update {node' : Node N M} {flight' : PID N → Multiset (Round M)} (h : Lockstep node flight)
    (hexchange : Exchange (Function.update (fun q => (node q).party) p node'.party) flight')
    (hfollows : node'.Follows) (hreacted : node'.Reacted)
    (hcaughtUp : (batch node'.party.collected node'.party.rounds.recvRound).length ≠ N)
    : Lockstep (Function.update node p node') flight' := by
  constructor
  . have hparty : (fun q => (Function.update node p node' q).party)
        = Function.update (fun q => (node q).party) p node'.party :=
      Function.comp_update Node.party node p node'
    rw [hparty]
    exact hexchange
  . exact (Function.forall_update_iff node (fun _ x => Node.Follows x)).mpr
      ⟨hfollows, fun q _ => h.follows q⟩
  . exact (Function.forall_update_iff node (fun _ x => Node.Reacted x)).mpr
      ⟨hreacted, fun q _ => h.reacted q⟩
  . exact (Function.forall_update_iff node
      (fun _ x => (batch x.party.collected x.party.rounds.recvRound).length ≠ N)).mpr
      ⟨hcaughtUp, fun q _ => h.caughtUp q⟩

theorem preStart (h : Lockstep node flight) (hstarted : (node p).isStarted = false)
    (reaction : List M)
    : Lockstep (Function.update node p ((node p).preStart reaction)) flight := by
  apply h.update
  . exact h.exchange.initRound p
  . exact (h.follows p).preStart
  . exact (h.reacted p).preStart hstarted
  . exact h.caughtUp p

theorem handOver [DecidableEq M] {node' : Node N M} {sends : List (Event S (Round M))}
    (h : Lockstep node flight)
    (hbatches : ∀ reaction, reaction ∈ (node p).reactions → IsBatch p reaction)
    (hst : (node p).handOver S p = some (node', sends))
    : Lockstep (Function.update node p node')
        (fun q => ↑((messages sends).filter (fun e => q ∈ destinations e.msg)) + flight q) := by
  obtain ⟨m, outbox, result, houtbox, hcase, rfl, rfl⟩ := Node.handOver_cases hst
  have hsends := h.exchange.sends p
  have hlt := h.exchange.startRounds_lt p
  have hle := h.length_reactions_le p
  have hreactions : (node p).reactions.length ≤ 2 ^ 31 := by omega
  have hfollows := (h.follows p).send hsends hbatches hreactions houtbox hcase
  obtain ⟨hcollected, -, -, hrecvRound, -⟩ := hcase.frame
  apply h.update _ hfollows ((h.reacted p).send hcase)
  . dsimp only
    rw [hcollected, hrecvRound]
    exact h.caughtUp p
  . apply h.exchange.send hcase
    . exact (h.follows p).fromPID_eq hbatches houtbox
    . exact Nat.le_trans hfollows.flushes_le hreactions

theorem receive {e : Round M} {rest : Multiset (Round M)} {reaction : List M}
    (h : Lockstep node flight) (hflight : flight p = e ::ₘ rest)
    (hlt : ((node p).onReceive e reaction).party.startRounds.length < 2 ^ 31)
    : Lockstep (Function.update node p ((node p).onReceive e reaction))
        (Function.update flight p rest) := by
  have hfollows := (h.follows p).onReceive e reaction
  obtain ⟨result, hcase, hresult⟩ := (node p).onReceive_cases e reaction
  have hparty : ((node p).onReceive e reaction).party = result.1 := by
    rcases hresult with ⟨-, heq⟩ | ⟨-, -, heq⟩
    . rw [heq]
    . rw [heq]
      rfl
  rw [hparty] at hlt
  have hexchange := h.exchange.receive hflight hcase hlt
  apply h.update _ hfollows ((h.reacted p).onReceive e reaction)
  . rw [hparty]
    have hround := h.exchange.not_older (e := e) (p := p)
      (by rw [hflight]; exact Multiset.mem_cons_self e rest)
    have hincomplete := hexchange.incomplete_of_flushes_le (p := p)
    rw [Function.update_self] at hincomplete
    have hstash := (h.exchange.receives p).stashWith (Int32.le_refl _) e
    have hle := h.length_reactions_le p
    have hflushes := (h.follows p).flushes_le
    cases hcase with
    | older hnot => exact absurd hround hnot
    | stashed _ hlength =>
      rw [hstash] at hlength
      exact hlength
    | started start =>
      apply hincomplete
      have hstartRounds : Party.startRounds
          { (node p).party with signals := (node p).party.signals ++ [.startRound start] }
            = (node p).party.startRounds ++ [start] := by
        simp [Party.startRounds]
      have hlength := congrArg List.length hstartRounds
      rw [List.length_append, List.length_singleton] at hlength
      exact Nat.le_trans (Nat.le_trans hflushes hle) (Nat.le_of_eq hlength.symm)
  . rw [hparty]
    exact hexchange

end Lockstep

structure Synchronised (node : PID N → Node N M) (flight : PID N → Multiset (Round M)) : Prop where
  partition : ∀ p e, e ∈ (node p).party.emitted →
    IsPartition destinations (tagged (node p).party.emitted e.round)
  numbers : ∀ p (i : Nat) start, (node p).party.startRounds[i]? = some start →
    start.round.toInt = i + 1
  vectors : ∀ p (i : Nat) start, (node p).party.startRounds[i]? = some start →
    ∀ q, ∃ m reaction, start.msgs q = some (some m)
      ∧ sentTo (node q).party p (Int32.ofNat i) = [⟨m, Int32.ofNat i⟩]
      ∧ (node q).reactions[i]? = some reaction
      ∧ reaction.filter (fun m => p ∈ destinations m) = [m]
  older : ∀ p, (node p).party.older = []
  exceptions : ∀ p, (node p).party.exceptions = []
  progress : (∀ p, flight p = 0) → ∀ k, (∀ p, (node p).HandedOver k) →
    ∀ p, k < (node p).party.startRounds.length

theorem filter_payload (ms : List M) (p : PID N)
    : (payload ms).filter (fun m => p ∈ destinations m) = ms.filter (fun m => p ∈ destinations m) := by
  rw [payload, List.filter_filter]
  apply List.filter_congr
  intro m hm
  rw [Bool.eq_iff_iff]
  simp only [Bool.and_eq_true, decide_eq_true_eq, and_iff_left_iff_imp]
  exact fun hp => ⟨p, hp⟩

namespace Lockstep

variable {node : PID N → Node N M} {flight : PID N → Multiset (Round M)} {p : PID N}

theorem vectors (h : Lockstep node flight) {i : Nat} {start : StartRound N M}
    (hstart : (node p).party.startRounds[i]? = some start) (q : PID N)
    : ∃ m reaction, start.msgs q = some (some m)
        ∧ sentTo (node q).party p (Int32.ofNat i) = [⟨m, Int32.ofNat i⟩]
        ∧ (node q).reactions[i]? = some reaction
        ∧ reaction.filter (fun m => p ∈ destinations m) = [m] := by
  obtain ⟨m, hmsgs, -, hsent⟩ := h.exchange.msgs_startRound hstart q
  have hi : i < (node q).party.flushes := Nat.lt_of_lt_of_le
    (List.getElem?_eq_some_iff.mp hstart).1 (h.exchange.startRounds_le_flushes p q)
  have hreaction := List.getElem?_eq_getElem (Nat.lt_of_lt_of_le hi (h.follows q).flushes_le)
  refine ⟨m, _, hmsgs, hsent, hreaction, ?_⟩
  have hperm := ((h.follows q).sent i hi _ hreaction).filter (fun m => p ∈ destinations m)
  rw [filter_payload, filter_payload, ← map_msg_sentTo, hsent] at hperm
  exact List.perm_singleton.mp hperm.symm

theorem progress (h : Lockstep node flight)
    (hbatches : ∀ p reaction, reaction ∈ (node p).reactions → IsBatch p reaction)
    (hflight : flight p = 0) {k : Nat} (hk : ∀ p, (node p).HandedOver k)
    : k < (node p).party.startRounds.length := by
  by_contra hnot
  apply h.caughtUp p
  rw [(h.exchange.receives p).recvRound]
  apply h.exchange.complete_of_flight_eq_zero hflight
  intro q
  have hlt := (h.follows q).lt_flushes (h.exchange.sends q) (hbatches q) (hk q)
  exact Nat.lt_of_le_of_lt (not_lt.mp hnot) hlt

theorem synchronised (h : Lockstep node flight)
    (hbatches : ∀ p reaction, reaction ∈ (node p).reactions → IsBatch p reaction)
    : Synchronised node flight where
  partition := by
    intro p e he
    obtain ⟨k, hk, hround⟩ := (h.exchange.sends p).emitted_round e he
    rw [hround]
    exact (h.exchange.sends p).partition k hk
  numbers := by
    intro p i start hstart
    obtain ⟨rfl, -⟩ := (h.exchange.receives p).startRounds i start hstart
    have hi := (List.getElem?_eq_some_iff.mp hstart).1
    have hlt := h.exchange.startRounds_lt p
    rw [Int32.toInt_ofNat_of_lt (by omega), Int.natCast_succ]
  vectors := fun _ _ _ hstart q => h.vectors hstart q
  older := h.exchange.older
  exceptions := fun p => (h.follows p).exceptions
  progress := fun hflight _ hk p => h.progress hbatches (hflight p) hk

end Lockstep

structure Regular (node : PID N → Node N M) : Prop where
  batches : ∀ p reaction, reaction ∈ (node p).reactions → IsBatch p reaction
  startRounds_lt : ∀ p, (node p).party.startRounds.length < 2 ^ 31

theorem reactions_of_handOver [DecidableEq M] {node node' : Node N M} {p : PID N}
    {sends : List (Event S (Round M))} (hst : node.handOver S p = some (node', sends))
    : node'.reactions = node.reactions := by
  obtain ⟨m, outbox, result, -, -, rfl, -⟩ := Node.handOver_cases hst
  rfl

variable [DecidableEq M]

theorem lockstep_of_reach {w : World (PID N) (Node N M) (Round M)}
    (h : (program (S := S)).lts.Reach (fun _ _ w => Regular w.node) w)
    : Lockstep w.node (undelivered w.net) := by
  apply LTS.Reach.invariant (I := fun w => Lockstep w.node (undelivered w.net)) _ _ h
  . rintro w rfl
    exact .init
  . rintro w l w' _ hinv hst hreg
    cases hst with
    | @input p i node' out hinput =>
      dsimp only at hreg ⊢
      cases i with
      | preStart reaction =>
        simp only [program] at hinput
        split at hinput
        . cases hinput
        . next hstarted =>
          cases hinput
          rw [Multiset.coe_nil, Multiset.zero_add]
          exact hinv.preStart (eq_false_of_ne_true hstarted) reaction
      | handOver =>
        simp only [program, Option.map_eq_some_iff, Prod.exists, Prod.mk.injEq] at hinput
        obtain ⟨_, sends, hhand, rfl, rfl⟩ := hinput
        have hbatches := hreg.batches p
        rw [Function.update_self, reactions_of_handOver hhand] at hbatches
        rw [undelivered_transmit_add]
        exact hinv.handOver hbatches hhand
      | signal ie =>
        simp only [program, Party.onSend_signal] at hinput
        cases hinput
        have htransmit : transmit [(.signal ie : Event S (Round M))] = [] := rfl
        rw [Function.update_eq_self, htransmit, Multiset.coe_nil, Multiset.zero_add]
        exact hinv
    | @receive p e reaction node' out rest hnet hreceive =>
      cases hreceive
      dsimp only at hreg ⊢
      have hlt := hreg.startRounds_lt p
      rw [Function.update_self] at hlt
      rw [Multiset.coe_nil, Multiset.zero_add, undelivered_rest hnet]
      exact hinv.receive (undelivered_taken hnet) hlt

namespace Alone

/-!
One process alone that reacts to every signal with one message to itself.
-/

section Party

variable {T W : Type} [Message 1 W] {party : Party 1 W} {m : W} {send recv : Int32}

theorem onSend [DecidableEq W] (hsize : batchSize [m] = 1) (h : party.rounds = ⟨send, [], recv, fun _ => []⟩)
    : party.onSend 0 (.message m : Event T W)
      = ({ party with
            rounds := ⟨send + 1, [], recv, fun _ => []⟩
            emitted := party.emitted ++ [⟨m, send⟩]
            flushes := party.flushes + 1 }, [.message ⟨m, send⟩]) := by
  simp only [Party.onSend, RoundBased.onSend, h, List.any_nil, Bool.false_eq_true, if_false,
    List.insert_nil, hsize, if_true]
  rfl

theorem onReceive (h : party.rounds = ⟨send, [], recv, fun _ => []⟩)
    : party.onReceive ⟨m, recv⟩
      = ({ party with
            rounds := ⟨send, [], recv + 1, fun _ => []⟩
            collected := party.collected ++ [⟨m, recv⟩]
            signals := party.signals ++ [.startRound ⟨recv + 1, messageVector [m]⟩] },
          some ⟨recv + 1, messageVector [m]⟩) := by
  simp only [Party.onReceive, RoundBased.onReceive, h, Int32.le_refl, if_true, collect,
    Function.update_self, List.length_singleton, Function.update_idem]
  rw [Function.update_eq_self]
  rfl

end Party

def m : AppMessage 1 Unit := .multicast (Fin.last 0) Finset.univ ()

theorem isBatch (p : PID 1) : IsBatch p [m] where
  fromPID_eq := by
    intro x hx
    rw [List.mem_singleton] at hx
    rw [hx]
    exact (Fin.eq_zero p).symm
  partition := ⟨List.pairwise_singleton _ _, fun a => ⟨m, List.mem_cons_self, Finset.mem_univ a⟩⟩

abbrev AloneNode := Node 1 (AppMessage 1 Unit)

abbrev aloneProgram
    : Program (PID 1) AloneNode (Input Unit (AppMessage 1 Unit)) (List (AppMessage 1 Unit))
        (Round (AppMessage 1 Unit)) :=
  program

abbrev AloneWorld := World (PID 1) AloneNode (Round (AppMessage 1 Unit))

structure After (n : Nat) (node : AloneNode) : Prop where
  rounds : node.party.rounds = ⟨Int32.ofNat n, [], Int32.ofNat n, fun _ => []⟩
  outbox : node.outbox = [m]
  reactions : ∀ reaction, reaction ∈ node.reactions → reaction = [m]
  length : node.party.startRounds.length = n
  numbers : ∀ (i : Nat) start, node.party.startRounds[i]? = some start →
    start.round = Int32.ofNat (i + 1)

theorem After.zero : After 0 (({} : AloneNode).preStart [m]) where
  rounds := rfl
  outbox := rfl
  reactions := by simp [Node.preStart, Node.react]
  length := rfl
  numbers := by simp [Node.preStart, Node.react, Party.deliver, Party.startRounds]

def UpTo (bound : Nat) (w : AloneWorld) : Prop :=
  ∀ p, (∀ reaction, reaction ∈ (w.node p).reactions → IsBatch p reaction)
    ∧ (w.node p).party.startRounds.length ≤ bound

theorem upTo {bound : Nat} {node : PID 1 → AloneNode}
    {net : Multiset (Envelope (PID 1) (Round (AppMessage 1 Unit)))}
    (hreactions : ∀ reaction, reaction ∈ (node 0).reactions → reaction = [m])
    (hlength : (node 0).party.startRounds.length ≤ bound)
    : UpTo bound ⟨node, net⟩ := by
  intro p
  rw [Fin.eq_zero p]
  refine ⟨?_, hlength⟩
  intro reaction hreaction
  rw [hreactions reaction hreaction]
  exact isBatch 0

theorem UpTo.regular {bound : Nat} {w : AloneWorld} (h : UpTo bound w) (hbound : bound < 2 ^ 31)
    : Regular w.node where
  batches := fun p => (h p).1
  startRounds_lt := fun p => Nat.lt_of_le_of_lt (h p).2 hbound

def sent (node : AloneNode) (n : Nat) : AloneNode :=
  { node with
      party := { node.party with
        rounds := ⟨Int32.ofNat n + 1, [], Int32.ofNat n, fun _ => []⟩
        emitted := node.party.emitted ++ [⟨m, Int32.ofNat n⟩]
        flushes := node.party.flushes + 1 }
      handed := node.handed ++ [m]
      outbox := [] }

def started (node : AloneNode) (n : Nat) : AloneNode :=
  { node with
      party := { node.party with
        rounds := ⟨Int32.ofNat n + 1, [], Int32.ofNat n + 1, fun _ => []⟩
        collected := node.party.collected ++ [⟨m, Int32.ofNat n⟩]
        signals := node.party.signals ++ [.startRound ⟨Int32.ofNat n + 1, messageVector [m]⟩] }
      reactions := node.reactions ++ [[m]]
      outbox := [m] }

variable {n : Nat} {node : AloneNode}

theorem After.handOver (h : After n node)
    : aloneProgram.input 0 .handOver node = some (sent node n, [⟨0, ⟨m, Int32.ofNat n⟩⟩]) := by
  simp only [program, Node.handOver, h.outbox, onSend (m := m) rfl h.rounds, Option.map_some]
  rfl

theorem onReceive_sent (node : AloneNode) (n : Nat)
    : (sent node n).onReceive ⟨m, Int32.ofNat n⟩ [m] = started (sent node n) n := by
  have hrounds : (sent node n).party.rounds = ⟨Int32.ofNat n + 1, [], Int32.ofNat n, fun _ => []⟩ := rfl
  have hreceive := onReceive (m := m) hrounds
  unfold Node.onReceive
  rw [hreceive]
  rfl

theorem After.succ (h : After n node) : After (n + 1) (started (sent node n) n) := by
  have hstartRounds : (started (sent node n) n).party.startRounds
      = node.party.startRounds ++ [⟨Int32.ofNat n + 1, messageVector [m]⟩] := by
    simp [Party.startRounds, started, sent]
  constructor
  . rw [Int32.ofNat_add]
    rfl
  . rfl
  . intro reaction hreaction
    simp only [started, sent, List.mem_append, List.mem_singleton] at hreaction
    exact hreaction.elim (h.reactions reaction) id
  . rw [hstartRounds, List.length_append, List.length_singleton, h.length]
  . intro i start hstart
    rw [hstartRounds] at hstart
    rcases Record.getElem?_snoc hstart with hold | ⟨heq, hlast⟩
    . exact h.numbers i start hold
    . rw [hlast, heq, h.length, Int32.ofNat_add]
      rfl

theorem exists_after (n bound : Nat) (hn : n ≤ bound)
    : ∃ w : AloneWorld, aloneProgram.lts.Reach (fun _ _ w => UpTo bound w) w
        ∧ w.net = 0 ∧ After n (w.node 0) := by
  induction n with
  | zero =>
    have h0 : aloneProgram.lts.Reach (fun _ _ w => UpTo bound w) aloneProgram.initWorld := .init rfl
    have h1 := Program.Reach.input h0 0 (.preStart [m]) rfl
      (upTo After.zero.reactions (Nat.le_trans (Nat.le_of_eq After.zero.length) hn))
    exact ⟨_, h1, rfl, .zero⟩
  | succ n ih =>
    obtain ⟨w, hreach, hnet, hafter⟩ := ih (by omega)
    have hlength := hafter.length
    have h1 := Program.Reach.input hreach 0 .handOver hafter.handOver
      (upTo (by rw [Function.update_self]; exact hafter.reactions)
        (by rw [Function.update_self]; exact Nat.le_trans (Nat.le_of_eq hlength) (by omega)))
    rw [hnet] at h1
    have h2 := Program.Reach.receive h1 0 ⟨m, Int32.ofNat n⟩ [m] 0 rfl
      (by
        show some ((Function.update w.node 0 (sent (w.node 0) n) 0).onReceive _ _, []) = _
        rw [Function.update_self, onReceive_sent])
      (upTo (by rw [Function.update_self]; exact hafter.succ.reactions)
        (by rw [Function.update_self, hafter.succ.length]; exact hn))
    refine ⟨_, h2, rfl, ?_⟩
    dsimp only
    rw [Function.update_self]
    exact hafter.succ

end Alone

section Pair

/-!
Two processes that send to both of them in every round.
-/

abbrev PairNode := Node 2 (AppMessage 2 Unit)

def toAll (p : PID 2) : AppMessage 2 Unit := .multicast p Finset.univ ()

theorem isBatch_toAll (p : PID 2) : IsBatch p [toAll p] where
  fromPID_eq := by
    intro m hm
    rw [List.mem_singleton.mp hm]
    rfl
  partition := ⟨List.pairwise_singleton _ _, fun a => ⟨toAll p, List.mem_cons_self, Finset.mem_univ a⟩⟩

theorem regular_pair {node : PID 2 → PairNode}
    (hreactions : ∀ p reaction, reaction ∈ (node p).reactions → reaction = [toAll p])
    (hstart : ∀ p, (node p).party.startRounds.length ≤ 1)
    : Regular node where
  batches := by
    intro p reaction hreaction
    rw [hreactions p reaction hreaction]
    exact isBatch_toAll p
  startRounds_lt := by
    intro p
    have hle := hstart p
    omega

end Pair

end RoundBased
