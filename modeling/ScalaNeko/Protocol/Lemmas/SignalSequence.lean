import ScalaNeko.Protocol.Lemmas.RoundBased
import ScalaNeko.Protocol.Lemmas.RoundBasedWithFailures

/-!
The signals that the client of a process with crashes is delivered: `RoundBasedWithFailures` and the
`RoundBased` that it creates are both registered, and `preStart` is called on both.
-/

open AsyncNetwork
open RoundBased (IsBatch Party)

namespace RoundBasedWithFailures

variable {N : Nat} {S M : Type}

def Proto.deliversInitRound : Proto → Bool
  | failures => true
  | roundBased => true
  | other _ => false

namespace ProcessConfig

variable {config : ProcessConfig}

def initRounds (config : ProcessConfig) : Nat :=
  config.registeredProtocols.countP Proto.deliversInitRound

theorem initRounds_register_other (id : Nat)
    : (config.register (.other id)).initRounds = config.initRounds := by
  unfold initRounds register
  dsimp only
  rw [List.insert]
  split
  . rfl
  . rw [List.countP_cons_of_neg (by simp [Proto.deliversInitRound])]

theorem initRounds_newOthers (ids : List Nat)
    : (newOthers ids config).initRounds = config.initRounds := by
  unfold newOthers
  induction ids generalizing config with
  | nil => rfl
  | cons id ids ih => rw [List.foldl_cons, ih, initRounds_register_other]

theorem not_mem_of_initRounds_eq_zero (h : config.initRounds = 0) {proto : Proto}
    (hproto : proto.deliversInitRound = true)
    : proto ∉ config.registeredProtocols := by
  intro hmem
  unfold initRounds at h
  rw [List.countP_eq_zero] at h
  exact h proto hmem hproto

theorem initRounds_newRoundBasedWithFailures (h : config.initRounds = 0)
    : (newRoundBasedWithFailures config).initRounds = 2 := by
  have hfailures : Proto.failures ∉ config.registeredProtocols :=
    not_mem_of_initRounds_eq_zero h rfl
  have hroundBased : Proto.roundBased ∉ config.registeredProtocols :=
    not_mem_of_initRounds_eq_zero h rfl
  unfold newRoundBasedWithFailures newRoundBased
  unfold initRounds register at *
  dsimp only
  rw [List.insert_of_not_mem hfailures, List.insert_of_not_mem (by simpa using hroundBased),
    List.countP_cons_of_pos rfl, List.countP_cons_of_pos rfl, h]

theorem initRounds_initializer (before after : List Nat)
    : (initializer before after).initRounds = 2 := by
  unfold initializer
  rw [initRounds_newOthers]
  apply initRounds_newRoundBasedWithFailures
  rw [initRounds_newOthers]
  rfl

end ProcessConfig

def Call.deliversInitRound : Call → Bool
  | preStart proto => proto.deliversInitRound
  | checkCrashing => false

def isInitRound : RoundSignal N M → Bool
  | .initRound => true
  | .startRound _ => false

namespace Node

def initRoundsLeft : Option (List Call) → Nat
  | none => 2
  | some calls => calls.countP Call.deliversInitRound

def startRounds (node : Node N M) : List (StartRound N M) :=
  node.signals.filterMap fun
    | .initRound => none
    | .startRound e => some e

def SignalsInOrder (node : Node N M) : Prop :=
  ∃ starts : List (StartRound N M), node.signals = .initRound :: starts.map .startRound
    ∧ ∀ (i : Nat) start, starts[i]? = some start → start.round = Int32.ofNat (i + 1)

def BatchesInOrder (node : Node N M) : Prop :=
  node.party.flushes ≤ node.startRounds.length + 1

theorem SignalsInOrder.countP_isInitRound {node : Node N M} (h : node.SignalsInOrder)
    : node.signals.countP isInitRound = 1 := by
  obtain ⟨starts, hsignals, -⟩ := h
  rw [hsignals, List.countP_cons_of_pos rfl, List.countP_map]
  simp [isInitRound]

theorem length_signals (node : Node N M)
    : node.signals.length = node.signals.countP isInitRound + node.startRounds.length := by
  unfold startRounds
  induction node.signals with
  | nil => rfl
  | cons s signals ih =>
    cases s with
    | initRound =>
      rw [List.length_cons, ih, List.countP_cons_of_pos rfl]
      simp
      omega
    | startRound start =>
      rw [List.length_cons, ih, List.countP_cons_of_neg (by nofun)]
      simp
      omega

/--
A process that has not crashed is delivered `InitRound` twice, `left` times from now on.
-/
structure Counts (node : Node N M) (left : Nat) : Prop where
  protocols : node.protocols.countP Proto.deliversInitRound = 2
  crashed : node.failures.state = .crashed → node.hasCrashed = true
  initRounds : node.hasCrashed = false → node.signals.countP isInitRound + left = 2
  reactions : node.reactions.length = node.signals.length

theorem Counts.init (before after : List Nat)
    : Counts ({ protocols := (initializer before after).registeredProtocols } : Node N M) 2 where
  protocols := ProcessConfig.initRounds_initializer before after
  crashed := nofun
  initRounds := fun _ => rfl
  reactions := rfl

variable {node : Node N M} {p : PID N} {left : Nat}

theorem Counts.state_ne (h : node.Counts left) (hcrashed : node.hasCrashed = false)
    : node.failures.state ≠ .crashed := by
  intro hstate
  rw [h.crashed hstate] at hcrashed
  cases hcrashed

theorem Counts.checkCrashing {faultySet : Finset (PID N)} {coin : Bool} {calls : Option (List Call)}
    (h : node.Counts left)
    : Counts { node with calls, failures := node.failures.checkCrashing faultySet p coin } left where
  protocols := h.protocols
  crashed := by
    intro hstate
    by_contra hcrashed
    exact checkCrashing_state_ne (h.state_ne (eq_false_of_ne_true hcrashed)) hstate
  initRounds := h.initRounds
  reactions := h.reactions

variable [Message N M] [DecidableEq M] {faultySet : Finset (PID N)} {coin : Bool} {reaction : List M}

theorem calls_receive (e : Round (Msg N M))
    : (node.receive S faultySet p coin reaction e).1.calls = node.calls := by
  obtain ⟨result, -, ⟨-, heq⟩ | ⟨start, -, heq⟩⟩ := node.receive_cases e
  . rw [heq]
  . rw [heq, (deliver_frame _).1]

theorem calls_send (destShuffle : List (PID N)) (e : Event S M)
    : (node.send p destShuffle e).1.calls = node.calls := rfl

theorem Counts.deliver {s : RoundSignal N (Msg N M)}
    (h : node.Counts (left + if isInitRound (interpretSignal p s) then 1 else 0))
    : Counts (node.deliver S faultySet p coin reaction s).1 left := by
  by_cases hstate : node.failures.state = .crashed
  . rw [deliver_of_crashed hstate]
    refine { h with initRounds := ?_ }
    intro hcrashed
    exact absurd hstate (h.state_ne hcrashed)
  . obtain ⟨failures, hne, heq⟩ := deliver_of_not_crashed hstate s
    rw [heq]
    constructor
    . exact h.protocols
    . exact fun hcrashed => absurd hcrashed hne
    . intro hcrashed
      have hcount := h.initRounds hcrashed
      dsimp only
      rw [List.countP_append, List.countP_singleton]
      omega
    . dsimp only
      rw [List.length_append, List.length_append, h.reactions]
      rfl

theorem Counts.preStartRoundBased (h : node.Counts (left + 1))
    : Counts (node.preStartRoundBased S faultySet p coin reaction).1 left := by
  unfold Node.preStartRoundBased
  apply Counts.deliver
  exact { h with }

theorem Counts.receive (h : node.Counts left) (e : Round (Msg N M))
    : Counts (node.receive S faultySet p coin reaction e).1 left := by
  obtain ⟨result, -, ⟨-, heq⟩ | ⟨start, -, heq⟩⟩ := node.receive_cases e
  . rw [heq]
    exact { h with }
  . rw [heq]
    apply Counts.deliver
    exact { h with }

theorem Counts.send (h : node.Counts left) (destShuffle : List (PID N)) (e : Event S M)
    : Counts (node.send p destShuffle e).1 left where
  protocols := h.protocols
  crashed := by
    intro hstate
    unfold Node.send at hstate ⊢
    dsimp only at hstate ⊢
    rw [hstate]
    simp
  initRounds := by
    intro hcrashed
    apply h.initRounds
    unfold Node.send at hcrashed
    exact (Bool.or_eq_false_iff.mp hcrashed).1
  reactions := h.reactions

theorem Counts.input {i : Input N S M} {result : Node N M × List (Event S (Round (Msg N M)))}
    (h : node.Counts (initRoundsLeft node.calls)) (hcase : node.InputCase faultySet p i result)
    : result.1.Counts (initRoundsLeft result.1.calls) := by
  cases hcase with
  | preStart order hcalls horder =>
    have hcount : (order.map Call.preStart).countP Call.deliversInitRound = 2 := by
      rw [List.countP_map, ← h.protocols]
      exact horder.countP_eq _
    rw [hcalls] at h
    dsimp only
    rw [initRoundsLeft, hcount]
    exact { h with }
  | roundBased coin reaction calls hcalls =>
    rw [hcalls, initRoundsLeft, List.countP_cons_of_pos rfl] at h
    rw [Node.preStartRoundBased, (deliver_frame _).1]
    apply Counts.preStartRoundBased
    exact { h with }
  | failures coin reaction calls hcalls =>
    rw [hcalls, initRoundsLeft, List.countP_cons_of_pos rfl] at h
    rw [Node.preStartRoundBased, (deliver_frame _).1]
    apply Counts.preStartRoundBased
    exact { h with }
  | other coin reaction id calls hcalls =>
    rw [hcalls, initRoundsLeft, List.countP_cons_of_neg (by nofun)] at h
    exact { h with }
  | checkCrashing coin reaction calls hcalls =>
    rw [hcalls, initRoundsLeft, List.countP_cons_of_neg (by nofun)] at h
    exact h.checkCrashing
  | handOver destShuffle m outbox =>
    rw [calls_send]
    apply Counts.send
    exact { h with }
  | signal ie =>
    rw [calls_send]
    exact h.send _ _

end Node

section Batches

variable [Message N M]

theorem isBatch_plain {p : PID N} {reaction : List M} (h : IsBatch p reaction)
    : IsBatch p (reaction.map (.plain : M → Msg N M)) where
  fromPID_eq := by
    intro x hx
    rw [List.mem_map] at hx
    obtain ⟨m, hm, rfl⟩ := hx
    exact h.fromPID_eq m hm
  partition := by
    constructor
    . exact List.pairwise_map.mpr h.partition.1
    . intro q
      obtain ⟨m, hm, hq⟩ := h.partition.2 q
      exact ⟨.plain m, List.mem_map_of_mem hm, hq⟩

structure AreBatches (p : PID N) (reactions : List (List M)) : Prop where
  isBatch : ∀ reaction, reaction ∈ reactions → IsBatch p reaction
  length_le : reactions.length ≤ 2 ^ 31

theorem AreBatches.of_append {p : PID N} {reactions : List (List M)} {reaction : List M}
    (h : AreBatches p (reactions ++ [reaction]))
    : AreBatches p reactions where
  isBatch := fun reaction' hreaction' => h.isBatch reaction' (List.mem_append_left _ hreaction')
  length_le := by
    have hle := h.length_le
    rw [List.length_append] at hle
    exact Nat.le_trans (Nat.le_add_right _ _) hle

namespace Node

def toRoundBased (node : Node N M) (handed : List (Msg N M)) : RoundBased.Node N (Msg N M) where
  party := node.party
  isStarted := true
  reactions := node.reactions.map (List.map .plain)
  handed := handed
  outbox := node.outbox.map .plain

/--
What holds until a process crashes: it sends the messages of its client as they are.
-/
structure IsPlain (node : Node N M) (p : PID N) : Prop where
  sends : node.party.Sends p
  follows : ∃ handed, (node.toRoundBased handed).Follows

variable {node : Node N M} {p : PID N}

theorem IsPlain.init {protocols : List Proto} : IsPlain ({ protocols } : Node N M) p where
  sends := .init
  follows := by
    refine ⟨[], ?_⟩
    have hinit := @RoundBased.Node.Follows.init N (Msg N M) _
    exact { hinit with }

theorem IsPlain.party {party : Party N (Msg N M)} (h : node.IsPlain p) (hsends : party.Sends p)
    (hemitted : party.emitted = node.party.emitted) (hflushes : party.flushes = node.party.flushes)
    (hbatch : party.rounds.sendBatch = node.party.rounds.sendBatch)
    (hexceptions : party.exceptions = node.party.exceptions)
    : IsPlain { node with party } p := by
  obtain ⟨handed, hfollows⟩ := h.follows
  refine ⟨hsends, handed, ?_⟩
  constructor
  . exact hfollows.handed
  . dsimp only [toRoundBased]
    rw [hflushes]
    exact hfollows.flushes_le
  . dsimp only [toRoundBased]
    rw [hflushes, hbatch]
    exact hfollows.pending
  . dsimp only [toRoundBased]
    rw [hflushes, hemitted]
    exact hfollows.sent
  . exact hexceptions.trans hfollows.exceptions

theorem IsPlain.react {failures : RoundBasedWithFailures} {signals : List (RoundSignal N M)}
    (h : node.IsPlain p) (reaction : List M)
    : IsPlain { node with
          failures
          signals
          reactions := node.reactions ++ [reaction]
          outbox := node.outbox ++ reaction } p := by
  obtain ⟨handed, hfollows⟩ := h.follows
  refine ⟨h.sends, handed, ?_⟩
  have hreact : ((node.toRoundBased handed).react (reaction.map .plain)).Follows :=
    hfollows.react rfl rfl rfl rfl
  unfold RoundBased.Node.react at hreact
  unfold toRoundBased at hreact ⊢
  rw [List.map_append, List.map_append, List.map_singleton]
  exact hreact

theorem IsPlain.send [DecidableEq M] {m : M} {outbox : List M} (h : node.IsPlain p)
    (hbatches : AreBatches p node.reactions) (houtbox : node.outbox = m :: outbox)
    : IsPlain { node with
          party := (node.party.onSend p (.message (.plain m) : Event S (Msg N M))).1, outbox } p := by
  obtain ⟨handed, hfollows⟩ := h.follows
  have hcase := Party.onSend_cases (S := S) node.party p (.plain m)
  have hbatches' : ∀ reaction, reaction ∈ (node.toRoundBased handed).reactions → IsBatch p reaction := by
    intro reaction hreaction
    obtain ⟨reaction', hreaction', rfl⟩ := List.mem_map.mp hreaction
    exact isBatch_plain (hbatches.isBatch reaction' hreaction')
  have hlength : (node.toRoundBased handed).reactions.length ≤ 2 ^ 31 := by
    rw [toRoundBased, List.length_map]
    exact hbatches.length_le
  have houtbox' : (node.toRoundBased handed).outbox = .plain m :: outbox.map .plain := by
    rw [toRoundBased, houtbox, List.map_cons]
  have hsend := hfollows.send h.sends hbatches' hlength houtbox' hcase
  refine ⟨?_, _, hsend⟩
  apply hcase.sends h.sends
  . exact hfollows.fromPID_eq hbatches' houtbox'
  . exact Nat.le_trans hsend.flushes_le hlength

theorem IsPlain.flushes_eq (h : node.IsPlain p)
    (hbatches : AreBatches p node.reactions) (houtbox : node.outbox = [])
    : node.party.flushes = node.reactions.length := by
  obtain ⟨handed, hfollows⟩ := h.follows
  have hall : handed = (node.toRoundBased handed).reactions.flatten := by
    rw [← hfollows.handed, toRoundBased, houtbox, List.map_nil, List.append_nil]
  have hlength : (node.toRoundBased handed).reactions.length = node.reactions.length :=
    List.length_map _
  apply Nat.le_antisymm
  . rw [← hlength]
    exact hfollows.flushes_le
  . by_contra hlt
    rw [not_le] at hlt
    have hhanded : (node.toRoundBased handed).HandedOver node.party.flushes := by
      refine ⟨by rw [hlength]; exact hlt, ?_⟩
      have hpre := (List.take_prefix (node.party.flushes + 1)
        (node.toRoundBased handed).reactions).flatten
      rw [← hall] at hpre
      exact hpre
    apply Nat.lt_irrefl node.party.flushes
    apply hfollows.lt_flushes h.sends _ hhanded
    intro reaction hreaction
    obtain ⟨reaction', hreaction', rfl⟩ := List.mem_map.mp hreaction
    exact isBatch_plain (hbatches.isBatch reaction' hreaction')

def PlainUntilCrash (node : Node N M) (p : PID N) : Prop :=
  AreBatches p node.reactions → node.hasCrashed = false → node.IsPlain p

theorem PlainUntilCrash.keep {node' : Node N M} (h : node.PlainUntilCrash p)
    (hparty : node'.party = node.party) (hreactions : node'.reactions = node.reactions)
    (houtbox : node'.outbox = node.outbox)
    (hcrashed : node'.hasCrashed = false → node.hasCrashed = false)
    : node'.PlainUntilCrash p := by
  intro hbatches hcrashed'
  rw [hreactions] at hbatches
  obtain ⟨hsends, handed, hfollows⟩ := h hbatches (hcrashed hcrashed')
  constructor
  . rw [hparty]
    exact hsends
  . refine ⟨handed, ?_⟩
    unfold toRoundBased at hfollows ⊢
    rw [hparty, hreactions, houtbox]
    exact hfollows

variable [DecidableEq M] {faultySet : Finset (PID N)} {coin : Bool} {reaction : List M} {left : Nat}

theorem PlainUntilCrash.deliver {s : RoundSignal N (Msg N M)} (h : node.PlainUntilCrash p)
    (hcounts : node.Counts left)
    : (node.deliver S faultySet p coin reaction s).1.PlainUntilCrash p := by
  intro hbatches hcrashed
  rw [(deliver_frame s).2.1] at hcrashed
  obtain ⟨failures, -, heq⟩ := deliver_of_not_crashed (hcounts.state_ne hcrashed) s
  rw [heq] at hbatches ⊢
  exact (h hbatches.of_append hcrashed).react reaction

theorem PlainUntilCrash.preStartRoundBased (h : node.PlainUntilCrash p) (hcounts : node.Counts left)
    : (node.preStartRoundBased S faultySet p coin reaction).1.PlainUntilCrash p := by
  unfold Node.preStartRoundBased
  have hdelivered : PlainUntilCrash { node with party := node.party.deliver .initRound } p := by
    intro hbatches hcrashed
    have hplain := h hbatches hcrashed
    exact hplain.party { hplain.sends with } rfl rfl rfl rfl
  have hcounts' : Counts { node with party := node.party.deliver .initRound } left := { hcounts with }
  exact hdelivered.deliver hcounts'

theorem PlainUntilCrash.receive (h : node.PlainUntilCrash p) (hcounts : node.Counts left)
    (e : Round (Msg N M))
    : (node.receive S faultySet p coin reaction e).1.PlainUntilCrash p := by
  obtain ⟨result, hcase, hresult⟩ := node.receive_cases e
  have hreceived : PlainUntilCrash { node with party := result.1 } p := by
    intro hbatches hcrashed
    have hplain := h hbatches hcrashed
    obtain ⟨hemitted, hflushes, hexceptions, -, hbatch⟩ := hcase.frame
    exact hplain.party (hcase.sends hplain.sends) hemitted hflushes hbatch hexceptions
  rcases hresult with ⟨-, heq⟩ | ⟨start, -, heq⟩
  . rw [heq]
    exact hreceived
  . rw [heq]
    have hcounts' : Counts { node with party := result.1 } left := { hcounts with }
    exact hreceived.deliver hcounts'

theorem running_of_send {destShuffle : List (PID N)} {m : M}
    (h : (node.send p destShuffle (.message m : Event S M)).1.hasCrashed = false)
    : node.hasCrashed = false ∧ node.failures.state = .running := by
  unfold Node.send onSend at h
  cases hstate : node.failures.state with
  | running => simpa [hstate] using h
  | crashing => simp [hstate] at h
  | crashed => simp [hstate] at h

theorem PlainUntilCrash.send {destShuffle : List (PID N)} {m : M} {outbox : List M}
    (h : node.PlainUntilCrash p) (houtbox : node.outbox = m :: outbox)
    : (({ node with outbox } : Node N M).send p destShuffle (.message m : Event S M)).1.PlainUntilCrash
        p := by
  intro hbatches hcrashed
  obtain ⟨hcrashed', hstate⟩ := running_of_send hcrashed
  rw [send_of_running hstate] at hbatches ⊢
  exact (h hbatches hcrashed').send hbatches houtbox

theorem PlainUntilCrash.input {i : Input N S M}
    {result : Node N M × List (Event S (Round (Msg N M)))} (h : node.PlainUntilCrash p)
    (hcounts : node.Counts left) (hcase : node.InputCase faultySet p i result)
    : result.1.PlainUntilCrash p := by
  cases hcase with
  | preStart => exact h.keep rfl rfl rfl id
  | roundBased coin reaction calls =>
    have hcalls : PlainUntilCrash { node with calls := some calls } p := h.keep rfl rfl rfl id
    have hcounts' : Counts { node with calls := some calls } left := { hcounts with }
    exact hcalls.preStartRoundBased hcounts'
  | failures coin reaction calls =>
    have hcalls : PlainUntilCrash { node with calls := some (.checkCrashing :: calls) } p :=
      h.keep rfl rfl rfl id
    have hcounts' : Counts { node with calls := some (.checkCrashing :: calls) } left :=
      { hcounts with }
    exact hcalls.preStartRoundBased hcounts'
  | other => exact h.keep rfl rfl rfl id
  | checkCrashing => exact h.keep rfl rfl rfl id
  | handOver destShuffle m outbox houtbox => exact h.send houtbox
  | signal ie =>
    obtain ⟨out, heq, -⟩ := node.send_signal p [] ie
    rw [heq]
    refine h.keep rfl rfl rfl ?_
    intro hcrashed
    exact (Bool.or_eq_false_iff.mp hcrashed).1

end Node

section Runs

variable [DecidableEq M] {faultySet : Finset (PID N)} {before after : List Nat}
  {w : World (PID N) (Node N M) (Round (Msg N M))}

theorem counts_and_plain_of_reachable
    (h : (program (S := S) faultySet before after).lts.Reachable w) (p : PID N)
    : (w.node p).Counts (Node.initRoundsLeft (w.node p).calls) ∧ (w.node p).PlainUntilCrash p := by
  revert p
  apply Program.local_invariant
    (I := fun p x => Node.Counts x (Node.initRoundsLeft x.calls) ∧ Node.PlainUntilCrash x p) _ _ _ h
  . exact fun p => ⟨.init before after, fun _ _ => .init⟩
  . intro p i node node' out hnode hinput
    obtain ⟨result, hcase, rfl, rfl⟩ := Node.input_cases hinput
    exact ⟨hnode.1.input hcase, hnode.2.input hnode.1 hcase⟩
  . intro p e k node node' out hnode hreceive
    obtain ⟨rfl, rfl⟩ := Node.receive_eq hreceive
    rw [Node.calls_receive]
    exact ⟨hnode.1.receive e, hnode.2.receive hnode.1 e⟩

/--
At every process that has not crashed, `InitRound` is delivered a second time, and a batch is sent
before the `StartRound` that it is to follow.
-/
theorem not_signalsInOrder (h : (program (S := S) faultySet before after).lts.Reachable w)
    (p : PID N) (hdone : (w.node p).calls = some []) (hcrashed : (w.node p).hasCrashed = false)
    : (w.node p).signals.countP isInitRound = 2 ∧ ¬ (w.node p).SignalsInOrder
        ∧ (AreBatches p (w.node p).reactions → (w.node p).outbox = [] →
            ¬ (w.node p).BatchesInOrder) := by
  obtain ⟨hcounts, hplain⟩ := counts_and_plain_of_reachable h p
  have hcount := hcounts.initRounds hcrashed
  rw [hdone] at hcount
  refine ⟨hcount, ?_, ?_⟩
  . intro hsignals
    rw [hsignals.countP_isInitRound] at hcount
    cases hcount
  . intro hbatches houtbox
    have hflushes := (hplain hbatches hcrashed).flushes_eq hbatches houtbox
    have hreactions := hcounts.reactions
    have hlength := (w.node p).length_signals
    unfold Node.BatchesInOrder
    have hzero : Node.initRoundsLeft (some []) = 0 := rfl
    omega

end Runs

end Batches

open RoundBased.Alone (m)

abbrev AloneRun := World (PID 1) (Node 1 (AppMessage 1 Unit)) (Round (Msg 1 (AppMessage 1 Unit)))

theorem exists_alone
    : ∃ w : AloneRun, (program (S := Unit) ∅ [] []).lts.Reachable w
        ∧ (w.node 0).calls = some [] ∧ (w.node 0).hasCrashed = false ∧ (w.node 0).outbox = []
        ∧ (w.node 0).reactions = [[m], [m]] ∧ (w.node 0).signals = [.initRound, .initRound] := by
  have h0 : (program (S := Unit) (M := AppMessage 1 Unit) ∅ [] []).lts.Reachable
      (program ∅ [] []).initWorld := .init rfl
  have h1 := Program.Reach.input h0 0 (.preStart [.failures, .roundBased]) rfl trivial
  have h2 := Program.Reach.input h1 0 (.call false [m]) rfl trivial
  have h3 := Program.Reach.input h2 0 (.handOver [0]) rfl trivial
  have h4 := Program.Reach.input h3 0 (.call false []) rfl trivial
  have h5 := Program.Reach.input h4 0 (.call false [m]) rfl trivial
  have h6 := Program.Reach.input h5 0 (.handOver [0]) rfl trivial
  exact ⟨_, h6, rfl, rfl, rfl, rfl, rfl⟩

theorem areBatches_alone {n : Nat} (hn : n ≤ 2 ^ 31) : AreBatches 0 (List.replicate n [m]) where
  isBatch := by
    intro reaction hreaction
    rw [List.eq_of_mem_replicate hreaction]
    exact RoundBased.Alone.isBatch 0
  length_le := by
    rw [List.length_replicate]
    exact hn

theorem not_signalsInOrder_alone
    : ∃ w : AloneRun, (w.node 0).signals.countP isInitRound = 2 ∧ ¬ (w.node 0).SignalsInOrder
        ∧ ¬ (w.node 0).BatchesInOrder := by
  obtain ⟨w, hreach, hdone, hcrashed, houtbox, hreactions, -⟩ := exists_alone
  obtain ⟨hcount, hsignals, hearly⟩ := not_signalsInOrder hreach 0 hdone hcrashed
  refine ⟨w, hcount, hsignals, hearly ?_ houtbox⟩
  rw [hreactions]
  exact areBatches_alone (n := 2) (by decide)

theorem not_forall_signalsInOrder
    : ¬ ∀ (w : AloneRun), (program (S := Unit) ∅ [] []).lts.Reachable w →
        ∀ p, (w.node p).calls = some [] → (w.node p).hasCrashed = false →
          (w.node p).SignalsInOrder := by
  intro hall
  obtain ⟨w, hreach, hdone, hcrashed, -, -, hsignals⟩ := exists_alone
  obtain ⟨starts, hstarts, -⟩ := hall w hreach 0 hdone hcrashed
  rw [hsignals, List.cons_inj_right] at hstarts
  cases starts with
  | nil => cases hstarts
  | cons start starts => cases hstarts

end RoundBasedWithFailures
