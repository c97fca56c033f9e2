import ScalaNeko.Protocol.Lemmas.RoundBasedWithFailures

/-!
Crashes are permanent, at the process itself and in the rounds of all others, as long as no process
that has crashed is revived at the end of `preStart`.
-/

open AsyncNetwork
open RoundBased (Exchange Party messages sentTo)

namespace RoundBasedWithFailures

variable {N : Nat} {S M : Type}

def Msg.isPlain : Msg N M → Bool
  | plain _ => true
  | _ => false

def Msg.isCrashed : Msg N M → Bool
  | crashed _ _ => true
  | _ => false

theorem not_isPlain_of_interpret_eq_none {me : PID N} {x : Msg N M}
    (h : interpret me (some x) = none)
    : x.isPlain = false := by
  cases x with
  | plain m => cases h
  | partialCrashed m lost => rfl
  | crashed p dests => rfl

theorem interpret_of_isCrashed {me : PID N} {x : Msg N M} (h : x.isCrashed = true)
    : interpret me (some x) = none := by
  cases x with
  | plain m => cases h
  | partialCrashed m lost => cases h
  | crashed p dests => rfl

variable [Message N M]

open Message (destinations fromPID)

abbrev Run (N : Nat) (M : Type) := World (PID N) (Node N M) (Round (Msg N M))

-- The client reacts to each signal with one message to all processes.
def Node.ToAll (node : Node N M) (p : PID N) : Prop :=
  ∀ reaction, reaction ∈ node.reactions →
    ∃ m, reaction = [m] ∧ fromPID m = p ∧ destinations m = Finset.univ

def ToAll (w : Run N M) : Prop := ∀ p, (w.node p).ToAll p

structure Regular (faultySet : Finset (PID N)) (w : Run N M)
    (l : Label (PID N) (Input N S M) (Bool × List M) (Round (Msg N M))) (w' : Run N M) : Prop where
  toAll : ToAll w'
  flushes_le : ∀ p, (w'.node p).party.flushes ≤ 2 ^ 31
  startRounds_lt : ∀ p, (w'.node p).party.startRounds.length < 2 ^ 31
  -- `checkCrashing` at the end of `preStart` does not revive a process that has crashed
  guarded : ∀ p coin reaction calls, l.action = .input p (.call coin reaction) →
    (w.node p).calls = some (.checkCrashing :: calls) → (w.node p).failures.state = .crashed →
    ¬ (p ∈ faultySet ∧ coin = true)

/--
What crash-stop failures promise: a crash is permanent, and a process that is missing in a round is
missing in all later ones.
-/
structure CrashStop (S : Type) [DecidableEq M] (faultySet : Finset (PID N)) (before after : List Nat)
    (ok : Run N M → Label (PID N) (Input N S M) (Bool × List M) (Round (Msg N M)) → Run N M → Prop)
    (w : Run N M) : Prop where
  permanent : ∀ p, (w.node p).failures.state = .crashed →
    ∀ w', (program (S := S) faultySet before after).lts.Path ok w w' →
      (w'.node p).failures.state = .crashed
  missing : ∀ p p' q start start', .startRound start ∈ (w.node p).signals →
    .startRound start' ∈ (w.node p').signals → start.round < start'.round →
    start.msgs q = some none → start'.msgs q = some none

/--
A process sends messages of its client, then at most one `PartialCrashed`, then `Crashed` only.
-/
structure Node.Stops (node : Node N M) (p : PID N) : Prop where
  sendBatch : node.party.rounds.sendBatch = []
  outbox : ∀ m, m ∈ node.outbox → fromPID m = p ∧ destinations m = Finset.univ
  plain : node.failures.state ≠ .crashed → ∀ e, e ∈ node.party.emitted → e.msg.isPlain
  stopped : ∀ e, e ∈ node.party.emitted → ∀ e', e' ∈ node.party.emitted → e.round < e'.round →
    e.msg.isPlain ∨ e'.msg.isCrashed
  signals : ∀ start, .startRound start ∈ node.signals →
    ∃ (i : Nat) (start' : StartRound N (Msg N M)), node.party.startRounds[i]? = some start'
      ∧ start = ⟨start'.round, fun q => (start'.msgs q).map (interpret p)⟩

namespace Node

variable {node : Node N M} {p : PID N}

theorem Stops.emit [DecidableEq M] {x : Msg N M} {failures : RoundBasedWithFailures}
    {hasCrashed : Bool}
    {result : Party N (Msg N M) × List (Event S (Round (Msg N M)))}
    (h : node.Stops p) (hsends : node.party.Sends p) (hcase : node.party.SendCase p x result)
    (hx : destinations x = Finset.univ) (hflushes : result.1.flushes ≤ 2 ^ 31)
    (hkind : node.failures.state ≠ .crashed ∨ x.isCrashed)
    (hstate : failures.state ≠ .crashed → node.failures.state ≠ .crashed ∧ x.isPlain)
    : Stops { node with failures, hasCrashed, party := result.1 } p := by
  obtain ⟨hemitted, hcount, hbatch⟩ := hcase.of_univ h.sendBatch hx
  obtain ⟨-, -, hsignals, -, -⟩ := hcase.frame
  constructor
  . exact hbatch
  . exact h.outbox
  . intro hne e he
    obtain ⟨hold, hplain⟩ := hstate hne
    dsimp only at he
    rw [hemitted, List.mem_append, List.mem_singleton] at he
    rcases he with he | rfl
    . exact h.plain hold e he
    . exact hplain
  . intro e he e' he' hlt
    dsimp only at he he'
    rw [hemitted, List.mem_append, List.mem_singleton] at he he'
    -- the new message is that of the latest round
    have hlast : ∀ e, e ∈ node.party.emitted → ¬ node.party.rounds.sendRound < e.round := by
      intro e he hlt
      obtain ⟨k, hk, hround⟩ := hsends.emitted_round e he
      rw [hround, hsends.sendRound, Int32.ofNat_lt_ofNat_of_lt (by omega) (by omega)] at hlt
      omega
    rcases he with he | rfl
    . rcases he' with he' | rfl
      . exact h.stopped e he e' he' hlt
      . rcases hkind with hold | hcrashed
        . exact .inl (h.plain hold e he)
        . exact .inr hcrashed
    . rcases he' with he' | rfl
      . exact absurd hlt (hlast e' he')
      . exact absurd rfl (Int32.ne_of_lt hlt)
  . intro start hstart
    obtain ⟨i, start', hi, heq⟩ := h.signals start hstart
    refine ⟨i, start', ?_, heq⟩
    dsimp only
    rw [Party.startRounds, hsignals]
    exact hi

theorem Stops.party {party : Party N (Msg N M)} {l : List (StartRound N (Msg N M))}
    (h : node.Stops p) (hbatch : party.rounds.sendBatch = node.party.rounds.sendBatch)
    (hemitted : party.emitted = node.party.emitted)
    (hstartRounds : party.startRounds = node.party.startRounds ++ l)
    : Stops { node with party } p where
  sendBatch := hbatch.trans h.sendBatch
  outbox := h.outbox
  plain := by
    dsimp only
    rw [hemitted]
    exact h.plain
  stopped := by
    dsimp only
    rw [hemitted]
    exact h.stopped
  signals := by
    intro start hstart
    obtain ⟨i, start', hi, heq⟩ := h.signals start hstart
    refine ⟨i, start', ?_, heq⟩
    dsimp only
    rw [hstartRounds, List.getElem?_append_left (List.getElem?_eq_some_iff.mp hi).1]
    exact hi

theorem Stops.initRound (h : node.Stops p)
    : Stops { node with party := node.party.deliver .initRound } p := by
  have hstartRounds : (node.party.deliver .initRound).startRounds = node.party.startRounds ++ [] := by
    simp [Party.deliver, Party.startRounds]
  exact h.party rfl rfl hstartRounds

theorem Stops.checkCrashing {faultySet : Finset (PID N)} {coin : Bool} {calls : Option (List Call)}
    (h : node.Stops p)
    (hguard : node.failures.state = .crashed → ¬ (p ∈ faultySet ∧ coin = true))
    : Stops { node with calls, failures := node.failures.checkCrashing faultySet p coin } p where
  sendBatch := h.sendBatch
  outbox := h.outbox
  plain := by
    intro hne
    by_cases hstate : node.failures.state = .crashed
    . have hsame := checkCrashing_of_not (f := node.failures) (hguard hstate)
      dsimp only at hne
      rw [hsame] at hne
      exact absurd hstate hne
    . exact h.plain hstate
  stopped := h.stopped
  signals := h.signals

variable [DecidableEq M] {faultySet : Finset (PID N)} {coin : Bool} {reaction : List M}
  {s : RoundSignal N (Msg N M)}

theorem Stops.deliver (h : node.Stops p) (hsends : node.party.Sends p)
    (hs : ∀ start, s = .startRound start → ∃ i : Nat, node.party.startRounds[i]? = some start)
    (htoAll : (node.deliver S faultySet p coin reaction s).1.ToAll p)
    (hflushes : (node.deliver S faultySet p coin reaction s).1.party.flushes ≤ 2 ^ 31)
    : (node.deliver S faultySet p coin reaction s).1.Stops p := by
  by_cases hstate : node.failures.state = .crashed
  . rw [deliver_of_crashed hstate] at hflushes ⊢
    apply h.emit hsends (Party.onSend_cases _ _ _) rfl hflushes
    . exact .inr rfl
    . intro hne
      exact absurd hstate hne
  . obtain ⟨failures, hstate', heq⟩ := deliver_of_not_crashed hstate s
    rw [heq] at htoAll ⊢
    constructor
    . exact h.sendBatch
    . intro m hm
      rw [List.mem_append] at hm
      rcases hm with hm | hm
      . exact h.outbox m hm
      . obtain ⟨m', rfl, hfrom, huniv⟩ := htoAll reaction
          (List.mem_append_right _ (List.mem_singleton_self _))
        rw [List.mem_singleton] at hm
        rw [hm]
        exact ⟨hfrom, huniv⟩
    . exact fun _ => h.plain hstate
    . exact h.stopped
    . intro start hstart
      rw [List.mem_append, List.mem_singleton] at hstart
      rcases hstart with hstart | hstart
      . exact h.signals start hstart
      . cases s with
        | initRound => cases hstart
        | startRound start' =>
          cases hstart
          obtain ⟨i, hi⟩ := hs start' rfl
          exact ⟨i, start', hi, rfl⟩

theorem Stops.send {m : M} {destShuffle : List (PID N)} (h : node.Stops p)
    (hsends : node.party.Sends p) (hm : destinations m = Finset.univ)
    (hflushes : (node.send p destShuffle (.message m : Event S M)).1.party.flushes ≤ 2 ^ 31)
    : (node.send p destShuffle (.message m : Event S M)).1.Stops p := by
  cases hstate : node.failures.state with
  | crashed =>
    rw [send_of_crashed hstate]
    exact { h with }
  | crashing =>
    obtain ⟨lost, heq⟩ := send_of_crashing (S := S) hstate destShuffle hm
    rw [heq] at hflushes ⊢
    apply h.emit hsends (Party.onSend_cases _ _ _) hm hflushes
    . exact .inl (by rw [hstate]; nofun)
    . intro hne
      exact absurd rfl hne
  | running =>
    rw [send_of_running hstate] at hflushes ⊢
    apply h.emit hsends (Party.onSend_cases _ _ _) hm hflushes
    . exact .inl (by rw [hstate]; nofun)
    . intro hne
      exact ⟨hne, rfl⟩

section Exchange

variable {party : PID N → Party N (Msg N M)} {flight : PID N → Multiset (Round (Msg N M))}

theorem exchange_emit {x : Msg N M} (h : Exchange party flight) (hparty : party p = node.party)
    (hx : fromPID x = p)
    (hflushes : (node.party.onSend p (.message x : Event S (Msg N M))).1.flushes ≤ 2 ^ 31)
    : Exchange
        (Function.update party p (node.party.onSend p (.message x : Event S (Msg N M))).1)
        (fun q => ↑((messages (node.party.onSend p (.message x : Event S (Msg N M))).2).filter
          (fun e => q ∈ destinations e.msg)) + flight q) := by
  apply h.send _ hx hflushes
  rw [hparty]
  exact Party.onSend_cases node.party p x

theorem exchange_deliver (h : Exchange party flight) (hparty : party p = node.party)
    (s : RoundSignal N (Msg N M))
    (hflushes : (node.deliver S faultySet p coin reaction s).1.party.flushes ≤ 2 ^ 31)
    : Exchange (Function.update party p (node.deliver S faultySet p coin reaction s).1.party)
        (fun q => ↑((messages (node.deliver S faultySet p coin reaction s).2).filter
          (fun e => q ∈ destinations e.msg)) + flight q) := by
  by_cases hstate : node.failures.state = .crashed
  . rw [deliver_of_crashed hstate] at hflushes ⊢
    exact exchange_emit h hparty rfl hflushes
  . obtain ⟨failures, -, heq⟩ := deliver_of_not_crashed hstate s
    rw [heq]
    exact h.silent hparty rfl

theorem exchange_send {m : M} {destShuffle : List (PID N)} (h : Exchange party flight)
    (hparty : party p = node.party) (hfrom : fromPID m = p) (hm : destinations m = Finset.univ)
    (hflushes : (node.send p destShuffle (.message m : Event S M)).1.party.flushes ≤ 2 ^ 31)
    : Exchange
        (Function.update party p (node.send p destShuffle (.message m : Event S M)).1.party)
        (fun q => ↑((messages (node.send p destShuffle (.message m : Event S M)).2).filter
          (fun e => q ∈ destinations e.msg)) + flight q) := by
  cases hstate : node.failures.state with
  | crashed =>
    rw [send_of_crashed hstate]
    exact h.silent hparty rfl
  | crashing =>
    obtain ⟨lost, heq⟩ := send_of_crashing (S := S) hstate destShuffle hm
    rw [heq] at hflushes ⊢
    exact exchange_emit h hparty hfrom hflushes
  | running =>
    rw [send_of_running hstate] at hflushes ⊢
    exact exchange_emit h hparty hfrom hflushes

end Exchange

end Node

structure Inv (w : Run N M) : Prop where
  exchange : Exchange (fun p => (w.node p).party) (undelivered w.net)
  stops : ∀ p, (w.node p).Stops p

namespace Inv

variable {w : Run N M} {p : PID N} {node' : Node N M} {net : Multiset (Envelope (PID N) (Round (Msg N M)))}
  {out : List (Event S (Round (Msg N M)))}

theorem update (h : Inv w)
    (hexchange : Exchange (Function.update (fun q => (w.node q).party) p node'.party)
      (fun q => ↑((messages out).filter (fun e => q ∈ destinations e.msg)) + undelivered net q))
    (hstops : node'.Stops p)
    : Inv ⟨Function.update w.node p node', ↑(transmit out) + net⟩ := by
  constructor
  . have hparty : (fun q => (Function.update w.node p node' q).party)
        = Function.update (fun q => (w.node q).party) p node'.party :=
      Function.comp_update Node.party w.node p node'
    dsimp only
    rw [hparty, RoundBased.undelivered_transmit_add]
    exact hexchange
  . exact (Function.forall_update_iff w.node (fun p x => Node.Stops x p)).mpr
      ⟨hstops, fun q _ => h.stops q⟩

theorem init {protocols : List Proto} : Inv (⟨fun _ => { protocols }, 0⟩ : Run N M) where
  exchange := .init
  stops := fun p =>
    { sendBatch := rfl
      outbox := by simp
      plain := by simp
      stopped := by simp
      signals := by simp }

theorem keep (h : Inv w) (hparty : node'.party = (w.node p).party) (hout : messages out = [])
    (hstops : node'.Stops p)
    : Inv ⟨Function.update w.node p node', ↑(transmit out) + w.net⟩ :=
  h.update (h.exchange.silent hparty.symm hout) hstops

theorem missing (h : Inv w) {p' q : PID N} {start start' : StartRound N M}
    (hstart : .startRound start ∈ (w.node p).signals)
    (hstart' : .startRound start' ∈ (w.node p').signals) (hlt : start.round < start'.round)
    (hmissing : start.msgs q = some none)
    : start'.msgs q = some none := by
  obtain ⟨i, s, hs, rfl⟩ := (h.stops p).signals start hstart
  obtain ⟨i', s', hs', rfl⟩ := (h.stops p').signals start' hstart'
  obtain ⟨x, hx, -, hsent⟩ := h.exchange.msgs_startRound hs q
  obtain ⟨x', hx', -, hsent'⟩ := h.exchange.msgs_startRound hs' q
  -- the rounds are compared through their numbers
  have hi := (List.getElem?_eq_some_iff.mp hs).1
  have hi' := (List.getElem?_eq_some_iff.mp hs').1
  have hbound := h.exchange.startRounds_lt p
  have hbound' := h.exchange.startRounds_lt p'
  dsimp only at hi hi' hbound hbound' hlt
  rw [((h.exchange.receives p).startRounds i s hs).1, ((h.exchange.receives p').startRounds i' s' hs').1,
    Int32.ofNat_lt_ofNat_of_lt (by omega) (by omega)] at hlt
  have hrounds : Int32.ofNat i < Int32.ofNat i' := by
    rw [Int32.ofNat_lt_ofNat_of_lt (by omega) (by omega)]
    omega
  -- what is interpreted as a crash is not a message of the client
  have hnotPlain : x.isPlain = false := by
    dsimp only at hmissing
    rw [hx] at hmissing
    exact not_isPlain_of_interpret_eq_none (Option.some_inj.mp hmissing)
  have hemitted : ⟨x, Int32.ofNat i⟩ ∈ (w.node q).party.emitted :=
    List.mem_of_mem_filter (hsent ▸ List.mem_singleton_self _)
  have hemitted' : ⟨x', Int32.ofNat i'⟩ ∈ (w.node q).party.emitted :=
    List.mem_of_mem_filter (hsent' ▸ List.mem_singleton_self _)
  rcases (h.stops q).stopped _ hemitted _ hemitted' hrounds with hplain | hcrashed
  . rw [hnotPlain] at hplain
    cases hplain
  . dsimp only
    rw [hx', Option.map_some, interpret_of_isCrashed hcrashed]

variable [DecidableEq M] {node : Node N M} {faultySet : Finset (PID N)} {coin : Bool}
  {reaction : List M}

theorem preStartRoundBased (h : Inv w) (hparty : node.party = (w.node p).party)
    (hold : node.Stops p)
    (htoAll : (node.preStartRoundBased S faultySet p coin reaction).1.ToAll p)
    (hflushes : (node.preStartRoundBased S faultySet p coin reaction).1.party.flushes ≤ 2 ^ 31)
    : Inv ⟨Function.update w.node p (node.preStartRoundBased S faultySet p coin reaction).1,
        ↑(transmit (node.preStartRoundBased S faultySet p coin reaction).2) + w.net⟩ := by
  unfold Node.preStartRoundBased at htoAll hflushes ⊢
  have hexchange := h.exchange.initRound p
  rw [← hparty] at hexchange
  have hsends := hexchange.sends p
  rw [Function.update_self] at hsends
  apply h.update
  . have hdeliver := Node.exchange_deliver hexchange (Function.update_self _ _ _) _ hflushes
    rw [Function.update_idem] at hdeliver
    exact hdeliver
  . exact hold.initRound.deliver hsends nofun htoAll hflushes

theorem input {i : Input N S M} {result : Node N M × List (Event S (Round (Msg N M)))} (h : Inv w)
    (hcase : (w.node p).InputCase faultySet p i result)
    (htoAll : result.1.ToAll p) (hflushes : result.1.party.flushes ≤ 2 ^ 31)
    (hguard : ∀ coin reaction calls, i = .call coin reaction →
      (w.node p).calls = some (.checkCrashing :: calls) → (w.node p).failures.state = .crashed →
        ¬ (p ∈ faultySet ∧ coin = true))
    : Inv ⟨Function.update w.node p result.1, ↑(transmit result.2) + w.net⟩ := by
  have hold := h.stops p
  cases hcase with
  | preStart order => exact h.keep rfl rfl { hold with }
  | roundBased coin reaction calls => exact h.preStartRoundBased rfl { hold with } htoAll hflushes
  | failures coin reaction calls => exact h.preStartRoundBased rfl { hold with } htoAll hflushes
  | other coin reaction id calls => exact h.keep rfl rfl { hold with }
  | checkCrashing coin reaction calls hcalls =>
    exact h.keep rfl rfl (hold.checkCrashing (hguard coin reaction calls rfl hcalls))
  | handOver destShuffle m outbox houtbox =>
    obtain ⟨hfrom, huniv⟩ := hold.outbox m (by rw [houtbox]; exact List.mem_cons_self)
    have htail : Node.Stops { w.node p with outbox } p :=
      { hold with
        outbox := fun m hm => hold.outbox m (by rw [houtbox]; exact List.mem_cons_of_mem _ hm) }
    apply h.update
    . exact Node.exchange_send h.exchange rfl hfrom huniv hflushes
    . exact htail.send (h.exchange.sends p) huniv hflushes
  | signal ie =>
    obtain ⟨out, heq, hout⟩ := (w.node p).send_signal p [] ie
    rw [heq]
    exact h.keep rfl hout { hold with }

theorem receive {e : Round (Msg N M)} {rest : Multiset (Envelope (PID N) (Round (Msg N M)))}
    (h : Inv w) (hnet : w.net = ⟨p, e⟩ ::ₘ rest)
    (htoAll : ((w.node p).receive S faultySet p coin reaction e).1.ToAll p)
    (hflushes : ((w.node p).receive S faultySet p coin reaction e).1.party.flushes ≤ 2 ^ 31)
    (hstartRounds :
      ((w.node p).receive S faultySet p coin reaction e).1.party.startRounds.length < 2 ^ 31)
    : Inv ⟨Function.update w.node p ((w.node p).receive S faultySet p coin reaction e).1,
        ↑(transmit ((w.node p).receive S faultySet p coin reaction e).2) + rest⟩ := by
  obtain ⟨result, hcase, ⟨-, heq⟩ | ⟨start, hstart, heq⟩⟩ := (w.node p).receive_cases e
  . rw [heq] at hstartRounds ⊢
    have hexchange := h.exchange.receive (undelivered_taken hnet) hcase hstartRounds
    rw [← undelivered_rest hnet] at hexchange
    obtain ⟨hemitted, -, -, -, hbatch⟩ := hcase.frame
    apply h.update
    . have hparty := Function.update_self p result.1 (fun q => (w.node q).party)
      have hnothing : messages ([] : List (Event S (Round (Msg N M)))) = [] := rfl
      have hsilent := hexchange.silent hparty hnothing
      rw [Function.update_idem] at hsilent
      exact hsilent
    . exact (h.stops p).party hbatch hemitted hcase.startRounds_eq
  . rw [heq] at htoAll hflushes hstartRounds ⊢
    rw [(Node.deliver_frame _).2.2] at hstartRounds
    have hexchange := h.exchange.receive (undelivered_taken hnet) hcase hstartRounds
    rw [← undelivered_rest hnet] at hexchange
    have hsends := hexchange.sends p
    rw [Function.update_self] at hsends
    obtain ⟨hemitted, -, -, -, hbatch⟩ := hcase.frame
    have hstops := (h.stops p).party hbatch hemitted hcase.startRounds_eq
    apply h.update
    . have hdeliver := Node.exchange_deliver hexchange (Function.update_self _ _ _) _ hflushes
      rw [Function.update_idem] at hdeliver
      exact hdeliver
    . apply hstops.deliver hsends _ htoAll hflushes
      rintro start' heq'
      cases heq'
      refine ⟨(w.node p).party.startRounds.length, ?_⟩
      dsimp only
      rw [hcase.startRounds_eq, hstart]
      simp

end Inv

section Runs

variable [DecidableEq M] {faultySet : Finset (PID N)} {before after : List Nat} {w w' : Run N M}
  {l : Label (PID N) (Input N S M) (Bool × List M) (Round (Msg N M))} {p : PID N}

theorem inv_of_reach
    (h : (program (S := S) faultySet before after).lts.Reach (Regular faultySet) w)
    : Inv w := by
  apply LTS.Reach.invariant (I := Inv) _ _ h
  . rintro w rfl
    exact .init
  . rintro w l w' _ hinv hst hreg
    cases hst with
    | @input p i node' out hinput =>
      obtain ⟨result, hcase, rfl, rfl⟩ := Node.input_cases hinput
      have htoAll := hreg.toAll p
      have hflushes := hreg.flushes_le p
      dsimp only at htoAll hflushes
      rw [Function.update_self] at htoAll hflushes
      apply hinv.input hcase htoAll hflushes
      intro coin reaction calls heq
      exact hreg.guarded p coin reaction calls (by rw [heq])
    | @receive p e k node' out rest hnet hreceive =>
      obtain ⟨rfl, rfl⟩ := Node.receive_eq hreceive
      have htoAll := hreg.toAll p
      have hflushes := hreg.flushes_le p
      have hstartRounds := hreg.startRounds_lt p
      dsimp only at htoAll hflushes hstartRounds
      rw [Function.update_self] at htoAll hflushes hstartRounds
      exact hinv.receive hnet htoAll hflushes hstartRounds

theorem crashed_of_step (hst : (program faultySet before after).Step w l w')
    (hreg : Regular faultySet w l w') (hcrashed : (w.node p).failures.state = .crashed)
    : (w'.node p).failures.state = .crashed := by
  cases hst with
  | @input q i node' out hinput =>
    obtain ⟨result, hcase, rfl, rfl⟩ := Node.input_cases hinput
    dsimp only
    by_cases hq : p = q
    . subst hq
      rw [Function.update_self]
      apply hcase.crashed hcrashed
      intro coin reaction calls heq hcalls
      exact hreg.guarded p coin reaction calls (by rw [heq]) hcalls hcrashed
    . rw [Function.update_of_ne hq]
      exact hcrashed
  | @receive q e k node' out rest hnet hreceive =>
    obtain ⟨rfl, rfl⟩ := Node.receive_eq hreceive
    dsimp only
    by_cases hq : p = q
    . subst hq
      rw [Function.update_self]
      exact Node.receive_crashed hcrashed e
    . rw [Function.update_of_ne hq]
      exact hcrashed

theorem crashStop_of_regular
    (h : (program (S := S) faultySet before after).lts.Reach (Regular faultySet) w)
    : CrashStop S faultySet before after (Regular faultySet) w where
  permanent := by
    intro p hcrashed w' hpath
    apply LTS.Path.stable (I := fun w => (w.node p).failures.state = .crashed) _ hpath hcrashed
    intro w l w' hcrashed hst hreg
    exact crashed_of_step hst hreg hcrashed
  missing := by
    intro p p' q start start' hstart hstart' hlt hmissing
    exact (inv_of_reach h).missing hstart hstart' hlt hmissing

theorem exists_revived {calls : List Call} (hcalls : (w.node p).calls = some (.checkCrashing :: calls))
    (hfaulty : p ∈ faultySet)
    : ∃ (l : Label (PID N) (Input N S M) (Bool × List M) (Round (Msg N M))) (w' : Run N M),
        (program faultySet before after).Step w l w' ∧ (w'.node p).failures.state = .crashing := by
  have hcall : (w.node p).call S faultySet p true []
      = some ({ w.node p with
          calls := some calls
          failures := (w.node p).failures.checkCrashing faultySet p true }, []) := by
    unfold Node.call
    rw [hcalls]
  refine ⟨_, _, .input (p := p) (i := .call true []) (by simp only [program, hcall]; rfl), ?_⟩
  dsimp only
  rw [Function.update_self]
  simp [checkCrashing, hfaulty]

end Runs

section Examples

variable {n : Nat}

def toAll (p : PID n) : AppMessage n Unit := .multicast p Finset.univ ()

theorem reacts {w : Run n (AppMessage n Unit)}
    (h : ∀ p, ∀ reaction ∈ (w.node p).reactions, reaction = [toAll p])
    : ToAll w := by
  intro p reaction hreaction
  exact ⟨toAll p, h p reaction hreaction, rfl, rfl⟩

theorem regular {faultySet : Finset (PID n)} {w w' : Run n (AppMessage n Unit)}
    {l : Label (PID n) (Input n Unit (AppMessage n Unit)) (Bool × List (AppMessage n Unit))
      (Round (Msg n (AppMessage n Unit)))}
    (hreactions : ∀ p, ∀ reaction ∈ (w'.node p).reactions, reaction = [toAll p])
    (hlengths : ∀ p, (w'.node p).party.flushes ≤ 9 ∧ (w'.node p).party.startRounds.length ≤ 9)
    (hguard : ∀ p coin reaction, l.action = .input p (.call coin reaction) →
      (w.node p).failures.state = .crashed → coin = false)
    : Regular faultySet w l w' where
  toAll := reacts hreactions
  flushes_le := fun p => Nat.le_trans (hlengths p).1 (by decide)
  startRounds_lt := fun p => Nat.lt_of_le_of_lt (hlengths p).2 (by decide)
  guarded := by
    rintro p coin reaction calls haction - hstate ⟨-, hcoin⟩
    rw [hguard p coin reaction haction hstate] at hcoin
    cases hcoin

theorem crashStop_of_regular_missing
    : ∃ w : Run 2 (AppMessage 2 Unit), (w.node 0).failures.state = .crashed
        ∧ (∃ msgs, (w.node 1).signals = [.initRound, .startRound ⟨1, msgs⟩] ∧ msgs 0 = some none)
        ∧ CrashStop Unit {0} [] [] (Regular {0}) w := by
  have h0 : (program (S := Unit) (M := AppMessage 2 Unit) {0} [] []).lts.Reach (Regular {0})
      (program {0} [] []).initWorld := .init rfl
  have h1 := Program.Reach.input h0 0 (.preStart [.roundBased, .failures]) rfl
    (regular (by decide) (by decide) nofun)
  have h2 := Program.Reach.input h1 1 (.preStart [.roundBased, .failures]) rfl
    (regular (by decide) (by decide) nofun)
  have h3 := Program.Reach.input h2 0 (.call true [toAll 0]) rfl
    (regular (by decide) (by decide) (by rintro _ _ _ ⟨⟩ ⟨⟩))
  have h4 := Program.Reach.input h3 0 (.handOver [1, 0]) rfl
    (regular (by decide) (by decide) nofun)
  have h5 := Program.Reach.input h4 1 (.call false [toAll 1]) rfl
    (regular (by decide) (by decide) (by rintro _ _ _ ⟨⟩ -; rfl))
  have h6 := Program.Reach.input h5 1 (.handOver [0, 1]) rfl
    (regular (by decide) (by decide) nofun)
  have h7 := Program.Reach.receive h6 1 ⟨.partialCrashed (toAll 0) {1}, 0⟩ (false, [])
    {⟨0, ⟨.partialCrashed (toAll 0) {1}, 0⟩⟩, ⟨0, ⟨.plain (toAll 1), 0⟩⟩, ⟨1, ⟨.plain (toAll 1), 0⟩⟩}
    (by decide) rfl (regular (by decide) (by decide) nofun)
  have h8 := Program.Reach.receive h7 1 ⟨.plain (toAll 1), 0⟩ (false, [toAll 1])
    {⟨0, ⟨.partialCrashed (toAll 0) {1}, 0⟩⟩, ⟨0, ⟨.plain (toAll 1), 0⟩⟩}
    (by decide) rfl (regular (by decide) (by decide) nofun)
  exact ⟨_, by decide, ⟨_, rfl, rfl⟩, crashStop_of_regular h8⟩

theorem not_crashStop_of_revived
    : ¬ ∀ w : Run 1 (AppMessage 1 Unit),
        (program (S := Unit) {0} [] []).lts.Reach (fun _ _ w' => ToAll w') w →
          CrashStop Unit {0} [] [] (fun _ _ w' => ToAll w') w := by
  intro hall
  have h0 : (program (S := Unit) (M := AppMessage 1 Unit) {0} [] []).lts.Reach
      (fun _ _ w' => ToAll w') (program {0} [] []).initWorld := .init rfl
  have h1 := Program.Reach.input h0 0 (.preStart [.failures, .roundBased]) rfl (reacts (by decide))
  have h2 := Program.Reach.input h1 0 (.call true [toAll 0]) rfl (reacts (by decide))
  have h3 := Program.Reach.input h2 0 (.handOver [0]) rfl (reacts (by decide))
  have hcrashed := (hall _ h3).permanent 0 (by decide) _
    (.tail .refl (.input (p := 0) (i := .call true []) rfl) (reacts (by decide)))
  revert hcrashed
  decide

end Examples

end RoundBasedWithFailures
