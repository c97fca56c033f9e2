import Mathlib.Data.Finset.Max
import ScalaNeko.NekoSimSystem.Lemmas
import ScalaNeko.Protocol.Impl.RoundStack
import ScalaNeko.Protocol.Lemmas.RoundBased

/-!
Rounds keep pace with the clock of the simulation: when all messages take between `lo` and `hi`, so does
every round.
-/

open AsyncNetwork
open DelaySimNetwork (Job Sent)
open Kernel (Stamped TaskID Time)
open NekoSimSystem (Meets Timed DelaysWithin Idle)

namespace RoundBased

variable {N : Nat} {S M : Type} [Message N M]

abbrev TimedRun (N : Nat) (M : Type) := TimedNetwork.World (PID N) (Node N M) (Round M) Int

/--
The client has reacted to all that it has been delivered.
-/
def Node.Settled (node : Node N M) : Prop := node.isStarted = true ∧ node.outbox = []

instance (node : Node N M) [DecidableEq M] : Decidable node.Settled :=
  inferInstanceAs (Decidable (node.isStarted = true ∧ node.outbox = []))

def Node.round (node : Node N M) : Nat := node.party.startRounds.length

omit [Message N M] in
theorem Node.round_preStart (node : Node N M) (reaction : List M)
    : (node.preStart reaction).round = node.round := by
  unfold Node.round Party.startRounds
  dsimp only [Node.preStart, Node.react, Party.deliver]
  rw [List.filterMap_append, List.filterMap_cons_none rfl, List.filterMap_nil, List.append_nil]

/--
What is known of the clock: the messages of round `k` are due in the `k + 1`th interval, and it does not
pass over the end of a round that a process has still to send the messages of.
-/
structure Paced (lo hi : Int) (w : TimedRun N M) : Prop where
  due : ∀ x, x ∈ w.net → ∃ k : Nat, x.1.msg.round = Int32.ofNat k ∧ k < 2 ^ 31
    ∧ (k + 1) * lo ≤ x.2 ∧ x.2 ≤ (k + 1) * hi
  reached : ∀ p, (w.node p).round * lo ≤ w.now
  waits : ∀ p, (w.node p).party.flushes ≤ (w.node p).round → w.now ≤ (w.node p).round * hi

variable {lo hi : Int} {w : TimedRun N M} {p : PID N}

theorem Paced.init [DecidableEq M]
    : Paced lo hi (TimedNetwork.initWorld (program (S := S) (M := M) (N := N)) (0 : Int)) where
  due := by
    intro x hx
    cases Multiset.notMem_zero x hx
  reached := by
    intro p
    exact Int.le_of_eq (Int.zero_mul lo)
  waits := by
    intro p _
    exact Int.le_of_eq (Int.zero_mul hi).symm

omit [Message N M] in
-- What one process does at one clock value.
theorem Paced.update {node : Node N M} {net : Multiset (Envelope (PID N) (Round M) × Int)}
    {out : List (Envelope (PID N) (Round M) × Int)} (h : Paced lo hi w)
    (hnet : ∀ x, x ∈ net → x ∈ w.net)
    (hout : ∀ x, x ∈ out → ∃ k : Nat, x.1.msg.round = Int32.ofNat k ∧ k < 2 ^ 31
      ∧ (k + 1) * lo ≤ x.2 ∧ x.2 ≤ (k + 1) * hi)
    (hreached : node.round * lo ≤ w.now)
    (hwaits : node.party.flushes ≤ node.round → w.now ≤ node.round * hi)
    : Paced lo hi ⟨w.now, Function.update w.node p node, ↑out + net⟩ where
  due := by
    intro x hx
    rcases Multiset.mem_add.mp hx with hx | hx
    . exact hout x hx
    . exact h.due x (hnet x hx)
  reached := (Function.forall_update_iff w.node (fun _ x => Node.round x * lo ≤ w.now)).mpr
    ⟨hreached, fun q _ => h.reached q⟩
  waits := (Function.forall_update_iff w.node
    (fun _ x => (Node.party x).flushes ≤ Node.round x → w.now ≤ Node.round x * hi)).mpr
    ⟨hwaits, fun q _ => h.waits q⟩

omit [Message N M] in
theorem Paced.keep {node : Node N M} (h : Paced lo hi w) (hround : node.round = (w.node p).round)
    (hflushes : node.party.flushes = (w.node p).party.flushes)
    : Paced lo hi ⟨w.now, Function.update w.node p node, Multiset.ofList [] + w.net⟩ := by
  apply h.update (fun _ hx => hx)
  . intro x hx
    cases hx
  . rw [hround]
    exact h.reached p
  . rw [hround, hflushes]
    exact h.waits p

open Message (destinations)

theorem Party.SendCase.round_eq [DecidableEq M] {party : Party N M} {m : M}
    {result : Party N M × List (Event S (Round M))} (h : party.SendCase p m result)
    {env : Envelope (PID N) (Round M)} (henv : env ∈ transmit result.2)
    : env.msg.round = party.rounds.sendRound ∧ result.1.flushes = party.flushes + 1 := by
  cases h with
  | refused | kept => cases henv
  | completed =>
    refine ⟨?_, rfl⟩
    obtain ⟨event, hevent, henv⟩ := List.mem_flatMap.mp henv
    obtain ⟨e, he, rfl⟩ := List.mem_map.mp hevent
    obtain ⟨b, -, rfl⟩ := List.mem_map.mp he
    rw [(mem_fanOut.mp henv).2]

/--
A process sends the messages of the round that it is in, and has not sent them before.
-/
theorem Paced.handOver [DecidableEq M] {node : Node N M} {sends : List (Event S (Round M))}
    {out : List (Envelope (PID N) (Round M) × Int)} (h : Paced lo hi w)
    (hlock : Lockstep w.node (undelivered w.untimed.net))
    (hbatches : ∀ reaction, reaction ∈ (w.node p).reactions → IsBatch p reaction)
    (hst : (w.node p).handOver S p = some (node, sends)) (hmap : out.map Prod.fst = transmit sends)
    (hout : ∀ x, x ∈ out → w.now + lo ≤ x.2 ∧ x.2 ≤ w.now + hi)
    : Paced lo hi ⟨w.now, Function.update w.node p node, ↑out + w.net⟩ := by
  have hlock' := hlock.handOver hbatches hst
  obtain ⟨m, outbox, result, houtbox, hcase, rfl, rfl⟩ := Node.handOver_cases hst
  obtain ⟨-, -, hsignals, -, -⟩ := hcase.frame
  have hround : Node.round { w.node p with party := result.1, outbox, handed := (w.node p).handed ++ [m] }
      = (w.node p).round := by
    unfold Node.round Party.startRounds
    rw [hsignals]
  have hle := hlock.exchange.startRounds_le_flushes p p
  have hlt := hlock.exchange.startRounds_lt p
  have hreacted := hlock'.length_reactions_le p
  have hflushes := (hlock'.follows p).flushes_le
  rw [Function.update_self] at hreacted hflushes
  change _ ≤ Node.round _ + 1 at hreacted
  rw [hround] at hreacted
  change (w.node p).round ≤ (w.node p).party.flushes at hle
  change (w.node p).round < 2 ^ 31 at hlt
  apply h.update (fun _ hx => hx)
  . intro x hx
    have henv : x.1 ∈ transmit result.2 := by
      rw [← hmap]
      exact List.mem_map_of_mem hx
    obtain ⟨hxround, hnew⟩ := hcase.round_eq henv
    have heq : (w.node p).party.flushes = (w.node p).round := by
      dsimp only at hflushes hreacted
      omega
    refine ⟨(w.node p).round, ?_, hlt, ?_, ?_⟩
    . rw [hxround, (hlock.exchange.sends p).sendRound, heq]
    . have hlo := (hout x hx).1
      have hreached := h.reached p
      rw [Int.add_mul, Int.one_mul]
      omega
    . have hhi := (hout x hx).2
      have hwaits := h.waits p (Nat.le_of_eq heq)
      rw [Int.add_mul, Int.one_mul]
      omega
  . rw [hround]
    exact h.reached p
  . rw [hround]
    intro hstill
    apply h.waits p
    apply Nat.le_trans _ hstill
    cases hcase with
    | refused | kept => exact Nat.le_refl _
    | completed => exact Nat.le_succ _

/--
A message that gets a process to the next round belongs to the round that it is in.
-/
theorem Lockstep.round_receive {node : PID N → Node N M} {flight : PID N → Multiset (Round M)}
    (hlock : Lockstep node flight) {e : Round M} {k : Nat} (hk : e.round = Int32.ofNat k)
    (hk31 : k < 2 ^ 31) (reaction : List M)
    : ((node p).onReceive e reaction).party.flushes = (node p).party.flushes
      ∧ (((node p).onReceive e reaction).round = (node p).round
        ∨ ((node p).onReceive e reaction).round = (node p).round + 1 ∧ k = (node p).round) := by
  obtain ⟨result, hcase, hresult⟩ := (node p).onReceive_cases e reaction
  have hparty : ((node p).onReceive e reaction).party = result.1 := by
    rcases hresult with ⟨-, heq⟩ | ⟨-, -, heq⟩
    . rw [heq]
    . rw [heq]
      rfl
  unfold Node.round
  rw [hparty]
  refine ⟨hcase.frame.2.1, ?_⟩
  cases hcase with
  | older => exact .inl rfl
  | stashed => exact .inl rfl
  | started start _ hlength =>
    right
    constructor
    . simp [Party.startRounds]
    . have hreceives := hlock.exchange.receives p
      have hsame : e.round = (node p).party.rounds.recvRound := by
        by_contra hne
        apply hlock.caughtUp p
        rw [← hreceives.recvStash _ (Int32.le_refl _)]
        rw [Party.stashWith, Function.update_of_ne (fun heq => hne heq.symm)] at hlength
        exact hlength
      rw [hsame, hreceives.recvRound] at hk
      have hlt := hlock.exchange.startRounds_lt p
      exact ((Int32.ofNat_inj_of_lt hlt hk31).mp hk).symm

/--
A process gets to the next round when the last message of its round is delivered, which is due then.
-/
theorem Paced.receive {e : Round M} {rest : Multiset (Envelope (PID N) (Round M) × Int)}
    (h : Paced lo hi w) (hlock : Lockstep w.node (undelivered w.untimed.net))
    (hnet : w.net = (⟨p, e⟩, w.now) ::ₘ rest) (reaction : List M)
    : Paced lo hi ⟨w.now, Function.update w.node p ((w.node p).onReceive e reaction),
        Multiset.ofList [] + rest⟩ := by
  have hrest : ∀ x, x ∈ rest → x ∈ w.net := by
    intro x hx
    rw [hnet]
    exact Multiset.mem_cons_of_mem hx
  obtain ⟨k, hk, hk31, hlo, hhi⟩ := h.due (⟨p, e⟩, w.now) (by rw [hnet]; exact Multiset.mem_cons_self _ _)
  obtain ⟨hflushes, hround⟩ := hlock.round_receive (p := p) hk hk31 reaction
  apply h.update hrest
  . intro x hx
    cases hx
  . rcases hround with hsame | ⟨hnext, rfl⟩
    . rw [hsame]
      exact h.reached p
    . rw [hnext]
      exact hlo
  . rcases hround with hsame | ⟨hnext, rfl⟩
    . rw [hsame, hflushes]
      exact h.waits p
    . rw [hnext]
      exact fun _ => hhi

theorem Lockstep.lt_flushes {node : PID N → Node N M} {flight : PID N → Multiset (Round M)}
    (hlock : Lockstep node flight)
    (hbatches : ∀ reaction, reaction ∈ (node p).reactions → IsBatch p reaction)
    (hsettled : (node p).Settled)
    : (node p).round < (node p).party.flushes := by
  have hreacted := hlock.reacted p
  unfold Node.Reacted at hreacted
  rw [hsettled.1, if_pos rfl] at hreacted
  have hlt : (node p).round < (node p).reactions.length := by
    rw [hreacted]
    exact Nat.lt_succ_self _
  have hhanded := (hlock.follows p).handedOver hsettled.2 hlt
  exact (hlock.follows p).lt_flushes (hlock.exchange.sends p) hbatches hhanded

-- All clients have reacted, so that every process has sent the messages of its round.
theorem Paced.wait (h : Paced lo hi w) (hlock : Lockstep w.node (undelivered w.untimed.net))
    (hbatches : ∀ p reaction, reaction ∈ (w.node p).reactions → IsBatch p reaction)
    (hsettled : ∀ p, (w.node p).Settled) {now : Int} (hnow : w.now ≤ now)
    : Paced lo hi { w with now } where
  due := h.due
  reached := fun p => Int.le_trans (h.reached p) hnow
  waits := by
    intro p hflushes
    have hlt := hlock.lt_flushes (hbatches p) (hsettled p)
    exact absurd hlt (Nat.not_lt.mpr hflushes)

/--
What the runs meet: messages take between `lo` and `hi`, and the clock waits for the clients.
-/
def InTime (lo hi : Int) (w : TimedRun N M)
    (l : TimedNetwork.Label (PID N) (Input S M) (List M) (Round M) Int) (w' : TimedRun N M) : Prop :=
  Regular w'.node
    ∧ (∀ a out, l = .act a out → ∀ x, x ∈ out → w.now + lo ≤ x.2 ∧ x.2 ≤ w.now + hi)
    ∧ (l = .wait → ∀ p, (w.node p).Settled)

theorem lockstep_of_timed [DecidableEq M]
    (h : (TimedNetwork.lts (program (S := S)) 0).Reach (InTime lo hi) w)
    : Lockstep w.node (undelivered w.untimed.net) := by
  apply lockstep_of_reach (S := S) (w := w.untimed)
  exact TimedNetwork.untimed_reach (fun _ _ _ _ hok => hok.1) h

theorem Paced.input [DecidableEq M] {i : Input S M} {node : Node N M}
    {out : List (Envelope (PID N) (Round M) × Int)} (h : Paced lo hi w)
    (hlock : Lockstep w.node (undelivered w.untimed.net))
    (hinput : (program (S := S)).input p i (w.node p) = some (node, out.map Prod.fst))
    (hbatches : ∀ reaction, reaction ∈ node.reactions → IsBatch p reaction)
    (hout : ∀ x, x ∈ out → w.now + lo ≤ x.2 ∧ x.2 ≤ w.now + hi)
    : Paced lo hi ⟨w.now, Function.update w.node p node, ↑out + w.net⟩ := by
  cases i with
  | preStart reaction =>
    simp only [program] at hinput
    split at hinput
    . cases hinput
    . rw [Option.some.injEq, Prod.mk.injEq] at hinput
      obtain ⟨rfl, hmap⟩ := hinput
      rw [List.map_eq_nil_iff.mp hmap.symm]
      exact h.keep ((w.node p).round_preStart reaction) rfl
  | handOver =>
    simp only [program, Option.map_eq_some_iff, Prod.exists, Prod.mk.injEq] at hinput
    obtain ⟨_, sends, hhand, rfl, hmap⟩ := hinput
    rw [reactions_of_handOver hhand] at hbatches
    exact h.handOver hlock hbatches hhand hmap.symm hout
  | signal ie =>
    simp only [program, Party.onSend_signal, Option.some.injEq, Prod.mk.injEq] at hinput
    obtain ⟨rfl, hmap⟩ := hinput
    have htransmit : transmit [(.signal ie : Event S (Round M))] = [] := rfl
    rw [htransmit] at hmap
    rw [List.map_eq_nil_iff.mp hmap.symm]
    exact h.keep rfl rfl

theorem paced_of_reach [DecidableEq M]
    (h : (TimedNetwork.lts (program (S := S)) 0).Reach (InTime lo hi) w)
    : Regular w.node ∧ Lockstep w.node (undelivered w.untimed.net) ∧ Paced lo hi w := by
  suffices hboth : Regular w.node ∧ Paced lo hi w from ⟨hboth.1, lockstep_of_timed h, hboth.2⟩
  apply LTS.Reach.invariant (I := fun w => Regular w.node ∧ Paced lo hi w) _ _ h
  . rintro w rfl
    refine ⟨⟨?_, ?_⟩, .init (S := S)⟩
    . intro p reaction hreaction
      cases hreaction
    . exact fun _ => Nat.two_pow_pos 31
  . rintro w l w' hreach ⟨-, hpaced⟩ hst ⟨hreg, hout, hsettled⟩
    refine ⟨hreg, ?_⟩
    have hlock := lockstep_of_timed hreach
    cases hst with
    | @input p i node out hinput =>
      have hbatches := hreg.batches p
      dsimp only at hbatches
      rw [Function.update_self] at hbatches
      exact hpaced.input hlock hinput hbatches (hout _ _ rfl)
    | @receive p e reaction node out rest hnet hreceive =>
      rw [program, Option.some.injEq, Prod.mk.injEq] at hreceive
      obtain ⟨rfl, hmap⟩ := hreceive
      rw [List.map_eq_nil_iff.mp hmap.symm]
      exact hpaced.receive hlock hnet reaction
    | wait now hnow _ =>
      exact hpaced.wait hlock hreg.batches (hsettled rfl) hnow

/--
A process that has not got to the next round waits for a message, once all have sent those of its round.
-/
theorem exists_due (hlock : Lockstep w.node (undelivered w.untimed.net))
    (hsent : ∀ q, (w.node p).round < (w.node q).party.flushes)
    : ∃ x, x ∈ w.net ∧ x.1.msg.round = Int32.ofNat (w.node p).round := by
  by_contra hnone
  apply hlock.caughtUp p
  rw [(hlock.exchange.receives p).recvRound]
  apply hlock.exchange.complete_of_not_in_flight _ hsent
  intro e he hround
  obtain ⟨env, henv, rfl⟩ := Multiset.mem_map.mp he
  obtain ⟨x, hx, rfl⟩ := Multiset.mem_map.mp (Multiset.mem_of_mem_filter henv)
  exact hnone ⟨x, hx, hround⟩

omit [Message N M] in
theorem exists_slowest (node : PID N → Node N M) (p : PID N)
    : ∃ q, ∀ p, (node q).round ≤ (node p).round := by
  obtain ⟨q, -, hq⟩ := Finset.exists_min_image Finset.univ (fun q => (node q).round) ⟨p, Finset.mem_univ p⟩
  exact ⟨q, fun p => hq p (Finset.mem_univ p)⟩

/--
The slowest process waits for a message that is due before the end of its round, and so does the clock.
-/
theorem Paced.now_le (h : Paced lo hi w) (hlock : Lockstep w.node (undelivered w.untimed.net))
    (hhi : 0 ≤ hi) (hdue : ∀ x, x ∈ w.net → w.now ≤ x.2) (p : PID N)
    : w.now ≤ ((w.node p).round + 1) * hi := by
  obtain ⟨q, hslowest⟩ := exists_slowest w.node p
  have hround : (((w.node q).round : Int) + 1) * hi ≤ ((w.node p).round + 1) * hi := by
    apply Int.mul_le_mul_of_nonneg_right _ hhi
    have := hslowest p
    omega
  apply Int.le_trans _ hround
  by_cases hsent : ∀ p, (w.node q).round < (w.node p).party.flushes
  . obtain ⟨x, hx, hxround⟩ := exists_due hlock hsent
    obtain ⟨k, hk, hk31, -, hle⟩ := h.due x hx
    have hq31 : (w.node q).round < 2 ^ 31 := hlock.exchange.startRounds_lt q
    rw [hxround] at hk
    have heq := (Int32.ofNat_inj_of_lt hq31 hk31).mp hk
    rw [heq]
    exact Int.le_trans (hdue x hx) hle
  . obtain ⟨p', hp'⟩ := not_forall.mp hsent
    have hown := hlock.exchange.startRounds_le_flushes p' p'
    change (w.node p').round ≤ _ at hown
    have hwaits := h.waits p' (by have := hslowest p'; omega)
    have heq : (w.node p').round = (w.node q).round := by
      have := hslowest p'
      omega
    rw [heq] at hwaits
    rw [Int.add_mul, Int.one_mul]
    omega

section Simulation

variable [DecidableEq M] {s : NekoSimSystem N (Node N M) (Round M)}

theorem program_process : (process (S := S)).program transmit = program (N := N) (M := M) := by
  unfold NekoProcess.program process program
  congr 1
  . funext me i node
    cases i with
    | preStart reaction =>
      dsimp only
      split
      . rfl
      . rfl
    | handOver => rfl
    | signal ie => rfl

theorem inTime_of_meets {s' : NekoSimSystem N (Node N M) (Round M)}
    {a : NekoSimSystem.Action N (Input S M) (List M) (Round M)}
    (h : Meets (NekoSimSystem.Regular Network.clique) process Network.clique s a
      ∧ Meets (fun _ a => DelaysWithin lo hi a) process Network.clique s a
      ∧ Regular s'.processes
      ∧ (a = .kernel .executeNext → ∀ p, (s.processes p).Settled))
    : Meets (NekoSimSystem.Regular Network.clique) process Network.clique s a
      ∧ ∀ l, Timed process Network.clique s a l → InTime lo hi s.timedWorld l s'.timedWorld := by
  obtain ⟨hmeets, hdelays, hreg, hsettled⟩ := h
  refine ⟨hmeets, ?_⟩
  intro l hl
  refine ⟨hreg, ?_, ?_⟩
  . rintro b out rfl
    exact hl.within hdelays
  . rintro rfl
    exact hsettled hl.eq_executeNext

/--
Rounds in simulated time: when all messages take between `lo` and `hi` and the clients react before the
clock advances, the clock value is between the number of the round of any process times `lo` and the
next number times `hi`. The simulation does not come to an end.
-/
theorem inPace_of_simulation (hlo : 0 ≤ lo) (hle : lo ≤ hi)
    (h : (NekoSimSystem.lts (process (S := S)) Network.clique).Reach (fun s a s' =>
      Meets (NekoSimSystem.Regular Network.clique) process Network.clique s a
        ∧ Meets (fun _ a => DelaysWithin lo hi a) process Network.clique s a
        ∧ Regular s'.processes
        ∧ (a = .kernel .executeNext → ∀ p, (s.processes p).Settled)) s) (p : PID N)
    : (s.processes p).round * lo ≤ s.network.run.sched.currentTime.toInt
      ∧ s.network.run.sched.currentTime.toInt ≤ ((s.processes p).round + 1) * hi
      ∧ ((∀ q, (s.processes q).Settled) → ¬ Idle s) := by
  have hworld : (TimedNetwork.lts (program (S := S)) 0).Reach (InTime lo hi) s.timedWorld := by
    rw [← program_process, ← NekoProcess.emit_clique (fun _ => rfl)]
    exact NekoSimSystem.timedWorld_reach (h.mono (fun _ _ _ => inTime_of_meets))
  obtain ⟨hreg, hlock, hpaced⟩ := paced_of_reach hworld
  have hdue := TimedNetwork.not_overdue (hworld.mono (by
    rintro w l w' ⟨-, hout, -⟩ a out heq x hx
    have := (hout a out heq x hx).1
    omega))
  refine ⟨hpaced.reached p, hpaced.now_le hlock (Int.le_trans hlo hle) hdue p, ?_⟩
  intro hsettled hidle
  have hempty := hidle.net_eq_zero (h.mono (fun _ _ _ hok => hok.1))
  rw [← NekoSimSystem.untimed_timedWorld] at hempty
  obtain ⟨q, hslowest⟩ := exists_slowest s.processes p
  obtain ⟨x, hx, -⟩ := exists_due (w := s.timedWorld) (p := q) hlock (by
    intro p
    exact Nat.lt_of_le_of_lt (hslowest p) (hlock.lt_flushes (hreg.batches p) (hsettled p)))
  have hzero : s.timedWorld.net = 0 := Multiset.map_eq_zero.mp hempty
  rw [hzero] at hx
  exact Multiset.notMem_zero x hx

end Simulation

section Pair

/-!
Two processes that send to both of them in every round, where all messages take 2.
-/

attribute [local instance] PID.twoProcesses

abbrev Packet := Round (AppMessage 2 Unit)

def firstSent (p : PID 2) (id : TaskID) : Sent 2 Packet :=
  ⟨⟨toAll p, 0⟩, 0, fun _ _ => some 2, fun q => if q = 0 then id else id + 1⟩

def task (p : PID 2) (id : TaskID) (q : PID 2) : Stamped (Job 2 Packet) :=
  (firstSent p id).stamped p (⟨q, (firstSent p id).msg⟩, 2)

def draws (id : TaskID) : Nat → Draw 2 Packet :=
  fun _ => ⟨fun _ _ => some 2, fun q => if q = 0 then id else id + 1⟩

def begun (p : PID 2) : PairNode := ({} : PairNode).preStart [toAll p]

def sentFirst (p : PID 2) : PairNode := (((begun p).handOver Unit p).map Prod.fst).getD (begun p)

def ready : PID 2 → PairNode :=
  Function.update (Function.update (Function.update (Function.update (fun _ => {}) 0 (begun 0)) 1 (begun 1))
    0 (sentFirst 0)) 1 (sentFirst 1)

def heard (p q : PID 2) (node : PID 2 → PairNode) : PID 2 → PairNode :=
  Function.update node q ((node q).onReceive ⟨toAll p, 0⟩ [toAll q])

def tasks : List (Stamped (Job 2 Packet)) := [task 0 0 0, task 0 0 1, task 1 2 0, task 1 2 1]

abbrev PairSystem := NekoSimSystem 2 PairNode Packet

abbrev pairProcess : NekoProcess 2 PairNode (Input Unit (AppMessage 2 Unit)) (List (AppMessage 2 Unit))
    Unit Packet :=
  process

abbrev PairStep (s : PairSystem)
    (a : NekoSimSystem.Action 2 (Input Unit (AppMessage 2 Unit)) (List (AppMessage 2 Unit)) Packet)
    (s' : PairSystem) : Prop :=
  Meets (NekoSimSystem.Regular Network.clique) pairProcess Network.clique s a
    ∧ Meets (fun _ a => DelaysWithin 2 2 a) pairProcess Network.clique s a
    ∧ Regular s'.processes
    ∧ (a = .kernel .executeNext → ∀ p, (s.processes p).Settled)

def waiting : PairSystem :=
  ⟨ready, ⟨{ sched := ⟨tasks, 0⟩, scheduled := tasks }, [firstSent 0 0, firstSent 1 2]⟩⟩

def delivering (node : PID 2 → PairNode) (batch : List (Stamped (Job 2 Packet)))
    (executed : List (Time × Stamped (Job 2 Packet)))
    : PairSystem :=
  ⟨node, ⟨{ sched := ⟨[], 2⟩, batch, scheduled := tasks, executed }, [firstSent 0 0, firstSent 1 2]⟩⟩

-- The first process has received both messages, and the second one its own has still to come.
def advanced : PairSystem :=
  delivering (heard 1 0 (heard 0 1 (heard 0 0 ready))) [task 1 2 1]
    [(2, task 0 0 0), (2, task 0 0 1), (2, task 1 2 0)]

theorem waiting_reach : (NekoSimSystem.lts pairProcess Network.clique).Reach PairStep waiting := by
  have h0 : (NekoSimSystem.lts pairProcess Network.clique).Reach PairStep
      (NekoSimSystem.initial pairProcess) := .init rfl
  have h1 : (NekoSimSystem.lts pairProcess Network.clique).Reach PairStep
      ⟨Function.update pairProcess.init 0 (begun 0), {}⟩ :=
    h0.next (.input 0 (.preStart [toAll 0]) (draws 0)) rfl ⟨by
      rintro _ _ ⟨⟩
      trivial, by
      rintro _ _ ⟨⟩
      trivial, regular_pair (by decide) (by decide), nofun⟩
  have h2 : (NekoSimSystem.lts pairProcess Network.clique).Reach PairStep
      ⟨Function.update (Function.update pairProcess.init 0 (begun 0)) 1 (begun 1), {}⟩ :=
    h1.next (.input 1 (.preStart [toAll 1]) (draws 0)) rfl ⟨by
      rintro _ _ ⟨⟩
      trivial, by
      rintro _ _ ⟨⟩
      trivial, regular_pair (by decide) (by decide), nofun⟩
  have h3 : (NekoSimSystem.lts pairProcess Network.clique).Reach PairStep
      ⟨Function.update (Function.update (Function.update pairProcess.init 0 (begun 0)) 1 (begun 1)) 0
          (sentFirst 0),
        ⟨{ sched := ⟨[task 0 0 0, task 0 0 1], 0⟩, scheduled := [task 0 0 0, task 0 0 1] },
          [firstSent 0 0]⟩⟩ :=
    h2.next (.input 0 .handOver (draws 0)) rfl ⟨by
      rintro _ _ ⟨⟩
      exact ⟨.of_send ⟨⟨by decide, by decide⟩, by decide⟩ (fun _ _ => rfl), trivial⟩, by
      rintro _ _ ⟨⟩
      exact ⟨by rintro _ _ _ ⟨⟩; decide, trivial⟩, regular_pair (by decide) (by decide), nofun⟩
  exact h3.next (.input 1 .handOver (draws 2)) rfl ⟨by
      rintro _ _ ⟨⟩
      exact ⟨.of_send ⟨⟨by decide, by decide⟩, by decide⟩ (fun _ _ => rfl), trivial⟩, by
      rintro _ _ ⟨⟩
      exact ⟨by rintro _ _ _ ⟨⟩; decide, trivial⟩, regular_pair (by decide) (by decide), nofun⟩

theorem deliver_toAll
    : ∀ p q, Network.deliver (⟨q, ⟨toAll p, 0⟩⟩ : Envelope (PID 2) Packet) = some ⟨toAll p, 0⟩ := by
  decide

-- One delivery, up to the next one.
theorem delivering_path {node : PID 2 → PairNode} {batch : List (Stamped (Job 2 Packet))}
    {executed : List (Time × Stamped (Job 2 Packet))} (p q : PID 2) (id : TaskID)
    (hreg : Regular (heard p q node))
    : (NekoSimSystem.lts pairProcess Network.clique).Path PairStep
        (delivering node (task p id q :: batch) executed)
        (delivering (heard p q node) batch (executed ++ [(2, task p id q)])) := by
  have haddressed := deliver_toAll p q
  have hstep : (delivering node (task p id q :: batch) executed).step pairProcess Network.clique
      (.deliver [toAll q] (draws 4))
      = some ⟨heard p q node,
        ⟨{ sched := ⟨[], 2⟩
           batch
           running := some (task p id q)
           scheduled := tasks
           executed := executed ++ [(2, task p id q)] }, [firstSent 0 0, firstSent 1 2]⟩⟩ :=
    (NekoSimSystem.step_of_deliver ⟨q, ⟨toAll p, 0⟩⟩ (by rfl) haddressed (by rfl) (by rfl)).trans rfl
  have hdeliver : (NekoSimSystem.lts pairProcess Network.clique).Path PairStep
      (delivering node (task p id q :: batch) executed) _ :=
    .single (.deliver [toAll q] (draws 4)) hstep
      ⟨.of_deliver ⟨q, ⟨toAll p, 0⟩⟩ rfl haddressed rfl rfl trivial,
        .of_deliver ⟨q, ⟨toAll p, 0⟩⟩ rfl haddressed rfl rfl trivial, hreg, nofun⟩
  exact hdeliver.next (.kernel (.finish false)) rfl ⟨.of_finish, trivial, hreg, nofun⟩

theorem advanced_path : (NekoSimSystem.lts pairProcess Network.clique).Path PairStep waiting advanced := by
  have hexecute : (NekoSimSystem.lts pairProcess Network.clique).Path PairStep waiting
      (delivering ready tasks []) :=
    .single (.kernel .executeNext) rfl
      ⟨.of_room (by decide), trivial, regular_pair (by decide) (by decide), fun _ => by decide⟩
  have hfirst := hexecute.trans (delivering_path 0 0 0 (regular_pair (by decide) (by decide)))
  have hsecond := hfirst.trans (delivering_path 0 1 0 (regular_pair (by decide) (by decide)))
  exact hsecond.trans (delivering_path 1 0 2 (regular_pair (by decide) (by decide)))

theorem inPace_of_simulation_pair
    : ((NekoSimSystem.lts pairProcess Network.clique).Reach PairStep waiting
          ∧ (∀ p, (waiting.processes p).Settled) ∧ ¬ Idle waiting)
        ∧ (NekoSimSystem.lts pairProcess Network.clique).Reach PairStep advanced
        ∧ (advanced.processes 0).round = 1 ∧ (advanced.processes 1).round = 0
        ∧ advanced.network.run.sched.currentTime = 2
        ∧ ∀ p, (advanced.processes p).round * 2 ≤ advanced.network.run.sched.currentTime.toInt
          ∧ advanced.network.run.sched.currentTime.toInt ≤ ((advanced.processes p).round + 1) * 2 := by
  have hadvanced := advanced_path.reach waiting_reach
  refine ⟨⟨waiting_reach, by decide, ?_⟩, hadvanced, by decide, by decide, rfl, ?_⟩
  . exact (inPace_of_simulation (by decide) (by decide) waiting_reach 0).2.2 (by decide)
  . intro p
    have hpace := inPace_of_simulation (by decide) (by decide) hadvanced p
    exact ⟨hpace.1, hpace.2.1⟩

end Pair

end RoundBased
