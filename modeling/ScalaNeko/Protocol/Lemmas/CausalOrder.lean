import ScalaNeko.Lib.Causality.Logged
import ScalaNeko.NekoSimSystem.TotalOrder
import ScalaNeko.Protocol.Impl.ClockStack
import ScalaNeko.Protocol.Lemmas.VectorClock

/-!
With a `ConstantSimNetwork`, no message is received before another one that caused it, and vector
clocks tell which these are.
-/

open AsyncNetwork (Envelope)
open Causality (EventId History Scheme Logged)
open Kernel (Time)
open LogNetwork (Post)

namespace LogicalClock

variable {N : Nat} {S M W σ T τ : Type} {C : LogicalClock N S M W σ T}
  {R : Scheme (PID N) τ} {rep : T → τ → Prop} {fits : τ → Prop}
  {w w' : LogNetwork.World (PID N) (Node N σ T) (Sent N W)}

-- Everything that has been sent, as if all of it were still in flight.
def ofLog (w : LogNetwork.World (PID N) (Node N σ T) (Sent N W))
    : AsyncNetwork.World (PID N) (Node N σ T) (Sent N W) where
  node := w.node
  net := ↑(w.log.map (fun post => (⟨post.msg.sentBy.proc, post.msg⟩ : Envelope (PID N) (Sent N W))))

def writers (w : LogNetwork.World (PID N) (Node N σ T) (Sent N W)) : List (EventId (PID N)) :=
  w.log.map (fun post => post.msg.sentBy)

theorem mem_ofLog {env : Envelope (PID N) (Sent N W)}
    : env ∈ (ofLog w).net ↔ ∃ post, post ∈ w.log ∧ ⟨post.msg.sentBy.proc, post.msg⟩ = env := by
  unfold ofLog
  rw [Multiset.mem_coe, List.mem_map]

/--
What a step does: one event of one process, which appends at most one message to the log.
-/
structure Records (C : LogicalClock N S M W σ T) (w w' : LogNetwork.World (PID N) (Node N σ T) (Sent N W))
    (p : PID N) (clock : σ) (src : Option (EventId (PID N))) (new : List (Post (PID N) (Sent N W)))
    : Prop where
  node : w'.node = Function.update w.node p ((w.node p).record C clock src)
  log : w'.log = w.log ++ new
  length : new.length ≤ 1
  written : ∀ post, post ∈ new → post.msg.sentBy = ⟨p, (w.node p).log.length⟩
    ∧ C.timestamp post.msg.wrapped = C.time clock

structure Stamped (C : LogicalClock N S M W σ T) (R : Scheme (PID N) τ) (rep : T → τ → Prop)
    (w : LogNetwork.World (PID N) (Node N σ T) (Sent N W)) (cur : PID N → τ)
    (stamp : EventId (PID N) → τ) (after : EventId (PID N) → Nat)
    : Prop where
  linked : Linked C R rep (ofLog w) cur stamp
  logged : Logged (history (ofLog w)) (writers w) after

theorem Stamped.record {cur : PID N → τ} {stamp : EventId (PID N) → τ} {after : EventId (PID N) → Nat}
    (hs : Stamped C R rep w cur stamp after) {p : PID N} {clock : σ} {src : Option (EventId (PID N))}
    {new : List (Post (PID N) (Sent N W))} (hrecords : Records C w w' p clock src new)
    (hsrc : ∀ d, src = some d → d ∈ (history (ofLog w)).events)
    (hclock : rep (C.time clock) (R.advance p (cur p) stamp src))
    : ∃ cur stamp after, Stamped C R rep w' cur stamp after := by
  have hnode : (ofLog w').node = Function.update (ofLog w).node p (((ofLog w).node p).record C clock src) :=
    hrecords.node
  have hnet : ∀ env, env ∈ (ofLog w').net → env ∈ (ofLog w).net
      ∨ (env.msg.sentBy = (history (ofLog w)).next p ∧ C.timestamp env.msg.wrapped = C.time clock) := by
    intro env henv
    obtain ⟨post, hpost, rfl⟩ := mem_ofLog.mp henv
    rw [hrecords.log] at hpost
    rcases List.mem_append.mp hpost with hpost | hpost
    . exact .inl (mem_ofLog.mpr ⟨post, hpost, rfl⟩)
    . exact .inr (hrecords.written post hpost)
  have hwriters : writers w' = writers w ++ new.map (fun post => post.msg.sentBy) := by
    unfold writers
    rw [hrecords.log, List.map_append]
  have hnew : ∀ e, e ∈ new.map (fun post => post.msg.sentBy) → e = (history (ofLog w)).next p := by
    intro e he
    obtain ⟨post, hpost, rfl⟩ := List.mem_map.mp he
    exact (hrecords.written post hpost).1
  have hlogged := hs.logged.snoc hs.linked.comp.closed hsrc hnew (by
    rw [List.length_map]
    exact hrecords.length)
  rw [← hwriters, ← history_record hnode] at hlogged
  exact ⟨_, _, _, hs.linked.record hnode hsrc hclock hnet, hlogged⟩

section Step

variable [Message N W] {neighborsFor : PID N → Option (Finset (PID N))}

theorem mem_posts {sends : List (Event S (Sent N W))} {post : Post (PID N) (Sent N W)}
    (h : post ∈ NekoProcess.posts neighborsFor sends)
    : .message post.msg ∈ sends := by
  induction sends with
  | nil => cases h
  | cons e sends ih =>
    cases e with
    | signal ie => exact List.mem_cons_of_mem _ (ih h)
    | message m =>
      rcases List.mem_cons.mp h with rfl | h
      . exact List.mem_cons_self
      . exact List.mem_cons_of_mem _ (ih h)

theorem length_posts_le (sends : List (Event S (Sent N W)))
    : (NekoProcess.posts neighborsFor sends).length ≤ sends.length := by
  induction sends with
  | nil => exact Nat.le_refl 0
  | cons e sends ih =>
    cases e with
    | signal ie => exact Nat.le_succ_of_le ih
    | message m => exact Nat.succ_le_succ ih

theorem Stamped.init (hrep : Represents C R rep fits)
    : Stamped C R rep (LogNetwork.initWorld (C.process.logProgram neighborsFor)) (fun _ => R.zero)
        (fun _ => R.zero) (fun _ => 0) where
  linked := Linked.init hrep
  logged := Logged.empty

/--
Every step of the processes is such an event.
-/
theorem exists_records (hrep : Represents C R rep fits)
    (hone : ∀ p s e, (C.onSend p s e).2.length ≤ 1) {cur : PID N → τ} {stamp : EventId (PID N) → τ}
    {after : EventId (PID N) → Nat} (hs : Stamped C R rep w cur stamp after)
    {a : AsyncNetwork.Action (PID N) (Input S M) Unit (Sent N W)}
    (hst : LogNetwork.Step (C.process.logProgram neighborsFor) w a w')
    : ∃ p clock src new, Records C w w' p clock src new
        ∧ (∀ d, src = some d → d ∈ (history (ofLog w)).events)
        ∧ (fits (R.advance p (cur p) stamp src) → rep (C.time clock) (R.advance p (cur p) stamp src)) := by
  cases hst with
  | @input p i s posts h =>
    cases i with
    | internal =>
      cases h
      refine ⟨p, _, none, [], ⟨rfl, rfl, Nat.zero_le _, nofun⟩, nofun, ?_⟩
      exact hrep.internal p _ _ (hs.linked.clock p)
    | send e =>
      cases h
      refine ⟨p, _, none, _, ⟨rfl, rfl, ?_, ?_⟩, nofun, ?_⟩
      . apply (length_posts_le _).trans
        rw [List.length_map]
        exact hone p _ e
      . intro post hpost
        obtain ⟨ev, hev, htag⟩ := List.mem_map.mp (mem_posts hpost)
        cases ev with
        | signal ie => cases htag
        | message m =>
          rw [tag, Event.message.injEq] at htag
          rw [← htag]
          exact ⟨rfl, hrep.timestamp p _ e m hev⟩
      . exact hrep.onSend p _ e _ (hs.linked.clock p)
  | @receive p m n k s posts hget h =>
    cases h
    obtain ⟨post, hpost, rfl, -⟩ := LogNetwork.mem_inbox.mp (List.mem_of_getElem? hget)
    obtain ⟨hmem, htime⟩ := hs.linked.net _ (mem_ofLog.mpr ⟨post, List.mem_of_getElem? hpost, rfl⟩)
    refine ⟨p, _, some post.msg.sentBy, [], ⟨rfl, rfl, Nat.zero_le _, nofun⟩, ?_, ?_⟩
    . rintro d ⟨⟩
      exact hmem
    . intro hfits
      obtain ⟨t, ht, hrept⟩ := hs.linked.times _ hmem
      rw [htime, Option.some.injEq] at ht
      rw [← ht] at hrept
      exact hrep.onReceive p _ post.msg.wrapped _ _ (hs.linked.clock p) hrept hfits

end Step

end LogicalClock

namespace VectorClock

open LogicalClock
open Causality (vectorScheme)
open DelaySimNetwork (Receipt)
open NekoSimSystem (Meets Performs logWorld)
open Network (Eligible)

variable {N : Nat} {S M : Type}

theorem pair_sublist {l : List Nat} (hl : l.Pairwise (· < ·)) {a b : Nat} (ha : a ∈ l) (hb : b ∈ l)
    (hlt : a < b)
    : [a, b].Sublist l := by
  have hpair : [a, b].Pairwise (· < ·) := List.pairwise_pair.mpr hlt
  apply List.sublist_of_subperm_of_pairwise _ hpair hl
  apply List.subperm_of_subset (hpair.imp Nat.ne_of_lt)
  intro c hc
  rcases List.mem_pair.mp hc with rfl | rfl
  . exact ha
  . exact hb

theorem times_of_stamped {w : LogNetwork.World (PID N) (Node N (VectorClock N) (PID N → Int64))
      (LogicalClock.Sent N (VCTimeStamped N M))} {cur : PID N → PID N → Nat}
    {stamp : EventId (PID N) → PID N → Nat} {after : EventId (PID N) → Nat}
    (hs : Stamped (protocol N S M) (vectorScheme (PID N)) (fun t v => ∀ j, (t j).toInt = v j) w cur stamp after)
    {n₁ n₂ : Nat} {post₁ post₂ : Post (PID N) (LogicalClock.Sent N (VCTimeStamped N M))}
    (h₁ : w.log[n₁]? = some post₁) (h₂ : w.log[n₂]? = some post₂) (hne : n₁ ≠ n₂)
    : (∀ j, post₁.msg.wrapped.ts j ≤ post₂.msg.wrapped.ts j)
      ↔ (history (ofLog w)).HappensBefore post₁.msg.sentBy post₂.msg.sentBy := by
  have hentry : ∀ n post, w.log[n]? = some post →
      post.msg.sentBy ∈ (history (ofLog w)).events ∧ after post.msg.sentBy = n + 1
        ∧ ∀ j, (post.msg.wrapped.ts j).toInt = (stamp post.msg.sentBy j : Int) := by
    intro n post hget
    have hwriter : (writers w)[n]? = some post.msg.sentBy := by
      rw [writers, List.getElem?_map, hget]
      rfl
    obtain ⟨hmem, hafter⟩ := hs.logged.entry n _ hwriter
    obtain ⟨-, htime⟩ := hs.linked.net _ (mem_ofLog.mpr ⟨post, List.mem_of_getElem? hget, rfl⟩)
    obtain ⟨t, ht, hrep⟩ := hs.linked.times _ hmem
    rw [htime, Option.some.injEq] at ht
    rw [← ht] at hrep
    exact ⟨hmem, hafter, hrep⟩
  obtain ⟨hmem₁, hafter₁, hts₁⟩ := hentry n₁ post₁ h₁
  obtain ⟨hmem₂, hafter₂, hts₂⟩ := hentry n₂ post₂ h₂
  have hevent : post₁.msg.sentBy ≠ post₂.msg.sentBy := by
    intro heq
    rw [← heq, hafter₁] at hafter₂
    omega
  rw [← Causality.stamp_le_iff_happensBefore hs.linked.comp hmem₁ hmem₂ hevent]
  apply forall_congr'
  intro j
  rw [Int64.le_iff_toInt_le, hts₁ j, hts₂ j]
  exact Int.ofNat_le

variable [Message N M] {neighborsFor : PID N → Option (Finset (PID N))}

theorem exists_stamped {w : LogNetwork.World (PID N) (Node N (VectorClock N) (PID N → Int64))
      (LogicalClock.Sent N (VCTimeStamped N M))}
    (h : (LogNetwork.lts ((protocol N S M).process.logProgram neighborsFor)).Reach
      (fun _ _ w => FewEvents (ofLog w)) w)
    : ∃ cur stamp after, Stamped (protocol N S M) (vectorScheme (PID N))
        (fun t v => ∀ j, (t j).toInt = v j) w cur stamp after := by
  apply LTS.Reach.invariant _ _ h
  . rintro w rfl
    exact ⟨_, _, _, Stamped.init represents⟩
  . rintro w a w' - ⟨cur, stamp, after, hs⟩ hst hfew
    have hone : ∀ (p : PID N) (clock : VectorClock N) (e : Event S M),
        ((protocol N S M).onSend p clock e).2.length ≤ 1 := by
      intro p clock e
      cases e with
      | signal ie => exact Nat.le_refl 1
      | message m => exact Nat.le_refl 1
    obtain ⟨p, clock, src, new, hrecords, hsrc, hclock⟩ := exists_records represents hone hs hst
    have hhist : history (ofLog w') = (history (ofLog w)).snoc p src := history_record hrecords.node
    apply hs.record hrecords hsrc
    apply hclock
    -- a component never exceeds the number of events of its process
    intro j
    have hcomp := hs.linked.comp.event (p := p) hsrc
    have hle := (Causality.vectorInv_of_computation hcomp).stamp_self_le (p := j) hcomp
      (History.mem_events_snoc.mpr (.inr rfl))
    rw [Function.update_self, ← hhist] at hle
    exact Nat.lt_of_le_of_lt hle (hfew j)

abbrev System (N : Nat) (M : Type) :=
  NekoSimSystem N (Node N (VectorClock N) (PID N → Int64)) (LogicalClock.Sent N (VCTimeStamped N M))

abbrev HandOver (N : Nat) (M : Type) := DelaySimNetwork.Sent N (LogicalClock.Sent N (VCTimeStamped N M))

-- The numbers of the messages that the receiver of `q` has got.
def receivedBy (s : System N M) (q : PID N) : List Nat := (s.network.received q).map Receipt.sent

/--
What the timestamps say about the messages that have been sent, and in which order they are received.
-/
structure CausalDelivery (neighborsFor : PID N → Option (Finset (PID N))) (s : System N M) : Prop where
  times : ∀ (n₁ n₂ : Nat) (x₁ x₂ : HandOver N M), n₁ ≠ n₂ →
    s.network.sends[n₁]? = some x₁ → s.network.sends[n₂]? = some x₂ →
    ((∀ j, x₁.msg.wrapped.ts j ≤ x₂.msg.wrapped.ts j)
      ↔ (history s.world).HappensBefore x₁.msg.sentBy x₂.msg.sentBy)
  causal : ∀ (n₁ n₂ : Nat) (x₁ x₂ : HandOver N M), n₁ ≠ n₂ →
    s.network.sends[n₁]? = some x₁ → s.network.sends[n₂]? = some x₂ →
    (history s.world).HappensBefore x₁.msg.sentBy x₂.msg.sentBy →
    ∀ q, Eligible neighborsFor x₁.msg q → n₂ ∈ receivedBy s q → [n₁, n₂].Sublist (receivedBy s q)
  total : ∀ q q' n₁ n₂, [n₁, n₂].Sublist (receivedBy s q) → n₁ ∈ receivedBy s q' → n₂ ∈ receivedBy s q' →
    [n₁, n₂].Sublist (receivedBy s q')

theorem history_logWorld (neighborsFor : PID N → Option (Finset (PID N))) (s : System N M)
    : history (ofLog (logWorld neighborsFor s)) = history s.world := by
  unfold history ofLog logWorld NekoSimSystem.world
  rfl

theorem fewEvents_logWorld (neighborsFor : PID N → Option (Finset (PID N))) (s : System N M)
    : FewEvents (ofLog (logWorld neighborsFor s)) ↔ FewEvents s.world := by
  unfold FewEvents ofLog logWorld NekoSimSystem.world
  rfl

theorem log_get {s : System N M} {n : Nat} {x : HandOver N M} (hx : s.network.sends[n]? = some x)
    : (logWorld neighborsFor s).log[n]? = some (NekoProcess.post neighborsFor x.msg) := by
  show (s.network.sends.map _)[n]? = _
  rw [List.getElem?_map, hx]
  rfl

theorem receivedBy_eq {lambda : Time} {s : System N M}
    (h : (DelaySimNetwork.SimRun.lts S neighborsFor).Reach
      (fun s a _ => ConstantSimNetwork.Regular neighborsFor lambda s a) s.network) (q : PID N)
    : ((logWorld neighborsFor s).received q).map Prod.snd = receivedBy s q := by
  rw [NekoSimSystem.received_logWorld h, List.map_map]
  rfl

theorem causalOrder_of_simulation {lambda : Time} {s : System N M}
    (h : (NekoSimSystem.lts (protocol N S M).process neighborsFor).Reach (fun s a s' =>
      Meets (ConstantSimNetwork.Regular neighborsFor lambda) (protocol N S M).process neighborsFor s a
        ∧ FewEvents s'.world) s)
    : CausalDelivery neighborsFor s := by
  have hnetwork := NekoSimSystem.network_reach (fun _ => NekoSimSystem.constant_call)
    (h.mono (fun _ _ _ hok => hok.1))
  have hlog : (LogNetwork.lts ((protocol N S M).process.logProgram neighborsFor)).Reach
      (fun _ _ w => FewEvents (ofLog w)) (logWorld neighborsFor s) := by
    apply NekoSimSystem.logWorld_reach
    apply h.mono
    rintro s a s' ⟨hmeets, hfew⟩
    rw [← fewEvents_logWorld neighborsFor] at hfew
    exact ⟨hmeets, fun _ _ => hfew⟩
  obtain ⟨cur, stamp, after, hs⟩ := exists_stamped hlog
  have hreceived := receivedBy_eq hnetwork
  have hsorted : ∀ q, (receivedBy s q).Pairwise (· < ·) := by
    intro q
    rw [← hreceived]
    exact List.pairwise_map.mpr (LogNetwork.received_sorted _ q)
  constructor
  . intro n₁ n₂ x₁ x₂ hne h₁ h₂
    rw [← history_logWorld neighborsFor]
    have htimes := times_of_stamped hs (log_get h₁) (log_get h₂) hne
    exact htimes
  . intro n₁ n₂ x₁ x₂ hne h₁ h₂ hb q heligible hmem
    rw [← history_logWorld neighborsFor] at hb
    have hlt : n₁ < n₂ := by
      apply hs.logged.lt_of_happensBefore hs.linked.comp.closed _ _ hne hb
      . rw [writers, List.getElem?_map, log_get h₁]
        rfl
      . rw [writers, List.getElem?_map, log_get h₂]
        rfl
    apply pair_sublist (hsorted q) _ hmem hlt
    rw [← hreceived] at hmem ⊢
    obtain ⟨⟨m, n⟩, hlater, rfl⟩ := List.mem_map.mp hmem
    have hearlier := LogNetwork.mem_received_of_lt hlater (log_get h₁)
      (NekoProcess.mem_post.mpr heligible) hlt
    exact List.mem_map_of_mem hearlier
  . intro q q' n₁ n₂ hsub h₁ h₂
    have hlt : n₁ < n₂ := List.pairwise_pair.mp ((hsorted q).sublist hsub)
    exact pair_sublist (hsorted q') h₁ h₂ hlt

section Relay

attribute [local instance] PID.threeProcesses

abbrev RelaySystem := System 3 (AppMessage 3 Unit)

abbrev RelayMessage := LogicalClock.Sent 3 (VCTimeStamped 3 (AppMessage 3 Unit))

abbrev relayProcess := (protocol 3 Unit (AppMessage 3 Unit)).process

abbrev RelayAction :=
  NekoSimSystem.Action 3 (LogicalClock.Input Unit (AppMessage 3 Unit)) Unit RelayMessage

def RelayStep (s : RelaySystem) (a : RelayAction) (s' : RelaySystem) : Prop :=
  Meets (ConstantSimNetwork.Regular Network.clique 0) relayProcess Network.clique s a ∧ FewEvents s'.world

def relayDraw (ids : PID 3 → Kernel.TaskID) : Nat → Draw 3 RelayMessage :=
  fun _ => ⟨ConstantSimNetwork.delayForMessage 0, ids⟩

def numbered (p : PID 3) : Kernel.TaskID := p.val

-- Process 0 sends to 1 and 2, and 1 then sends to 2.
def ask : RelayAction := .input 0 (.send (.message (.multicast 0 {1, 2} ()))) (relayDraw numbered)

def question : HandOver 3 (AppMessage 3 Unit) where
  msg := ⟨⟨.multicast 0 {1, 2} (), increment 0 (fun _ => 0)⟩, ⟨0, 0⟩⟩
  since := 0
  delayForMessage := ConstantSimNetwork.delayForMessage 0
  ids := numbered

def informed : PID 3 → Int64 := combine (increment 1 (fun _ => 0)) (increment 0 (fun _ => 0)) (fun x y => max x y)

def remark : HandOver 3 (AppMessage 3 Unit) where
  msg := ⟨⟨.unicast 1 2 (), increment 1 informed⟩, ⟨1, 1⟩⟩
  since := 1
  delayForMessage := ConstantSimNetwork.delayForMessage 0
  ids := fun _ => 3

abbrev RelayTask := Kernel.Stamped (DelaySimNetwork.Job 3 RelayMessage)

def toOne : RelayTask := question.stamped 0 (⟨1, question.msg⟩, 0)

def toTwo : RelayTask := question.stamped 0 (⟨2, question.msg⟩, 0)

def remarkToTwo : RelayTask := remark.stamped 1 (⟨2, remark.msg⟩, 0)

def asked : PID 3 → Node 3 (VectorClock 3) (PID 3 → Int64) :=
  Function.update (fun _ => ⟨{}, [], []⟩) 0
    ⟨⟨increment 0 (fun _ => 0)⟩, [none], [increment 0 (fun _ => 0)]⟩

def heard : PID 3 → Node 3 (VectorClock 3) (PID 3 → Int64) :=
  Function.update asked 1 ⟨⟨informed⟩, [some ⟨0, 0⟩], [informed]⟩

def remarked : PID 3 → Node 3 (VectorClock 3) (PID 3 → Int64) :=
  Function.update heard 1
    ⟨⟨increment 1 informed⟩, [some ⟨0, 0⟩, none], [informed, increment 1 informed]⟩

def heardTwice : PID 3 → Node 3 (VectorClock 3) (PID 3 → Int64) :=
  let vc := combine (increment 2 (fun _ => 0)) (increment 0 (fun _ => 0)) (fun x y => max x y)
  Function.update remarked 2 ⟨⟨vc⟩, [some ⟨0, 0⟩], [vc]⟩

theorem causalOrder_of_simulation_relay
    : ∃ s : RelaySystem, receivedBy s 2 = [0, 1] ∧ CausalDelivery Network.clique s := by
  have h0 : (NekoSimSystem.lts relayProcess Network.clique).Reach RelayStep
      (NekoSimSystem.initial relayProcess) := .init rfl
  have h1 : (NekoSimSystem.lts relayProcess Network.clique).Reach RelayStep
      ⟨asked, ⟨{ sched := ⟨[toOne, toTwo], 0⟩, scheduled := [toOne, toTwo] }, [question]⟩⟩ :=
    h0.next ask rfl ⟨by
      rintro _ _ ⟨⟩
      exact ⟨⟨⟨⟨by decide, by decide⟩, by decide⟩, by rintro _ _ _ ⟨⟩; rfl, by rintro _ _ _ ⟨⟩; decide⟩,
        trivial⟩, by decide⟩
  have h2 : (NekoSimSystem.lts relayProcess Network.clique).Reach RelayStep
      ⟨asked, ⟨{ sched := ⟨[], 1⟩, batch := [toOne, toTwo], scheduled := [toOne, toTwo] }, [question]⟩⟩ :=
    h1.next (.kernel .executeNext) rfl ⟨⟨⟨.of_room (by decide), nofun, nofun⟩, nofun, nofun⟩, by decide⟩
  have h3 : (NekoSimSystem.lts relayProcess Network.clique).Reach RelayStep
      ⟨heard, ⟨⟨⟨[], 1⟩, [toTwo], some toOne, [toOne, toTwo], [], [(1, toOne)]⟩, [question]⟩⟩ :=
    h2.next (.deliver () (relayDraw (fun _ => 0))) rfl ⟨by
      apply Meets.of_deliver ⟨1, question.msg⟩ rfl rfl rfl rfl
      trivial, by decide⟩
  have h4 : (NekoSimSystem.lts relayProcess Network.clique).Reach RelayStep
      ⟨remarked, ⟨⟨⟨[remarkToTwo], 1⟩, [toTwo], some toOne, [toOne, toTwo, remarkToTwo], [], [(1, toOne)]⟩,
        [question, remark]⟩⟩ :=
    h3.next (.input 1 (.send (.message (.unicast 1 2 ()))) (relayDraw (fun _ => 3))) rfl ⟨by
      rintro _ _ ⟨⟩
      exact ⟨⟨⟨⟨by decide, by decide⟩, by decide⟩, by rintro _ _ _ ⟨⟩; rfl, by rintro _ _ _ ⟨⟩; decide⟩,
        trivial⟩, by decide⟩
  have h5 := h4.next (.kernel (.finish false)) rfl ⟨⟨⟨.of_finish, nofun, nofun⟩, nofun, nofun⟩, by decide⟩
  have h6 : (NekoSimSystem.lts relayProcess Network.clique).Reach RelayStep
      ⟨heardTwice, ⟨⟨⟨[remarkToTwo], 1⟩, [], some toTwo, [toOne, toTwo, remarkToTwo],
        [], [(1, toOne), (1, toTwo)]⟩, [question, remark]⟩⟩ :=
    h5.next (.deliver () (relayDraw (fun _ => 0))) rfl ⟨by
      apply Meets.of_deliver ⟨2, question.msg⟩ rfl rfl rfl rfl
      trivial, by decide⟩
  have h7 := h6.next (.kernel (.finish false)) rfl ⟨⟨⟨.of_finish, nofun, nofun⟩, nofun, nofun⟩, by decide⟩
  have h8 := h7.next (.kernel .executeNext) rfl
    ⟨⟨⟨.of_room (by decide), nofun, nofun⟩, nofun, nofun⟩, by decide⟩
  have h9 := h8.next (.deliver () (relayDraw (fun _ => 0))) rfl ⟨by
    apply Meets.of_deliver ⟨2, remark.msg⟩ rfl rfl rfl rfl
    trivial, by decide⟩
  exact ⟨_, by decide, causalOrder_of_simulation h9⟩

end Relay

end VectorClock
