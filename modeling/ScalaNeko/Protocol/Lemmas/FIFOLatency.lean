import Mathlib.Algebra.Order.Group.Multiset
import ScalaNeko.Protocol.Lemmas.FIFOLayer

/-!
`FIFOChannel`s in simulated time: putting the messages back in order takes no longer than the slowest
message.
-/

open AsyncNetwork
open Message
open NekoSimSystem (Meets Regular DelaysWithin Timed)

namespace FIFOChannel

variable {N : Nat} {σ ι κ S M : Type} [Message N M]

section Numbers

variable {proc : NekoProcess N σ ι κ S M} {w w' : World (PID N) (Layered N σ M) (FIFOSequenced N M)}
  {a : Action (PID N) ι (Nat → κ) (FIFOSequenced N M)}
  {out : List (Envelope (PID N) (FIFOSequenced N M))}

theorem deliverAll_received {me : PID N} {ms : List M} {ks : Nat → κ} {s s' : Layered N σ M}
    {outs : List (Event S (FIFOSequenced N M))} (h : deliverAll proc me ms ks s = some (s', outs))
    : s'.fifo.received = s.fifo.received := by
  induction ms generalizing ks s outs with
  | nil =>
    cases h
    rfl
  | cons m ms ih =>
    simp only [deliverAll, Option.bind_eq_bind, Option.bind_eq_some_iff, Prod.exists, Option.pure_def,
      Option.some.injEq, Prod.mk.injEq] at h
    obtain ⟨state, sends, -, s₁, outs, hrest, rfl, -⟩ := h
    rw [ih hrest]
    exact (sendAll_kept sends).1

-- What arrives at the channel of `p`.
def arrived (p : PID N) : Action (PID N) ι (Nat → κ) (FIFOSequenced N M) → List (FIFOSequenced N M)
  | .input _ _ => []
  | .receive q e _ => if p = q then [e] else []

theorem received_step (hst : ((under proc).program transmit).Step w ⟨a, out⟩ w') (p : PID N)
    : (w'.node p).fifo.received = (w.node p).fifo.received ++ arrived p a := by
  cases hst with
  | @input q i s _ h =>
    simp only [NekoProcess.program, under, Option.map_eq_some_iff, Option.bind_eq_bind,
      Option.bind_eq_some_iff, Prod.exists, Option.pure_def, Option.some.injEq, Prod.mk.injEq] at h
    obtain ⟨_, _, ⟨state, sends, -, rfl, rfl⟩, rfl, -⟩ := h
    dsimp only [arrived]
    rw [List.append_nil]
    by_cases hp : p = q
    . subst hp
      rw [Function.update_self]
      exact (sendAll_kept sends).1
    . rw [Function.update_of_ne hp]
  | @receive q e ks s _ rest hnet h =>
    simp only [NekoProcess.program, under, Option.map_eq_some_iff, Prod.exists, Prod.mk.injEq] at h
    obtain ⟨_, outs, hdeliver, rfl, -⟩ := h
    dsimp only [arrived]
    by_cases hp : p = q
    . subst hp
      rw [Function.update_self, deliverAll_received hdeliver, if_pos rfl]
      rfl
    . rw [Function.update_of_ne hp, if_neg hp, List.append_nil]

theorem link_received (hst : ((under proc).program transmit).Step w ⟨a, out⟩ w') (p q : PID N)
    : (↑(link (below w') p q).received : Multiset (FIFOSequenced N M))
      = select p q a.taken + ↑(link (below w) p q).received := by
  unfold link below
  dsimp only
  rw [received_step hst, List.filter_append, ← Multiset.coe_add, Multiset.add_comm]
  congr 1
  cases a with
  | input r i => rfl
  | receive r e ks =>
    unfold select
    dsimp only [arrived, Action.taken]
    rw [Multiset.filter_singleton]
    by_cases hq : q = r
    . subst hq
      by_cases hp : fromPID e = p
      . simp [hp]
      . simp [hp]
    . simp [hq, Ne.symm hq]

-- The messages that do not arrive in the step keep the numbers that those before it do not use up.
theorem numbers_step (hst : ((under proc).program transmit).Step w ⟨a, out⟩ w') {p q : PID N}
    (hinv : (link (below w) p q).Inv p) (hinv' : (link (below w') p q).Inv p)
    : (select p q (Multiset.ofList out)).map number + Multiset.range (stream (below w) p q).length
      = Multiset.range (stream (below w') p q).length := by
  obtain ⟨_, rest, -, -, hnet, hnet'⟩ := hst.effect
  have hnumbers := hinv.numbers
  have hnumbers' := hinv'.numbers
  have hflight : (link (below w) p q).flight = select p q a.taken + select p q rest := by
    rw [← select_add, ← hnet]
    rfl
  have hflight' : (link (below w') p q).flight
      = select p q (Multiset.ofList out) + select p q rest := by
    rw [← select_add, ← hnet']
    rfl
  have hreceived := congrArg (Multiset.map number) (link_received hst p q)
  rw [Multiset.map_coe, Multiset.map_add, Multiset.map_coe] at hreceived
  rw [hflight, Multiset.map_add, add_right_comm, ← hreceived, add_comm] at hnumbers
  rw [hflight', Multiset.map_add, add_assoc, hnumbers] at hnumbers'
  exact hnumbers'

/--
What is sent gets a number that no message before has.
-/
theorem length_le_number (hinv : ∀ p q, (link (below w) p q).Inv p)
    (hinv' : ∀ p q, (link (below w') p q).Inv p)
    (hst : ((under proc).program transmit).Step w ⟨a, out⟩ w')
    {env : Envelope (PID N) (FIFOSequenced N M)} (henv : env ∈ out)
    : (stream (below w) (fromPID env.msg) env.dest).length ≤ number env.msg := by
  have hnumbers := numbers_step hst (hinv (fromPID env.msg) env.dest) (hinv' _ _)
  have hnodup := Multiset.nodup_range (stream (below w') (fromPID env.msg) env.dest).length
  rw [← hnumbers, Multiset.nodup_add] at hnodup
  have hmem : number env.msg
      ∈ (select (fromPID env.msg) env.dest (Multiset.ofList out)).map number := by
    apply Multiset.mem_map_of_mem
    apply Multiset.mem_map_of_mem
    exact Multiset.mem_filter.mpr ⟨henv, rfl, rfl⟩
  have hnot := Multiset.disjoint_left.mp hnodup.2.2 hmem
  rw [Multiset.mem_range, Nat.not_lt] at hnot
  exact hnot

end Numbers

section Latency

variable {proc : NekoProcess N σ ι κ S M}

abbrev TimedRun (N : Nat) (σ M : Type) := TimedNetwork.World (PID N) (Layered N σ M) (FIFOSequenced N M) Int

/--
What is known after `w₀` of the messages that were on the network then: they are due by `deadline`.
-/
structure Since (w₀ : TimedRun N σ M) (deadline : Int) (w : TimedRun N σ M) : Prop where
  sent : ∀ p q, stream (below w₀.untimed) p q <+: stream (below w.untimed) p q
  due : ∀ x, x ∈ w.net →
    number x.1.msg < (stream (below w₀.untimed) (fromPID x.1.msg) x.1.dest).length → x.2 ≤ deadline

abbrev timed (proc : NekoProcess N σ ι κ S M)
    : LTS (TimedRun N σ M) (TimedNetwork.Label (PID N) ι (Nat → κ) (FIFOSequenced N M) Int) :=
  TimedNetwork.lts ((under proc).program transmit) 0

/--
The messages take no longer than `hi`, and there are not too many.
-/
def InTime (hi : Int) (w : TimedRun N σ M)
    (l : TimedNetwork.Label (PID N) ι (Nat → κ) (FIFOSequenced N M) Int) (w' : TimedRun N σ M) : Prop :=
  FewMessages (below w'.untimed)
    ∧ ∀ a out, l = .act a out → ∀ x, x ∈ out → w.now ≤ x.2 ∧ x.2 ≤ w.now + hi

variable {hi deadline : Int} {w₀ w w' : TimedRun N σ M}

theorem layers_reach (hown : proc.Own) (h : (timed proc).Reach (InTime hi) w)
    : (program (S := S)).lts.Reach (fun _ _ w => FewMessages w) (below w.untimed)
      ∧ (FIFONetwork.lts (proc.fifoProgram transmit)).Reachable (above w.untimed) := by
  apply above_reach (fun _ => True) hown
  apply TimedNetwork.untimed_reach _ h
  intro w a out w' hok
  refine ⟨?_, hok.1⟩
  cases a with
  | input p i => trivial
  | receive p e ks => exact fun _ _ => trivial

-- The protocols above go on.
theorem above_path (hown : proc.Own) (hreach : (timed proc).Reach (InTime hi) w)
    (hp : (timed proc).Path (InTime hi) w w')
    : (FIFONetwork.lts (proc.fifoProgram transmit)).Path (fun _ _ _ => True) (above w.untimed)
        (above w'.untimed) := by
  apply LTS.Path.refine (fun w => above w.untimed) _ hreach hp
  intro w l w' hreach hst hok
  cases l with
  | wait =>
    cases hst
    exact .refl
  | act a out =>
    apply (layer_step (fun _ => True) hown (layers_reach hown hreach).1
      (TimedNetwork.untimed_step hst) hok.1 _).2
    cases a with
    | input p i => trivial
    | receive p e ks => exact fun _ _ => trivial

theorem Since.step (hown : proc.Own) (h : Since w₀ deadline w) (hreach : (timed proc).Reach (InTime hi) w)
    {l : TimedNetwork.Label (PID N) ι (Nat → κ) (FIFOSequenced N M) Int}
    (hst : (timed proc).step w l w') (hok : InTime hi w l w')
    : Since w₀ deadline w' := by
  have hinv := (inv_of_reach (layers_reach hown hreach).1).2
  have hinv' := (inv_of_reach (layers_reach hown (hreach.next l hst hok)).1).2
  cases l with
  | wait =>
    cases hst
    exact ⟨h.sent, h.due⟩
  | act a out =>
    have hstep := TimedNetwork.untimed_step hst
    have hgrows := FIFONetwork.sent_prefix (above_path hown hreach (.single _ hst hok))
    constructor
    . intro p q
      exact (h.sent p q).trans (hgrows p q)
    . have hnew : ∀ x, x ∈ out →
          number x.1.msg < (stream (below w₀.untimed) (fromPID x.1.msg) x.1.dest).length →
          x.2 ≤ deadline := by
        intro x hx hlt
        have hle := length_le_number hinv hinv' hstep (List.mem_map_of_mem hx)
        have hlen := (h.sent (fromPID x.1.msg) x.1.dest).length_le
        omega
      intro x hx
      cases hst with
      | input _ =>
        rcases Multiset.mem_add.mp hx with hx | hx
        . exact hnew x hx
        . exact h.due x hx
      | receive hnet _ =>
        rcases Multiset.mem_add.mp hx with hx | hx
        . exact hnew x hx
        . apply h.due
          rw [hnet]
          exact Multiset.mem_cons_of_mem hx

theorem Since.path (hown : proc.Own) (hreach : (timed proc).Reach (InTime hi) w) (h : Since w₀ deadline w)
    (hp : (timed proc).Path (InTime hi) w w')
    : Since w₀ deadline w' := by
  induction hp with
  | refl => exact h
  | tail hp hst hok ih => exact ih.step hown (hp.reach hreach) hst hok

/--
When all of the messages of a time before have arrived, all of them have been delivered.
-/
theorem Since.delivered (h : Since w₀ deadline w) (hinv : ∀ p q, (link (below w.untimed) p q).Inv p)
    (hdue : ∀ x, x ∈ w.net → deadline < x.2) (p q : PID N)
    : (above w₀.untimed).sent p q <+: (above w.untimed).received q p := by
  obtain ⟨next, buffer, -, -, hholds, hdelivered⟩ := (hinv p q).reassembly
  have hprefix : stream (below w₀.untimed) p q <+: stream (below w.untimed) p q := h.sent p q
  have hnone : ∀ e, e ∈ (link (below w.untimed) p q).flight →
      (stream (below w₀.untimed) p q).length ≤ number e := by
    intro e he
    obtain ⟨env, henv, rfl⟩ := Multiset.mem_map.mp he
    obtain ⟨hnet, rfl, rfl⟩ := Multiset.mem_filter.mp henv
    obtain ⟨x, hx, rfl⟩ := Multiset.mem_map.mp hnet
    by_contra hlt
    have hle := h.due x hx (Nat.lt_of_not_le hlt)
    have hgt := hdue x hx
    omega
  have hnext : (stream (below w₀.untimed) p q).length ≤ next := by
    by_contra hlt
    have hmem : next ∈ Multiset.range (link (below w.untimed) p q).stream.length := by
      rw [Multiset.mem_range]
      exact Nat.lt_of_lt_of_le (Nat.lt_of_not_le hlt) hprefix.length_le
    rw [← (hinv p q).numbers, Multiset.mem_add] at hmem
    rcases hmem with hmem | hmem
    . obtain ⟨e, he, rfl⟩ := Multiset.mem_map.mp hmem
      exact hlt (hnone e he)
    . exact hholds.fresh hmem
  show stream (below w₀.untimed) p q
    <+: (stream (below w.untimed) p q).take (link (below w.untimed) p q).delivered.length
  rw [List.prefix_take_iff]
  refine ⟨ hprefix, ?_⟩
  rw [hdelivered, List.length_take]
  exact Nat.le_min.mpr ⟨hnext, hprefix.length_le⟩

theorem delivered_of_due (hown : proc.Own) (hreach : (timed proc).Reach (InTime hi) w₀)
    (hp : (timed proc).Path (InTime hi) w₀ w) (hdue : ∀ x, x ∈ w.net → w₀.now + hi < x.2) (p q : PID N)
    : (above w₀.untimed).sent p q <+: (above w.untimed).received q p := by
  have hnear : ∀ x, x ∈ w₀.net → x.2 ≤ w₀.now + hi := by
    apply TimedNetwork.near (· + hi) (fun _ _ hle => Int.add_le_add_right hle hi)
    apply hreach.mono
    rintro w l w' ⟨-, hout⟩ a out heq x hx
    exact (hout a out heq x hx).2
  have hsince : Since w₀ (w₀.now + hi) w₀ := ⟨fun _ _ => List.prefix_rfl, fun x hx _ => hnear x hx⟩
  exact (hsince.path hown hreach hp).delivered (inv_of_reach (layers_reach hown (hp.reach hreach)).1).2 hdue p q

theorem not_overdue (h : (timed proc).Reach (InTime hi) w) : ∀ x, x ∈ w.net → w.now ≤ x.2 := by
  apply TimedNetwork.not_overdue
  apply h.mono
  rintro w l w' ⟨-, hout⟩ a out heq x hx
  exact (hout a out heq x hx).1

end Latency

section Simulation

variable {proc : NekoProcess N σ ι κ S M} {hi : Int}
  {s s' : NekoSimSystem N (Layered N σ M) (FIFOSequenced N M)}
  {a : NekoSimSystem.Action N ι (Nat → κ) (FIFOSequenced N M)}

theorem inTime_of_meets
    (h : Meets (Regular Network.clique) (under proc) Network.clique s a
      ∧ Meets (fun _ a => DelaysWithin 1 hi a) (under proc) Network.clique s a
      ∧ FewMessages (below s'.world))
    : Meets (Regular Network.clique) (under proc) Network.clique s a
      ∧ ∀ l, Timed (under proc) Network.clique s a l → InTime hi s.timedWorld l s'.timedWorld := by
  obtain ⟨hmeets, hdelays, hfew⟩ := h
  refine ⟨hmeets, ?_⟩
  intro l hl
  constructor
  . rw [NekoSimSystem.untimed_timedWorld]
    exact hfew
  . rintro b out rfl x hx
    have hwithin := hl.within hdelays x hx
    omega

/--
When no message takes longer than `hi`, every message is delivered after that time, although it waits
for those before it. `s₀` is any state of a simulation and `s` one that follows.
-/
theorem delivered_in_time (hown : proc.Own) {s₀ : NekoSimSystem N (Layered N σ M) (FIFOSequenced N M)}
    (h : (NekoSimSystem.lts (under proc) Network.clique).Reach (fun s a s' =>
      Meets (Regular Network.clique) (under proc) Network.clique s a
        ∧ Meets (fun _ a => DelaysWithin 1 hi a) (under proc) Network.clique s a
        ∧ FewMessages (below s'.world)) s₀)
    (hp : (NekoSimSystem.lts (under proc) Network.clique).Path (fun s a s' =>
      Meets (Regular Network.clique) (under proc) Network.clique s a
        ∧ Meets (fun _ a => DelaysWithin 1 hi a) (under proc) Network.clique s a
        ∧ FewMessages (below s'.world)) s₀ s)
    (hlate : s₀.network.run.sched.currentTime.toInt + hi < s.network.run.sched.currentTime.toInt)
    (p q : PID N)
    : (above s₀.world).sent p q <+: (above s.world).received q p := by
  have hreach₀ := NekoSimSystem.timedWorld_reach (h.mono (fun _ _ _ => inTime_of_meets))
  have hpath := NekoSimSystem.timedWorld_path (h.mono (fun _ _ _ => inTime_of_meets))
    (hp.mono (fun _ _ _ => inTime_of_meets))
  rw [NekoProcess.emit_clique (fun _ => rfl)] at hreach₀ hpath
  rw [← NekoSimSystem.untimed_timedWorld, ← NekoSimSystem.untimed_timedWorld]
  apply delivered_of_due hown hreach₀ hpath
  intro x hx
  exact Int.lt_of_lt_of_le hlate (not_overdue (hpath.reach hreach₀) x hx)

end Simulation

section Waiting

/-!
Process 0 sends two messages to process 1. The second one arrives first, and waits.
-/

open DelaySimNetwork (Job Sent)
open Kernel (Stamped TaskID Time)

attribute [local instance] PID.twoProcesses

abbrev Packet := FIFOSequenced 2 (AppMessage 2 Nat)

def slow : Sent 2 Packet := ⟨⟨.unicast 0 1 7, 1, 0⟩, 0, fun _ _ => some 5, fun _ => 0⟩

def fast : Sent 2 Packet := ⟨⟨.unicast 0 1 8, 1, 1⟩, 0, fun _ _ => some 1, fun _ => 1⟩

def slowTask : Stamped (Job 2 Packet) := slow.stamped 0 (⟨1, slow.msg⟩, 5)

def fastTask : Stamped (Job 2 Packet) := fast.stamped 1 (⟨1, fast.msg⟩, 1)

def drawn (delay : Time) (id : TaskID) : Nat → Draw 2 Packet :=
  fun _ => ⟨fun _ _ => some delay, fun _ => id⟩

abbrev State := Layered 2 Nat (AppMessage 2 Nat)

def sentOne : State :=
  ⟨0, { channel := { nextSendTo := Function.update (fun _ => 0) 1 1 }, sent := [slow.msg.m] }⟩

def sentBoth : State :=
  ⟨0,
    { channel := { nextSendTo := Function.update sentOne.fifo.channel.nextSendTo 1 2 }
      sent := [slow.msg.m, fast.msg.m] }⟩

def heldBack : State :=
  ⟨0,
    { channel :=
        { nextReceiveFrom := Function.update (fun _ => 0) 0 0
          messageBuffer := Function.update (fun _ => []) 0 [⟨0, 1, fast.msg.m⟩] }
      received := [fast.msg] }⟩

def inOrder : State :=
  ⟨2,
    { channel :=
        { nextReceiveFrom := Function.update heldBack.fifo.channel.nextReceiveFrom 0 2
          messageBuffer := Function.update heldBack.fifo.channel.messageBuffer 0 [] }
      received := [fast.msg, slow.msg]
      delivered := [slow.msg.m, fast.msg.m] }⟩

def allSent : PID 2 → State := Function.update (Function.update (under counting).init 0 sentOne) 0 sentBoth

theorem delivered_in_time_waiting
    : ∃ s : NekoSimSystem 2 State Packet,
        s.network.run.sched.currentTime = 6
          ∧ [.unicast 0 1 7, .unicast 0 1 8] <+: (above s.world).received 1 0 := by
  let proc := under counting
  let ok : NekoSimSystem 2 State Packet → NekoSimSystem.Action 2 Nat (Nat → Unit) Packet →
      NekoSimSystem 2 State Packet → Prop := fun s a s' =>
    Meets (Regular Network.clique) proc Network.clique s a
      ∧ Meets (fun _ a => DelaysWithin 1 5 a) proc Network.clique s a
      ∧ FewMessages (below s'.world)
  have h0 : (NekoSimSystem.lts proc Network.clique).Reach ok (NekoSimSystem.initial proc) := .init rfl
  have h1 : (NekoSimSystem.lts proc Network.clique).Reach ok
      ⟨Function.update proc.init 0 sentOne,
        ⟨{ sched := ⟨[slowTask], 0⟩, scheduled := [slowTask] }, [slow]⟩⟩ :=
    h0.next (.input 0 7 (drawn 5 0)) rfl ⟨by
      rintro _ _ ⟨⟩
      exact ⟨.of_send ⟨⟨by decide, by decide⟩, by decide⟩ (fun _ _ => rfl), trivial⟩, by
      rintro _ _ ⟨⟩
      exact ⟨by rintro _ _ _ ⟨⟩; decide, trivial⟩, by decide⟩
  have h2 : (NekoSimSystem.lts proc Network.clique).Reach ok
      ⟨allSent,
        ⟨{ sched := ⟨[fastTask, slowTask], 0⟩, scheduled := [slowTask, fastTask] }, [slow, fast]⟩⟩ :=
    h1.next (.input 0 8 (drawn 1 1)) rfl ⟨by
      rintro _ _ ⟨⟩
      exact ⟨.of_send ⟨⟨by decide, by decide⟩, by decide⟩ (fun _ _ => rfl), trivial⟩, by
      rintro _ _ ⟨⟩
      exact ⟨by rintro _ _ _ ⟨⟩; decide, trivial⟩, by decide⟩
  have h3 : (NekoSimSystem.lts proc Network.clique).Path ok _
      ⟨allSent,
        ⟨{ sched := ⟨[slowTask], 1⟩, batch := [fastTask], scheduled := [slowTask, fastTask] },
          [slow, fast]⟩⟩ :=
    (h2.start ok).next (.kernel .executeNext) rfl
      ⟨.of_room (by decide), trivial, by decide⟩
  have h4 : (NekoSimSystem.lts proc Network.clique).Path ok _
      ⟨Function.update allSent 1 heldBack,
        ⟨{ sched := ⟨[slowTask], 1⟩
           running := some fastTask
           scheduled := [slowTask, fastTask]
           executed := [(1, fastTask)] }, [slow, fast]⟩⟩ :=
    h3.next (.deliver (fun _ => ()) (drawn 1 2)) rfl
      ⟨.of_deliver ⟨1, fast.msg⟩ rfl rfl rfl rfl trivial,
        .of_deliver ⟨1, fast.msg⟩ rfl rfl rfl rfl trivial, by decide⟩
  have h5 : (NekoSimSystem.lts proc Network.clique).Path ok _
      ⟨Function.update allSent 1 heldBack,
        ⟨{ sched := ⟨[slowTask], 1⟩
           scheduled := [slowTask, fastTask]
           executed := [(1, fastTask)] }, [slow, fast]⟩⟩ :=
    h4.next (.kernel (.finish false)) rfl ⟨.of_finish, trivial, by decide⟩
  have h6 : (NekoSimSystem.lts proc Network.clique).Path ok _
      ⟨Function.update allSent 1 heldBack,
        ⟨{ sched := ⟨[], 5⟩
           batch := [slowTask]
           scheduled := [slowTask, fastTask]
           executed := [(1, fastTask)] }, [slow, fast]⟩⟩ :=
    h5.next (.kernel .executeNext) rfl
      ⟨.of_room (by decide), trivial, by decide⟩
  have h7 : (NekoSimSystem.lts proc Network.clique).Path ok _
      ⟨Function.update (Function.update allSent 1 heldBack) 1 inOrder,
        ⟨{ sched := ⟨[], 5⟩
           running := some slowTask
           scheduled := [slowTask, fastTask]
           executed := [(1, fastTask), (5, slowTask)] }, [slow, fast]⟩⟩ :=
    h6.next (.deliver (fun _ => ()) (drawn 1 2)) rfl
      ⟨.of_deliver ⟨1, slow.msg⟩ rfl rfl rfl rfl trivial,
        .of_deliver ⟨1, slow.msg⟩ rfl rfl rfl rfl trivial, by decide⟩
  have h8 : (NekoSimSystem.lts proc Network.clique).Path ok _
      ⟨Function.update (Function.update allSent 1 heldBack) 1 inOrder,
        ⟨{ sched := ⟨[], 5⟩
           scheduled := [slowTask, fastTask]
           executed := [(1, fastTask), (5, slowTask)] }, [slow, fast]⟩⟩ :=
    h7.next (.kernel (.finish false)) rfl ⟨.of_finish, trivial, by decide⟩
  -- something else happens at 6
  have h9 := h8.next (.kernel (.schedule (.simple 6 .other 2 false))) rfl
    ⟨.of_fresh (by decide) rfl, trivial, by decide⟩
  have h10 := h9.next (.kernel .executeNext) rfl
    ⟨.of_room (by decide), trivial, by decide⟩
  exact ⟨_, rfl, delivered_in_time counting_own h2 h10 (by decide) 0 1⟩

end Waiting

end FIFOChannel
