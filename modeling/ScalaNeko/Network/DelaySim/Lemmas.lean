import ScalaNeko.Kernel.Lemmas.Pending
import ScalaNeko.Lib.Record
import ScalaNeko.Network.DelaySim.Impl
import ScalaNeko.Network.Lemmas

/-!
A simulated network delivers every message once, on time and within the topology.
-/

open AsyncNetwork (Envelope)
open Kernel (Time TaskID KernelTask Stamped)
open Network (Eligible)

namespace DelaySimNetwork

variable {N : Nat} {S M : Type}

/--
A step of the scheduler, where only `send` creates the tasks of deliveries. Nobody cancels them, as
`sendTo` gives their identifiers to nobody.
-/
structure KernelStep (s : SimRun N M) (a : Kernel.Action (Job N M)) : Prop where
  regular : Kernel.Regular s.run a
  own : ∀ task, a = .schedule task → isDelivery task = false
  kept : ∀ t, t ∈ s.run.scheduled → isDelivery t.task → a ≠ .cancel t.task.id

variable [Message N M] {neighborsFor : PID N → Option (Finset (PID N))}

/--
A call of `send` that creates tasks with new identifiers and times in range.
-/
structure SendStep (neighborsFor : PID N → Option (Finset (PID N))) (s : SimRun N M) (x : Sent N M)
    : Prop where
  fresh : Kernel.Fresh s.run ((x.inFlight neighborsFor).map (x.task s.sends.length))
  range : ∀ p, p ∈ x.inFlight neighborsFor → (x.since + p.2).toInt = x.since.toInt + p.2.toInt

def Regular (neighborsFor : PID N → Option (Finset (PID N))) (s : SimRun N M)
    : Action N S M → Prop
  | .send (.signal _) _ _ => True
  | .send (.message msg) delayForMessage ids =>
    SendStep neighborsFor s ⟨msg, s.run.sched.currentTime, delayForMessage, ids⟩
  | .kernel a => KernelStep s a

def Sent.due (x : Sent N M) (delay : Time) : Int :=
  max (x.since.toInt + delay.toInt) (x.since.toInt + 1)

/--
The network takes every message that it is given, at the current clock value, and nothing else.
-/
structure Accepts (S : Type) (neighborsFor : PID N → Option (Finset (PID N))) (s : SimRun N M)
    : Prop where
  message : ∀ msg delayForMessage ids, ∃ s',
    s.step neighborsFor (.send (.message msg) delayForMessage ids : Action N S M) = some s'
      ∧ s'.sends = s.sends ++ [⟨msg, s.run.sched.currentTime, delayForMessage, ids⟩]
      ∧ s'.run.sched.currentTime = s.run.sched.currentTime
      ∧ ∀ q, s'.received q = s.received q
  signal : ∀ (signal : S) delayForMessage ids,
    s.step neighborsFor (.send (.signal signal) delayForMessage ids : Action N S M) = some s
  kernel : ∀ a s', s.step neighborsFor (.kernel a : Action N S M) = some s' → s'.sends = s.sends

/--
What the receiver of `q` gets: only what was sent and only if the topology has it and the message is
not dropped, at the right clock value, once, and all of that when the scheduler has been run so far.
Until then, the task of the delivery waits.
-/
structure Punctual (neighborsFor : PID N → Option (Finset (PID N))) (s : SimRun N M) (q : PID N)
    : Prop where
  sound : ∀ r, r ∈ s.received q → ∃ x delay, s.sends[r.sent]? = some x ∧ r.msg = x.msg
    ∧ Eligible neighborsFor x.msg q ∧ x.delayForMessage q x.msg = some delay
    ∧ r.clock.toInt = x.due delay
  once : ((s.received q).map Receipt.sent).Nodup
  complete : ∀ n x delay, s.sends[n]? = some x → Eligible neighborsFor x.msg q →
    x.delayForMessage q x.msg = some delay → Kernel.Past s.run (x.due delay) →
    n ∈ (s.received q).map Receipt.sent
  waiting : ∀ n x delay, s.sends[n]? = some x → Eligible neighborsFor x.msg q →
    x.delayForMessage q x.msg = some delay → n ∉ (s.received q).map Receipt.sent →
    (x.stamped n (⟨q, x.msg⟩, delay)).due = x.due delay
      ∧ (x.stamped n (⟨q, x.msg⟩, delay) ∈ s.run.sched.taskQueue
        ∨ x.stamped n (⟨q, x.msg⟩, delay) ∈ s.run.batch)

/--
The tasks of deliveries are those of the calls of `send`.
-/
structure Inv (neighborsFor : PID N → Option (Finset (PID N))) (s : SimRun N M) : Prop where
  sent : ∀ t, t ∈ s.run.scheduled → isDelivery t.task →
    ∃ n, ∃ x : Sent N M, ∃ p, s.sends[n]? = some x ∧ p ∈ x.inFlight neighborsFor ∧ t = x.stamped n p
  scheduled : ∀ n (x : Sent N M) p, s.sends[n]? = some x → p ∈ x.inFlight neighborsFor →
    x.stamped n p ∈ s.run.scheduled
  held : ∀ t, t ∈ s.run.scheduled → isDelivery t.task → Kernel.Held s.run t
  range : ∀ x, x ∈ s.sends → ∀ p, p ∈ x.inFlight neighborsFor →
    (x.since + p.2).toInt = x.since.toInt + p.2.toInt

theorem Inv.init : Inv neighborsFor ({} : SimRun N M) where
  sent := by simp
  scheduled := by simp
  held := by simp
  range := by simp

theorem mem_inFlight {x : Sent N M} {p : Envelope (PID N) M × Time}
    : p ∈ x.inFlight neighborsFor
      ↔ p.1.msg = x.msg ∧ Eligible neighborsFor x.msg p.1.dest
        ∧ x.delayForMessage p.1.dest x.msg = some p.2 :=
  Network.mem_send

omit [Message N M] in
@[simp]
theorem isDelivery_stamped (x : Sent N M) (n : Nat) (p : Envelope (PID N) M × Time)
    : isDelivery (x.stamped n p).task = true := rfl

variable {s s' : SimRun N M}

theorem step_kernel {a : Kernel.Action (Job N M)}
    (h : s.step neighborsFor (.kernel a : Action N S M) = some s')
    : ∃ run, s.run.step a = some run ∧ s' = { s with run } := by
  obtain ⟨run, hst, heq⟩ := Option.map_eq_some_iff.mp h
  exact ⟨run, hst, heq.symm⟩

theorem run_reach (h : (SimRun.lts S neighborsFor).Reach (fun s a _ => Regular neighborsFor s a) s)
    : (Kernel.Run.lts (Job N M)).Reach (fun r a _ => Kernel.Regular r a) s.run := by
  induction h with
  | init h0 =>
    cases h0
    exact .init rfl
  | @step s s' a _ hst hreg ih =>
    cases a with
    | send event delayForMessage ids =>
      cases hst
      cases event with
      | signal => exact ih
      | message msg => exact Kernel.reach_foldl ih hreg.fresh
    | kernel a =>
      obtain ⟨run, hrun, rfl⟩ := step_kernel hst
      exact ih.next a hrun hreg.regular

theorem Inv.send {x : Sent N M} (h : Inv neighborsFor s)
    (hreach : (Kernel.Run.lts (Job N M)).Reach (fun r a _ => Kernel.Regular r a) s.run)
    (hsince : x.since = s.run.sched.currentTime) (hsend : SendStep neighborsFor s x)
    : Inv neighborsFor
        { run := ((x.inFlight neighborsFor).map (x.task s.sends.length)).foldl Kernel.Run.schedule
            s.run
          sends := s.sends ++ [x] } := by
  have hmem : ∀ t, t ∈ ((x.inFlight neighborsFor).map (x.task s.sends.length)).map
      (⟨·, s.run.sched.currentTime⟩) ↔ ∃ p, p ∈ x.inFlight neighborsFor
        ∧ t = x.stamped s.sends.length p := by
    intro t
    simp only [List.map_map, List.mem_map, Function.comp_apply, Sent.stamped, hsince]
    exact exists_congr fun p => and_congr_right fun _ => eq_comm
  constructor
  . intro t ht hdelivery
    rw [Kernel.scheduled_foldl, List.mem_append, hmem] at ht
    rcases ht with ht | ⟨p, hp, rfl⟩
    . obtain ⟨n, y, p, hy, hp, rfl⟩ := h.sent t ht hdelivery
      refine ⟨n, y, p, ?_, hp, rfl⟩
      rw [List.getElem?_append_left (List.getElem?_eq_some_iff.mp hy).1]
      exact hy
    . exact ⟨_, x, p, List.getElem?_concat_length, hp, rfl⟩
  . intro n y p hy hp
    rw [Kernel.scheduled_foldl, List.mem_append, hmem]
    rcases Record.getElem?_snoc hy with hold | ⟨heq, hlast⟩
    . exact .inl (h.scheduled n y p hold hp)
    . subst heq hlast
      exact .inr ⟨p, hp, rfl⟩
  . intro t ht hdelivery
    rw [Kernel.scheduled_foldl, List.mem_append] at ht
    rcases ht with ht | ht
    . exact (h.held t ht hdelivery).foldl
    . obtain ⟨task, htask, rfl⟩ := List.mem_map.mp ht
      exact Kernel.held_foldl hreach hsend.fresh htask
  . intro y hy
    rw [List.mem_append, List.mem_singleton] at hy
    rcases hy with hy | rfl
    . exact h.range y hy
    . exact hsend.range

omit [Message N M] in
theorem isDelivery_next {task task' : KernelTask (Job N M)} {now : Time} {willReschedule : Bool}
    (h : task.next now willReschedule = some task')
    : isDelivery task' = isDelivery task := by
  cases task with
  | simple => cases h
  | periodic time period repeatAction id daemon =>
    cases willReschedule with
    | false => cases h
    | true =>
      cases h
      rfl

theorem Inv.kernel {a : Kernel.Action (Job N M)} {run : Kernel.Run (Job N M)}
    (h : Inv neighborsFor s) (hkernel : Kernel.Inv s.run) (hrun : s.run.step a = some run)
    (hstep : KernelStep s a)
    : Inv neighborsFor { s with run } := by
  -- A delivery is not periodic, so that no step schedules the task of one.
  have hold : ∀ t, t ∈ run.scheduled → isDelivery t.task → t ∈ s.run.scheduled := by
    intro t ht hdelivery
    rcases Kernel.step_scheduled hrun with heq | ⟨task, heq, hwhy⟩
    . rwa [heq] at ht
    . rw [heq, List.mem_append, List.mem_singleton] at ht
      rcases ht with ht | rfl
      . exact ht
      . rcases hwhy with rfl | ⟨u, willReschedule, hrunning, hnext⟩
        . rw [hstep.own task rfl] at hdelivery
          cases hdelivery
        . have hu : u ∈ s.run.scheduled := by
            apply hkernel.known
            rw [hrunning]
            exact .inl List.mem_cons_self
          rw [isDelivery_next hnext] at hdelivery
          obtain ⟨n, x, p, -, -, rfl⟩ := h.sent u hu hdelivery
          cases hnext
  have hnew : ∀ t, t ∈ s.run.scheduled → t ∈ run.scheduled := by
    intro t ht
    rcases Kernel.step_scheduled hrun with heq | ⟨task, heq, -⟩
    . rwa [heq]
    . rw [heq]
      exact List.mem_append_left _ ht
  constructor
  . intro t ht hdelivery
    exact h.sent t (hold t ht hdelivery) hdelivery
  . intro n x p hx hp
    exact hnew _ (h.scheduled n x p hx hp)
  . intro t ht hdelivery
    have ht := hold t ht hdelivery
    exact (h.held t ht hdelivery).step hrun (hstep.kept t ht hdelivery)
  . exact h.range

theorem inv_of_reach
    (h : (SimRun.lts S neighborsFor).Reach (fun s a _ => Regular neighborsFor s a) s)
    : Inv neighborsFor s := by
  apply LTS.Reach.invariant (I := Inv neighborsFor) _ _ h
  . rintro s rfl
    exact Inv.init
  . intro s a s' hreach hinv hst hreg
    cases a with
    | send event delayForMessage ids =>
      cases hst
      cases event with
      | signal => exact hinv
      | message msg => exact hinv.send (run_reach hreach) rfl hreg
    | kernel a =>
      obtain ⟨run, hrun, rfl⟩ := step_kernel hst
      exact hinv.kernel (Kernel.inv_of_reach (run_reach hreach)) hrun hreg

theorem Inv.due_stamped {n : Nat} {x : Sent N M} {p : Envelope (PID N) M × Time}
    (h : Inv neighborsFor s) (hx : s.sends[n]? = some x) (hp : p ∈ x.inFlight neighborsFor)
    : (x.stamped n p).due = x.due p.2 := by
  have hrange := h.range x (List.mem_of_getElem? hx) p hp
  simp only [Stamped.due, Sent.stamped, Sent.task, KernelTask.time, Sent.due, hrange]

theorem receipt_stamped {q : PID N} {x : Sent N M} {n : Nat} {delay clock : Time}
    (h : Eligible neighborsFor x.msg q)
    : SimRun.receipt q (clock, x.stamped n (⟨q, x.msg⟩, delay)) = some ⟨clock, n, x.msg⟩ := by
  simp [SimRun.receipt, Sent.stamped, Sent.task, h.deliver]

theorem isDelivery_of_receipt {q : PID N} {e : Time × Stamped (Job N M)} {r : Receipt M}
    (h : SimRun.receipt q e = some r)
    : isDelivery e.2.task = true := by
  unfold SimRun.receipt at h
  split at h
  . next heq => rw [heq, isDelivery, Job.isDeliver]
  . cases h

/--
A receipt is that of the task of a delivery to `q`.
-/
theorem Inv.receipt {q : PID N} {e : Time × Stamped (Job N M)} {r : Receipt M}
    (h : Inv neighborsFor s) (hkernel : Kernel.Inv s.run) (he : e ∈ s.run.executed)
    (hr : SimRun.receipt q e = some r)
    : ∃ x delay, s.sends[r.sent]? = some x ∧ (⟨q, x.msg⟩, delay) ∈ x.inFlight neighborsFor
        ∧ e.2 = x.stamped r.sent (⟨q, x.msg⟩, delay) ∧ r = ⟨e.1, r.sent, x.msg⟩ := by
  have hscheduled := hkernel.known e.2 (.inr (List.mem_map_of_mem he))
  obtain ⟨n, x, ⟨⟨dest, m⟩, delay⟩, hx, hp, heq⟩ := h.sent e.2 hscheduled (isDelivery_of_receipt hr)
  obtain ⟨hmsg, heligible, -⟩ := mem_inFlight.mp hp
  subst hmsg
  have hdest : dest = q := by
    rw [SimRun.receipt, heq] at hr
    by_contra hne
    simp [Sent.stamped, Sent.task, hne] at hr
  subst hdest
  rcases e with ⟨clock, t⟩
  subst heq
  rw [receipt_stamped heligible, Option.some.injEq] at hr
  subst hr
  exact ⟨x, delay, hx, hp, rfl, rfl⟩

-- The task of the delivery that a receiver has got a message from.
theorem Inv.executed_of_received {q : PID N} {n : Nat} {x : Sent N M} {delay : Time}
    (h : Inv neighborsFor s) (hkernel : Kernel.Inv s.run) (hx : s.sends[n]? = some x)
    (hdelay : x.delayForMessage q x.msg = some delay)
    (hreceived : n ∈ (s.received q).map Receipt.sent)
    : x.stamped n (⟨q, x.msg⟩, delay) ∈ s.run.executed.map Prod.snd := by
  obtain ⟨r, hr, rfl⟩ := List.mem_map.mp hreceived
  obtain ⟨e, he, hr⟩ := List.mem_filterMap.mp hr
  obtain ⟨y, delay', hy, hp, heq, -⟩ := h.receipt hkernel he hr
  rw [hx, Option.some.injEq] at hy
  subst hy
  have hdelay' := (mem_inFlight.mp hp).2.2
  rw [hdelay, Option.some.injEq] at hdelay'
  dsimp only at hdelay'
  rw [hdelay', ← heq]
  exact List.mem_map_of_mem he

theorem received_sublist {q : PID N} {n₁ n₂ : Nat} {x₁ x₂ : Sent N M} {delay₁ delay₂ : Time}
    (heligible₁ : Eligible neighborsFor x₁.msg q) (heligible₂ : Eligible neighborsFor x₂.msg q)
    (h : [x₁.stamped n₁ (⟨q, x₁.msg⟩, delay₁), x₂.stamped n₂ (⟨q, x₂.msg⟩, delay₂)].Sublist
      (s.run.executed.map Prod.snd))
    : [n₁, n₂].Sublist ((s.received q).map Receipt.sent) := by
  obtain ⟨es, hes, hmap⟩ := List.sublist_map_iff.mp h
  obtain ⟨⟨c₁, t₁⟩, es, rfl, ht₁, htail⟩ := List.map_eq_cons_iff.mp hmap.symm
  obtain ⟨⟨c₂, t₂⟩, es, rfl, ht₂, hnil⟩ := List.map_eq_cons_iff.mp htail
  rw [List.map_eq_nil_iff] at hnil
  dsimp only at ht₁ ht₂
  subst ht₁ ht₂ hnil
  have hsublist := (hes.filterMap (SimRun.receipt q)).map Receipt.sent
  simp only [List.filterMap_cons, receipt_stamped heligible₁, receipt_stamped heligible₂,
    List.filterMap_nil, List.map_cons, List.map_nil] at hsublist
  exact hsublist

-- The receiver gets the message when the action of the task is called.
theorem received_of_executed {q : PID N} {n : Nat} {x : Sent N M} {delay : Time}
    (heligible : Eligible neighborsFor x.msg q)
    (h : x.stamped n (⟨q, x.msg⟩, delay) ∈ s.run.executed.map Prod.snd)
    : n ∈ (s.received q).map Receipt.sent := by
  obtain ⟨⟨clock, t⟩, he, heq⟩ := List.mem_map.mp h
  dsimp only at heq
  subst heq
  rw [SimRun.received, List.map_filterMap, List.mem_filterMap]
  exact ⟨_, he, by rw [receipt_stamped heligible]; rfl⟩

theorem Inv.punctual (h : Inv neighborsFor s) (hkernel : Kernel.Inv s.run) (q : PID N)
    : Punctual neighborsFor s q := by
  constructor
  . intro r hr
    obtain ⟨e, he, hr⟩ := List.mem_filterMap.mp hr
    obtain ⟨x, delay, hx, hp, heq, hreq⟩ := h.receipt hkernel he hr
    obtain ⟨-, heligible, hdelay⟩ := mem_inFlight.mp hp
    refine ⟨x, delay, hx, by rw [hreq], heligible, hdelay, ?_⟩
    rw [hreq, (hkernel.executed_due e he).1, heq]
    exact h.due_stamped hx hp
  . rw [List.Nodup, List.pairwise_map, SimRun.received, List.pairwise_filterMap]
    have hordered := List.pairwise_map.mp (List.pairwise_append.mp hkernel.ordered).1
    apply hordered.imp_of_mem
    intro e e' he he' hlt r hr r' hr' hsent
    obtain ⟨x, delay, hx, hp, heq, -⟩ := h.receipt hkernel he hr
    obtain ⟨x', delay', hx', hp', heq', -⟩ := h.receipt hkernel he' hr'
    rw [← hsent, hx, Option.some.injEq] at hx'
    subst hx'
    have hdelay := (mem_inFlight.mp hp).2.2
    have hdelay' := (mem_inFlight.mp hp').2.2
    rw [hdelay, Option.some.injEq] at hdelay'
    dsimp only at hdelay'
    rw [heq, heq', hsent, hdelay'] at hlt
    exact lt_irrefl _ hlt
  . intro n x delay hx heligible hdelay hpast
    have hp : (⟨q, x.msg⟩, delay) ∈ x.inFlight neighborsFor :=
      mem_inFlight.mpr ⟨rfl, heligible, hdelay⟩
    have hheld := h.held _ (h.scheduled n x _ hx hp) (isDelivery_stamped x n _)
    rw [← h.due_stamped hx hp] at hpast
    exact received_of_executed heligible (hheld.executed hkernel hpast)
  . intro n x delay hx heligible hdelay hnot
    have hp : (⟨q, x.msg⟩, delay) ∈ x.inFlight neighborsFor :=
      mem_inFlight.mpr ⟨rfl, heligible, hdelay⟩
    refine ⟨h.due_stamped hx hp, ?_⟩
    have hheld := h.held _ (h.scheduled n x _ hx hp) (isDelivery_stamped x n _)
    rcases hheld.somewhere with hq | hb | he
    . exact .inl hq
    . exact .inr hb
    . exact absurd (received_of_executed heligible he) hnot

theorem accepts (S : Type) (neighborsFor : PID N → Option (Finset (PID N))) (s : SimRun N M)
    : Accepts S neighborsFor s where
  message := by
    intro msg delayForMessage ids
    refine ⟨_, rfl, rfl, Kernel.currentTime_foldl _ _, ?_⟩
    intro q
    simp only [SimRun.send, SimRun.received, Kernel.executed_foldl]
  signal := fun _ _ _ => rfl
  kernel := by
    intro a s' hst
    obtain ⟨run, -, rfl⟩ := step_kernel hst
    rfl

theorem punctual_of_regular
    (h : (SimRun.lts S neighborsFor).Reach (fun s a _ => Regular neighborsFor s a) s)
    : Accepts S neighborsFor s ∧ ∀ q, Punctual neighborsFor s q :=
  ⟨accepts S neighborsFor s, (inv_of_reach h).punctual (Kernel.inv_of_reach (run_reach h))⟩

/--
`p0` sends to the two others, but the topology is a line. At the same time `p1` sends a broadcast,
whose message to `p2` is dropped.
-/
theorem punctual_of_regular_line
    : ∃ neighborsFor : PID 3 → Option (Finset (PID 3)), ∃ s : SimRun 3 (AppMessage 3 Unit),
        neighborsFor 0 = some {1} ∧ neighborsFor 1 = some {0, 2} ∧ neighborsFor 2 = some {1}
          ∧ (SimRun.lts Empty neighborsFor).Reach (fun s a _ => Regular neighborsFor s a) s
          ∧ s.received 0 = [⟨1, 1, .broadcast 1 ()⟩]
          ∧ s.received 1 = [⟨5, 0, .multicast 0 {1, 2} ()⟩] ∧ s.received 2 = []
          ∧ Accepts Empty neighborsFor s ∧ ∀ q, Punctual neighborsFor s q := by
  let neighborsFor : PID 3 → Option (Finset (PID 3)) :=
    fun p => some (if p = 1 then {0, 2} else {1})
  let ok : SimRun 3 (AppMessage 3 Unit) → Action 3 Empty (AppMessage 3 Unit) →
    SimRun 3 (AppMessage 3 Unit) → Prop := fun s a _ => Regular neighborsFor s a
  let x : Sent 3 (AppMessage 3 Unit) :=
    ⟨.multicast 0 {1, 2} (), 0, fun _ _ => some 5, fun dest => dest.val⟩
  let y : Sent 3 (AppMessage 3 Unit) :=
    ⟨.broadcast 1 (), 0, fun dest _ => if dest = 0 then some 0 else none, fun dest => dest.val + 3⟩
  let t : Stamped (Job 3 (AppMessage 3 Unit)) := x.stamped 0 (⟨1, x.msg⟩, 5)
  let u : Stamped (Job 3 (AppMessage 3 Unit)) := y.stamped 1 (⟨0, y.msg⟩, 0)
  let start : Kernel.Run (Job 3 (AppMessage 3 Unit)) := { scheduled := [t, u] }
  have h0 : (SimRun.lts Empty neighborsFor).Reach ok {} := .init rfl
  have h1 : (SimRun.lts Empty neighborsFor).Reach ok
      ⟨{ sched := ⟨[t], 0⟩, scheduled := [t] }, [x]⟩ :=
    h0.next (.send (.message x.msg) x.delayForMessage x.ids) rfl
      ⟨⟨by decide, by decide⟩, by decide⟩
  have h2 : (SimRun.lts Empty neighborsFor).Reach ok ⟨{ start with sched := ⟨[u, t], 0⟩ }, [x, y]⟩ :=
    h1.next (.send (.message y.msg) y.delayForMessage y.ids) rfl ⟨⟨by decide, by decide⟩, by decide⟩
  have h3 : (SimRun.lts Empty neighborsFor).Reach ok
      ⟨{ start with sched := ⟨[t], 1⟩, batch := [u] }, [x, y]⟩ :=
    h2.next (.kernel .executeNext) rfl ⟨.of_room (by decide), nofun, nofun⟩
  have h4 := h3.next (.kernel .call) rfl ⟨.of_call, nofun, nofun⟩
  have h5 := h4.next (.kernel (.finish false)) rfl ⟨.of_finish, nofun, nofun⟩
  have h6 : (SimRun.lts Empty neighborsFor).Reach ok
      ⟨{ start with sched := ⟨[], 5⟩, batch := [t], executed := [(1, u)] }, [x, y]⟩ :=
    h5.next (.kernel .executeNext) rfl ⟨.of_room (by decide), nofun, nofun⟩
  have h7 := h6.next (.kernel .call) rfl ⟨.of_call, nofun, nofun⟩
  exact ⟨neighborsFor, _, by decide, by decide, by decide, h7, by decide, by decide, by decide,
    punctual_of_regular h7⟩

end DelaySimNetwork
