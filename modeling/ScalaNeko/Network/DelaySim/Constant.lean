import ScalaNeko.Network.DelaySim.Lemmas

/-!
Every channel of a `ConstantSimNetwork` is FIFO.
-/

open AsyncNetwork (Envelope)
open Kernel (Time TaskID KernelTask Stamped)
open Network (Eligible)
open DelaySimNetwork

namespace ConstantSimNetwork

variable {N : Nat} {S M : Type} [Message N M]
  {neighborsFor : PID N → Option (Finset (PID N))} {lambda : Time}

/--
The network delays all messages by `lambda`. The identifiers of the tasks it creates are larger than
those of the tasks that exist.
-/
structure Regular (neighborsFor : PID N → Option (Finset (PID N))) (lambda : Time) (s : SimRun N M)
    (a : Action N S M) : Prop where
  regular : DelaySimNetwork.Regular neighborsFor s a
  constant : ∀ event delay ids, a = .send event delay ids → delay = delayForMessage lambda
  increasing : ∀ event delay ids, a = .send event delay ids → ∀ q t, t ∈ s.run.scheduled →
    t.task.id < ids q

/--
Of two calls of `send`, the later one is not at an earlier clock value and creates larger identifiers.
-/
structure Follows (neighborsFor : PID N → Option (Finset (PID N))) (x y : Sent N M) : Prop where
  since : x.since.toInt ≤ y.since.toInt
  ids : ∀ p, p ∈ x.inFlight neighborsFor → ∀ q, x.ids p.1.dest < y.ids q

structure Ordered (neighborsFor : PID N → Option (Finset (PID N))) (lambda : Time) (s : SimRun N M)
    : Prop where
  constant : ∀ x, x ∈ s.sends → x.delayForMessage = delayForMessage lambda
  past : ∀ x, x ∈ s.sends → x.since.toInt ≤ s.run.sched.currentTime.toInt
  follows : s.sends.Pairwise (Follows neighborsFor)

variable {s s' : SimRun N M}

theorem reach (h : (SimRun.lts S neighborsFor).Reach (fun s a _ => Regular neighborsFor lambda s a) s)
    : (SimRun.lts S neighborsFor).Reach (fun s a _ => DelaySimNetwork.Regular neighborsFor s a) s :=
  h.mono (fun _ _ _ hreg => hreg.regular)

theorem ordered_of_reach
    (h : (SimRun.lts S neighborsFor).Reach (fun s a _ => Regular neighborsFor lambda s a) s)
    : Ordered neighborsFor lambda s := by
  apply LTS.Reach.invariant (I := Ordered neighborsFor lambda) _ _ h
  . rintro s rfl
    exact ⟨by simp, by simp, .nil⟩
  . intro s a s' hreach hordered hst hreg
    cases a with
    | send event delay ids =>
      cases hst
      cases event with
      | signal => exact hordered
      | message msg =>
        have hinv := inv_of_reach (reach hreach)
        constructor
        . intro x hx
          rw [SimRun.send, List.mem_append, List.mem_singleton] at hx
          rcases hx with hx | rfl
          . exact hordered.constant x hx
          . exact hreg.constant _ _ _ rfl
        . intro x hx
          simp only [SimRun.send, List.mem_append, List.mem_singleton, Kernel.currentTime_foldl]
            at hx ⊢
          rcases hx with hx | rfl
          . exact hordered.past x hx
          . exact Int.le_refl _
        . simp only [SimRun.send, List.pairwise_append, List.mem_singleton]
          refine ⟨hordered.follows, List.pairwise_singleton _ _, ?_⟩
          rintro x hx _ rfl
          refine ⟨hordered.past x hx, ?_⟩
          intro p hp q
          obtain ⟨n, hn⟩ := List.mem_iff_getElem?.mp hx
          exact hreg.increasing _ _ _ rfl q _ (hinv.scheduled n x p hn hp)
    | kernel a =>
      obtain ⟨run, hrun, rfl⟩ := step_kernel hst
      refine ⟨hordered.constant, ?_, hordered.follows⟩
      intro x hx
      exact (hordered.past x hx).trans (Kernel.currentTime_le hrun hreg.regular.regular)

theorem Ordered.rank_lt {n₁ n₂ : Nat} {x₁ x₂ : Sent N M} {p₁ p₂ : Envelope (PID N) M × Time}
    (h : Ordered neighborsFor lambda s) (hinv : DelaySimNetwork.Inv neighborsFor s) (hlt : n₁ < n₂)
    (h₁ : s.sends[n₁]? = some x₁) (h₂ : s.sends[n₂]? = some x₂)
    (hp₁ : p₁ ∈ x₁.inFlight neighborsFor) (hp₂ : p₂ ∈ x₂.inFlight neighborsFor)
    : (x₁.stamped n₁ p₁).rank < (x₂.stamped n₂ p₂).rank := by
  have hx₁ := List.mem_of_getElem? h₁
  have hx₂ := List.mem_of_getElem? h₂
  have hfollows : Follows neighborsFor x₁ x₂ := by
    obtain ⟨hn₁, rfl⟩ := List.getElem?_eq_some_iff.mp h₁
    obtain ⟨hn₂, rfl⟩ := List.getElem?_eq_some_iff.mp h₂
    exact List.pairwise_iff_getElem.mp h.follows n₁ n₂ hn₁ hn₂ hlt
  have hdelay : p₁.2 = p₂.2 := by
    have hdelay₁ := (mem_inFlight.mp hp₁).2.2
    have hdelay₂ := (mem_inFlight.mp hp₂).2.2
    rw [h.constant x₁ hx₁, delayForMessage, Option.some.injEq] at hdelay₁
    rw [h.constant x₂ hx₂, delayForMessage, Option.some.injEq] at hdelay₂
    exact hdelay₁.symm.trans hdelay₂
  have hsince := hfollows.since
  apply Stamped.rank_lt
  . rw [hinv.due_stamped h₁ hp₁, hinv.due_stamped h₂ hp₂, Sent.due, Sent.due, hdelay]
    omega
  . have hrange₁ := hinv.range x₁ hx₁ p₁ hp₁
    have hrange₂ := hinv.range x₂ hx₂ p₂ hp₂
    rw [hdelay] at hrange₁
    simp only [Sent.stamped, Sent.task, KernelTask.time, hdelay, hrange₁, hrange₂]
    omega
  . exact hfollows.ids p₁ hp₁ p₂.1.dest

/--
What the receiver of `q` gets when `m₁` and then `m₂` are handed to the network for it, in the calls `n₁`
and `n₂` of `send`, where `m₂` is due at the clock value `due`.
-/
structure InOrder (s : SimRun N M) (q : PID N) (n₁ n₂ : Nat) (m₁ m₂ : M) (due : Int) : Prop where
  msgs : ∀ r, r ∈ s.received q → (r.sent = n₁ → r.msg = m₁) ∧ (r.sent = n₂ → r.msg = m₂)
  once : ((s.received q).map Receipt.sent).Nodup
  before : n₂ ∈ (s.received q).map Receipt.sent → [n₁, n₂].Sublist ((s.received q).map Receipt.sent)
  received : Kernel.Past s.run due → n₂ ∈ (s.received q).map Receipt.sent
  waiting : n₂ ∉ (s.received q).map Receipt.sent →
    ∃ t, (∃ time id, t.task = .simple time (.deliver n₂ ⟨q, m₂⟩) id false) ∧ t.due = due
      ∧ (t ∈ s.run.sched.taskQueue ∨ t ∈ s.run.batch)

theorem inOrder_of_sends
    (h : (SimRun.lts S neighborsFor).Reach (fun s a _ => Regular neighborsFor lambda s a) s)
    {n₁ n₂ : Nat} {x₁ x₂ : Sent N M} (hlt : n₁ < n₂) (h₁ : s.sends[n₁]? = some x₁)
    (h₂ : s.sends[n₂]? = some x₂) {q : PID N} (heligible₁ : Eligible neighborsFor x₁.msg q)
    (heligible₂ : Eligible neighborsFor x₂.msg q)
    : InOrder s q n₁ n₂ x₁.msg x₂.msg (x₂.due lambda) := by
  have hinv := inv_of_reach (reach h)
  have hkernel := Kernel.inv_of_reach (run_reach (reach h))
  have hpunctual := hinv.punctual hkernel q
  have hordered := ordered_of_reach h
  have hdelay₁ : x₁.delayForMessage q x₁.msg = some lambda := by
    rw [hordered.constant x₁ (List.mem_of_getElem? h₁), delayForMessage]
  have hdelay₂ : x₂.delayForMessage q x₂.msg = some lambda := by
    rw [hordered.constant x₂ (List.mem_of_getElem? h₂), delayForMessage]
  refine ⟨?_, hpunctual.once, ?_, hpunctual.complete n₂ x₂ lambda h₂ heligible₂ hdelay₂, ?_⟩
  . intro r hr
    obtain ⟨x, -, hx, hmsg, -⟩ := hpunctual.sound r hr
    constructor
    . rintro rfl
      rw [hmsg, Option.some.inj (hx.symm.trans h₁)]
    . rintro rfl
      rw [hmsg, Option.some.inj (hx.symm.trans h₂)]
  . intro hreceived
    have hp₁ : (⟨q, x₁.msg⟩, lambda) ∈ x₁.inFlight neighborsFor :=
      mem_inFlight.mpr ⟨rfl, heligible₁, hdelay₁⟩
    have hp₂ : (⟨q, x₂.msg⟩, lambda) ∈ x₂.inFlight neighborsFor :=
      mem_inFlight.mpr ⟨rfl, heligible₂, hdelay₂⟩
    -- The tasks of the two deliveries are executed in the order of their ranks.
    have hexecuted := hinv.executed_of_received hkernel h₂ hdelay₂ hreceived
    have hheld := hinv.held _ (hinv.scheduled n₁ x₁ _ h₁ hp₁) (isDelivery_stamped x₁ n₁ _)
    apply received_sublist heligible₁ heligible₂
    apply hheld.before hkernel _ hexecuted
    exact hordered.rank_lt hinv hlt h₁ h₂ hp₁ hp₂
  . intro hnot
    exact ⟨_, ⟨_, _, rfl⟩, hpunctual.waiting n₂ x₂ lambda h₂ heligible₂ hdelay₂ hnot⟩

theorem sends_initial {a : Action N S M} (hst : s.step neighborsFor a = some s')
    : s.sends <+: s'.sends := by
  have haccepts := accepts S neighborsFor s
  cases a with
  | send event delay ids =>
    cases event with
    | signal signal =>
      rw [haccepts.signal, Option.some.injEq] at hst
      rw [hst]
    | message msg =>
      obtain ⟨t, ht, hsends, -⟩ := haccepts.message msg delay ids
      rw [ht, Option.some.injEq] at hst
      rw [← hst, hsends]
      exact List.prefix_append _ _
  | kernel a => rw [haccepts.kernel a s' hst]

theorem sends_initial_of_path
    (h : (SimRun.lts S neighborsFor).Path (fun s a _ => Regular neighborsFor lambda s a) s s')
    : s.sends <+: s'.sends := by
  apply h.stable (I := fun t => s.sends <+: t.sends) _ (List.prefix_refl _)
  intro t a u ht hst _
  exact ht.trans (sends_initial hst)

/--
A call of `send` at `s`, from which the run goes on.
-/
structure Sends (S : Type) (neighborsFor : PID N → Option (Finset (PID N))) (lambda : Time)
    (s : SimRun N M) (m : M) (s' : SimRun N M) : Prop where
  step : ∃ ids, s.step neighborsFor
      (.send (.message m) (delayForMessage lambda) ids : Action N S M) = some s'
    ∧ Regular neighborsFor lambda s (.send (.message m) (delayForMessage lambda) ids : Action N S M)

theorem Sends.reach {m : M} (h : Sends S neighborsFor lambda s m s')
    (hs : (SimRun.lts S neighborsFor).Reach (fun s a _ => Regular neighborsFor lambda s a) s)
    : (SimRun.lts S neighborsFor).Reach (fun s a _ => Regular neighborsFor lambda s a) s' := by
  obtain ⟨ids, hst, hreg⟩ := h.step
  exact hs.next _ hst hreg

theorem Sends.getElem? {m : M} (h : Sends S neighborsFor lambda s m s')
    : ∃ ids, s'.sends[s.sends.length]?
        = some ⟨m, s.run.sched.currentTime, delayForMessage lambda, ids⟩ := by
  obtain ⟨ids, hst, -⟩ := h.step
  cases hst
  exact ⟨ids, List.getElem?_concat_length⟩

theorem fifo {s₁ s₁' s₂ s₂' : SimRun N M} {m₁ m₂ : M}
    (h₁ : (SimRun.lts S neighborsFor).Reach (fun s a _ => Regular neighborsFor lambda s a) s₁)
    (hsend₁ : Sends S neighborsFor lambda s₁ m₁ s₁')
    (hpath : (SimRun.lts S neighborsFor).Path (fun s a _ => Regular neighborsFor lambda s a) s₁' s₂)
    (hsend₂ : Sends S neighborsFor lambda s₂ m₂ s₂')
    (hpath' : (SimRun.lts S neighborsFor).Path (fun s a _ => Regular neighborsFor lambda s a) s₂' s)
    {q : PID N} (heligible₁ : Eligible neighborsFor m₁ q) (heligible₂ : Eligible neighborsFor m₂ q)
    : InOrder s q s₁.sends.length s₂.sends.length m₁ m₂
        (max (s₂.run.sched.currentTime.toInt + lambda.toInt) (s₂.run.sched.currentTime.toInt + 1)) := by
  have hreach := hpath'.reach (hsend₂.reach (hpath.reach (hsend₁.reach h₁)))
  obtain ⟨ids₁, hx₁⟩ := hsend₁.getElem?
  obtain ⟨ids₂, hx₂⟩ := hsend₂.getElem?
  have hprefix₁ := sends_initial_of_path hpath
  have hprefix₂ := sends_initial_of_path hpath'
  obtain ⟨ids, hst₂, -⟩ := hsend₂.step
  have hx₁' := Record.getElem?_of_prefix hprefix₁ hx₁
  have hlt := (List.getElem?_eq_some_iff.mp hx₁').1
  exact inOrder_of_sends hreach hlt
    (Record.getElem?_of_prefix ((sends_initial hst₂).trans hprefix₂) hx₁')
    (Record.getElem?_of_prefix hprefix₂ hx₂) heligible₁ heligible₂

/--
Without a delay, `p0` sends to `p1`, and again from within the action of the task of the first
message. Both arrive, one clock tick apart.
-/
theorem fifo_zero
    : ∃ s : SimRun 2 (AppMessage 2 Nat),
        (SimRun.lts Empty Network.clique).Reach (fun s a _ => Regular Network.clique 0 s a) s
          ∧ s.received 1 = [⟨1, 0, .unicast 0 1 7⟩, ⟨2, 1, .unicast 0 1 8⟩]
          ∧ InOrder s 1 0 1 (.unicast 0 1 7) (.unicast 0 1 8) 2 := by
  let ok : SimRun 2 (AppMessage 2 Nat) → Action 2 Empty (AppMessage 2 Nat) →
    SimRun 2 (AppMessage 2 Nat) → Prop := fun s a _ => Regular Network.clique 0 s a
  let x : Sent 2 (AppMessage 2 Nat) := ⟨.unicast 0 1 7, 0, delayForMessage 0, fun _ => 0⟩
  let y : Sent 2 (AppMessage 2 Nat) := ⟨.unicast 0 1 8, 1, delayForMessage 0, fun _ => 1⟩
  let t : Stamped (Job 2 (AppMessage 2 Nat)) := x.stamped 0 (⟨1, x.msg⟩, 0)
  let u : Stamped (Job 2 (AppMessage 2 Nat)) := y.stamped 1 (⟨1, y.msg⟩, 0)
  let s₁ : SimRun 2 (AppMessage 2 Nat) := ⟨{ sched := ⟨[t], 0⟩, scheduled := [t] }, [x]⟩
  let s₂ : SimRun 2 (AppMessage 2 Nat) :=
    ⟨{ sched := ⟨[u], 1⟩, running := some t, scheduled := [t, u], executed := [(1, t)] }, [x, y]⟩
  have h0 : (SimRun.lts Empty Network.clique).Reach ok {} := .init rfl
  have hsend₁ : Sends Empty Network.clique 0 {} x.msg s₁ :=
    ⟨x.ids, rfl, ⟨⟨⟨by decide, by decide⟩, by decide⟩, by rintro _ _ _ ⟨⟩; rfl,
      by rintro _ _ _ ⟨⟩; decide⟩⟩
  have h1 := (hsend₁.reach h0).start ok
  have h2 : (SimRun.lts Empty Network.clique).Path ok s₁
      ⟨{ sched := ⟨[], 1⟩, batch := [t], scheduled := [t] }, [x]⟩ :=
    h1.next (.kernel .executeNext) rfl ⟨⟨.of_room (by decide), nofun, nofun⟩, nofun, nofun⟩
  have h3 := h2.next (.kernel .call) rfl ⟨⟨.of_call, nofun, nofun⟩, nofun, nofun⟩
  have hsend₂ : Sends Empty Network.clique 0
      ⟨{ sched := ⟨[], 1⟩, running := some t, scheduled := [t], executed := [(1, t)] }, [x]⟩ y.msg s₂ :=
    ⟨y.ids, rfl, ⟨⟨⟨by decide, by decide⟩, by decide⟩, by rintro _ _ _ ⟨⟩; rfl,
      by rintro _ _ _ ⟨⟩; decide⟩⟩
  have h4 := (hsend₂.reach (h3.reach (hsend₁.reach h0))).start ok
  have h5 := h4.next (.kernel (.finish false)) rfl ⟨⟨.of_finish, nofun, nofun⟩, nofun, nofun⟩
  have h6 : (SimRun.lts Empty Network.clique).Path ok s₂
      ⟨{ sched := ⟨[], 2⟩, batch := [u], scheduled := [t, u], executed := [(1, t)] }, [x, y]⟩ :=
    h5.next (.kernel .executeNext) rfl ⟨⟨.of_room (by decide), nofun, nofun⟩, nofun, nofun⟩
  have h7 := h6.next (.kernel .call) rfl ⟨⟨.of_call, nofun, nofun⟩, nofun, nofun⟩
  have hx : Eligible Network.clique x.msg 1 := ⟨by decide, by decide⟩
  have hy : Eligible Network.clique y.msg 1 := ⟨by decide, by decide⟩
  have hreach := h7.reach (hsend₂.reach (h3.reach (hsend₁.reach h0)))
  exact ⟨_, hreach, by decide, fifo h0 hsend₁ h3 hsend₂ h7 hx hy⟩

end ConstantSimNetwork
