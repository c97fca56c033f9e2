import ScalaNeko.Kernel.Impl.Simulator
import ScalaNeko.Kernel.Lemmas.Pending

/-!
The loop at the end of a simulation executes the tasks that are not daemons and ends.
-/

namespace Kernel

open Simulator

variable {A : Type}

-- The task was made a daemon when it was first scheduled.
def Stamped.Daemon (r : Run A) (t : Stamped A) : Prop :=
  ∃ u, u ∈ r.scheduled ∧ u.task.id = t.task.id ∧ u.task.isDaemon

/--
The actions schedule no task that is not a daemon and the clock does not overflow.
-/
structure Draining (r : Run A) (a : Action A) : Prop where
  regular : Regular r a
  daemon : ∀ task, a = .schedule task → task.isDaemon
  periodic : ∀ t, a = .finish true → r.running = some t → ¬ t.task.isSimple → t.Daemon r

-- No periodic task that is a daemon asks for its next execution.
def NoDaemonRepeats (r : Run A) (a : Action A) : Prop :=
  ∀ t, a = .finish true → r.running = some t → t.Daemon r → t.task.isSimple

def Drained (r : Run A) (a : Action A) : Prop := Draining r a ∧ NoDaemonRepeats r a

def Run.userTasks (r : Run A) : List (Stamped A) :=
  r.sched.taskQueue.filter (fun t => !t.task.isDaemon)

-- The largest time of a pending task that is not a daemon.
def Run.lastTime (r : Run A) : Option Int := (r.userTasks.map (fun t => t.task.time.toInt)).max?

structure Ends (r : Run A) (n : Nat) (r' : Run A) : Prop where
  bound : ∀ last, r.lastTime = some last →
    (n : Int) ≤ max 1 (last - r.sched.currentTime.toInt)
  idle : r.lastTime = none → n = 0
  proceed : r'.sched.nonEmptyBesideDaemons → r'.sched.currentTime < Int64.maxValue →
    ∃ r'', AdvanceTime Drained r' r''
  once : ¬ r'.sched.nonEmptyBesideDaemons → ∃ ids, r'.cancelled = ids ++ r.cancelled
    ∧ (r'.executed.map Prod.snd).Nodup
    ∧ ∀ t, t ∈ r.userTasks → t.task.id ∉ ids →
        t ∉ r.executed.map Prod.snd ∧ t ∈ r'.executed.map Prod.snd

variable {r r' r'' : Run A} {t : Stamped A}

theorem Drain.enter {ok : Run A → Action A → Prop}
    (_ : (Run.lts A).Reach (fun r a _ => Regular r a) r)
    : Drain ok r 0 r :=
  .start

theorem step_live {a : Action A} (hst : r.step a = some r')
    (ht : t ∈ r'.running.toList ++ r'.batch ++ r'.sched.taskQueue)
    : t ∈ r.running.toList ++ r.batch ++ r.sched.taskQueue
        ∨ a = .schedule t.task
        ∨ ∃ u willReschedule, a = .finish willReschedule ∧ r.running = some u
            ∧ u.task.next r.sched.currentTime willReschedule = some t.task := by
  cases a with
  | schedule task =>
    cases hst
    rw [List.mem_append] at ht
    rcases ht with ht | ht
    . exact .inl (List.mem_append_left _ ht)
    . rcases SortedSet.mem_of_mem_insert ht with rfl | ht
      . exact .inr (.inl rfl)
      . exact .inl (List.mem_append_right _ ht)
  | cancel taskID =>
    cases hst
    rw [List.mem_append] at ht
    exact .inl (List.mem_append.mpr (ht.imp (fun hb => hb) List.mem_of_mem_filter))
  | executeNext =>
    obtain ⟨-, hrunning, rfl⟩ := step_executeNext hst
    rw [hrunning] at ht
    exact .inl (List.mem_append_right _ (executeNext_subset _ ht))
  | call =>
    obtain ⟨u, batch, hbatch, hrunning, rfl⟩ := step_call hst
    rw [hbatch, hrunning]
    exact .inl ht
  | finish willReschedule =>
    obtain ⟨u, hrunning, hst⟩ := step_finish hst
    have hstop : t ∈ r.batch ++ r.sched.taskQueue →
        t ∈ r.running.toList ++ r.batch ++ r.sched.taskQueue := by
      rw [List.append_assoc]
      exact List.mem_append_right _
    rcases hst with rfl | ⟨task, hnext, rfl⟩
    . exact .inl (hstop ht)
    . rw [List.mem_append] at ht
      rcases ht with ht | ht
      . exact .inl (hstop (List.mem_append_left _ ht))
      . rcases SortedSet.mem_of_mem_insert ht with rfl | ht
        . exact .inr (.inr ⟨u, willReschedule, rfl, hrunning, hnext⟩)
        . exact .inl (hstop (List.mem_append_right _ ht))

theorem step_cancelled {a : Action A} (hst : r.step a = some r')
    : (∀ taskID, a ≠ .cancel taskID) ∧ r'.cancelled = r.cancelled
      ∨ ∃ taskID, a = .cancel taskID ∧ r'.cancelled = taskID :: r.cancelled := by
  cases a with
  | schedule task =>
    cases hst
    exact .inl ⟨nofun, rfl⟩
  | cancel taskID =>
    cases hst
    exact .inr ⟨taskID, rfl, rfl⟩
  | executeNext =>
    obtain ⟨-, -, rfl⟩ := step_executeNext hst
    exact .inl ⟨nofun, rfl⟩
  | call =>
    obtain ⟨u, batch, -, -, rfl⟩ := step_call hst
    exact .inl ⟨nofun, rfl⟩
  | finish willReschedule =>
    obtain ⟨u, -, hst⟩ := step_finish hst
    rcases hst with rfl | ⟨task, -, rfl⟩
    . exact .inl ⟨nofun, rfl⟩
    . exact .inl ⟨nofun, rfl⟩

theorem Drained.next_isDaemon {task : KernelTask A} {u : Stamped A} {willReschedule : Bool}
    (h : Drained r (.finish willReschedule)) (hrunning : r.running = some u)
    : u.task.next r.sched.currentTime willReschedule ≠ some task := by
  intro hnext
  have hperiodic := (KernelTask.next_eq_some hnext).1
  cases willReschedule with
  | true => exact hperiodic (h.2 u rfl hrunning (h.1.periodic u rfl hrunning hperiodic))
  | false =>
    rw [KernelTask.next_false] at hnext
    cases hnext

/--
What holds in every state `r'` of the loop that is entered in the state `r`.
-/
structure Since (r r' : Run A) : Prop where
  reach : (Run.lts A).Reach (fun r a _ => Regular r a) r'
  old : ∀ t, t ∈ r'.running.toList ++ r'.batch ++ r'.sched.taskQueue → ¬ t.task.isDaemon →
    t ∈ r.sched.taskQueue
  held : ∃ ids, r'.cancelled = ids ++ r.cancelled
    ∧ ∀ t, t ∈ r.sched.taskQueue → t.task.id ∉ ids → Held r' t

theorem Since.step {a : Action A} (h : Since r r') (hst : r'.step a = some r'')
    (hok : Drained r' a)
    : Since r r'' := by
  refine ⟨h.reach.next a hst hok.1.regular, ?_, ?_⟩
  . intro t ht hdaemon
    rcases step_live hst ht with ht | rfl | ⟨u, willReschedule, rfl, hrunning, hnext⟩
    . exact h.old t ht hdaemon
    . exact absurd (hok.1.daemon _ rfl) hdaemon
    . exact absurd hnext (hok.next_isDaemon hrunning)
  . obtain ⟨ids, heq, hheld⟩ := h.held
    rcases step_cancelled hst with ⟨hne, hsame⟩ | ⟨taskID, rfl, hcons⟩
    . refine ⟨ids, hsame.trans heq, ?_⟩
      intro t ht hid
      exact (hheld t ht hid).step hst (hne _)
    . refine ⟨taskID :: ids, by rw [hcons, heq, List.cons_append], ?_⟩
      intro t ht hid
      rw [List.mem_cons, not_or] at hid
      apply (hheld t ht hid.2).step hst
      intro hcancel
      cases hcancel
      exact hid.1 rfl

theorem Since.start (hreach : (Run.lts A).Reach (fun r a _ => Regular r a) r) (hbatch : r.batch = [])
    (hrunning : r.running = none)
    : Since r r := by
  refine ⟨hreach, ?_, [], rfl, ?_⟩
  . intro t ht _
    rwa [hbatch, hrunning] at ht
  . intro t ht _
    exact ⟨.inl ht⟩

theorem Since.advanceTime (h : Since r r') (hqueue : r'.sched.taskQueue ≠ [])
    (hadvance : AdvanceTime Drained r' r'')
    : Since r r'' ∧ r'.sched.currentTime.toInt < r''.sched.currentTime.toInt := by
  cases hadvance with
  | @intro r₁ _ hst hok hpath =>
    have hclock : r'.sched.currentTime.toInt < r₁.sched.currentTime.toInt :=
      Int64.lt_iff_toInt_lt.mp ((currentTime_executeNext hst hok.1.regular).1 hqueue)
    apply LTS.Path.stable
      (I := fun s => Since r s ∧ r'.sched.currentTime.toInt < s.sched.currentTime.toInt) _ hpath
      ⟨h.step hst hok, hclock⟩
    rintro s a s' ⟨hs, hlt⟩ hst' ⟨-, hok'⟩
    exact ⟨hs.step hst' hok', Int.lt_of_lt_of_le hlt (currentTime_le hst' hok'.1.regular)⟩

theorem exists_user_of_nonEmpty (h : r.sched.nonEmptyBesideDaemons)
    : ∃ t, t ∈ r.sched.taskQueue ∧ ¬ t.task.isDaemon := by
  simpa [Scheduler.nonEmptyBesideDaemons, Task.isDaemon] using h

theorem AdvanceTime.quiet (h : AdvanceTime Drained r r') : r'.batch = [] ∧ r'.running = none := by
  cases h with
  | intro _ _ _ hbatch hrunning => exact ⟨hbatch, hrunning⟩

/--
What holds after `n` iterations. A task that is not a daemon and still waits is due later than the
clock, which each iteration has moved.
-/
theorem Drain.spec {n : Nat} (h : Drain Drained r n r')
    (hreach : (Run.lts A).Reach (fun r a _ => Regular r a) r) (hbatch : r.batch = [])
    (hrunning : r.running = none)
    : Since r r' ∧ r'.batch = [] ∧ r'.running = none
        ∧ r.sched.currentTime.toInt + n ≤ r'.sched.currentTime.toInt
        ∧ (n = 0 ∨ ∃ t, t ∈ r.userTasks
            ∧ (n : Int) ≤ max 1 (t.task.time.toInt - r.sched.currentTime.toInt)) := by
  induction h with
  | start => exact ⟨.start hreach hbatch hrunning, hbatch, hrunning, by simp, .inl rfl⟩
  | @next n r₁ r' _ hguard hadvance ih =>
    obtain ⟨hsince, hbatch₁, hrunning₁, hclock, -⟩ := ih
    obtain ⟨t, ht, hdaemon⟩ := exists_user_of_nonEmpty hguard
    obtain ⟨hsince', hlt⟩ := hsince.advanceTime (List.ne_nil_of_mem ht) hadvance
    have hquiet := AdvanceTime.quiet hadvance
    refine ⟨hsince', hquiet.1, hquiet.2, by push_cast; omega, .inr ⟨t, ?_, ?_⟩⟩
    . have hold := hsince.old t (List.mem_append_right _ ht) hdaemon
      exact List.mem_filter.mpr ⟨hold, by simpa using hdaemon⟩
    . have hold := hsince.old t (List.mem_append_right _ ht) hdaemon
      have hentry := ((inv_of_reach hreach).pending t hold).1
      have hlater := ((inv_of_reach hsince.reach).pending t ht).2
      rw [Stamped.due] at hlater
      push_cast
      omega

theorem le_lastTime {last : Int} (hlast : r.lastTime = some last) (ht : t ∈ r.userTasks)
    : t.task.time.toInt ≤ last :=
  (List.max?_eq_some_iff.mp hlast).2 _ (List.mem_map_of_mem ht)

theorem userTasks_eq_nil (hlast : r.lastTime = none) : r.userTasks = [] :=
  List.map_eq_nil_iff.mp (List.max?_eq_none_iff.mp hlast)

theorem Inv.executed_nodup (h : Inv r) : (r.executed.map Prod.snd).Nodup := by
  have hordered := (List.pairwise_append.mp h.ordered).1
  apply hordered.imp
  rintro a b hlt rfl
  exact lt_irrefl _ hlt

theorem Inv.not_executed (h : Inv r) (ht : t ∈ r.sched.taskQueue)
    : t ∉ r.executed.map Prod.snd := by
  intro hmem
  obtain ⟨e, he, rfl⟩ := List.mem_map.mp hmem
  have hpending := (h.pending e.2 ht).2
  have hdue := (h.executed_due e he).2
  omega

theorem Draining.of_room (h : r.sched.currentTime < Int64.maxValue) : Draining r .executeNext :=
  ⟨.of_room h, nofun, nofun⟩

theorem Draining.of_call : Draining r .call := ⟨.of_call, nofun, nofun⟩

theorem Draining.of_finish : Draining r (.finish false) := ⟨.of_finish, nofun, nofun⟩

theorem Draining.of_repeats (hrunning : r.running = some t) (hdaemon : t.Daemon r)
    : Draining r (.finish true) := by
  refine ⟨.of_finish, nofun, ?_⟩
  intro u _ hu _
  rwa [Option.some.inj (hu.symm.trans hrunning)]

theorem Drained.of_room (h : r.sched.currentTime < Int64.maxValue) : Drained r .executeNext :=
  ⟨.of_room h, nofun⟩

theorem Drained.of_call : Drained r .call := ⟨.of_call, nofun⟩

theorem Drained.of_finish : Drained r (.finish false) := ⟨.of_finish, nofun⟩

theorem exists_quiet {r₁ : Run A}
    (hpath : (Run.lts A).Path (fun r a _ => Action.Inside r a ∧ Drained r a) r₁ r)
    : ∃ r', (Run.lts A).Path (fun r a _ => Action.Inside r a ∧ Drained r a) r₁ r'
        ∧ r'.batch = [] ∧ r'.running = none := by
  induction hn : 2 * r.batch.length + r.running.toList.length using Nat.strongRecOn
    generalizing r with
  | ind n ih =>
    subst hn
    cases hrunning : r.running with
    | some u =>
      have hst : r.step (.finish false) = some { r with running := none } := by
        simp only [Run.step, hrunning, KernelTask.next_false]
      apply ih _ _ (hpath.next _ hst ⟨trivial, .of_finish⟩) rfl
      simp [hrunning]
    | none =>
      cases hbatch : r.batch with
      | nil => exact ⟨r, hpath, hbatch, hrunning⟩
      | cons u batch =>
        have hst : r.step .call = some { r with
            batch
            running := some u
            executed := r.executed ++ [(r.sched.currentTime, u)] } := by
          simp only [Run.step, hbatch, hrunning]
        apply ih _ _ (hpath.next _ hst ⟨trivial, .of_call⟩) rfl
        simp [hbatch, hrunning]
        omega

theorem exists_advanceTime (hbatch : r.batch = []) (hrunning : r.running = none)
    (hroom : r.sched.currentTime < Int64.maxValue)
    : ∃ r', AdvanceTime Drained r r' := by
  have hst : r.step .executeNext = some { r with
      sched := r.sched.executeNext.1
      batch := r.sched.executeNext.2.getD [] } := by
    simp only [Run.step, hbatch, hrunning]
  obtain ⟨r', hpath, hbatch', hrunning'⟩ := exists_quiet .refl
  exact ⟨r', .intro hst (.of_room hroom) hpath hbatch' hrunning'⟩

/--
The states of the loop that ends a simulation, as long as no daemon repeats itself by being periodic.
-/
theorem ends_of_drain {n : Nat} (hreach : (Run.lts A).Reach (fun r a _ => Regular r a) r)
    (hbatch : r.batch = []) (hrunning : r.running = none) (h : Drain Drained r n r')
    : Ends r n r' := by
  obtain ⟨hsince, hbatch', hrunning', -, hbound⟩ := Drain.spec h hreach hbatch hrunning
  constructor
  . intro last hlast
    rcases hbound with rfl | ⟨t, ht, hle⟩
    . omega
    . have := le_lastTime hlast ht
      omega
  . intro hlast
    rcases hbound with rfl | ⟨t, ht, -⟩
    . rfl
    . rw [userTasks_eq_nil hlast] at ht
      cases ht
  . intro _ hroom
    exact exists_advanceTime hbatch' hrunning' hroom
  . intro hguard
    have hinv := inv_of_reach hsince.reach
    obtain ⟨ids, heq, hheld⟩ := hsince.held
    refine ⟨ids, heq, hinv.executed_nodup, ?_⟩
    intro t ht hid
    obtain ⟨hq, hdaemon⟩ := List.mem_filter.mp ht
    refine ⟨(inv_of_reach hreach).not_executed hq, ?_⟩
    rcases (hheld t hq hid).somewhere with hq' | hb | he
    . refine absurd ?_ hguard
      exact List.any_eq_true.mpr ⟨t, hq', hdaemon⟩
    . rw [hbatch'] at hb
      cases hb
    . exact he

theorem ends_of_drain_twice
    : ∃ r r' : Run Unit, r.lastTime = some 2 ∧ Ends r 2 r'
        ∧ ¬ r'.sched.nonEmptyBesideDaemons ∧ r'.sched.taskQueue.map (fun t => t.task.id) = [2] := by
  have h0 : (Run.lts Unit).Reach (fun r a _ => Regular r a) {} := .init rfl
  have h1 := h0.next (.schedule (.simple 2 () 0 false)) rfl (.of_fresh (by decide))
  have h2 := h1.next (.schedule (.simple 1 () 1 true)) rfl (.of_fresh (by decide))
  have hdaemon : ∀ r : Run Unit, (∀ t, t ∈ r.scheduled → t.task.id ≠ 2) →
      Drained r (.schedule (.simple 9 () 2 true)) := by
    intro r hfresh
    refine ⟨⟨.of_fresh hfresh, ?_, nofun⟩, nofun⟩
    rintro _ ⟨⟩
    rfl
  have h3 := h2.next .executeNext rfl (.of_room (by decide))
  have h4 := h3.next .call rfl .of_call
  have h5 := h4.next (.schedule (.simple 9 () 2 true)) rfl (.of_fresh (by decide))
  have h6 := h5.next (.finish false) rfl .of_finish
  have h7 := h6.next .executeNext rfl (.of_room (by decide))
  have p4 := (h3.start (fun r a _ => Action.Inside r a ∧ Drained r a)).next .call rfl
    ⟨trivial, .of_call⟩
  have p5 := p4.next (.schedule (.simple 9 () 2 true)) rfl
    ⟨Option.some_ne_none _, hdaemon _ (by decide)⟩
  have p6 := p5.next (.finish false) rfl ⟨trivial, .of_finish⟩
  have p8 := (h7.start (fun r a _ => Action.Inside r a ∧ Drained r a)).next .call rfl
    ⟨trivial, .of_call⟩
  have p9 := p8.next (.finish false) rfl ⟨trivial, .of_finish⟩
  have d1 := (Drain.enter h2).next (by decide) (.intro rfl (.of_room (by decide)) p6 rfl rfl)
  have d2 := d1.next (by decide) (.intro rfl (.of_room (by decide)) p9 rfl rfl)
  exact ⟨_, _, by decide, ends_of_drain h2 rfl rfl d2, by decide, by decide⟩

/--
After a periodic task has asked for its next execution the loop goes on.
-/
theorem nonEmpty_of_repeats (hinv : Inv r) (hrunning : r.running = some t)
    (hperiodic : ¬ t.task.isSimple) (hst : r.step (.finish true) = some r')
    : r'.sched.nonEmptyBesideDaemons := by
  cases htask : t.task with
  | simple =>
    rw [htask] at hperiodic
    exact absurd rfl hperiodic
  | periodic time period repeatAction id daemon =>
    simp only [Run.step, hrunning, htask, KernelTask.next, if_true, Option.some.injEq] at hst
    have hmem := mem_schedule (r := { r with running := none })
      (.periodic (r.sched.currentTime + period) period repeatAction id false) (by
        intro u hu
        have hne := hinv.ne_of_running hrunning (.inl hu)
        rwa [htask] at hne)
    rw [← hst]
    exact List.any_eq_true.mpr ⟨_, hmem, rfl⟩

-- The copy of a daemon with the period 1 is the only task.
structure Repeating (r : Run Unit) : Prop where
  queue : r.sched.taskQueue
    = [⟨.periodic (r.sched.currentTime + 1) 1 () 1 false, r.sched.currentTime⟩]
  batch : r.batch = []
  running : r.running = none
  daemon : ∃ u, u ∈ r.scheduled ∧ u.task.id = 1 ∧ u.task.isDaemon

theorem Repeating.nonEmpty {r : Run Unit} (h : Repeating r) : r.sched.nonEmptyBesideDaemons := by
  rw [Scheduler.nonEmptyBesideDaemons, h.queue]
  rfl

theorem toInt_succ {now : Time} (hroom : now < Int64.maxValue) : (now + 1).toInt = now.toInt + 1 := by
  have hlt := Int64.lt_iff_toInt_lt.mp hroom
  rw [Int64.toInt_maxValue] at hlt
  have hlo := Int64.le_toInt now
  have hone : (1 : Int64).toInt = 1 := rfl
  rw [Int64.toInt_add_of_range, hone]
  . omega
  . omega

theorem Repeating.executeNext {r : Run Unit} (h : Repeating r)
    (hroom : r.sched.currentTime < Int64.maxValue)
    : r.sched.executeNext = (⟨[], r.sched.currentTime + 1⟩,
        some [⟨.periodic (r.sched.currentTime + 1) 1 () 1 false, r.sched.currentTime⟩]) := by
  obtain ⟨now, hnow, hnext⟩ := executeNext_cons h.queue hroom
  have hsucc := toInt_succ hroom
  obtain rfl : now = r.sched.currentTime + 1 := by
    rw [← Int64.toInt_inj, hnow, hsucc, KernelTask.time, hsucc]
    exact max_self _
  rw [hnext, h.queue]
  simp [KernelTask.time]

theorem Repeating.advanceTime {r : Run Unit} (h : Repeating r)
    (hroom : r.sched.currentTime < Int64.maxValue)
    : ∃ r', AdvanceTime Draining r r' ∧ Repeating r'
        ∧ r'.sched.currentTime = r.sched.currentTime + 1 := by
  let r₁ : Run Unit := { r with
    sched := ⟨[], r.sched.currentTime + 1⟩
    batch := [⟨.periodic (r.sched.currentTime + 1) 1 () 1 false, r.sched.currentTime⟩]
    running := none }
  have hst : r.step .executeNext = some r₁ := by
    simp only [Run.step, h.batch, h.running, h.executeNext hroom, Option.getD_some, r₁]
  have hstart : (Run.lts Unit).Path (fun r a _ => Action.Inside r a ∧ Draining r a) r₁ r₁ := .refl
  have hcall := hstart.next .call rfl ⟨trivial, .of_call⟩
  obtain ⟨u, hu, hid, hdaemon⟩ := h.daemon
  have hfinish := hcall.next (.finish true) rfl
    ⟨trivial, .of_repeats rfl ⟨u, hu, hid, hdaemon⟩⟩
  refine ⟨_, .intro hst (.of_room hroom) hfinish rfl rfl, ⟨rfl, rfl, rfl, ?_⟩, rfl⟩
  exact ⟨u, List.mem_append_left _ hu, hid, hdaemon⟩

theorem Repeating.drain {r r₁ : Run Unit} (hdrain : Drain Draining r 1 r₁) (h : Repeating r₁)
    (hclock : r₁.sched.currentTime.toInt = 1) {n : Nat} (hn : n < 2 ^ 62)
    : ∃ r', Drain Draining r (n + 1) r' ∧ Repeating r'
        ∧ r'.sched.currentTime.toInt = n + 1 := by
  induction n with
  | zero => exact ⟨r₁, hdrain, h, hclock⟩
  | succ n ih =>
    obtain ⟨r', hdrain, hr', hclock⟩ := ih (by omega)
    have hroom : r'.sched.currentTime < Int64.maxValue := by
      rw [Int64.lt_iff_toInt_lt, Int64.toInt_maxValue, hclock]
      omega
    obtain ⟨r'', hadvance, hr'', heq⟩ := hr'.advanceTime hroom
    refine ⟨r'', hdrain.next hr'.nonEmpty hadvance, hr'', ?_⟩
    rw [heq, toInt_succ hroom, hclock]
    rfl

/--
The copy of a periodic task is not a daemon, and the loop runs for as long as it repeats itself.
-/
theorem drain_of_daemon_repeats
    : ∃ r : Run Unit, (Run.lts Unit).Reach (fun r a _ => Regular r a) r
        ∧ r.batch = [] ∧ r.running = none ∧ r.sched.currentTime = 0 ∧ r.lastTime = some 1
        ∧ ∀ n : Nat, n < 2 ^ 62 → ∃ r', Drain Draining r n r' ∧ r'.sched.nonEmptyBesideDaemons := by
  have h0 : (Run.lts Unit).Reach (fun r a _ => Regular r a) {} := .init rfl
  have h1 := h0.next (.schedule (.simple 1 () 0 false)) rfl (.of_fresh (by decide))
  have h2 := h1.next (.schedule (.periodic 1 1 () 1 true)) rfl (.of_fresh (by decide))
  have h3 := h2.next .executeNext rfl (.of_room (by decide))
  have p4 := (h3.start (fun r a _ => Action.Inside r a ∧ Draining r a)).next .call rfl
    ⟨trivial, .of_call⟩
  have p5 := p4.next (.finish false) rfl ⟨trivial, .of_finish⟩
  have p6 := p5.next .call rfl ⟨trivial, .of_call⟩
  have p7 := p6.next (.finish true) rfl
    ⟨trivial, .of_repeats rfl ⟨⟨.periodic 1 1 () 1 true, 0⟩, .tail _ (.head _), rfl, rfl⟩⟩
  have d1 := (Drain.enter h2).next (by decide) (.intro rfl (.of_room (by decide)) p7 rfl rfl)
  refine ⟨_, h2, rfl, rfl, rfl, by decide, ?_⟩
  intro n hn
  cases n with
  | zero => exact ⟨_, .start, by decide⟩
  | succ n =>
    obtain ⟨r', hdrain, hr', -⟩ := Repeating.drain d1
      ⟨rfl, rfl, rfl, _, .tail _ (.head _), rfl, rfl⟩ rfl (Nat.lt_of_succ_lt hn)
    exact ⟨r', hdrain, hr'.nonEmpty⟩

end Kernel
