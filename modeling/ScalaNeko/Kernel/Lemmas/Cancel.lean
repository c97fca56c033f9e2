import ScalaNeko.Kernel.Lemmas.Pending

/-!
A task that is cancelled while it is in the queue is not started any more, and a task with another
identifier is left alone.
-/

namespace Kernel

variable {A : Type}

-- Tasks that `cancel` does not find in the queue and that can still be started or start again.
inductive Detached (r : Run A) (taskID : TaskID) : Prop where
  | batch {t : Stamped A} : t ∈ r.batch → t.task.id = taskID → Detached r taskID
  | running {t : Stamped A} : r.running = some t → ¬ t.task.isSimple → t.task.id = taskID →
      Detached r taskID

-- The user schedules no new task with the identifier `taskID`.
def Spares (taskID : TaskID) (a : Action A) : Prop :=
  ∀ task, a = .schedule task → task.id ≠ taskID

theorem Spares.of_ne {taskID : TaskID} {a : Action A} (h : ∀ task, a ≠ .schedule task)
    : Spares taskID a :=
  fun task heq => absurd heq (h task)

theorem Spares.of_call {taskID : TaskID} : Spares taskID (.call : Action A) := by
  apply Spares.of_ne
  rintro task ⟨⟩

theorem Spares.of_executeNext {taskID : TaskID} : Spares taskID (.executeNext : Action A) := by
  apply Spares.of_ne
  rintro task ⟨⟩

theorem Spares.of_finish {taskID : TaskID} {willReschedule : Bool}
    : Spares taskID (.finish willReschedule : Action A) := by
  apply Spares.of_ne
  rintro task ⟨⟩

structure Quiet (r : Run A) (taskID : TaskID) : Prop where
  attached : ¬ Detached r taskID
  absent : ∀ t, t ∈ r.sched.taskQueue → t.task.id ≠ taskID

variable {r r' r'' : Run A} {taskID : TaskID} {t : Stamped A}

theorem Quiet.schedule (h : Quiet r taskID) {task : KernelTask A} (hne : task.id ≠ taskID)
    : Quiet (r.schedule task) taskID := by
  constructor
  . intro hdetached
    apply h.attached
    cases hdetached with
    | batch hmem hid => exact .batch hmem hid
    | running hrunning hperiodic hid => exact .running hrunning hperiodic hid
  . intro t ht
    rcases SortedSet.mem_of_mem_insert ht with rfl | ht
    . exact hne
    . exact h.absent t ht

theorem Quiet.step {a : Action A} (h : Quiet r taskID) (hst : r.step a = some r')
    (hspares : Spares taskID a)
    : Quiet r' taskID ∧ r'.started taskID = r.started taskID := by
  cases a with
  | schedule task =>
    cases hst
    exact ⟨h.schedule (hspares task rfl), rfl⟩
  | cancel taskID' =>
    cases hst
    refine ⟨⟨?_, ?_⟩, rfl⟩
    . intro hdetached
      apply h.attached
      cases hdetached with
      | batch hmem hid => exact .batch hmem hid
      | running hrunning hperiodic hid => exact .running hrunning hperiodic hid
    . intro t ht
      exact h.absent t (List.mem_of_mem_filter ht)
  | executeNext =>
    obtain ⟨-, hrunning, rfl⟩ := step_executeNext hst
    refine ⟨⟨?_, ?_⟩, rfl⟩
    . intro hdetached
      cases hdetached with
      | batch hmem hid =>
        exact h.absent _ (executeNext_subset _ (List.mem_append_left _ hmem)) hid
      | running hsome =>
        rw [hrunning] at hsome
        cases hsome
    . intro t ht
      exact h.absent t (executeNext_subset _ (List.mem_append_right _ ht))
  | call =>
    obtain ⟨u, batch, hbatch, hrunning, rfl⟩ := step_call hst
    have hu : u.task.id ≠ taskID := by
      intro hid
      apply h.attached
      exact .batch (by rw [hbatch]; exact List.mem_cons_self) hid
    refine ⟨⟨?_, h.absent⟩, ?_⟩
    . intro hdetached
      cases hdetached with
      | batch hmem hid =>
        apply h.attached
        exact .batch (by rw [hbatch]; exact List.mem_cons_of_mem _ hmem) hid
      | running hsome hperiodic hid =>
        cases hsome
        exact hu hid
    . simp [Run.started, hu]
  | finish willReschedule =>
    obtain ⟨u, hrunning, hst⟩ := step_finish hst
    have hstop : Quiet { r with running := none } taskID := by
      refine ⟨?_, h.absent⟩
      intro hdetached
      cases hdetached with
      | batch hmem hid => exact h.attached (.batch hmem hid)
      | running hsome => cases hsome
    rcases hst with rfl | ⟨task, hnext, rfl⟩
    . exact ⟨hstop, rfl⟩
    . refine ⟨hstop.schedule ?_, rfl⟩
      obtain ⟨hperiodic, -, hid⟩ := KernelTask.next_eq_some hnext
      intro heq
      exact h.attached (.running hrunning hperiodic (hid.symm.trans heq))

theorem Quiet.path (h : Quiet r taskID)
    (hpath : (Run.lts A).Path (fun _ a _ => Spares taskID a) r r'')
    : r''.started taskID = r.started taskID := by
  have hquiet : Quiet r'' taskID ∧ r''.started taskID = r.started taskID := by
    apply LTS.Path.stable (I := fun s => Quiet s taskID ∧ s.started taskID = r.started taskID) _ hpath
      ⟨h, rfl⟩
    rintro s a s' ⟨hs, heq⟩ hst hspares
    obtain ⟨hs', heq'⟩ := hs.step hst hspares
    exact ⟨hs', heq'.trans heq⟩
  exact hquiet.2

theorem Quiet.of_cancel (hdetached : ¬ Detached r taskID)
    (hst : r.step (.cancel taskID) = some r')
    : Quiet r' taskID := by
  cases hst
  refine ⟨?_, ?_⟩
  . intro h
    apply hdetached
    cases h with
    | batch hmem hid => exact .batch hmem hid
    | running hrunning hperiodic hid => exact .running hrunning hperiodic hid
  . intro t ht
    have hne := (List.mem_filter.mp ht).2
    simpa [Task.id] using hne

section StartAgain

/-!
A task that waits for its execution is started in some run, whatever the clock does.
-/

-- The number of steps in which the scheduler executes all it holds, when nothing is rescheduled.
def Run.backlog (r : Run A) : Nat :=
  3 * r.sched.taskQueue.length + 2 * r.batch.length + r.running.toList.length

theorem length_executeNext {s : Scheduler (Stamped A)} (hne : s.taskQueue ≠ [])
    : (s.executeNext.2.getD []).length + s.executeNext.1.taskQueue.length = s.taskQueue.length
      ∧ s.executeNext.1.taskQueue.length < s.taskQueue.length := by
  obtain ⟨head, tail, hqueue⟩ := List.exists_cons_of_ne_nil hne
  have hhead : Task.time head ≤ max (s.currentTime + 1) (Task.time head) := by
    rw [Int64.le_iff_toInt_le, Int64.toInt_max]
    exact le_max_right _ _
  unfold Scheduler.executeNext
  rw [hqueue]
  dsimp only
  rw [List.partition_eq_filter_filter, Option.getD_some]
  dsimp only
  have hsplit := (List.filter_append_perm
    (fun t => decide (Task.time t ≤ max (s.currentTime + 1) (Task.time head))) (head :: tail)).length_eq
  rw [List.length_append] at hsplit
  refine ⟨hsplit, ?_⟩
  rw [List.filter_cons_of_neg (by simpa using hhead), List.length_cons]
  exact Nat.lt_succ_of_le (List.length_filter_le _ _)

theorem exists_started {goal : Nat} (hpath : (Run.lts A).Path (fun _ a _ => Spares taskID a) r' r)
    (ht : t ∈ r.sched.taskQueue ∨ t ∈ r.batch) (hid : t.task.id = taskID)
    (hgoal : goal ≤ (r.started taskID).length)
    : ∃ r'', (Run.lts A).Path (fun _ a _ => Spares taskID a) r' r''
        ∧ goal < (r''.started taskID).length := by
  induction hn : r.backlog using Nat.strongRecOn generalizing r with
  | ind n ih =>
    subst hn
    cases hrunning : r.running with
    | some u =>
      -- the action that runs ends
      have hst : r.step (.finish false) = some { r with running := none } := by
        simp only [Run.step, hrunning, KernelTask.next_false]
      apply ih _ _ (hpath.tail hst .of_finish) ht hgoal rfl
      simp [Run.backlog, hrunning]
    | none =>
      cases hbatch : r.batch with
      | cons u batch =>
        have hst : r.step .call = some { r with
            batch
            running := some u
            executed := r.executed ++ [(r.sched.currentTime, u)] } := by
          simp only [Run.step, hbatch, hrunning]
        have hnext := hpath.tail hst .of_call
        by_cases hu : u.task.id = taskID
        . refine ⟨_, hnext, ?_⟩
          simpa [Run.started, hu] using Nat.lt_succ_of_le hgoal
        . have ht' : t ∈ r.sched.taskQueue ∨ t ∈ batch := by
            rw [hbatch, List.mem_cons] at ht
            rcases ht with hq | rfl | hb
            . exact .inl hq
            . exact absurd hid hu
            . exact .inr hb
          apply ih _ _ hnext ht' _ rfl
          . simp [Run.backlog, hbatch, hrunning]
            omega
          . simpa [Run.started, hu] using hgoal
      | nil =>
        have hq : t ∈ r.sched.taskQueue := by
          rw [hbatch] at ht
          rcases ht with hq | hb
          . exact hq
          . cases hb
        have hst : r.step .executeNext = some { r with
            sched := r.sched.executeNext.1
            batch := r.sched.executeNext.2.getD [] } := by
          simp only [Run.step, hbatch, hrunning]
        have hlength := length_executeNext (List.ne_nil_of_mem hq)
        apply ih _ _ (hpath.tail hst .of_executeNext) (mem_executeNext _ hq) hgoal rfl
        simp only [Run.backlog, hbatch, hrunning]
        simp only [List.length_nil, Option.toList_none]
        omega

theorem Detached.started (h : Detached r taskID) (hst : r.step (.cancel taskID) = some r')
    : ∃ r'', (Run.lts A).Path (fun _ a _ => Spares taskID a) r' r''
        ∧ (r'.started taskID).length < (r''.started taskID).length := by
  cases h with
  | batch hmem hid =>
    cases hst
    exact exists_started .refl (.inr hmem) hid (Nat.le_refl _)
  | @running t hrunning hperiodic hid =>
    have hquiet : ∀ u, u ∈ r'.sched.taskQueue → u.task.id ≠ taskID := by
      intro u hu
      cases hst
      have hne := (List.mem_filter.mp hu).2
      simpa [Task.id] using hne
    have hrunning' : r'.running = some t := by
      cases hst
      exact hrunning
    obtain ⟨task, hnext⟩ : ∃ task, t.task.next r'.sched.currentTime true = some task := by
      cases htask : t.task with
      | simple => exact absurd (by rw [htask]; rfl) hperiodic
      | periodic => exact ⟨_, rfl⟩
    have hst' : r'.step (.finish true)
        = some (({ r' with running := none } : Run A).schedule task) := by
      simp only [Run.step, hrunning', hnext]
    have hid' : task.id = taskID := (KernelTask.next_eq_some hnext).2.2.trans hid
    have hmem : ⟨task, r'.sched.currentTime⟩
        ∈ (({ r' with running := none } : Run A).schedule task).sched.taskQueue := by
      apply mem_schedule
      intro u hu
      rw [hid']
      exact hquiet u hu
    exact exists_started (.tail .refl hst' .of_finish) (.inl hmem) hid' (Nat.le_refl _)

end StartAgain

/--
What it means to cancel `taskID` in the state `r`.
-/
structure Cancelled (r r' : Run A) (taskID : TaskID) : Prop where
  final : (∀ r'', (Run.lts A).Path (fun _ a _ => Spares taskID a) r' r'' →
      r''.started taskID = r'.started taskID)
    ↔ ¬ Detached r taskID
  kept : ∀ t, Held r t → t.task.id ≠ taskID →
    ∀ r'', (Run.lts A).Path (fun _ a _ => a ≠ .cancel t.task.id) r' r'' → Held r'' t
  punctual : (Run.lts A).Reach (fun r a _ => Regular r a) r → ∀ t, Held r t → t.task.id ≠ taskID →
    ∀ r'', (Run.lts A).Path (fun r a _ => Regular r a ∧ a ≠ .cancel t.task.id) r' r'' →
    Past r'' t.due → ∃ e, e ∈ r''.executed ∧ e.2 = t ∧ e.1.toInt = t.due

theorem cancelled_of_cancel (hst : r.step (.cancel taskID) = some r') : Cancelled r r' taskID := by
  have hkept : ∀ t, Held r t → t.task.id ≠ taskID → Held r' t := by
    intro t hheld hne
    apply hheld.step hst
    intro heq
    cases heq
    exact hne rfl
  constructor
  . constructor
    . intro hfinal hdetached
      obtain ⟨r'', hpath, hlt⟩ := hdetached.started hst
      rw [hfinal r'' hpath] at hlt
      exact Nat.lt_irrefl _ hlt
    . intro hdetached r'' hpath
      exact (Quiet.of_cancel hdetached hst).path hpath
  . intro t hheld hne r'' hpath
    apply LTS.Path.stable (I := fun s => Held s t) _ hpath (hkept t hheld hne)
    intro s a s' hs hst' hother
    exact hs.step hst' hother
  . intro hreach t hheld hne r'' hpath hpast
    have hend : (Run.lts A).Reach (fun r a _ => Regular r a) r'' ∧ Held r'' t := by
      apply LTS.Path.stable
        (I := fun s => (Run.lts A).Reach (fun r a _ => Regular r a) s ∧ Held s t) _ hpath
      . exact ⟨hreach.next _ hst .of_cancel, hkept t hheld hne⟩
      . rintro s a s' ⟨hs, hheld⟩ hst' ⟨hreg, hother⟩
        exact ⟨hs.next a hst' hreg, hheld.step hst' hother⟩
    have hinv := inv_of_reach hend.1
    obtain ⟨e, he, heq⟩ := List.mem_map.mp (hend.2.executed hinv hpast)
    refine ⟨e, he, heq, ?_⟩
    rw [(hinv.executed_due e he).1, heq]

theorem cancelled_of_cancel_queue
    : ∃ r r' : Run Unit, (Run.lts Unit).Reach (fun r a _ => Regular r a) r
        ∧ r.sched.taskQueue.map (fun t => t.task.id) = [1, 0]
        ∧ ¬ Detached r 1 ∧ Cancelled r r' 1 := by
  have h0 : (Run.lts Unit).Reach (fun r a _ => Regular r a) {} := .init rfl
  have h1 := h0.next (.schedule (.simple 5 () 0 false)) rfl (.of_fresh (by decide))
  have h2 := h1.next (.schedule (.periodic 2 3 () 1 false)) rfl (.of_fresh (by decide))
  refine ⟨_, _, h2, by decide, ?_, cancelled_of_cancel rfl⟩
  intro h
  cases h with
  | batch hmem => cases hmem
  | running hsome => cases hsome

/--
A task of the batch that is under execution is started although an earlier task of the batch has
cancelled it.
-/
theorem started_of_cancel_batch
    : ∃ r r' r'' : Run Unit, (Run.lts Unit).Reach (fun r a _ => Regular r a) r
        ∧ r.step (.cancel 1) = some r'
        ∧ (Run.lts Unit).Path (fun _ a _ => Spares 1 a) r' r''
        ∧ r'.started 1 = [] ∧ (r''.started 1).map (fun e => e.2.task.id) = [1] := by
  have h0 : (Run.lts Unit).Reach (fun r a _ => Regular r a) {} := .init rfl
  have h1 := h0.next (.schedule (.simple 5 () 0 false)) rfl (.of_fresh (by decide))
  have h2 := h1.next (.schedule (.simple 5 () 1 false)) rfl (.of_fresh (by decide))
  have h3 := h2.next .executeNext rfl (.of_room (by decide))
  have h4 := h3.next .call rfl .of_call
  have h5 := (h4.next (.cancel 1) rfl .of_cancel).start (fun _ a _ => Spares 1 a)
  have h6 := h5.next (.finish false) rfl .of_finish
  have h7 := h6.next .call rfl .of_call
  exact ⟨_, _, _, h4, rfl, h7, by decide, by decide⟩

end Kernel
