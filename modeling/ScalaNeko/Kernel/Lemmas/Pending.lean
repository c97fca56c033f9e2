import Mathlib.Data.List.Sort
import ScalaNeko.Kernel.Lemmas.Scheduler

/-!
A task that nobody cancels stays in the queue until it is executed.
-/

namespace Kernel

variable {A : Type}

structure Held (r : Run A) (t : Stamped A) : Prop where
  somewhere : t ∈ r.sched.taskQueue ∨ t ∈ r.batch ∨ t ∈ r.executed.map Prod.snd

def Run.started (r : Run A) (taskID : TaskID) : List (Time × Stamped A) :=
  r.executed.filter (fun e => e.2.task.id == taskID)

-- The scheduler has been run up to the clock value `c` and has called the actions that were due.
def Past (r : Run A) (c : Int) : Prop :=
  c < r.sched.currentTime.toInt ∨ c = r.sched.currentTime.toInt ∧ r.batch = []

instance (r : Run A) (c : Int) : Decidable (Past r c) :=
  haveI : Decidable (r.batch = []) := decidable_of_iff (r.batch.isEmpty = true) List.isEmpty_iff
  inferInstanceAs (Decidable (_ ∨ _))

variable {r r' : Run A} {t : Stamped A}

theorem Held.executed (h : Held r t) (hinv : Inv r) (hpast : Past r t.due)
    : t ∈ r.executed.map Prod.snd := by
  rcases h.somewhere with hq | hb | he
  . have hpending := (hinv.pending t hq).2
    rcases hpast with hlt | ⟨heq, -⟩
    . omega
    . omega
  . have hdue := hinv.batch_due t hb
    rcases hpast with hlt | ⟨-, hbatch⟩
    . omega
    . rw [hbatch] at hb
      cases hb
  . exact he

theorem Stamped.rank_lt {a b : Stamped A} (hdue : a.due ≤ b.due)
    (htime : a.task.time.toInt ≤ b.task.time.toInt) (hid : a.task.id < b.task.id)
    : a.rank < b.rank := by
  rcases Int.lt_or_eq_of_le hdue with hlt | heq
  . exact Stamped.rank_lt_of_due_lt hlt
  . apply Stamped.rank_lt_of_due_eq heq
    rw [Task.key, Task.key, Prod.Lex.toLex_lt_toLex]
    rcases Int.lt_or_eq_of_le htime with hlt | heq
    . exact .inl hlt
    . exact .inr ⟨heq, hid⟩

/--
A task is executed before all those of a higher rank.
-/
theorem Held.before {a b : Stamped A} (h : Held r a) (hinv : Inv r) (hrank : a.rank < b.rank)
    (hb : b ∈ r.executed.map Prod.snd)
    : [a, b].Sublist (r.executed.map Prod.snd) := by
  have hordered := List.pairwise_append.mp hinv.ordered
  obtain ⟨e, he, rfl⟩ := List.mem_map.mp hb
  have ha : a ∈ r.executed.map Prod.snd := by
    rcases h.somewhere with hq | hbatch | hexecuted
    . have hpending := (hinv.pending a hq).2
      have hpast := (hinv.executed_due e he).2
      have hlt : e.2.rank < a.rank := Stamped.rank_lt_of_due_lt (by omega)
      exact absurd hrank (lt_asymm hlt)
    . exact absurd hrank (lt_asymm (hordered.2.2 _ hb a hbatch))
    . exact hexecuted
  have hne : a ≠ e.2 := by
    rintro rfl
    exact lt_irrefl _ hrank
  have hantisymm : Std.Antisymm (fun a b : Stamped A => a.rank < b.rank) :=
    ⟨fun _ _ hab hba => absurd hab (lt_asymm hba)⟩
  apply List.sublist_of_subperm_of_pairwise (r := fun a b : Stamped A => a.rank < b.rank)
  . apply List.subperm_of_subset
    . simpa using hne
    . simp only [List.cons_subset, ha, hb, List.nil_subset, and_self]
  . simpa using hrank
  . exact hordered.1

theorem Held.schedule (h : Held r t) (task : KernelTask A) : Held (r.schedule task) t := by
  rcases h.somewhere with hq | hrest
  . exact ⟨.inl (SortedSet.mem_insert_of_mem hq)⟩
  . exact ⟨.inr hrest⟩

theorem Held.of_schedule {task : KernelTask A}
    (hnew : ∀ u, u ∈ r.sched.taskQueue → u.task.id ≠ task.id)
    : Held (r.schedule task) ⟨task, r.sched.currentTime⟩ :=
  ⟨.inl (mem_schedule _ hnew)⟩

theorem mem_executeNext (s : Scheduler (Stamped A)) (ht : t ∈ s.taskQueue)
    : t ∈ s.executeNext.1.taskQueue ∨ t ∈ s.executeNext.2.getD [] := by
  unfold Scheduler.executeNext
  split
  . next hqueue =>
    rw [hqueue] at ht
    cases ht
  . next head tail hqueue =>
    dsimp only
    rw [List.partition_eq_filter_filter]
    simp only [List.mem_filter, Option.getD_some, Function.comp_apply]
    by_cases hdue : Task.time t ≤ max (s.currentTime + 1) (Task.time head)
    . exact .inr ⟨ht, by simpa using hdue⟩
    . exact .inl ⟨ht, by simpa using hdue⟩

theorem Held.step {a : Action A} (h : Held r t) (hst : r.step a = some r')
    (hcancel : a ≠ .cancel t.task.id)
    : Held r' t := by
  cases a with
  | schedule task =>
    cases hst
    exact h.schedule task
  | cancel taskID =>
    cases hst
    rcases h.somewhere with hq | hrest
    . refine ⟨.inl (List.mem_filter.mpr ⟨hq, ?_⟩)⟩
      have hne : t.task.id ≠ taskID := fun heq => hcancel (congrArg Action.cancel heq.symm)
      simpa [Task.id] using hne
    . exact ⟨.inr hrest⟩
  | executeNext =>
    obtain ⟨hbatch, -, rfl⟩ := step_executeNext hst
    rcases h.somewhere with hq | hb | he
    . rcases mem_executeNext _ hq with hq | hb
      . exact ⟨.inl hq⟩
      . exact ⟨.inr (.inl hb)⟩
    . rw [hbatch] at hb
      cases hb
    . exact ⟨.inr (.inr he)⟩
  | call =>
    obtain ⟨u, batch, hbatch, -, rfl⟩ := step_call hst
    rcases h.somewhere with hq | hb | he
    . exact ⟨.inl hq⟩
    . rw [hbatch, List.mem_cons] at hb
      rcases hb with rfl | hb
      . exact ⟨.inr (.inr (by simp))⟩
      . exact ⟨.inr (.inl hb)⟩
    . refine ⟨.inr (.inr ?_)⟩
      rw [List.map_append]
      exact List.mem_append_left _ he
  | finish willReschedule =>
    obtain ⟨u, -, hst⟩ := step_finish hst
    have hstop : Held { r with running := none } t := ⟨h.somewhere⟩
    rcases hst with rfl | ⟨task, -, rfl⟩
    . exact hstop
    . exact hstop.schedule task

theorem Inv.ne_of_running {u : Stamped A} (h : Inv r) (hrunning : r.running = some u)
    (ht : t ∈ r.sched.taskQueue ∨ t ∈ r.batch)
    : t.task.id ≠ u.task.id := by
  have hlive := h.live
  rw [hrunning, Option.toList_some, List.append_assoc, List.singleton_append, List.map_cons,
    List.nodup_cons] at hlive
  intro hid
  apply hlive.1
  rw [← hid]
  exact List.mem_map_of_mem (List.mem_append.mpr ht.symm)

theorem KernelTask.next_false (task : KernelTask A) (now : Time) : task.next now false = none := by
  cases task <;> rfl

/--
What a step adds to the tasks ever scheduled.
-/
theorem step_scheduled {a : Action A} (hst : r.step a = some r')
    : r'.scheduled = r.scheduled
      ∨ ∃ task, r'.scheduled = r.scheduled ++ [⟨task, r.sched.currentTime⟩]
          ∧ (a = .schedule task
            ∨ ∃ u willReschedule, r.running = some u
                ∧ u.task.next r.sched.currentTime willReschedule = some task) := by
  cases a with
  | schedule task =>
    cases hst
    exact .inr ⟨task, rfl, .inl rfl⟩
  | cancel taskID =>
    cases hst
    exact .inl rfl
  | executeNext =>
    obtain ⟨-, -, rfl⟩ := step_executeNext hst
    exact .inl rfl
  | call =>
    obtain ⟨u, batch, -, -, rfl⟩ := step_call hst
    exact .inl rfl
  | finish willReschedule =>
    obtain ⟨u, hrunning, hst⟩ := step_finish hst
    rcases hst with rfl | ⟨task, hnext, rfl⟩
    . exact .inl rfl
    . exact .inr ⟨task, rfl, .inr ⟨u, willReschedule, hrunning, hnext⟩⟩

theorem currentTime_eq {a : Action A} (hst : r.step a = some r') (ha : a ≠ .executeNext)
    : r'.sched.currentTime = r.sched.currentTime := by
  cases a with
  | schedule task =>
    cases hst
    rfl
  | cancel taskID =>
    cases hst
    rfl
  | executeNext => exact absurd rfl ha
  | call =>
    obtain ⟨u, batch, -, -, rfl⟩ := step_call hst
    rfl
  | finish willReschedule =>
    obtain ⟨u, -, hst⟩ := step_finish hst
    rcases hst with rfl | ⟨task, -, rfl⟩
    . rfl
    . rfl

theorem currentTime_le {a : Action A} (hst : r.step a = some r') (hreg : Regular r a)
    : r.sched.currentTime.toInt ≤ r'.sched.currentTime.toInt := by
  by_cases ha : a = .executeNext
  . subst ha
    have hnext := currentTime_executeNext hst hreg
    by_cases hqueue : r.sched.taskQueue = []
    . rw [hnext.2 hqueue]
    . exact Int.le_of_lt (Int64.lt_iff_toInt_lt.mp (hnext.1 hqueue))
  . rw [currentTime_eq hst ha]

-- A batch is being executed.
def Busy (r : Run A) : Prop := r.batch ≠ [] ∨ r.running ≠ none

theorem Busy.of_step {a : Action A} (h : Busy r') (hst : r.step a = some r') (ha : a ≠ .executeNext)
    : Busy r := by
  cases a with
  | schedule task =>
    cases hst
    exact h
  | cancel taskID =>
    cases hst
    exact h
  | executeNext => exact absurd rfl ha
  | call =>
    obtain ⟨t, batch, hbatch, -, -⟩ := step_call hst
    refine .inl ?_
    rw [hbatch]
    exact List.cons_ne_nil _ _
  | finish willReschedule =>
    obtain ⟨t, hrunning, -⟩ := step_finish hst
    refine .inr ?_
    rw [hrunning]
    exact Option.some_ne_none t

theorem Busy.queue_ne_nil (h : Busy r') (hst : r.step .executeNext = some r')
    : r.sched.taskQueue ≠ [] := by
  obtain ⟨-, hrunning, rfl⟩ := step_executeNext hst
  intro hqueue
  rw [executeNext_nil hqueue] at h
  rcases h with hbatch | hne
  . exact hbatch rfl
  . exact hne hrunning

/--
No task with the identifier `taskID` will be executed any more.
-/
structure Gone (r : Run A) (taskID : TaskID) : Prop where
  used : ∃ t, t ∈ r.scheduled ∧ t.task.id = taskID
  absent : ∀ t, t ∈ r.running.toList ++ r.batch ++ r.sched.taskQueue → t.task.id ≠ taskID

theorem Gone.schedule {taskID : TaskID} (h : Gone r taskID) {task : KernelTask A}
    (hne : task.id ≠ taskID)
    : Gone (r.schedule task) taskID := by
  constructor
  . obtain ⟨t, ht, hid⟩ := h.used
    exact ⟨t, List.mem_append_left _ ht, hid⟩
  . intro t ht
    simp only [Run.schedule, Scheduler.schedule, List.mem_append] at ht
    rcases ht with ht | ht
    . exact h.absent t (List.mem_append_left _ (List.mem_append.mpr ht))
    . rcases SortedSet.mem_of_mem_insert ht with rfl | ht
      . exact hne
      . exact h.absent t (List.mem_append_right _ ht)

theorem executeNext_subset (s : Scheduler (Stamped A))
    : s.executeNext.2.getD [] ++ s.executeNext.1.taskQueue ⊆ s.taskQueue := by
  intro t ht
  unfold Scheduler.executeNext at ht
  split at ht
  . exact ht
  . dsimp only at ht
    rw [List.partition_eq_filter_filter, Option.getD_some, List.mem_append] at ht
    rcases ht with ht | ht
    . exact List.mem_of_mem_filter ht
    . exact List.mem_of_mem_filter ht

theorem Gone.step {a : Action A} {taskID : TaskID} (h : Gone r taskID) (hst : r.step a = some r')
    (hreg : Regular r a)
    : Gone r' taskID := by
  cases a with
  | schedule task =>
    cases hst
    apply h.schedule
    rintro rfl
    obtain ⟨t, ht, hid⟩ := h.used
    exact hreg.fresh task rfl t ht hid
  | cancel taskID' =>
    cases hst
    refine ⟨h.used, ?_⟩
    intro t ht
    apply h.absent t
    rw [List.mem_append] at ht ⊢
    exact ht.imp id List.mem_of_mem_filter
  | executeNext =>
    obtain ⟨-, hrunning, rfl⟩ := step_executeNext hst
    refine ⟨h.used, ?_⟩
    intro t ht
    rw [hrunning] at ht
    exact h.absent t (List.mem_append_right _ (executeNext_subset _ ht))
  | call =>
    obtain ⟨u, batch, hbatch, hrunning, rfl⟩ := step_call hst
    refine ⟨h.used, ?_⟩
    intro t ht
    apply h.absent t
    rw [hbatch, hrunning]
    exact ht
  | finish willReschedule =>
    obtain ⟨u, hrunning, hst⟩ := step_finish hst
    have hu : u.task.id ≠ taskID := by
      apply h.absent u
      rw [hrunning]
      exact List.mem_cons_self
    have hstop : Gone { r with running := none } taskID := by
      refine ⟨h.used, ?_⟩
      intro t ht
      apply h.absent t
      rw [List.append_assoc]
      exact List.mem_append_right _ ht
    rcases hst with rfl | ⟨task, hnext, rfl⟩
    . exact hstop
    . apply hstop.schedule
      rw [(KernelTask.next_eq_some hnext).2.2]
      exact hu

section ScheduleAll

/-!
Tasks that are scheduled one after the other at the same clock value.
-/

variable (tasks : List (KernelTask A)) (r : Run A)

@[simp]
theorem scheduled_foldl
    : (tasks.foldl Run.schedule r).scheduled
      = r.scheduled ++ tasks.map (⟨·, r.sched.currentTime⟩) := by
  induction tasks generalizing r with
  | nil => simp
  | cons task tasks ih =>
    rw [List.foldl_cons, ih]
    simp [Run.schedule, Scheduler.schedule]

@[simp]
theorem currentTime_foldl
    : (tasks.foldl Run.schedule r).sched.currentTime = r.sched.currentTime := by
  induction tasks generalizing r with
  | nil => rfl
  | cons task tasks ih =>
    rw [List.foldl_cons, ih]
    rfl

@[simp]
theorem executed_foldl : (tasks.foldl Run.schedule r).executed = r.executed := by
  induction tasks generalizing r with
  | nil => rfl
  | cons task tasks ih =>
    rw [List.foldl_cons, ih]
    rfl

variable {tasks r}

theorem Held.foldl {t : Stamped A} (h : Held r t) : Held (tasks.foldl Run.schedule r) t := by
  induction tasks generalizing r with
  | nil => exact h
  | cons task tasks ih => exact ih (h.schedule task)

structure Fresh (r : Run A) (tasks : List (KernelTask A)) : Prop where
  nodup : (tasks.map (fun task => task.id)).Nodup
  unused : ∀ task, task ∈ tasks → ∀ t, t ∈ r.scheduled → t.task.id ≠ task.id

theorem Fresh.tail {task : KernelTask A} (h : Fresh r (task :: tasks))
    : Fresh (r.schedule task) tasks := by
  have hnodup := h.nodup
  rw [List.map_cons, List.nodup_cons] at hnodup
  refine ⟨hnodup.2, ?_⟩
  intro task' htask' t ht
  simp only [Run.schedule, List.mem_append, List.mem_singleton] at ht
  rcases ht with ht | rfl
  . exact h.unused task' (List.mem_cons_of_mem _ htask') t ht
  . intro heq
    apply hnodup.1
    rw [heq]
    exact List.mem_map_of_mem htask'

theorem reach_foldl (h : (Run.lts A).Reach (fun r a _ => Regular r a) r) (hfresh : Fresh r tasks)
    : (Run.lts A).Reach (fun r a _ => Regular r a) (tasks.foldl Run.schedule r) := by
  induction tasks generalizing r with
  | nil => exact h
  | cons task tasks ih =>
    exact ih (h.next (.schedule task) rfl (.of_fresh (hfresh.unused task List.mem_cons_self)))
      hfresh.tail

theorem held_foldl (h : (Run.lts A).Reach (fun r a _ => Regular r a) r) (hfresh : Fresh r tasks)
    {task : KernelTask A} (htask : task ∈ tasks)
    : Held (tasks.foldl Run.schedule r) ⟨task, r.sched.currentTime⟩ := by
  induction tasks generalizing r with
  | nil => cases htask
  | cons head tasks ih =>
    have hunused := hfresh.unused head List.mem_cons_self
    rw [List.mem_cons] at htask
    rcases htask with rfl | htask
    . have hnew : Held (r.schedule task) ⟨task, r.sched.currentTime⟩ := by
        apply Held.of_schedule
        intro u hu
        exact hunused u ((inv_of_reach h).known u (.inl (List.mem_append_right _ hu)))
      exact hnew.foldl
    . exact ih (h.next (.schedule head) rfl (.of_fresh hunused)) hfresh.tail htask

end ScheduleAll

end Kernel
