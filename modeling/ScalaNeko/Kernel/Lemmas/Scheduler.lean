import ScalaNeko.Kernel.Impl.Scheduler
import ScalaNeko.Lib.MachineInt

/-!
The sequential scheduler executes every task once, on time and in order.
-/

namespace Kernel

variable {A : Type}

def Stamped.due (t : Stamped A) : Int := max t.task.time.toInt (t.since.toInt + 1)

def Stamped.rank (t : Stamped A) : Int ×ₗ Int ×ₗ Int := toLex (t.due, Task.key t)

structure Regular (r : Run A) (a : Action A) : Prop where
  fresh : ∀ task, a = .schedule task → ∀ t, t ∈ r.scheduled → t.task.id ≠ task.id
  room : a = .executeNext → r.sched.taskQueue ≠ [] → r.sched.currentTime < Int64.maxValue

/--
What the scheduler promises. A task that it is given is waiting, and stays so until it is cancelled or
executed.
-/
structure Exact (r : Run A) : Prop where
  schedule : ∀ task, Regular r (.schedule task) → ∃ r', r.step (.schedule task) = some r'
    ∧ r'.scheduled = r.scheduled ++ [⟨task, r.sched.currentTime⟩]
    ∧ ⟨task, r.sched.currentTime⟩ ∈ r'.sched.taskQueue
  kept : ∀ t, t ∈ r.scheduled → t.task.id ∉ r.cancelled →
    t ∈ r.sched.taskQueue ∨ t ∈ r.batch ∨ t ∈ r.executed.map Prod.snd
  punctual : ∀ e, e ∈ r.executed → e.1.toInt = e.2.due
  once : (((r.executed.map Prod.snd).filter (fun t => t.task.isSimple)).map (fun t => t.task.id)).Nodup
  reached : ∀ t, t ∈ r.scheduled → t.task.id ∉ r.cancelled →
    t.due ≤ r.sched.currentTime.toInt →
    t ∈ r.executed.map Prod.snd ∨ t ∈ r.batch ∧ t.due = r.sched.currentTime.toInt
  ordered : (r.executed.map Prod.snd).Pairwise (fun a b => a.rank < b.rank)
  advance : ∀ r', r.step .executeNext = some r' → Regular r .executeNext →
    (r.sched.taskQueue ≠ [] → r.sched.currentTime < r'.sched.currentTime)
      ∧ (r.sched.taskQueue = [] → r'.sched.currentTime = r.sched.currentTime)

theorem Regular.of_fresh {r : Run A} {task : KernelTask A}
    (h : ∀ t, t ∈ r.scheduled → t.task.id ≠ task.id)
    : Regular r (.schedule task) where
  fresh := by
    rintro _ ⟨⟩
    exact h
  room := nofun

theorem Regular.of_room {r : Run A} (h : r.sched.currentTime < Int64.maxValue)
    : Regular r .executeNext where
  fresh := nofun
  room := fun _ _ => h

theorem Regular.of_cancel {r : Run A} {taskID : TaskID} : Regular r (.cancel taskID) where
  fresh := nofun
  room := nofun

theorem Regular.of_call {r : Run A} : Regular r .call where
  fresh := nofun
  room := nofun

theorem Regular.of_finish {r : Run A} {willReschedule : Bool}
    : Regular r (.finish willReschedule) where
  fresh := nofun
  room := nofun

structure Inv (r : Run A) : Prop where
  sorted : SortedSet.Sorted Task.key r.sched.taskQueue
  pending : ∀ t, t ∈ r.sched.taskQueue → t.since.toInt ≤ r.sched.currentTime.toInt
    ∧ r.sched.currentTime.toInt < t.due
  batch_sorted : SortedSet.Sorted Task.key r.batch
  batch_due : ∀ t, t ∈ r.batch → t.due = r.sched.currentTime.toInt
  executed_due : ∀ e, e ∈ r.executed → e.1.toInt = e.2.due ∧ e.2.due ≤ r.sched.currentTime.toInt
  ordered : (r.executed.map Prod.snd ++ r.batch).Pairwise (fun a b => a.rank < b.rank)
  live : ((r.running.toList ++ r.batch ++ r.sched.taskQueue).map (fun t => t.task.id)).Nodup
  known : ∀ t, t ∈ r.running.toList ++ r.batch ++ r.sched.taskQueue ∨ t ∈ r.executed.map Prod.snd →
    t ∈ r.scheduled
  unique : ∀ t, t ∈ r.scheduled → ∀ t', t' ∈ r.scheduled → t.task.isSimple →
    t.task.id = t'.task.id → t = t'
  complete : ∀ t, t ∈ r.scheduled → t.task.id ∉ r.cancelled →
    t ∈ r.sched.taskQueue ∨ t ∈ r.batch ∨ t ∈ r.executed.map Prod.snd

theorem Inv.init : Inv ({} : Run A) where
  sorted := .nil
  pending := by simp
  batch_sorted := .nil
  batch_due := by simp
  executed_due := by simp
  ordered := .nil
  live := .nil
  known := by simp
  unique := by simp
  complete := by simp

variable {r r' : Run A}

theorem step_executeNext (h : r.step .executeNext = some r')
    : r.batch = [] ∧ r.running = none
        ∧ r' = { r with sched := r.sched.executeNext.1, batch := r.sched.executeNext.2.getD [] } := by
  simp only [Run.step] at h
  split at h
  . next hbatch hrunning =>
    cases h
    exact ⟨hbatch, hrunning, rfl⟩
  . cases h

theorem step_call (h : r.step .call = some r')
    : ∃ t batch, r.batch = t :: batch ∧ r.running = none
        ∧ r' = { r with
            batch
            running := some t
            executed := r.executed ++ [(r.sched.currentTime, t)] } := by
  simp only [Run.step] at h
  split at h
  . next hbatch hrunning =>
    cases h
    exact ⟨_, _, hbatch, hrunning, rfl⟩
  . cases h

theorem step_finish {willReschedule : Bool} (h : r.step (.finish willReschedule) = some r')
    : ∃ t, r.running = some t
        ∧ (r' = { r with running := none }
          ∨ ∃ task, t.task.next r.sched.currentTime willReschedule = some task
              ∧ r' = ({ r with running := none } : Run A).schedule task) := by
  simp only [Run.step] at h
  split at h
  . cases h
  . next t hrunning =>
    refine ⟨t, hrunning, ?_⟩
    split at h
    . cases h
      exact .inl rfl
    . next task hnext =>
      cases h
      exact .inr ⟨task, hnext, rfl⟩

theorem executeNext_nil {s : Scheduler (Stamped A)} (hqueue : s.taskQueue = [])
    : s.executeNext = (s, none) := by
  rw [Scheduler.executeNext, hqueue]

theorem executeNext_cons {s : Scheduler (Stamped A)} {head : Stamped A} {tail : List (Stamped A)}
    (hqueue : s.taskQueue = head :: tail) (hroom : s.currentTime < Int64.maxValue)
    : ∃ now : Time, now.toInt = max (s.currentTime.toInt + 1) head.task.time.toInt
        ∧ s.executeNext
          = (⟨s.taskQueue.filter (fun t => !decide (t.task.time ≤ now)), now⟩,
              some (s.taskQueue.filter (fun t => decide (t.task.time ≤ now)))) := by
  have hlt := Int64.lt_iff_toInt_lt.mp hroom
  rw [Int64.toInt_maxValue] at hlt
  have hlo := Int64.le_toInt s.currentTime
  have hone : (1 : Int64).toInt = 1 := rfl
  refine ⟨max (s.currentTime + 1) head.task.time, ?_, ?_⟩
  . rw [Int64.toInt_max, Int64.toInt_add_of_range, hone]
    . omega
    . omega
  . unfold Scheduler.executeNext
    rw [hqueue]
    dsimp only
    rw [List.partition_eq_filter_filter]
    rfl

theorem time_head_le {queue tail : List (Stamped A)} {head t : Stamped A}
    (hsorted : SortedSet.Sorted Task.key queue) (hqueue : queue = head :: tail) (ht : t ∈ queue)
    : head.task.time.toInt ≤ t.task.time.toInt := by
  unfold SortedSet.Sorted at hsorted
  rw [hqueue, List.pairwise_cons] at hsorted
  rw [hqueue, List.mem_cons] at ht
  rcases ht with rfl | ht
  . exact Int.le_refl _
  . have hkey := hsorted.1 t ht
    rw [Task.key, Task.key, Prod.Lex.toLex_lt_toLex] at hkey
    rcases hkey with hlt | ⟨heq, -⟩
    . exact Int.le_of_lt hlt
    . exact Int.le_of_eq heq

theorem Stamped.rank_lt_of_due_eq {a b : Stamped A} (hdue : a.due = b.due)
    (hkey : Task.key a < Task.key b)
    : a.rank < b.rank := by
  rw [Stamped.rank, Stamped.rank, Prod.Lex.toLex_lt_toLex]
  exact .inr ⟨hdue, hkey⟩

theorem Stamped.rank_lt_of_due_lt {a b : Stamped A} (hdue : a.due < b.due) : a.rank < b.rank := by
  rw [Stamped.rank, Stamped.rank, Prod.Lex.toLex_lt_toLex]
  exact .inl hdue

theorem mem_schedule (task : KernelTask A)
    (hnew : ∀ u, u ∈ r.sched.taskQueue → u.task.id ≠ task.id)
    : ⟨task, r.sched.currentTime⟩ ∈ (r.schedule task).sched.taskQueue := by
  have hperm : (SortedSet.insert Task.key ⟨task, r.sched.currentTime⟩ r.sched.taskQueue).Perm
      (⟨task, r.sched.currentTime⟩ :: r.sched.taskQueue) := by
    apply SortedSet.insert_perm
    intro u hu heq
    exact hnew u hu (congrArg (fun k => (ofLex k).2) heq)
  exact hperm.mem_iff.mpr List.mem_cons_self

theorem Inv.schedule (h : Inv r) (task : KernelTask A)
    (hnew : ∀ t, t ∈ r.running.toList ++ r.batch ++ r.sched.taskQueue → t.task.id ≠ task.id)
    (hunique : ∀ t, t ∈ r.scheduled → t.task.id = task.id → ¬ t.task.isSimple ∧ ¬ task.isSimple)
    : Inv (r.schedule task) := by
  have hperm : (SortedSet.insert Task.key ⟨task, r.sched.currentTime⟩ r.sched.taskQueue).Perm
      (⟨task, r.sched.currentTime⟩ :: r.sched.taskQueue) := by
    apply SortedSet.insert_perm
    intro t ht heq
    exact hnew t (List.mem_append_right _ ht) (congrArg (fun k => (ofLex k).2) heq)
  constructor
  . exact h.sorted.insert _
  . intro t ht
    simp only [Run.schedule, Scheduler.schedule, hperm.mem_iff, List.mem_cons] at ht
    rcases ht with rfl | ht
    . refine ⟨Int.le_refl _, ?_⟩
      simp only [Stamped.due, Run.schedule, Scheduler.schedule]
      omega
    . exact h.pending t ht
  . exact h.batch_sorted
  . exact h.batch_due
  . exact h.executed_due
  . exact h.ordered
  . have hlive := ((hperm.append_left (r.running.toList ++ r.batch)).map
      (fun t => t.task.id)).nodup_iff
    refine hlive.mpr ((List.perm_middle.map _).nodup_iff.mpr ?_)
    rw [List.map_cons, List.nodup_cons]
    refine ⟨?_, h.live⟩
    intro hmem
    rw [List.mem_map] at hmem
    obtain ⟨t, ht, heq⟩ := hmem
    exact hnew t ht heq
  . intro t ht
    simp only [Run.schedule, Scheduler.schedule, List.mem_append, hperm.mem_iff, List.mem_cons,
      List.not_mem_nil, or_false] at ht ⊢
    rcases ht with (ht | rfl | ht) | ht
    . exact .inl (h.known t (.inl (List.mem_append_left _ (List.mem_append.mpr ht))))
    . exact .inr rfl
    . exact .inl (h.known t (.inl (List.mem_append_right _ ht)))
    . exact .inl (h.known t (.inr ht))
  . intro t ht t' ht' hsimple heq
    simp only [Run.schedule, List.mem_append, List.mem_singleton] at ht ht'
    rcases ht with ht | rfl
    . rcases ht' with ht' | rfl
      . exact h.unique t ht t' ht' hsimple heq
      . exact absurd hsimple (hunique t ht heq).1
    . rcases ht' with ht' | rfl
      . exact absurd hsimple (hunique t' ht' heq.symm).2
      . rfl
  . intro t ht hcancel
    simp only [Run.schedule, Scheduler.schedule, hperm.mem_iff, List.mem_cons, List.mem_append,
      List.not_mem_nil, or_false] at ht ⊢
    rcases ht with ht | rfl
    . rcases h.complete t ht hcancel with hq | hb
      . exact .inl (.inr hq)
      . exact .inr hb
    . exact .inl (.inl rfl)

theorem Inv.cancel (h : Inv r) (taskID : TaskID)
    : Inv { r with sched := r.sched.cancel taskID, cancelled := taskID :: r.cancelled } := by
  have hsub : (r.sched.cancel taskID).taskQueue.Sublist r.sched.taskQueue := List.filter_sublist
  constructor
  . exact h.sorted.filter _
  . intro t ht
    exact h.pending t (hsub.mem ht)
  . exact h.batch_sorted
  . exact h.batch_due
  . exact h.executed_due
  . exact h.ordered
  . exact h.live.sublist ((hsub.append_left _).map _)
  . intro t ht
    apply h.known t
    simp only [List.mem_append] at ht ⊢
    rcases ht with (ht | ht) | ht
    . exact .inl (.inl ht)
    . exact .inl (.inr (hsub.mem ht))
    . exact .inr ht
  . exact h.unique
  . intro t ht hcancel
    simp only [List.mem_cons, not_or] at hcancel
    rcases h.complete t ht hcancel.2 with hq | hb
    . refine .inl (List.mem_filter.mpr ⟨hq, ?_⟩)
      simpa [Task.id] using hcancel.1
    . exact .inr hb

theorem Inv.call {t : Stamped A} {batch : List (Stamped A)} (h : Inv r)
    (hbatch : r.batch = t :: batch) (hrunning : r.running = none)
    : Inv { r with
        batch
        running := some t
        executed := r.executed ++ [(r.sched.currentTime, t)] } := by
  have hdue := h.batch_due t (by rw [hbatch]; exact List.mem_cons_self)
  have hordered := h.ordered
  have hlive := h.live
  rw [hbatch] at hordered
  rw [hbatch, hrunning] at hlive
  constructor
  . exact h.sorted
  . exact h.pending
  . have hsorted := h.batch_sorted
    rw [hbatch] at hsorted
    exact (List.pairwise_cons.mp hsorted).2
  . intro b hb
    apply h.batch_due
    rw [hbatch]
    exact List.mem_cons_of_mem _ hb
  . intro e he
    simp only [List.mem_append, List.mem_singleton] at he
    rcases he with he | rfl
    . exact h.executed_due e he
    . exact ⟨hdue.symm, Int.le_of_eq hdue⟩
  . simpa using hordered
  . simpa using hlive
  . intro u hu
    apply h.known
    rw [hbatch, hrunning]
    simp only [Option.toList_some, Option.toList_none, List.map_append, List.mem_append, List.map_cons,
      List.map_nil, List.mem_cons, List.not_mem_nil, or_false, false_or] at hu ⊢
    tauto
  . exact h.unique
  . intro u hu hcancel
    have := h.complete u hu hcancel
    rw [hbatch] at this
    simp only [List.map_append, List.mem_append, List.map_cons, List.map_nil, List.mem_cons,
      List.not_mem_nil, or_false] at this ⊢
    tauto

-- The clock does not jump past the first task, so whatever it reaches is due at the new value.
theorem Inv.due_of_reached {head t : Stamped A} {tail : List (Stamped A)} {now : Time} (h : Inv r)
    (hqueue : r.sched.taskQueue = head :: tail)
    (hnow : now.toInt = max (r.sched.currentTime.toInt + 1) head.task.time.toInt)
    (ht : t ∈ r.sched.taskQueue) (hreached : t.task.time ≤ now)
    : t.due = now.toInt := by
  have hhead := time_head_le h.sorted hqueue ht
  have hpending := h.pending t ht
  rw [Int64.le_iff_toInt_le] at hreached
  rw [Stamped.due] at hpending ⊢
  omega

theorem Inv.ordered_batch {batch : List (Stamped A)} {now : Int} (h : Inv r) (hbatch : r.batch = [])
    (hnow : r.sched.currentTime.toInt < now) (hsorted : SortedSet.Sorted Task.key batch)
    (hdue : ∀ t, t ∈ batch → t.due = now)
    : (r.executed.map Prod.snd ++ batch).Pairwise (fun a b => a.rank < b.rank) := by
  have hordered := h.ordered
  rw [hbatch, List.append_nil] at hordered
  rw [List.pairwise_append]
  refine ⟨hordered, ?_, ?_⟩
  . apply hsorted.imp_of_mem
    intro a b ha hb hkey
    exact Stamped.rank_lt_of_due_eq ((hdue a ha).trans (hdue b hb).symm) hkey
  . intro a ha b hb
    rw [List.mem_map] at ha
    obtain ⟨e, he, rfl⟩ := ha
    have hpast := (h.executed_due e he).2
    apply Stamped.rank_lt_of_due_lt
    rw [hdue b hb]
    omega

theorem Inv.executeNext {head : Stamped A} {tail : List (Stamped A)} (h : Inv r)
    (hbatch : r.batch = []) (hrunning : r.running = none)
    (hqueue : r.sched.taskQueue = head :: tail)
    (hroom : r.sched.currentTime < Int64.maxValue)
    : Inv { r with sched := r.sched.executeNext.1, batch := r.sched.executeNext.2.getD [] } := by
  obtain ⟨now, hnow, hnext⟩ := executeNext_cons hqueue hroom
  have hlive := h.live
  rw [hbatch, hrunning] at hlive
  rw [hnext]
  have hbatch_due : ∀ t, t ∈ r.sched.taskQueue.filter (fun t => decide (t.task.time ≤ now)) →
      t.due = now.toInt := by
    intro t ht
    rw [List.mem_filter, decide_eq_true_eq] at ht
    exact h.due_of_reached hqueue hnow ht.1 ht.2
  have hsplit := List.filter_append_perm (fun t => decide (t.task.time ≤ now)) r.sched.taskQueue
  constructor
  . exact h.sorted.filter _
  . intro t ht
    simp only [List.mem_filter, Bool.not_eq_true', decide_eq_false_iff_not, Int64.le_iff_toInt_le]
      at ht
    have := h.pending t ht.1
    rw [Stamped.due] at this
    dsimp only [Stamped.due]
    omega
  . exact h.sorted.filter _
  . exact hbatch_due
  . intro e he
    obtain ⟨heq, hle⟩ := h.executed_due e he
    refine ⟨heq, ?_⟩
    dsimp only
    omega
  . exact h.ordered_batch hbatch (by omega) (h.sorted.filter _) hbatch_due
  . rw [hrunning]
    exact (hsplit.map (fun t => t.task.id)).nodup_iff.mpr hlive
  . intro t ht
    apply h.known t
    rw [hbatch, hrunning]
    simp only [hrunning, Option.toList_none, List.nil_append, Option.getD_some, hsplit.mem_iff]
      at ht ⊢
    exact ht
  . exact h.unique
  . intro t ht hcancel
    have hwhere := h.complete t ht hcancel
    rw [hbatch] at hwhere
    rcases hwhere with hq | hb | he
    . rw [← hsplit.mem_iff, List.mem_append] at hq
      rcases hq with hq | hq
      . exact .inr (.inl hq)
      . exact .inl hq
    . cases hb
    . exact .inr (.inr he)

theorem Inv.stop (h : Inv r) : Inv { r with running := none } := by
  constructor
  . exact h.sorted
  . exact h.pending
  . exact h.batch_sorted
  . exact h.batch_due
  . exact h.executed_due
  . exact h.ordered
  . have hlive := h.live
    rw [List.append_assoc, List.map_append] at hlive
    exact hlive.of_append_right
  . intro t ht
    apply h.known t
    simp only [Option.toList_none, List.nil_append, List.mem_append] at ht ⊢
    tauto
  . exact h.unique
  . exact h.complete

theorem KernelTask.next_eq_some {task task' : KernelTask A} {now : Time} {willReschedule : Bool}
    (h : task.next now willReschedule = some task')
    : ¬ task.isSimple ∧ ¬ task'.isSimple ∧ task'.id = task.id := by
  cases task with
  | simple => cases h
  | periodic time period repeatAction id daemon =>
    cases willReschedule with
    | false => cases h
    | true =>
      cases h
      exact ⟨Bool.false_ne_true, Bool.false_ne_true, rfl⟩

theorem Inv.reschedule {t : Stamped A} {task : KernelTask A} {willReschedule : Bool} (h : Inv r)
    (hrunning : r.running = some t)
    (hnext : t.task.next r.sched.currentTime willReschedule = some task)
    : Inv (({ r with running := none } : Run A).schedule task) := by
  obtain ⟨hperiodic, hperiodic', hid⟩ := KernelTask.next_eq_some hnext
  have hmem : t ∈ r.scheduled := by
    apply h.known
    rw [hrunning]
    exact .inl List.mem_cons_self
  apply h.stop.schedule
  . intro u hu heq
    have hlive := h.live
    rw [hrunning, List.append_assoc] at hlive
    apply (List.nodup_cons.mp hlive).1
    rw [List.mem_map]
    exact ⟨u, hu, heq.trans hid⟩
  . intro u hu heq
    refine ⟨?_, hperiodic'⟩
    intro hsimple
    rw [h.unique u hu t hmem hsimple (heq.trans hid)] at hsimple
    exact hperiodic hsimple

theorem inv_of_reach (h : (Run.lts A).Reach (fun r a _ => Regular r a) r) : Inv r := by
  apply LTS.Reach.invariant (I := Inv) _ _ h
  . rintro r rfl
    exact Inv.init
  . intro r a r' _ hinv hst hreg
    cases a with
    | schedule task =>
      cases hst
      apply hinv.schedule
      . intro t ht
        exact hreg.fresh task rfl t (hinv.known t (.inl ht))
      . intro t ht heq
        exact absurd heq (hreg.fresh task rfl t ht)
    | cancel taskID =>
      cases hst
      exact hinv.cancel taskID
    | executeNext =>
      obtain ⟨hbatch, hrunning, rfl⟩ := step_executeNext hst
      cases hqueue : r.sched.taskQueue with
      | nil =>
        rw [executeNext_nil hqueue, Option.getD_none, ← hbatch]
        exact hinv
      | cons head tail =>
        apply hinv.executeNext hbatch hrunning hqueue
        apply hreg.room rfl
        rw [hqueue]
        exact List.cons_ne_nil _ _
    | call =>
      obtain ⟨t, batch, hbatch, hrunning, rfl⟩ := step_call hst
      exact hinv.call hbatch hrunning
    | finish willReschedule =>
      obtain ⟨t, hrunning, hst⟩ := step_finish hst
      rcases hst with rfl | ⟨task, hnext, rfl⟩
      . exact hinv.stop
      . exact hinv.reschedule hrunning hnext

theorem Inv.once (h : Inv r)
    : (((r.executed.map Prod.snd).filter (fun t => t.task.isSimple)).map
        (fun t => t.task.id)).Nodup := by
  have hnodup : (r.executed.map Prod.snd).Nodup := by
    have hordered := (List.pairwise_append.mp h.ordered).1
    apply hordered.imp
    rintro a b hlt rfl
    exact lt_irrefl _ hlt
  apply List.Nodup.map_on _ (hnodup.filter _)
  intro t ht t' ht' heq
  rw [List.mem_filter] at ht ht'
  exact h.unique t (h.known t (.inr ht.1)) t' (h.known t' (.inr ht'.1)) ht.2 heq

theorem Inv.reached {t : Stamped A} (h : Inv r) (ht : t ∈ r.scheduled)
    (hcancel : t.task.id ∉ r.cancelled) (hdue : t.due ≤ r.sched.currentTime.toInt)
    : t ∈ r.executed.map Prod.snd ∨ t ∈ r.batch ∧ t.due = r.sched.currentTime.toInt := by
  rcases h.complete t ht hcancel with hq | hb | he
  . have hpending := (h.pending t hq).2
    omega
  . exact .inr ⟨hb, h.batch_due t hb⟩
  . exact .inl he

theorem Inv.step_schedule {task : KernelTask A} (h : Inv r) (hreg : Regular r (.schedule task))
    : ∃ r', r.step (.schedule task) = some r'
        ∧ r'.scheduled = r.scheduled ++ [⟨task, r.sched.currentTime⟩]
        ∧ ⟨task, r.sched.currentTime⟩ ∈ r'.sched.taskQueue := by
  refine ⟨r.schedule task, rfl, rfl, ?_⟩
  apply mem_schedule
  intro t ht
  exact hreg.fresh task rfl t (h.known t (.inl (List.mem_append_right _ ht)))

theorem currentTime_executeNext (h : r.step .executeNext = some r')
    (hreg : Regular r .executeNext)
    : (r.sched.taskQueue ≠ [] → r.sched.currentTime < r'.sched.currentTime)
      ∧ (r.sched.taskQueue = [] → r'.sched.currentTime = r.sched.currentTime) := by
  obtain ⟨-, -, rfl⟩ := step_executeNext h
  constructor
  . intro hne
    obtain ⟨head, tail, hqueue⟩ := List.exists_cons_of_ne_nil hne
    obtain ⟨now, hnow, hnext⟩ := executeNext_cons hqueue (hreg.room rfl hne)
    rw [hnext, Int64.lt_iff_toInt_lt]
    dsimp only
    omega
  . intro hqueue
    rw [executeNext_nil hqueue]

theorem exact_of_regular (h : (Run.lts A).Reach (fun r a _ => Regular r a) r) : Exact r where
  schedule := fun _ hreg => (inv_of_reach h).step_schedule hreg
  kept := (inv_of_reach h).complete
  punctual := fun e he => ((inv_of_reach h).executed_due e he).1
  once := (inv_of_reach h).once
  reached := fun _ ht hcancel hdue => (inv_of_reach h).reached ht hcancel hdue
  ordered := (List.pairwise_append.mp (inv_of_reach h).ordered).1
  advance := fun _ hst hreg => currentTime_executeNext hst hreg

theorem exact_of_regular_late
    : ∃ r : Run Unit, (Run.lts Unit).Reach (fun r a _ => Regular r a) r
        ∧ r.executed.map (fun e => (e.1.toInt, e.2.task.id)) = [(2, 1), (3, 2), (5, 0)]
        ∧ Exact r := by
  let ok : Run Unit → Action Unit → Run Unit → Prop := fun r a _ => Regular r a
  have h0 : (Run.lts Unit).Reach ok {} := .init rfl
  have h1 := h0.next (.schedule (.simple 5 () 0 false)) rfl (.of_fresh (by decide))
  have h2 := h1.next (.schedule (.simple 2 () 1 false)) rfl (.of_fresh (by decide))
  have h3 := h2.next .executeNext rfl (.of_room (by decide))
  have h4 := h3.next .call rfl .of_call
  have h5 := h4.next (.schedule (.simple 1 () 2 false)) rfl (.of_fresh (by decide))
  have h6 := h5.next (.finish false) rfl .of_finish
  have h7 := h6.next .executeNext rfl (.of_room (by decide))
  have h8 := h7.next .call rfl .of_call
  have h9 := h8.next (.finish false) rfl .of_finish
  have h10 := h9.next .executeNext rfl (.of_room (by decide))
  have h11 := h10.next .call rfl .of_call
  exact ⟨_, h11, by decide, exact_of_regular h11⟩

end Kernel
