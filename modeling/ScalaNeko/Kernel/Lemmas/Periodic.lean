import ScalaNeko.Kernel.Impl.Timer
import ScalaNeko.Kernel.Lemmas.Pending

/-!
A periodic task is executed once for each value of an arithmetic progression of clock values, until
its action returns false.
-/

namespace Kernel

variable {A : Type}

def Timed.answered (s : Timed A) (id : TaskID) : List (Stamped A × Bool) :=
  s.answers.filter (fun x => x.1.task.id == id)

def firstOccurrence (now delay : Time) : Int := max (now.toInt + delay.toInt) (now.toInt + 1)

def occurrence (start : Int) (period : Time) (k : Nat) : Int := start + k * max period.toInt 1

def KernelTask.Repeats (period : Time) (action : A) (id : TaskID) (task : KernelTask A) : Prop :=
  ∃ time, task = .periodic time period action id false

/--
The task is not cancelled and the clock does not overflow.
-/
structure Undisturbed (period : Time) (id : TaskID) (s : Timed A) (a : Action A) : Prop where
  regular : Regular s.run a
  kept : a ≠ .cancel id
  room : a = .finish true → ∀ t, s.run.running = some t → t.task.id = id →
    (s.run.sched.currentTime + period).toInt = s.run.sched.currentTime.toInt + period.toInt

/--
The executions of a periodic task and the results of its action so far. Until one of these is false,
the next occurrence is ahead or its action runs.
-/
structure Series (s : Timed A) (period : Time) (action : A) (id : TaskID) (start : Int) : Prop where
  times : (s.run.started id).map (fun e => e.1.toInt)
    = (List.range (s.run.started id).length).map (occurrence start period)
  tasks : ∀ e, e ∈ s.run.started id → e.2.task.Repeats period action id
  answered : (s.answered id).map Prod.fst <+: (s.run.started id).map Prod.snd
  pending : (s.run.started id).length ≤ (s.answered id).length + 1
  last : ∀ k, (s.answered id)[k]?.map Prod.snd = some false →
    (s.run.started id).length = k + 1
  complete : (∀ x, x ∈ s.answered id → x.2 = true) → ∀ k, Past s.run (occurrence start period k) →
    k < (s.run.started id).length
  next : (∀ x, x ∈ s.answered id → x.2 = true) → ∃ t, t.task.Repeats period action id
    ∧ t.due = occurrence start period (s.answered id).length
    ∧ (t ∈ s.run.sched.taskQueue ∨ t ∈ s.run.batch ∨ s.run.running = some t)
  single : (s.run.sched.taskQueue.filter (fun t => t.task.id == id)).length ≤ 1

-- Where the task is, and its next occurrence.
inductive Phase (s : Timed A) (period : Time) (action : A) (id : TaskID) (start : Int) : Prop where
  | waiting {t : Stamped A} :
      t ∈ s.run.sched.taskQueue ∨ t ∈ s.run.batch →
      t.task.Repeats period action id →
      t.due = occurrence start period (s.answered id).length →
      (s.run.started id).map Prod.snd = (s.answered id).map Prod.fst →
      (∀ x, x ∈ s.answered id → x.2 = true) →
      Phase s period action id start
  | running {t : Stamped A} :
      s.run.running = some t →
      t.task.Repeats period action id →
      s.run.sched.currentTime.toInt = occurrence start period (s.answered id).length →
      (s.run.started id).map Prod.snd = (s.answered id).map Prod.fst ++ [t] →
      (∀ x, x ∈ s.answered id → x.2 = true) →
      Phase s period action id start
  | stopped {init : List (Stamped A × Bool)} {t : Stamped A} :
      Gone s.run id →
      (s.run.started id).map Prod.snd = (s.answered id).map Prod.fst →
      s.answered id = init ++ [(t, false)] →
      (∀ x, x ∈ init → x.2 = true) →
      Phase s period action id start

structure Course (s : Timed A) (period : Time) (action : A) (id : TaskID) (start : Int) : Prop where
  times : (s.run.started id).map (fun e => e.1.toInt)
    = (List.range (s.run.started id).length).map (occurrence start period)
  tasks : ∀ e, e ∈ s.run.started id → e.2.task.Repeats period action id
  phase : Phase s period action id start

variable {s s' : Timed A} {period : Time} {action : A} {id : TaskID} {start : Int} {t u : Stamped A}

theorem KernelTask.Repeats.id_eq {task : KernelTask A} (h : task.Repeats period action id)
    : task.id = id := by
  obtain ⟨time, rfl⟩ := h
  rfl

theorem step_timed {a : Action A} (h : s.step a = some s')
    : s.run.step a = some s'.run ∧ s'.answers = s.answers ++ s.answer a := by
  simp only [Timed.step, Option.map_eq_some_iff] at h
  obtain ⟨run, hst, rfl⟩ := h
  exact ⟨hst, rfl⟩

theorem reach_run (h : (Timed.lts A).Reach (fun s a _ => Regular s.run a) s)
    : (Run.lts A).Reach (fun r a _ => Regular r a) s.run := by
  induction h with
  | init h0 =>
    cases h0
    exact .init rfl
  | step _ hst hreg ih => exact ih.next _ (step_timed hst).1 hreg

theorem Inv.eq_of_id {r : Run A} (h : Inv r)
    (ht : t ∈ r.running.toList ++ r.batch ++ r.sched.taskQueue)
    (hu : u ∈ r.running.toList ++ r.batch ++ r.sched.taskQueue) (hid : t.task.id = u.task.id)
    : t = u :=
  List.inj_on_of_nodup_map h.live ht hu hid

theorem occurrence_succ (k : Nat)
    : occurrence start period (k + 1) = occurrence start period k + max period.toInt 1 := by
  simp only [occurrence, Nat.cast_add, Nat.cast_one, Int.add_mul, Int.one_mul, Int.add_assoc]

theorem occurrence_lt_iff (start : Int) (period : Time) {k l : Nat}
    : occurrence start period k < occurrence start period l ↔ k < l := by
  have hmono : StrictMono (occurrence start period) := by
    apply strictMono_nat_of_lt_succ
    intro k
    rw [occurrence_succ]
    omega
  exact hmono.lt_iff_lt

theorem length_filter_id_le {queue : List (Stamped A)} (h : (queue.map (fun t => t.task.id)).Nodup)
    : (queue.filter (fun t => t.task.id == id)).length ≤ 1 := by
  have hcount := List.nodup_iff_count_le_one.mp h id
  rwa [List.count, List.countP_map, List.countP_eq_length_filter] at hcount

theorem Course.complete (hinv : Inv s.run) (h : Course s period action id start)
    (htrue : ∀ x, x ∈ s.answered id → x.2 = true) {k : Nat}
    (hpast : Past s.run (occurrence start period k))
    : k < (s.run.started id).length := by
  cases h.phase with
  | @waiting t hwhere _ hdue hmap _ =>
    have hlength := congrArg List.length hmap
    rw [List.length_map, List.length_map] at hlength
    rw [hlength, ← occurrence_lt_iff start period, ← hdue]
    rcases hwhere with hq | hb
    . have hpending := (hinv.pending t hq).2
      rcases hpast with hlt | ⟨heq, -⟩
      . omega
      . omega
    . have hbatch := hinv.batch_due t hb
      rcases hpast with hlt | ⟨-, hnil⟩
      . omega
      . rw [hnil] at hb
        cases hb
  | running _ _ hnow hmap _ =>
    have hlength := congrArg List.length hmap
    rw [List.length_map, List.length_append, List.length_map] at hlength
    rw [hlength, List.length_singleton, Nat.lt_succ_iff,
      ← Nat.not_lt, ← occurrence_lt_iff start period, ← hnow]
    rcases hpast with hlt | ⟨heq, -⟩
    . omega
    . omega
  | @stopped init t _ _ hlast _ =>
    have hfalse := htrue (t, false) (by rw [hlast]; simp)
    cases hfalse

-- The action that runs is that of the last execution.
theorem Course.due_running (hinv : Inv s.run) (h : Course s period action id start)
    (hstarted : (s.run.started id).map Prod.snd = (s.answered id).map Prod.fst ++ [t])
    : t.due = occurrence start period (s.answered id).length := by
  have hlength := congrArg List.length hstarted
  rw [List.length_map, List.length_append, List.length_map, List.length_singleton] at hlength
  have hlast : ((s.run.started id)[(s.answered id).length]?).map Prod.snd = some t := by
    rw [← List.getElem?_map, hstarted, ← List.length_map Prod.fst, List.getElem?_concat_length]
  obtain ⟨e, he, rfl⟩ := Option.map_eq_some_iff.mp hlast
  have htime : e.1.toInt = occurrence start period (s.answered id).length := by
    have hlt : (s.answered id).length < (s.run.started id).length := by omega
    have hget : ((s.run.started id).map (fun e => e.1.toInt))[(s.answered id).length]?
        = some e.1.toInt := by
      rw [List.getElem?_map, he]
      rfl
    rw [h.times, List.getElem?_map, List.getElem?_range hlt, Option.map_some,
      Option.some.injEq] at hget
    exact hget.symm
  rw [← htime]
  exact ((hinv.executed_due e (List.mem_of_mem_filter (List.mem_of_getElem? he))).1).symm

theorem Course.next (hinv : Inv s.run) (h : Course s period action id start)
    (htrue : ∀ x, x ∈ s.answered id → x.2 = true)
    : ∃ t, t.task.Repeats period action id
        ∧ t.due = occurrence start period (s.answered id).length
        ∧ (t ∈ s.run.sched.taskQueue ∨ t ∈ s.run.batch ∨ s.run.running = some t) := by
  cases h.phase with
  | @waiting t hwhere hrepeats hdue =>
    refine ⟨t, hrepeats, hdue, ?_⟩
    rcases hwhere with hq | hb
    . exact .inl hq
    . exact .inr (.inl hb)
  | @running t hrunning hrepeats _ hstarted =>
    exact ⟨t, hrepeats, h.due_running hinv hstarted, .inr (.inr hrunning)⟩
  | @stopped init t _ _ hlast =>
    have hfalse := htrue (t, false) (by rw [hlast]; simp)
    cases hfalse

theorem Course.last (h : Course s period action id start) {k : Nat}
    (hk : (s.answered id)[k]?.map Prod.snd = some false)
    : (s.run.started id).length = k + 1 := by
  rw [Option.map_eq_some_iff] at hk
  obtain ⟨x, hx, hfalse⟩ := hk
  have hmem := List.mem_of_getElem? hx
  cases h.phase with
  | waiting _ _ _ _ htrue =>
    rw [htrue x hmem] at hfalse
    cases hfalse
  | running _ _ _ _ htrue =>
    rw [htrue x hmem] at hfalse
    cases hfalse
  | @stopped init t _ hmap hlast htrue =>
    have hlength := congrArg List.length hmap
    rw [List.length_map, List.length_map, hlast, List.length_append, List.length_singleton] at hlength
    rw [hlength]
    rw [hlast] at hx
    obtain ⟨hlt, -⟩ := List.getElem?_eq_some_iff.mp hx
    rw [List.length_append, List.length_singleton] at hlt
    by_cases hinit : k < init.length
    . rw [List.getElem?_append_left hinit] at hx
      rw [htrue x (List.mem_of_getElem? hx)] at hfalse
      cases hfalse
    . omega

theorem Course.series (hinv : Inv s.run) (h : Course s period action id start)
    : Series s period action id start where
  times := h.times
  tasks := h.tasks
  answered := by
    cases h.phase with
    | waiting _ _ _ hmap => exact hmap ▸ List.prefix_refl _
    | running _ _ _ hmap =>
      rw [hmap]
      exact List.prefix_append _ _
    | stopped _ hmap => exact hmap ▸ List.prefix_refl _
  pending := by
    cases h.phase with
    | waiting _ _ _ hmap =>
      have hlength := congrArg List.length hmap
      rw [List.length_map, List.length_map] at hlength
      omega
    | running _ _ _ hmap =>
      have hlength := congrArg List.length hmap
      rw [List.length_map, List.length_append, List.length_map, List.length_singleton] at hlength
      omega
    | stopped _ hmap =>
      have hlength := congrArg List.length hmap
      rw [List.length_map, List.length_map] at hlength
      omega
  last := fun _ => h.last
  complete := fun htrue _ => h.complete hinv htrue
  next := h.next hinv
  single := by
    apply length_filter_id_le
    have hlive := hinv.live
    rw [List.map_append] at hlive
    exact hlive.of_append_right

theorem Course.frame (h : Course s period action id start)
    (hstarted : s'.run.started id = s.run.started id) (hanswered : s'.answered id = s.answered id)
    (hwaiting : ∀ t, t.task.id = id → t ∈ s.run.sched.taskQueue ∨ t ∈ s.run.batch →
      t ∈ s'.run.sched.taskQueue ∨ t ∈ s'.run.batch)
    (hrunning : ∀ t, t.task.id = id → s.run.running = some t →
      s'.run.running = some t ∧ s'.run.sched.currentTime = s.run.sched.currentTime)
    (hgone : Gone s.run id → Gone s'.run id)
    : Course s' period action id start := by
  refine ⟨hstarted ▸ h.times, hstarted ▸ h.tasks, ?_⟩
  cases h.phase with
  | @waiting t hwhere hrepeats hdue hmap htrue =>
    rw [← hanswered] at hdue hmap htrue
    rw [← hstarted] at hmap
    exact .waiting (hwaiting t hrepeats.id_eq hwhere) hrepeats hdue hmap htrue
  | @running t hsome hrepeats hnow hmap htrue =>
    obtain ⟨hsome', heq⟩ := hrunning t hrepeats.id_eq hsome
    rw [← hanswered] at hnow hmap htrue
    rw [← hstarted] at hmap
    rw [← heq] at hnow
    exact .running hsome' hrepeats hnow hmap htrue
  | stopped hg hmap hlast htrue =>
    rw [← hanswered] at hmap hlast
    rw [← hstarted] at hmap
    exact .stopped (hgone hg) hmap hlast htrue

theorem Course.call {batch : List (Stamped A)} (hinv : Inv s.run) (h : Course s period action id start)
    (hbatch : s.run.batch = u :: batch) (hrunning : s.run.running = none) (hid : u.task.id = id)
    : Course { s with run := { s.run with
        batch
        running := some u
        executed := s.run.executed ++ [(s.run.sched.currentTime, u)] } } period action id start := by
  have hu : u ∈ s.run.batch := by
    rw [hbatch]
    exact List.mem_cons_self
  have hlive : u ∈ s.run.running.toList ++ s.run.batch ++ s.run.sched.taskQueue :=
    List.mem_append_left _ (List.mem_append_right _ hu)
  cases h.phase with
  | @waiting t hwhere hrepeats hdue hmap htrue =>
    have ht : t ∈ s.run.running.toList ++ s.run.batch ++ s.run.sched.taskQueue := by
      rw [List.append_assoc]
      exact List.mem_append_right _ (List.mem_append.mpr hwhere.symm)
    obtain rfl : t = u := hinv.eq_of_id ht hlive (hrepeats.id_eq.trans hid.symm)
    have hnow : s.run.sched.currentTime.toInt = occurrence start period (s.answered id).length :=
      (hinv.batch_due t hu).symm.trans hdue
    have hlength : (s.run.started id).length = (s.answered id).length := by
      simpa using congrArg List.length hmap
    have hstarted : ({ s.run with
        batch
        running := some t
        executed := s.run.executed ++ [(s.run.sched.currentTime, t)] } : Run A).started id
          = s.run.started id ++ [(s.run.sched.currentTime, t)] := by
      simp [Run.started, hid]
    constructor
    . rw [hstarted, List.map_append, h.times, List.length_append, List.length_singleton,
        List.range_succ, List.map_append, List.map_singleton, List.map_singleton, hnow, hlength]
    . intro e he
      rw [hstarted, List.mem_append, List.mem_singleton] at he
      rcases he with he | rfl
      . exact h.tasks e he
      . exact hrepeats
    . refine .running rfl hrepeats hnow ?_ htrue
      rw [hstarted, List.map_append, hmap]
      rfl
  | running hsome =>
    rw [hrunning] at hsome
    cases hsome
  | stopped hgone => exact absurd hid (hgone.absent u hlive)

theorem Course.finish {willReschedule : Bool} (hinv : Inv s.run)
    (h : Course s period action id start) (hst : s.step (.finish willReschedule) = some s')
    (hok : Undisturbed period id s (.finish willReschedule)) (hrunning : s.run.running = some u)
    (hid : u.task.id = id)
    : Course s' period action id start := by
  obtain ⟨hst, hanswers⟩ := step_timed hst
  have hanswered : s'.answered id = s.answered id ++ [(u, willReschedule)] := by
    simp [Timed.answered, hanswers, Timed.answer, hrunning, hid]
  have hstarted : s'.run.started id = s.run.started id := by
    obtain ⟨_, _, hst⟩ := step_finish hst
    rcases hst with heq | ⟨task, -, heq⟩
    . rw [heq]
      rfl
    . rw [heq]
      rfl
  refine ⟨hstarted ▸ h.times, hstarted ▸ h.tasks, ?_⟩
  cases h.phase with
  | @waiting t hwhere hrepeats =>
    exact absurd (hrepeats.id_eq.trans hid.symm) (hinv.ne_of_running hrunning hwhere)
  | @running t hsome hrepeats hnow hmap htrue =>
    obtain rfl : t = u := Option.some.inj (hsome.symm.trans hrunning)
    have hother : ∀ v, v ∈ s.run.sched.taskQueue ∨ v ∈ s.run.batch → v.task.id ≠ id := by
      intro v hv
      rw [← hid]
      exact hinv.ne_of_running hrunning hv
    have hmap' : (s'.run.started id).map Prod.snd = (s'.answered id).map Prod.fst := by
      rw [hstarted, hanswered, hmap, List.map_append]
      rfl
    cases willReschedule with
    | true =>
      have hroom := hok.room rfl t hrunning hid
      obtain ⟨time, htask⟩ := hrepeats
      have hst' : s'.run = ({ s.run with running := none } : Run A).schedule
          (.periodic (s.run.sched.currentTime + period) period action id false) := by
        simp only [Run.step, hrunning, htask, KernelTask.next, if_true, Option.some.injEq] at hst
        exact hst.symm
      have hmem := mem_schedule (r := { s.run with running := none })
        (.periodic (s.run.sched.currentTime + period) period action id false)
        (fun v hv => hother v (.inl hv))
      rw [← hst'] at hmem
      refine .waiting (.inl hmem) ⟨_, rfl⟩ ?_ hmap' ?_
      . rw [hanswered, List.length_append, List.length_singleton, occurrence_succ, ← hnow,
          Stamped.due, KernelTask.time, hroom]
        dsimp only
        omega
      . intro x hx
        rw [hanswered, List.mem_append, List.mem_singleton] at hx
        rcases hx with hx | rfl
        . exact htrue x hx
        . rfl
    | false =>
      have hst' : s'.run = { s.run with running := none } := by
        simp only [Run.step, hrunning, KernelTask.next_false, Option.some.injEq] at hst
        exact hst.symm
      refine .stopped ?_ hmap' hanswered htrue
      rw [hst']
      constructor
      . refine ⟨t, hinv.known t (.inl ?_), hid⟩
        rw [hrunning]
        exact List.mem_cons_self
      . intro v hv
        exact hother v (List.mem_append.mp hv).symm
  | stopped hgone =>
    refine absurd hid (hgone.absent u ?_)
    rw [hrunning]
    exact List.mem_cons_self

theorem Course.step {a : Action A} (hinv : Inv s.run) (h : Course s period action id start)
    (hst : s.step a = some s') (hok : Undisturbed period id s a)
    : Course s' period action id start := by
  obtain ⟨hst', hanswers⟩ := step_timed hst
  have hgone : Gone s.run id → Gone s'.run id := fun hg => hg.step hst' hok.regular
  have hanswered : s.answer a = [] → s'.answered id = s.answered id := by
    intro hnil
    rw [Timed.answered, hanswers, hnil, List.append_nil]
    rfl
  cases a with
  | schedule task =>
    have heq : s'.run = s.run.schedule task := (Option.some.inj hst').symm
    refine h.frame ?_ (hanswered rfl) ?_ ?_ hgone
    . rw [heq]
      rfl
    . intro t _ hwhere
      rw [heq]
      exact hwhere.imp SortedSet.mem_insert_of_mem (fun hb => hb)
    . intro t _ hrunning
      rw [heq]
      exact ⟨hrunning, rfl⟩
  | cancel taskID =>
    have heq : s'.run = { s.run with
        sched := s.run.sched.cancel taskID
        cancelled := taskID :: s.run.cancelled } := (Option.some.inj hst').symm
    refine h.frame ?_ (hanswered rfl) ?_ ?_ hgone
    . rw [heq]
      rfl
    . intro t hid hwhere
      rw [heq]
      refine hwhere.imp (fun hq => List.mem_filter.mpr ⟨hq, ?_⟩) (fun hb => hb)
      have hne : id ≠ taskID := fun heq => hok.kept (congrArg Action.cancel heq.symm)
      simpa [Task.id, hid] using hne
    . intro t _ hrunning
      rw [heq]
      exact ⟨hrunning, rfl⟩
  | executeNext =>
    obtain ⟨hbatch, hrunning, heq⟩ := step_executeNext hst'
    refine h.frame ?_ (hanswered rfl) ?_ ?_ hgone
    . rw [heq]
      rfl
    . intro t _ hwhere
      rw [hbatch] at hwhere
      rcases hwhere with hq | hb
      . rw [heq]
        exact mem_executeNext _ hq
      . cases hb
    . intro t _ hsome
      rw [hrunning] at hsome
      cases hsome
  | call =>
    obtain ⟨u, batch, hbatch, hrunning, heq⟩ := step_call hst'
    by_cases hid : u.task.id = id
    . have hs' : s' = { s with run := s'.run } := by
        cases s'
        simpa [Timed.answer] using hanswers
      rw [hs', heq]
      exact h.call hinv hbatch hrunning hid
    . refine h.frame ?_ (hanswered rfl) ?_ ?_ hgone
      . rw [heq]
        simp [Run.started, hid]
      . intro t ht hwhere
        rw [heq]
        rw [hbatch, List.mem_cons] at hwhere
        rcases hwhere with hq | rfl | hb
        . exact .inl hq
        . exact absurd ht hid
        . exact .inr hb
      . intro t _ hsome
        rw [hrunning] at hsome
        cases hsome
  | finish willReschedule =>
    obtain ⟨u, hrunning, hcases⟩ := step_finish hst'
    by_cases hid : u.task.id = id
    . exact h.finish hinv hst hok hrunning hid
    . have hother : s'.answered id = s.answered id := by
        simp [Timed.answered, hanswers, Timed.answer, hrunning, hid]
      refine h.frame ?_ hother ?_ ?_ hgone
      . rcases hcases with heq | ⟨task, -, heq⟩
        . rw [heq]
          rfl
        . rw [heq]
          rfl
      . intro t _ hwhere
        rcases hcases with heq | ⟨task, -, heq⟩
        . rw [heq]
          exact hwhere
        . rw [heq]
          exact hwhere.imp SortedSet.mem_insert_of_mem (fun hb => hb)
      . intro t ht hsome
        obtain rfl : t = u := Option.some.inj (hsome.symm.trans hrunning)
        exact absurd ht hid

theorem answers_scheduled (h : (Timed.lts A).Reach (fun s a _ => Regular s.run a) s)
    : ∀ x, x ∈ s.answers → x.1 ∈ s.run.scheduled := by
  apply LTS.Reach.invariant (I := fun s => ∀ x, x ∈ s.answers → x.1 ∈ s.run.scheduled) _ _ h
  . rintro s rfl
    nofun
  . intro s a s' hreach hs hst _ x hx
    obtain ⟨hst, hanswers⟩ := step_timed hst
    have hsub : s.run.scheduled ⊆ s'.run.scheduled := by
      rcases step_scheduled hst with heq | ⟨task, heq, -⟩
      . rw [heq]
        exact List.Subset.refl _
      . rw [heq]
        exact List.subset_append_left _ _
    rw [hanswers, List.mem_append] at hx
    rcases hx with hx | hx
    . exact hsub (hs x hx)
    . cases a with
      | finish willReschedule =>
        obtain ⟨t, ht, rfl⟩ := List.mem_map.mp hx
        apply hsub
        exact (inv_of_reach (reach_run hreach)).known t
          (.inl (List.mem_append_left _ (List.mem_append_left _ ht)))
      | _ => cases hx

theorem Course.of_schedule {s s' : Timed A} {delay : Time} (hinv : Inv s.run)
    (hst : s.step (.schedule (Timer.periodically s.run.sched.currentTime delay period action id))
      = some s')
    (hreg : Regular s.run
      (.schedule (Timer.periodically s.run.sched.currentTime delay period action id)))
    (hroom : (s.run.sched.currentTime + delay).toInt
      = s.run.sched.currentTime.toInt + delay.toInt)
    (hfresh : ∀ x, x ∈ s.answers → x.1 ∈ s.run.scheduled)
    : Course s' period action id (firstOccurrence s.run.sched.currentTime delay) := by
  obtain ⟨hst, hanswers⟩ := step_timed hst
  have heq : s'.run = s.run.schedule
      (Timer.periodically s.run.sched.currentTime delay period action id) :=
    (Option.some.inj hst).symm
  have hnew : ∀ t, t ∈ s.run.scheduled → t.task.id ≠ id := fun t ht => hreg.fresh _ rfl t ht
  have hstarted : s'.run.started id = [] := by
    rw [Run.started, heq, List.filter_eq_nil_iff]
    intro e he
    simpa using hnew e.2 (hinv.known e.2 (.inr (List.mem_map_of_mem he)))
  have hanswered : s'.answered id = [] := by
    rw [Timed.answered, hanswers, List.filter_eq_nil_iff]
    intro x hx
    simp only [Timed.answer, List.append_nil] at hx
    simpa using hnew x.1 (hfresh x hx)
  have hmem := mem_schedule (r := s.run)
    (Timer.periodically s.run.sched.currentTime delay period action id)
    (fun u hu => hnew u (hinv.known u (.inl (List.mem_append_right _ hu))))
  rw [← heq] at hmem
  constructor
  . rw [hstarted]
    rfl
  . rw [hstarted]
    rintro e ⟨⟩
  . refine .waiting (.inl hmem) ⟨_, rfl⟩ ?_ ?_ ?_
    . rw [hanswered, Stamped.due]
      simp [occurrence, firstOccurrence, Timer.periodically, KernelTask.time, hroom]
    . rw [hstarted, hanswered]
      rfl
    . rw [hanswered]
      rintro x ⟨⟩

theorem series_of_periodically {s₀ s₁ s : Timed A} {delay period : Time} {action : A} {id : TaskID}
    (hreach : (Timed.lts A).Reach (fun s a _ => Regular s.run a) s₀)
    (hst : s₀.step (.schedule (Timer.periodically s₀.run.sched.currentTime delay period action id))
      = some s₁)
    (hreg : Regular s₀.run
      (.schedule (Timer.periodically s₀.run.sched.currentTime delay period action id)))
    (hroom : (s₀.run.sched.currentTime + delay).toInt
      = s₀.run.sched.currentTime.toInt + delay.toInt)
    (hpath : (Timed.lts A).Path (fun s a _ => Undisturbed period id s a) s₁ s)
    : Series s period action id (firstOccurrence s₀.run.sched.currentTime delay) := by
  have hstart := Course.of_schedule (inv_of_reach (reach_run hreach)) hst hreg hroom
    (answers_scheduled hreach)
  have hend : (Timed.lts A).Reach (fun s a _ => Regular s.run a) s
      ∧ Course s period action id (firstOccurrence s₀.run.sched.currentTime delay) := by
    apply LTS.Path.stable (I := fun s => (Timed.lts A).Reach (fun s a _ => Regular s.run a) s
      ∧ Course s period action id (firstOccurrence s₀.run.sched.currentTime delay)) _ hpath
      ⟨hreach.next _ hst hreg, hstart⟩
    rintro s a s' ⟨hs, hcourse⟩ hst' hok
    exact ⟨hs.next a hst' hok.regular, hcourse.step (inv_of_reach (reach_run hs)) hst' hok⟩
  exact hend.2.series (inv_of_reach (reach_run hend.1))

theorem Undisturbed.of_room (h : s.run.sched.currentTime < Int64.maxValue)
    : Undisturbed period id s .executeNext where
  regular := .of_room h
  kept := nofun
  room := nofun

theorem Undisturbed.of_call : Undisturbed period id s .call where
  regular := .of_call
  kept := nofun
  room := nofun

theorem Undisturbed.of_finish {willReschedule : Bool}
    (h : (s.run.sched.currentTime + period).toInt
      = s.run.sched.currentTime.toInt + period.toInt)
    : Undisturbed period id s (.finish willReschedule) where
  regular := .of_finish
  kept := nofun
  room := fun _ _ _ _ => h

theorem series_of_periodically_twice
    : ∃ s₀ s₁ s : Timed Unit, (Timed.lts Unit).Reach (fun s a _ => Regular s.run a) s₀
        ∧ s₀.step (.schedule (Timer.periodically 0 2 3 () 1)) = some s₁
        ∧ (Timed.lts Unit).Path (fun s a _ => Undisturbed 3 1 s a) s₁ s
        ∧ (s.run.started 1).map (fun e => e.1.toInt) = [2, 5]
        ∧ s.run.sched.currentTime.toInt = 7 ∧ Series s 3 () 1 (firstOccurrence 0 2) := by
  have h0 : (Timed.lts Unit).Reach (fun s a _ => Regular s.run a) {} := .init rfl
  have h1 := h0.next (.schedule (.simple 7 () 0 false)) rfl (.of_fresh (by decide))
  have h2 := (h1.next (.schedule (Timer.periodically 0 2 3 () 1)) rfl (.of_fresh (by decide))).start
    (fun s a _ => Undisturbed 3 1 s a)
  have h3 := h2.next .executeNext rfl (.of_room (by decide))
  have h4 := h3.next .call rfl .of_call
  have h5 := h4.next (.finish true) rfl (.of_finish (by decide))
  have h6 := h5.next .executeNext rfl (.of_room (by decide))
  have h7 := h6.next .call rfl .of_call
  have h8 := h7.next (.finish false) rfl (.of_finish (by decide))
  have h9 := h8.next .executeNext rfl (.of_room (by decide))
  have hseries := series_of_periodically h1 rfl (.of_fresh (by decide)) (by decide) h9
  exact ⟨_, _, _, h1, rfl, h9, by decide, by decide, hseries⟩

end Kernel
