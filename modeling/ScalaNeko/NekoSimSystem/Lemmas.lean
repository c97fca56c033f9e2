import ScalaNeko.Lib.TimedNetwork
import ScalaNeko.NekoSimSystem.Impl
import ScalaNeko.Network.DelaySim.Lemmas

/-!
A simulated system is one of the runs of its processes over an asynchronous network with a clock: its
scheduler chooses in which order the messages are delivered, and the delays say when.
-/

open AsyncNetwork (Envelope Program)
open Kernel (Time TaskID KernelTask Stamped)
open DelaySimNetwork (Job SimRun Sent isDelivery KernelStep)

namespace Kernel

variable {A : Type} {r r' : Run A}

-- The tasks whose action has not been called.
def waiting (r : Run A) : List (Stamped A) := r.batch ++ r.sched.taskQueue

theorem waiting_schedule {task : KernelTask A}
    (hnew : ∀ t, t ∈ r.sched.taskQueue → t.task.id ≠ task.id)
    : (waiting (r.schedule task)).Perm (⟨task, r.sched.currentTime⟩ :: waiting r) := by
  have hperm : (SortedSet.insert Task.key ⟨task, r.sched.currentTime⟩ r.sched.taskQueue).Perm
      (⟨task, r.sched.currentTime⟩ :: r.sched.taskQueue) := by
    apply SortedSet.insert_perm
    intro t ht heq
    exact hnew t ht (congrArg (fun k => (ofLex k).2) heq)
  exact (hperm.append_left r.batch).trans List.perm_middle

theorem waiting_executeNext (hst : r.step .executeNext = some r')
    : (waiting r').Perm (waiting r) := by
  obtain ⟨hbatch, -, rfl⟩ := step_executeNext hst
  unfold waiting
  dsimp only
  rw [hbatch, List.nil_append]
  unfold Scheduler.executeNext
  split
  . exact .refl _
  . next head tail hqueue =>
    dsimp only
    rw [List.partition_eq_filter_filter, Option.getD_some]
    exact List.filter_append_perm _ _

-- The clock does not pass over a task.
theorem le_due_of_executeNext (hinv : Inv r') (hst : r.step .executeNext = some r') {t : Stamped A}
    (ht : t ∈ waiting r)
    : r'.sched.currentTime.toInt ≤ t.due := by
  rw [← (waiting_executeNext hst).mem_iff, waiting, List.mem_append] at ht
  rcases ht with ht | ht
  . exact Int.le_of_eq (hinv.batch_due t ht).symm
  . exact Int.le_of_lt (hinv.pending t ht).2

theorem waiting_call (hst : r.step .call = some r')
    : ∃ t, r.batch.head? = some t ∧ waiting r = t :: waiting r' := by
  obtain ⟨t, batch, hbatch, -, rfl⟩ := step_call hst
  refine ⟨t, by rw [hbatch]; rfl, ?_⟩
  unfold waiting
  rw [hbatch, List.cons_append]

theorem waiting_finish (hinv : Inv r) {willReschedule : Bool}
    (hst : r.step (.finish willReschedule) = some r')
    : waiting r' = waiting r
      ∨ ∃ t task, t ∈ r.scheduled ∧ t.task.next r.sched.currentTime willReschedule = some task
          ∧ (waiting r').Perm (⟨task, r.sched.currentTime⟩ :: waiting r) := by
  obtain ⟨t, hrunning, hst⟩ := step_finish hst
  rcases hst with rfl | ⟨task, hnext, rfl⟩
  . exact .inl rfl
  . refine .inr ⟨t, task, ?_, hnext, ?_⟩
    . apply hinv.known
      rw [hrunning]
      exact .inl List.mem_cons_self
    . apply waiting_schedule (r := { r with running := none })
      intro u hu
      rw [(KernelTask.next_eq_some hnext).2.2]
      exact hinv.ne_of_running hrunning (.inl hu)

end Kernel

namespace NekoProcess

variable {N : Nat} {S M : Type}

section Program

variable {σ ι κ : Type} {proc : NekoProcess N σ ι κ S M} {me : PID N} {s state : σ}
  {sends : List (Event S M)}

theorem program_input {i : ι} (h : proc.input me i s = some (state, sends))
    (out : List (Event S M) → List (Envelope (PID N) M))
    : (proc.program out).input me i s = some (state, out sends) := by
  simp only [program, h, Option.map_some]

theorem program_receive {m : M} {k : κ} (h : proc.deliver me m k s = some (state, sends))
    (out : List (Event S M) → List (Envelope (PID N) M))
    : (proc.program out).receive me m k s = some (state, out sends) := by
  simp only [program, h, Option.map_some]

end Program

variable [Message N M] {neighborsFor : PID N → Option (Finset (PID N))}

open Network in
theorem map_sendTo {delayForMessage : PID N → M → Option Time} {dest : PID N} {m : M}
    (h : (delayForMessage dest m).isSome)
    : (sendTo ⟨neighborsFor, delayForMessage⟩ dest m).map Prod.fst
      = (sendTo (lossless neighborsFor (fun _ _ => ())) dest m).map Prod.fst := by
  obtain ⟨delay, hdelay⟩ := Option.isSome_iff_exists.mp h
  unfold sendTo neighborhoodFor lossless
  dsimp only
  rw [hdelay]
  split
  . rfl
  . rfl

/--
The delays do not matter for what is put in flight.
-/
theorem map_inFlight {x : Sent N M} (h : ∀ dest, (x.delayForMessage dest x.msg).isSome)
    : (x.inFlight neighborsFor).map Prod.fst
      = emit neighborsFor [(.message x.msg : Event S M)] := by
  unfold Sent.inFlight emit Network.send
  rw [List.flatMap_singleton]
  dsimp only
  split
  . simp only [List.map_flatMap]
    apply List.flatMap_congr
    intro dest _
    exact map_sendTo (h dest)
  . simp only [List.map_flatMap]
    apply List.flatMap_congr
    intro dest _
    exact map_sendTo (h dest)

theorem emit_clique (hb : ∀ m : M, Message.isBroadcast m = false)
    : (emit Network.clique : List (Event S M) → List (Envelope (PID N) M)) = transmit := by
  funext sends
  induction sends with
  | nil => rfl
  | cons e sends ih =>
    have hcons : emit Network.clique (e :: sends)
        = (((Network.lossless Network.clique (fun _ (_ : M) => ())).send e).map Prod.fst)
          ++ emit Network.clique sends := by
      unfold emit
      rw [List.flatMap_cons, List.map_append]
    rw [hcons, ih]
    cases e with
    | signal ie => rfl
    | message m =>
      rw [Network.send_clique (hb m)]
      rfl

theorem emit_cons (e : Event S M) (sends : List (Event S M))
    : emit neighborsFor (e :: sends) = emit neighborsFor [e] ++ emit neighborsFor sends := by
  simp [emit]

end NekoProcess

namespace NekoSimSystem

variable {N : Nat} {σ ι κ S M : Type} {neighborsFor : PID N → Option (Finset (PID N))}
  {network : SimRun N M}

section Flight

-- The envelope of a delivery, with the clock value at which it is due.
def delivery (t : Stamped (Job N M)) : Option (Envelope (PID N) M × Int) :=
  (envelope t).map (fun env => (env, t.due))

def flight (network : SimRun N M) : Multiset (Envelope (PID N) M × Int) :=
  ↑((Kernel.waiting network.run).filterMap delivery)

/--
The system as a network of processes with a clock.
-/
def timedWorld (s : NekoSimSystem N σ M) : TimedNetwork.World (PID N) σ M Int where
  now := s.network.run.sched.currentTime.toInt
  node := s.processes
  net := flight s.network

theorem map_flight : (flight network).map Prod.fst = inFlight network := by
  unfold flight inFlight
  rw [Multiset.map_coe, List.map_filterMap]
  congr 2
  funext t
  unfold delivery
  rw [Option.map_map]
  exact Option.map_id_apply

theorem untimed_timedWorld (s : NekoSimSystem N σ M) : s.timedWorld.untimed = s.world := by
  unfold TimedNetwork.World.untimed timedWorld world
  rw [map_flight]

theorem flight_eq {run : Kernel.Run (Job N M)} {sends : List (Sent N M)}
    (h : (Kernel.waiting run).Perm (Kernel.waiting network.run))
    : flight ⟨run, sends⟩ = flight network := by
  unfold flight
  rw [Multiset.coe_eq_coe]
  exact h.filterMap _

theorem flight_append {run : Kernel.Run (Job N M)} {sends : List (Sent N M)}
    {ts : List (Stamped (Job N M))}
    (h : (Kernel.waiting run).Perm (ts ++ Kernel.waiting network.run))
    : flight ⟨run, sends⟩ = ↑(ts.filterMap delivery) + flight network := by
  unfold flight
  rw [Multiset.coe_add, Multiset.coe_eq_coe, ← List.filterMap_append]
  exact h.filterMap _

-- A task that delivers nothing
theorem flight_silent {run : Kernel.Run (Job N M)} {sends : List (Sent N M)} {t : Stamped (Job N M)}
    (h : (Kernel.waiting run).Perm (t :: Kernel.waiting network.run)) (hnone : delivery t = none)
    : flight ⟨run, sends⟩ = flight network := by
  have happend : flight ⟨run, sends⟩ = ↑([t].filterMap delivery) + flight network := flight_append h
  rw [happend, List.filterMap_cons_none hnone]
  exact Multiset.zero_add _

theorem isDelivery_of_envelope {t : Stamped (Job N M)} {env : Envelope (PID N) M}
    (h : envelope t = some env)
    : isDelivery t.task = true := by
  unfold envelope at h
  split at h
  . next heq =>
    rw [heq]
    rfl
  . cases h

theorem envelope_eq_none {t : Stamped (Job N M)} (h : isDelivery t.task = false)
    : envelope t = none := by
  rw [Option.eq_none_iff_forall_ne_some]
  intro env henv
  rw [isDelivery_of_envelope henv] at h
  cases h

theorem delivery_eq_none {t : Stamped (Job N M)} (h : isDelivery t.task = false)
    : delivery t = none := by
  unfold delivery
  rw [envelope_eq_none h]
  rfl

theorem waiting_foldl {tasks : List (KernelTask (Job N M))} {run : Kernel.Run (Job N M)}
    (h : (Kernel.Run.lts (Job N M)).Reach (fun r a _ => Kernel.Regular r a) run)
    (hfresh : Kernel.Fresh run tasks)
    : (Kernel.waiting (tasks.foldl Kernel.Run.schedule run)).Perm
        (tasks.map (⟨·, run.sched.currentTime⟩) ++ Kernel.waiting run) := by
  induction tasks generalizing run with
  | nil => exact .refl _
  | cons task tasks ih =>
    have hunused := hfresh.unused task List.mem_cons_self
    have hreach := h.next (.schedule task) rfl (.of_fresh hunused)
    apply (ih hreach hfresh.tail).trans
    rw [List.map_cons, List.cons_append]
    apply List.Perm.trans _ List.perm_middle
    apply List.Perm.append_left
    apply Kernel.waiting_schedule
    intro t ht
    exact hunused t ((Kernel.inv_of_reach h).known t (.inl (List.mem_append_right _ ht)))

theorem flight_take {run : Kernel.Run (Job N M)} (hst : network.run.step .call = some run)
    : ∃ t, network.run.batch.head? = some t
        ∧ flight network = ↑([t].filterMap delivery) + flight { network with run } := by
  obtain ⟨t, hhead, hwaiting⟩ := Kernel.waiting_call hst
  have hperm : (Kernel.waiting network.run).Perm ([t] ++ Kernel.waiting run) := by rw [hwaiting]; rfl
  have happend : flight network = ↑([t].filterMap delivery) + flight { network with run } :=
    flight_append hperm
  exact ⟨t, hhead, happend⟩

-- A delivery is not cancelled.
theorem flight_cancel {taskID : TaskID} (hkernel : Kernel.Inv network.run)
    (hkept : ∀ t, t ∈ network.run.scheduled → isDelivery t.task = true → t.task.id ≠ taskID)
    : (network.run.sched.cancel taskID).taskQueue.filterMap delivery
      = network.run.sched.taskQueue.filterMap delivery := by
  rw [Kernel.Scheduler.cancel, List.filterMap_filter]
  apply List.filterMap_congr
  intro t ht
  split
  . rfl
  . next hid =>
    have hscheduled := hkernel.known t (.inl (List.mem_append_right _ ht))
    simp only [bne_iff_ne, ne_eq, Decidable.not_not] at hid
    symm
    apply delivery_eq_none
    rw [Bool.eq_false_iff]
    exact fun hdelivery => hkept t hscheduled hdelivery hid

theorem kernelStep_call : KernelStep network .call where
  regular := .of_call
  own := nofun
  kept := nofun

end Flight

variable [Message N M] {R : SimRun N M → DelaySimNetwork.Action N S M → Prop}

def sendOf (e : Event S M) (draw : Draw N M) : DelaySimNetwork.Action N S M :=
  .send e draw.delayForMessage draw.ids

/--
All calls of `send` meet `R`.
-/
def MeetsAll (R : SimRun N M → DelaySimNetwork.Action N S M → Prop)
    (neighborsFor : PID N → Option (Finset (PID N)))
    : List (Event S M) → (Nat → Draw N M) → SimRun N M → Prop
  | [], _, _ => True
  | e :: sends, draws, network =>
    R network (sendOf e (draws 0))
      ∧ MeetsAll R neighborsFor sends (fun n => draws (n + 1))
        (network.send neighborsFor (draws 0).delayForMessage (draws 0).ids e)

/--
All that happens in the network in one step of the system meets `R`.
-/
def Meets (R : SimRun N M → DelaySimNetwork.Action N S M → Prop) (proc : NekoProcess N σ ι κ S M)
    (neighborsFor : PID N → Option (Finset (PID N))) (s : NekoSimSystem N σ M)
    : Action N ι κ M → Prop
  | .input p i draws => ∀ state sends, proc.input p i (s.processes p) = some (state, sends) →
      MeetsAll R neighborsFor sends draws s.network
  | .kernel a => R s.network (.kernel a)
  | .deliver k draws => ∀ env m run state sends,
      nextDelivery s.network.run = some env → Network.deliver env = some m →
      s.network.run.step .call = some run →
      proc.deliver env.dest m k (s.processes env.dest) = some (state, sends) →
        MeetsAll R neighborsFor sends draws { s.network with run }

/--
No clock value overflows, all identifiers of tasks are new, nobody else schedules or cancels a delivery
and `delayForMessage` drops no message.
-/
structure Regular (neighborsFor : PID N → Option (Finset (PID N))) (network : SimRun N M)
    (a : DelaySimNetwork.Action N S M) : Prop where
  regular : DelaySimNetwork.Regular neighborsFor network a
  lossless : ∀ event delay ids, a = .send event delay ids → ∀ dest m, (delay dest m).isSome

theorem Regular.of_send {e : Event S M} {draw : Draw N M}
    (h : DelaySimNetwork.Regular neighborsFor network (sendOf e draw))
    (hlossless : ∀ dest m, (draw.delayForMessage dest m).isSome)
    : Regular neighborsFor network (sendOf e draw) where
  regular := h
  lossless := by
    rintro _ _ _ ⟨⟩
    exact hlossless

theorem Regular.of_fresh {task : KernelTask (Job N M)}
    (h : ∀ t, t ∈ network.run.scheduled → t.task.id ≠ task.id) (hown : isDelivery task = false)
    : Regular (S := S) neighborsFor network (.kernel (.schedule task)) where
  regular := ⟨.of_fresh h, by rintro _ ⟨⟩; exact hown, nofun⟩
  lossless := nofun

theorem Regular.of_room (h : network.run.sched.currentTime < Int64.maxValue)
    : Regular (S := S) neighborsFor network (.kernel .executeNext) where
  regular := ⟨.of_room h, nofun, nofun⟩
  lossless := nofun

theorem Regular.of_finish {willReschedule : Bool}
    : Regular (S := S) neighborsFor network (.kernel (.finish willReschedule)) where
  regular := ⟨.of_finish, nofun, nofun⟩
  lossless := nofun

-- What a delivery does is determined by the state.
theorem Meets.of_deliver {proc : NekoProcess N σ ι κ S M} {s : NekoSimSystem N σ M} {k : κ}
    {draws : Nat → Draw N M} (env : Envelope (PID N) M) {m : M} {run : Kernel.Run (Job N M)}
    {r : σ × List (Event S M)} (hnext : nextDelivery s.network.run = some env)
    (hdeliver : Network.deliver env = some m) (hrun : s.network.run.step .call = some run)
    (hproc : proc.deliver env.dest m k (s.processes env.dest) = some r)
    (hall : MeetsAll R neighborsFor r.2 draws { s.network with run })
    : Meets R proc neighborsFor s (.deliver k draws) := by
  intro env' m' run' state sends hnext' hdeliver' hrun' hproc'
  rw [hnext] at hnext'
  cases hnext'
  rw [hdeliver] at hdeliver'
  cases hdeliver'
  rw [hrun] at hrun'
  cases hrun'
  rw [hproc] at hproc'
  cases hproc'
  exact hall

theorem reach_sendAll {sends : List (Event S M)} {draws : Nat → Draw N M}
    (h : (SimRun.lts S neighborsFor).Reach (fun s a _ => R s a) network)
    (hsends : MeetsAll R neighborsFor sends draws network)
    : (SimRun.lts S neighborsFor).Reach (fun s a _ => R s a)
        (sendAll neighborsFor sends draws network) := by
  induction sends generalizing draws network with
  | nil => exact h
  | cons e sends ih => exact ih (h.next (sendOf e (draws 0)) rfl hsends.1) hsends.2

theorem regular_reach (h : (SimRun.lts S neighborsFor).Reach (fun s a _ => Regular neighborsFor s a) network)
    : (SimRun.lts S neighborsFor).Reach (fun s a _ => DelaySimNetwork.Regular neighborsFor s a)
        network :=
  h.mono (fun _ _ _ hreg => hreg.regular)

/--
What the calls of `send` at one clock value put in flight.
-/
def timedOut (neighborsFor : PID N → Option (Finset (PID N))) (now : Time)
    : List (Event S M) → (Nat → Draw N M) → List (Envelope (PID N) M × Int)
  | [], _ => []
  | .signal _ :: sends, draws => timedOut neighborsFor now sends (fun n => draws (n + 1))
  | .message msg :: sends, draws =>
    let x : Sent N M := ⟨msg, now, (draws 0).delayForMessage, (draws 0).ids⟩
    (x.inFlight neighborsFor).map (fun p => (p.1, x.due p.2))
      ++ timedOut neighborsFor now sends (fun n => draws (n + 1))

theorem send_message (msg : M) (draw : Draw N M)
    : network.send (S := S) neighborsFor draw.delayForMessage draw.ids (.message msg)
      = (let x : Sent N M := ⟨msg, network.run.sched.currentTime, draw.delayForMessage, draw.ids⟩
        { run := ((x.inFlight neighborsFor).map (x.task network.sends.length)).foldl
            Kernel.Run.schedule network.run
          sends := network.sends ++ [x] }) :=
  rfl

theorem currentTime_send (e : Event S M) (draw : Draw N M)
    : (network.send neighborsFor draw.delayForMessage draw.ids e).run.sched.currentTime
      = network.run.sched.currentTime := by
  cases e with
  | signal ie => rfl
  | message msg =>
    rw [send_message]
    exact Kernel.currentTime_foldl _ _

theorem currentTime_sendAll (sends : List (Event S M)) (draws : Nat → Draw N M)
    : (sendAll neighborsFor sends draws network).run.sched.currentTime
      = network.run.sched.currentTime := by
  induction sends generalizing draws network with
  | nil => rfl
  | cons e sends ih => rw [sendAll, ih, currentTime_send]

theorem map_timedOut {sends : List (Event S M)} {draws : Nat → Draw N M}
    (hsends : MeetsAll (Regular neighborsFor) neighborsFor sends draws network)
    : (timedOut neighborsFor network.run.sched.currentTime sends draws).map Prod.fst
      = NekoProcess.emit neighborsFor sends := by
  induction sends generalizing draws network with
  | nil => rfl
  | cons e sends ih =>
    have hrest := ih hsends.2
    rw [currentTime_send] at hrest
    rw [NekoProcess.emit_cons, ← hrest]
    cases e with
    | signal ie => rfl
    | message msg =>
      rw [timedOut, List.map_append, List.map_map]
      congr 1
      exact NekoProcess.map_inFlight (S := S)
        (x := ⟨msg, network.run.sched.currentTime, (draws 0).delayForMessage, (draws 0).ids⟩)
        (fun dest => hsends.1.lossless _ _ _ rfl dest msg)

theorem flight_send {msg : M} {draw : Draw N M}
    (h : (SimRun.lts S neighborsFor).Reach (fun s a _ => Regular neighborsFor s a) network)
    (hreg : Regular neighborsFor network (sendOf (.message msg : Event S M) draw))
    : flight (network.send neighborsFor draw.delayForMessage draw.ids (.message msg : Event S M))
      = ↑(timedOut neighborsFor network.run.sched.currentTime [(.message msg : Event S M)]
          (fun _ => draw)) + flight network := by
  have hperm := waiting_foldl (DelaySimNetwork.run_reach (regular_reach h)) hreg.regular.fresh
  rw [send_message, flight_append hperm]
  congr 2
  rw [timedOut, timedOut, List.append_nil, List.map_map, List.filterMap_map, ← List.filterMap_eq_map]
  apply List.filterMap_congr
  intro p hp
  have hrange := hreg.regular.range p hp
  simp only [Function.comp_apply, delivery, envelope, Sent.task, Stamped.due, KernelTask.time,
    Option.map_some, Sent.due, hrange]

theorem flight_sendAll {sends : List (Event S M)} {draws : Nat → Draw N M}
    (h : (SimRun.lts S neighborsFor).Reach (fun s a _ => Regular neighborsFor s a) network)
    (hsends : MeetsAll (Regular neighborsFor) neighborsFor sends draws network)
    : flight (sendAll neighborsFor sends draws network)
      = ↑(timedOut neighborsFor network.run.sched.currentTime sends draws) + flight network := by
  induction sends generalizing draws network with
  | nil => exact (Multiset.zero_add _).symm
  | cons e sends ih =>
    have hnext := h.next (sendOf e (draws 0)) rfl hsends.1
    rw [sendAll, ih hnext hsends.2, currentTime_send]
    cases e with
    | signal ie => rfl
    | message msg =>
      rw [flight_send h hsends.1, ← Multiset.add_assoc, Multiset.coe_add]
      congr 1
      rw [timedOut, timedOut, timedOut, List.append_nil]
      exact Multiset.coe_eq_coe.mpr List.perm_append_comm

theorem flight_kernel {a : Kernel.Action (Job N M)} {run : Kernel.Run (Job N M)}
    (hinv : DelaySimNetwork.Inv neighborsFor network) (hkernel : Kernel.Inv network.run)
    (hst : network.run.step a = some run) (hstep : KernelStep network a)
    (hcall : a = .call → nextDelivery network.run = none)
    : flight { network with run } = flight network := by
  cases a with
  | schedule task =>
    cases hst
    apply flight_silent (Kernel.waiting_schedule _) (delivery_eq_none (hstep.own task rfl))
    intro t ht
    exact hstep.regular.fresh task rfl t (hkernel.known t (.inl (List.mem_append_right _ ht)))
  | cancel taskID =>
    cases hst
    have hqueue : (network.run.sched.cancel taskID).taskQueue.filterMap delivery
        = network.run.sched.taskQueue.filterMap delivery := by
      apply flight_cancel hkernel
      rintro t ht hdelivery rfl
      exact hstep.kept t ht hdelivery rfl
    unfold flight Kernel.waiting
    rw [List.filterMap_append, List.filterMap_append, hqueue]
  | executeNext => exact flight_eq (Kernel.waiting_executeNext hst)
  | call =>
    obtain ⟨t, hhead, hflight⟩ := flight_take hst
    have hnone : delivery t = none := by
      have hcall := hcall rfl
      rw [nextDelivery, hhead] at hcall
      unfold delivery
      rw [show envelope t = none from hcall]
      rfl
    rw [List.filterMap_cons_none hnone] at hflight
    exact (hflight.trans (Multiset.zero_add _)).symm
  | finish willReschedule =>
    rcases Kernel.waiting_finish hkernel hst with heq | ⟨t, task, ht, hnext, hperm⟩
    . exact flight_eq (.of_eq heq)
    . apply flight_silent hperm
      -- only periodic tasks come again
      apply delivery_eq_none
      by_contra hdelivery
      rw [Bool.not_eq_false] at hdelivery
      rw [DelaySimNetwork.isDelivery_next hnext] at hdelivery
      obtain ⟨n, x, p, -, -, rfl⟩ := hinv.sent t ht hdelivery
      cases hnext

section NextDelivery

variable {env : Envelope (PID N) M} {run : Kernel.Run (Job N M)}

omit [Message N M] in
/--
The envelope of the next delivery is in flight until its action is called, when it is due.
-/
theorem flight_call (hkernel : Kernel.Inv network.run) (hnext : nextDelivery network.run = some env)
    (hst : network.run.step .call = some run)
    : flight network
      = (env, network.run.sched.currentTime.toInt) ::ₘ flight { network with run } := by
  obtain ⟨t, hhead, hflight⟩ := flight_take hst
  have hdelivery : delivery t = some (env, network.run.sched.currentTime.toInt) := by
    rw [nextDelivery, hhead] at hnext
    unfold delivery
    rw [show envelope t = some env from hnext, ← hkernel.batch_due t (List.mem_of_mem_head? hhead)]
    rfl
  rw [List.filterMap_cons_some hdelivery] at hflight
  exact hflight

theorem eligible_of_nextDelivery (hinv : DelaySimNetwork.Inv neighborsFor network)
    (hkernel : Kernel.Inv network.run) (hnext : nextDelivery network.run = some env)
    : Network.Eligible neighborsFor env.msg env.dest := by
  obtain ⟨t, hhead, henv⟩ := Option.bind_eq_some_iff.mp hnext
  have hscheduled : t ∈ network.run.scheduled := by
    apply hkernel.known
    refine .inl (List.mem_append_left _ (List.mem_append_right _ ?_))
    exact List.mem_of_mem_head? hhead
  obtain ⟨n, x, p, hx, hp, rfl⟩ := hinv.sent t hscheduled (isDelivery_of_envelope henv)
  obtain ⟨hmsg, heligible, -⟩ := DelaySimNetwork.mem_inFlight.mp hp
  cases henv
  rw [hmsg]
  exact heligible

end NextDelivery

variable {proc : NekoProcess N σ ι κ S M} {s s' : NekoSimSystem N σ M} {a : Action N ι κ M}

-- What a step of the system is for its processes, if anything.
def Performs (s : NekoSimSystem N σ M)
    : Action N ι κ M → AsyncNetwork.Action (PID N) ι κ M → Prop
  | .input p i _, b => b = .input p i
  | .kernel _, _ => False
  | .deliver k _, b =>
    ∃ env, nextDelivery s.network.run = some env ∧ b = .receive env.dest env.msg k

theorem step_input {p : PID N} {i : ι} {draws : Nat → Draw N M}
    (h : s.step proc neighborsFor (.input p i draws) = some s')
    : ∃ state sends, proc.input p i (s.processes p) = some (state, sends)
        ∧ s' = s.update neighborsFor p state sends draws := by
  simp only [step, Option.bind_eq_bind, Option.bind_eq_some_iff, Prod.exists, Option.pure_def,
    Option.some.injEq] at h
  obtain ⟨state, sends, h, rfl⟩ := h
  exact ⟨state, sends, h, rfl⟩

theorem step_kernel {a : Kernel.Action (Job N M)}
    (h : s.step proc neighborsFor (.kernel a : Action N ι κ M) = some s')
    : (a = .call → nextDelivery s.network.run = none)
        ∧ ∃ run, s.network.run.step a = some run
          ∧ s' = { s with network := { s.network with run } } := by
  unfold step at h
  dsimp only at h
  split at h
  . cases h
  . next hcall =>
    simp only [Option.bind_eq_bind, Option.bind_eq_some_iff, Option.pure_def, Option.some.injEq] at h
    obtain ⟨run, hrun, rfl⟩ := h
    refine ⟨?_, run, hrun, rfl⟩
    rintro rfl
    rw [Option.eq_none_iff_forall_ne_some]
    intro env henv
    exact hcall env rfl henv

theorem step_of_deliver {k : κ} {draws : Nat → Draw N M} (env : Envelope (PID N) M) {m : M}
    {run : Kernel.Run (Job N M)} {state : σ} {sends : List (Event S M)}
    (hnext : nextDelivery s.network.run = some env) (hdeliver : Network.deliver env = some m)
    (hrun : s.network.run.step .call = some run)
    (hproc : proc.deliver env.dest m k (s.processes env.dest) = some (state, sends))
    : s.step proc neighborsFor (.deliver k draws)
      = some (update neighborsFor { s with network := { s.network with run } } env.dest state sends draws) := by
  simp only [step, hnext, hrun, hdeliver, hproc, Option.bind_eq_bind, Option.bind_some, Option.pure_def]

theorem step_deliver {k : κ} {draws : Nat → Draw N M}
    (h : s.step proc neighborsFor (.deliver k draws) = some s')
    : ∃ env run, nextDelivery s.network.run = some env ∧ s.network.run.step .call = some run
        ∧ ((Network.deliver env = none ∧ s' = { s with network := { s.network with run } })
          ∨ ∃ m state sends, Network.deliver env = some m
              ∧ proc.deliver env.dest m k (s.processes env.dest) = some (state, sends)
              ∧ s' = ({ s with network := { s.network with run } } : NekoSimSystem N σ M).update
                  neighborsFor env.dest state sends draws) := by
  simp only [step, Option.bind_eq_bind, Option.bind_eq_some_iff] at h
  obtain ⟨env, hnext, run, hrun, h⟩ := h
  refine ⟨env, run, hnext, hrun, ?_⟩
  cases hdeliver : Network.deliver env with
  | none =>
    rw [hdeliver] at h
    cases h
    exact .inl ⟨rfl, rfl⟩
  | some m =>
    rw [hdeliver] at h
    simp only [Option.bind_eq_some_iff, Prod.exists, Option.pure_def, Option.some.injEq] at h
    obtain ⟨state, sends, h, rfl⟩ := h
    exact .inr ⟨m, state, sends, rfl, h, rfl⟩

-- The network delivers nothing to a process that is not a destination.
theorem step_deliver_of_inv {k : κ} {draws : Nat → Draw N M}
    (hinv : DelaySimNetwork.Inv neighborsFor s.network) (hkernel : Kernel.Inv s.network.run)
    (h : s.step proc neighborsFor (.deliver k draws) = some s')
    : ∃ env run state sends, nextDelivery s.network.run = some env
        ∧ Network.deliver env = some env.msg ∧ s.network.run.step .call = some run
        ∧ proc.deliver env.dest env.msg k (s.processes env.dest) = some (state, sends)
        ∧ s' = ({ s with network := { s.network with run } } : NekoSimSystem N σ M).update
            neighborsFor env.dest state sends draws := by
  obtain ⟨env, run, hnext, hrun, hm⟩ := step_deliver h
  have hdeliver := (eligible_of_nextDelivery hinv hkernel hnext).deliver
  rcases hm with ⟨hnone, -⟩ | ⟨m, state, sends, hm, hstate, rfl⟩
  . rw [hdeliver] at hnone
    cases hnone
  . rw [hdeliver] at hm
    cases hm
    exact ⟨env, run, state, sends, hnext, hdeliver, hrun, hstate, rfl⟩

theorem reach_kernel {a : Kernel.Action (Job N M)} {run : Kernel.Run (Job N M)}
    (h : (SimRun.lts S neighborsFor).Reach (fun s a _ => R s a) network)
    (hst : network.run.step a = some run) (hstep : R network (.kernel a))
    : (SimRun.lts S neighborsFor).Reach (fun s a _ => R s a) { network with run } := by
  apply h.next (.kernel a) _ hstep
  show (network.run.step a).map _ = _
  rw [hst]
  rfl

theorem network_reach (hcall : ∀ network, R network (.kernel .call))
    (h : (lts proc neighborsFor).Reach (fun s a _ => Meets R proc neighborsFor s a) s)
    : (SimRun.lts S neighborsFor).Reach (fun s a _ => R s a) s.network := by
  induction h with
  | init h0 =>
    rw [h0]
    exact .init rfl
  | @step s s' a _ hst hreg ih =>
    cases a with
    | input p i draws =>
      obtain ⟨state, sends, hinput, rfl⟩ := step_input hst
      exact reach_sendAll ih (hreg state sends hinput)
    | kernel a =>
      obtain ⟨-, run, hrun, rfl⟩ := step_kernel hst
      exact reach_kernel ih hrun hreg
    | deliver k draws =>
      obtain ⟨env, run, hnext, hrun, ⟨-, rfl⟩ | ⟨m, state, sends, hdeliver, hm, rfl⟩⟩ := step_deliver hst
      . exact reach_kernel ih hrun (hcall _)
      . apply reach_sendAll (reach_kernel ih hrun (hcall _))
        exact hreg env m run state sends hnext hdeliver hrun hm

theorem regular_call : Regular (S := S) neighborsFor network (.kernel .call) where
  regular := kernelStep_call
  lossless := nofun

/--
What a step of the system is for its processes and their clock, if anything.
-/
def Timed (proc : NekoProcess N σ ι κ S M) (neighborsFor : PID N → Option (Finset (PID N)))
    (s : NekoSimSystem N σ M)
    : Action N ι κ M → TimedNetwork.Label (PID N) ι κ M Int → Prop
  | .input p i draws, l => ∃ state sends, proc.input p i (s.processes p) = some (state, sends)
      ∧ l = .act (.input p i) (timedOut neighborsFor s.network.run.sched.currentTime sends draws)
  | .kernel a, l => a = .executeNext ∧ l = .wait
  | .deliver k draws, l => ∃ env run state sends, nextDelivery s.network.run = some env
      ∧ Network.deliver env = some env.msg ∧ s.network.run.step .call = some run
      ∧ proc.deliver env.dest env.msg k (s.processes env.dest) = some (state, sends)
      ∧ l = .act (.receive env.dest env.msg k)
          (timedOut neighborsFor s.network.run.sched.currentTime sends draws)

section TimedWorld

variable (h : (lts proc neighborsFor).Reach
  (fun s a _ => Meets (Regular neighborsFor) proc neighborsFor s a) s)
include h

theorem kernel_inv : Kernel.Inv s.network.run :=
  Kernel.inv_of_reach (DelaySimNetwork.run_reach (regular_reach (network_reach (fun _ => regular_call) h)))

theorem timedWorld_input {p : PID N} {i : ι} {draws : Nat → Draw N M} {state : σ}
    {sends : List (Event S M)} (hinput : proc.input p i (s.processes p) = some (state, sends))
    (hall : MeetsAll (Regular neighborsFor) neighborsFor sends draws s.network)
    : TimedNetwork.Step (proc.program (NekoProcess.emit neighborsFor)) s.timedWorld
        (.act (.input p i) (timedOut neighborsFor s.network.run.sched.currentTime sends draws))
        (s.update neighborsFor p state sends draws).timedWorld := by
  unfold timedWorld update
  dsimp only
  rw [flight_sendAll (network_reach (fun _ => regular_call) h) hall, currentTime_sendAll]
  apply TimedNetwork.Step.input
  rw [map_timedOut hall]
  exact NekoProcess.program_input hinput _

-- Time passes when the scheduler takes the next batch, up to what is due.
theorem timedWorld_executeNext {run : Kernel.Run (Job N M)}
    (hrun : s.network.run.step .executeNext = some run)
    (hreg : Regular (S := S) neighborsFor s.network (.kernel .executeNext))
    : TimedNetwork.Step (proc.program (NekoProcess.emit neighborsFor)) s.timedWorld .wait
        ({ s with network := { s.network with run } } : NekoSimSystem N σ M).timedWorld := by
  have hnetwork := DelaySimNetwork.run_reach (regular_reach (network_reach (fun _ => regular_call) h))
  have hkernel := Kernel.inv_of_reach (hnetwork.next .executeNext hrun hreg.regular.regular)
  unfold timedWorld
  dsimp only
  have hflight : flight { s.network with run } = flight s.network :=
    flight_eq (Kernel.waiting_executeNext hrun)
  rw [hflight]
  apply TimedNetwork.Step.wait
  . exact Kernel.currentTime_le hrun hreg.regular.regular
  . intro x hx
    obtain ⟨t, ht, hx⟩ := List.mem_filterMap.mp (Multiset.mem_coe.mp hx)
    obtain ⟨env, -, rfl⟩ := Option.map_eq_some_iff.mp hx
    exact Kernel.le_due_of_executeNext hkernel hrun ht

theorem timedWorld_deliver {env : Envelope (PID N) M} {run : Kernel.Run (Job N M)} {k : κ}
    {draws : Nat → Draw N M} {state : σ} {sends : List (Event S M)}
    (hnext : nextDelivery s.network.run = some env) (hrun : s.network.run.step .call = some run)
    (hstate : proc.deliver env.dest env.msg k (s.processes env.dest) = some (state, sends))
    (hall : MeetsAll (Regular neighborsFor) neighborsFor sends draws { s.network with run })
    : TimedNetwork.Step (proc.program (NekoProcess.emit neighborsFor)) s.timedWorld
        (.act (.receive env.dest env.msg k)
          (timedOut neighborsFor s.network.run.sched.currentTime sends draws))
        (({ s with network := { s.network with run } } : NekoSimSystem N σ M).update neighborsFor
          env.dest state sends draws).timedWorld := by
  have htime : run.sched.currentTime = s.network.run.sched.currentTime :=
    Kernel.currentTime_eq hrun nofun
  have hcalled := reach_kernel (network_reach (fun _ => regular_call) h) hrun regular_call
  have hflight := flight_sendAll hcalled hall
  have hmap := map_timedOut hall
  dsimp only at hflight hmap
  rw [htime] at hflight hmap
  unfold timedWorld update
  dsimp only
  rw [hflight, currentTime_sendAll]
  dsimp only
  rw [htime]
  apply TimedNetwork.Step.receive (flight_call (kernel_inv h) hnext hrun)
  rw [hmap]
  exact NekoProcess.program_receive hstate _

theorem timedWorld_step (hst : s.step proc neighborsFor a = some s')
    (hreg : Meets (Regular neighborsFor) proc neighborsFor s a)
    : s'.timedWorld = s.timedWorld
      ∨ ∃ l, Timed proc neighborsFor s a l
          ∧ TimedNetwork.Step (proc.program (NekoProcess.emit neighborsFor)) s.timedWorld l
            s'.timedWorld := by
  have hinv := DelaySimNetwork.inv_of_reach (regular_reach (network_reach (fun _ => regular_call) h))
  cases a with
  | input p i draws =>
    obtain ⟨state, sends, hinput, rfl⟩ := step_input hst
    exact .inr ⟨_, ⟨state, sends, hinput, rfl⟩, timedWorld_input h hinput (hreg state sends hinput)⟩
  | kernel a =>
    obtain ⟨hcall, run, hrun, rfl⟩ := step_kernel hst
    by_cases ha : a = .executeNext
    . subst ha
      exact .inr ⟨.wait, ⟨rfl, rfl⟩, timedWorld_executeNext h hrun hreg⟩
    . left
      unfold timedWorld
      dsimp only
      rw [flight_kernel hinv (kernel_inv h) hrun hreg.regular hcall, Kernel.currentTime_eq hrun ha]
  | deliver k draws =>
    obtain ⟨env, run, state, sends, hnext, hdeliver, hrun, hstate, rfl⟩ :=
      step_deliver_of_inv hinv (kernel_inv h) hst
    have hall := hreg env _ run state sends hnext hdeliver hrun hstate
    exact .inr ⟨_, ⟨env, run, state, sends, hnext, hdeliver, hrun, hstate, rfl⟩,
      timedWorld_deliver h hnext hrun hstate hall⟩

end TimedWorld

/--
All messages take between `lo` and `hi`, where the scheduler delivers nothing at once.
-/
def DelaysWithin (lo hi : Int) : DelaySimNetwork.Action N S M → Prop
  | .send _ delayForMessage _ => ∀ dest m delay, delayForMessage dest m = some delay →
      lo ≤ max delay.toInt 1 ∧ max delay.toInt 1 ≤ hi
  | .kernel _ => True

theorem timedOut_within {lo hi : Int} {sends : List (Event S M)} {draws : Nat → Draw N M}
    (h : MeetsAll (fun _ a => DelaysWithin lo hi a) neighborsFor sends draws network) {now : Time}
    {x : Envelope (PID N) M × Int} (hx : x ∈ timedOut neighborsFor now sends draws)
    : now.toInt + lo ≤ x.2 ∧ x.2 ≤ now.toInt + hi := by
  induction sends generalizing draws network with
  | nil => cases hx
  | cons e sends ih =>
    cases e with
    | signal ie => exact ih h.2 hx
    | message msg =>
      rw [timedOut, List.mem_append] at hx
      rcases hx with hx | hx
      . obtain ⟨p, hp, rfl⟩ := List.mem_map.mp hx
        obtain ⟨-, -, hdelay⟩ := DelaySimNetwork.mem_inFlight.mp hp
        have hwithin := h.1 _ _ _ hdelay
        dsimp only [Sent.due]
        omega
      . exact ih h.2 hx

theorem Timed.within {lo hi : Int} {b : AsyncNetwork.Action (PID N) ι κ M}
    {out : List (Envelope (PID N) M × Int)} (h : Timed proc neighborsFor s a (.act b out))
    (hmeets : Meets (fun _ a => DelaysWithin lo hi a) proc neighborsFor s a)
    : ∀ x, x ∈ out → s.timedWorld.now + lo ≤ x.2 ∧ x.2 ≤ s.timedWorld.now + hi := by
  intro x hx
  cases a with
  | input p i draws =>
    obtain ⟨state, sends, hinput, heq⟩ := h
    cases heq
    exact timedOut_within (hmeets state sends hinput) hx
  | kernel a => cases h.2
  | deliver k draws =>
    obtain ⟨env, run, state, sends, hnext, hdeliver, hrun, hstate, heq⟩ := h
    cases heq
    exact timedOut_within (hmeets env _ run state sends hnext hdeliver hrun hstate) hx

-- Only the scheduler lets time pass.
theorem Timed.eq_executeNext (h : Timed proc neighborsFor s a .wait) : a = .kernel .executeNext := by
  cases a with
  | input p i draws =>
    obtain ⟨_, _, _, heq⟩ := h
    cases heq
  | kernel a => rw [h.1]
  | deliver k draws =>
    obtain ⟨_, _, _, _, _, _, _, _, heq⟩ := h
    cases heq

section Refinement

variable {ok : TimedNetwork.World (PID N) σ M Int → TimedNetwork.Label (PID N) ι κ M Int →
      TimedNetwork.World (PID N) σ M Int → Prop}

theorem timedWorld_moves {s s' : NekoSimSystem N σ M} {a : Action N ι κ M}
    (h : (lts proc neighborsFor).Reach (fun s a s' => Meets (Regular neighborsFor) proc neighborsFor s a
      ∧ ∀ l, Timed proc neighborsFor s a l → ok s.timedWorld l s'.timedWorld) s)
    (hst : s.step proc neighborsFor a = some s')
    (hok : Meets (Regular neighborsFor) proc neighborsFor s a
      ∧ ∀ l, Timed proc neighborsFor s a l → ok s.timedWorld l s'.timedWorld)
    : (TimedNetwork.lts (proc.program (NekoProcess.emit neighborsFor)) 0).Path ok s.timedWorld
        s'.timedWorld := by
  rcases timedWorld_step (h.mono (fun _ _ _ h => h.1)) hst hok.1 with heq | ⟨l, hl, hstep⟩
  . rw [heq]
    exact .refl
  . exact .single _ hstep (hok.2 l hl)

/--
Every run of the system is a run of its processes over an asynchronous network with a clock, so that
whatever holds of all of those holds of the system. `ok` is what the steps of the processes meet.
-/
theorem timedWorld_reach
    (h : (lts proc neighborsFor).Reach (fun s a s' => Meets (Regular neighborsFor) proc neighborsFor s a
      ∧ ∀ l, Timed proc neighborsFor s a l → ok s.timedWorld l s'.timedWorld) s)
    : (TimedNetwork.lts (proc.program (NekoProcess.emit neighborsFor)) 0).Reach ok s.timedWorld := by
  apply LTS.Reach.refine timedWorld _ (fun _ _ _ => timedWorld_moves) h
  rintro s rfl
  rfl

theorem timedWorld_path {s₀ : NekoSimSystem N σ M}
    (h : (lts proc neighborsFor).Reach (fun s a s' => Meets (Regular neighborsFor) proc neighborsFor s a
      ∧ ∀ l, Timed proc neighborsFor s a l → ok s.timedWorld l s'.timedWorld) s₀)
    (hp : (lts proc neighborsFor).Path (fun s a s' => Meets (Regular neighborsFor) proc neighborsFor s a
      ∧ ∀ l, Timed proc neighborsFor s a l → ok s.timedWorld l s'.timedWorld) s₀ s)
    : (TimedNetwork.lts (proc.program (NekoProcess.emit neighborsFor)) 0).Path ok s₀.timedWorld
        s.timedWorld :=
  LTS.Path.refine timedWorld (fun _ _ _ => timedWorld_moves) h hp

end Refinement

-- The same without the clock.
theorem world_reach
    {ok : AsyncNetwork.World (PID N) σ M → AsyncNetwork.Label (PID N) ι κ M →
      AsyncNetwork.World (PID N) σ M → Prop}
    (h : (lts proc neighborsFor).Reach (fun s a s' => Meets (Regular neighborsFor) proc neighborsFor s a
      ∧ ∀ b out, Performs s a b → ok s.world ⟨b, out⟩ s'.world) s)
    : (proc.program (NekoProcess.emit neighborsFor)).lts.Reach ok s.world := by
  let okTimed : TimedNetwork.World (PID N) σ M Int → TimedNetwork.Label (PID N) ι κ M Int →
      TimedNetwork.World (PID N) σ M Int → Prop := fun w l w' =>
    ∀ b out, l = .act b out → ok w.untimed ⟨b, out.map Prod.fst⟩ w'.untimed
  suffices htimed : (TimedNetwork.lts (proc.program (NekoProcess.emit neighborsFor)) 0).Reach okTimed
      s.timedWorld by
    rw [← untimed_timedWorld]
    exact TimedNetwork.untimed_reach (fun _ b out _ hok => hok b out rfl) htimed
  apply timedWorld_reach
  apply h.mono
  rintro s a s' ⟨hreg, hok⟩
  refine ⟨hreg, ?_⟩
  rintro l hl b out rfl
  rw [untimed_timedWorld, untimed_timedWorld]
  apply hok
  cases a with
  | input p i draws =>
    obtain ⟨_, _, _, heq⟩ := hl
    cases heq
    rfl
  | kernel a => cases hl.2
  | deliver k draws =>
    obtain ⟨env, _, _, _, hnext, _, _, _, heq⟩ := hl
    cases heq
    exact ⟨env, hnext, rfl⟩

/--
The loop at the end of a simulation has stopped: only daemon tasks are left.
-/
structure Idle (s : NekoSimSystem N σ M) : Prop where
  batch : s.network.run.batch = []
  queue : s.network.run.sched.nonEmptyBesideDaemons = false

-- No delivery is the task of a daemon.
theorem Idle.net_eq_zero (hidle : Idle s)
    (h : (lts proc neighborsFor).Reach
      (fun s a _ => Meets (Regular neighborsFor) proc neighborsFor s a) s)
    : s.world.net = 0 := by
  have hnetwork := regular_reach (network_reach (fun _ => regular_call) h)
  have hinv := DelaySimNetwork.inv_of_reach hnetwork
  have hkernel := Kernel.inv_of_reach (DelaySimNetwork.run_reach hnetwork)
  have hqueue := hidle.queue
  rw [Kernel.Scheduler.nonEmptyBesideDaemons, List.any_eq_false] at hqueue
  have hnone : s.network.run.sched.taskQueue.filterMap envelope = [] := by
    rw [List.filterMap_eq_nil_iff]
    intro t ht
    apply envelope_eq_none
    by_contra hdelivery
    rw [Bool.not_eq_false] at hdelivery
    have hscheduled := hkernel.known t (.inl (List.mem_append_right _ ht))
    obtain ⟨n, x, p, -, -, rfl⟩ := hinv.sent t hscheduled hdelivery
    exact hqueue _ ht rfl
  unfold world inFlight
  dsimp only
  rw [hidle.batch, List.nil_append, hnone]
  rfl

theorem refines_timedNetwork
    {ok : TimedNetwork.World (PID N) σ M Int → TimedNetwork.Label (PID N) ι κ M Int →
      TimedNetwork.World (PID N) σ M Int → Prop}
    (h : (lts proc neighborsFor).Reach (fun s a s' => Meets (Regular neighborsFor) proc neighborsFor s a
      ∧ ∀ l, Timed proc neighborsFor s a l → ok s.timedWorld l s'.timedWorld) s)
    : (TimedNetwork.lts (proc.program (NekoProcess.emit neighborsFor)) 0).Reach ok s.timedWorld
      ∧ (Idle s → s.timedWorld.net = 0) := by
  refine ⟨timedWorld_reach h, ?_⟩
  intro hidle
  have hempty := hidle.net_eq_zero (h.mono (fun _ _ _ hok => hok.1))
  rw [← untimed_timedWorld] at hempty
  exact Multiset.map_eq_zero.mp hempty

attribute [local instance] PID.twoProcesses

/--
Processes that count what they receive and answer the first message.
-/
def answering : NekoProcess 2 Nat Unit Unit Empty (AppMessage 2 Unit) where
  init := fun _ => 0
  input := fun me _ count => some (count, [.message (.unicast me (1 - me) ())])
  deliver := fun me _ _ count =>
    some (count + 1, if count = 0 then [.message (.unicast me (1 - me) ())] else [])

def drawn (delay : Time) (id : TaskID) : Nat → Draw 2 (AppMessage 2 Unit) :=
  fun _ => ⟨fun _ _ => some delay, fun _ => id⟩

def delayed (m : AppMessage 2 Unit) (since delay : Time) (id : TaskID) : Sent 2 (AppMessage 2 Unit) :=
  ⟨m, since, fun _ _ => some delay, fun _ => id⟩

def asked : Sent 2 (AppMessage 2 Unit) := delayed (.unicast 0 1 ()) 0 5 0

def reply : Sent 2 (AppMessage 2 Unit) := delayed (.unicast 1 0 ()) 5 1 1

def closing : Sent 2 (AppMessage 2 Unit) := delayed (.unicast 0 1 ()) 6 1 2

def askedTask : Stamped (Job 2 (AppMessage 2 Unit)) := asked.stamped 0 (⟨1, asked.msg⟩, 5)

def replyTask : Stamped (Job 2 (AppMessage 2 Unit)) := reply.stamped 1 (⟨0, reply.msg⟩, 1)

def closingTask : Stamped (Job 2 (AppMessage 2 Unit)) := closing.stamped 2 (⟨1, closing.msg⟩, 1)

def replying : NekoSimSystem 2 Nat (AppMessage 2 Unit) :=
  ⟨Function.update (fun _ => 0) 1 1,
    ⟨{ sched := ⟨[replyTask], 5⟩
       scheduled := [askedTask, replyTask]
       executed := [(5, askedTask)] }, [asked, reply]⟩⟩

def stopped : NekoSimSystem 2 Nat (AppMessage 2 Unit) :=
  ⟨Function.update (Function.update replying.processes 0 1) 1 2,
    ⟨{ sched := ⟨[], 7⟩
       running := some closingTask
       scheduled := [askedTask, replyTask, closingTask]
       executed := [(5, askedTask), (6, replyTask), (7, closingTask)] }, [asked, reply, closing]⟩⟩

abbrev AnsweringStep (s : NekoSimSystem 2 Nat (AppMessage 2 Unit))
    (a : Action 2 Unit Unit (AppMessage 2 Unit)) (_ : NekoSimSystem 2 Nat (AppMessage 2 Unit))
    : Prop :=
  Meets (Regular Network.clique) answering Network.clique s a

theorem replying_reach : (lts answering Network.clique).Reach AnsweringStep replying := by
  have h0 : (lts answering Network.clique).Reach AnsweringStep (initial answering) := .init rfl
  have h1 : (lts answering Network.clique).Reach AnsweringStep
      ⟨fun _ => 0, ⟨{ sched := ⟨[askedTask], 0⟩, scheduled := [askedTask] }, [asked]⟩⟩ := by
    have hnode : (fun _ => 0 : PID 2 → Nat) = Function.update (fun _ => 0) 0 0 := by decide
    rw [hnode]
    exact h0.next (.input 0 () (drawn 5 0)) rfl (by
      rintro _ _ ⟨⟩
      exact ⟨.of_send ⟨⟨by decide, by decide⟩, by decide⟩ (fun _ _ => rfl), trivial⟩)
  have h2 : (lts answering Network.clique).Reach AnsweringStep
      ⟨fun _ => 0,
        ⟨{ sched := ⟨[], 5⟩, batch := [askedTask], scheduled := [askedTask] }, [asked]⟩⟩ :=
    h1.next (.kernel .executeNext) rfl (.of_room (by decide))
  have h3 : (lts answering Network.clique).Reach AnsweringStep
      ⟨Function.update (fun _ => 0) 1 1,
        ⟨{ sched := ⟨[replyTask], 5⟩
           running := some askedTask
           scheduled := [askedTask, replyTask]
           executed := [(5, askedTask)] }, [asked, reply]⟩⟩ :=
    h2.next (.deliver () (drawn 1 1)) rfl (by
      apply Meets.of_deliver ⟨1, asked.msg⟩ rfl rfl rfl rfl
      exact ⟨.of_send ⟨⟨by decide, by decide⟩, by decide⟩ (fun _ _ => rfl), trivial⟩)
  exact h3.next (.kernel (.finish false)) rfl .of_finish

theorem stopped_path : (lts answering Network.clique).Path AnsweringStep replying stopped := by
  have h1 : (lts answering Network.clique).Path AnsweringStep replying
      ⟨replying.processes,
        ⟨{ sched := ⟨[], 6⟩
           batch := [replyTask]
           scheduled := [askedTask, replyTask]
           executed := [(5, askedTask)] }, [asked, reply]⟩⟩ :=
    LTS.Path.single (.kernel .executeNext) rfl (.of_room (by decide))
  have h2 : (lts answering Network.clique).Path AnsweringStep replying
      ⟨Function.update replying.processes 0 1,
        ⟨{ sched := ⟨[closingTask], 6⟩
           running := some replyTask
           scheduled := [askedTask, replyTask, closingTask]
           executed := [(5, askedTask), (6, replyTask)] }, [asked, reply, closing]⟩⟩ :=
    h1.next (.deliver () (drawn 1 2)) rfl (by
      apply Meets.of_deliver ⟨0, reply.msg⟩ rfl rfl rfl rfl
      exact ⟨.of_send ⟨⟨by decide, by decide⟩, by decide⟩ (fun _ _ => rfl), trivial⟩)
  have h3 : (lts answering Network.clique).Path AnsweringStep replying
      ⟨Function.update replying.processes 0 1,
        ⟨{ sched := ⟨[closingTask], 6⟩
           scheduled := [askedTask, replyTask, closingTask]
           executed := [(5, askedTask), (6, replyTask)] }, [asked, reply, closing]⟩⟩ :=
    h2.next (.kernel (.finish false)) rfl .of_finish
  have h4 : (lts answering Network.clique).Path AnsweringStep replying
      ⟨Function.update replying.processes 0 1,
        ⟨{ sched := ⟨[], 7⟩
           batch := [closingTask]
           scheduled := [askedTask, replyTask, closingTask]
           executed := [(5, askedTask), (6, replyTask)] }, [asked, reply, closing]⟩⟩ :=
    h3.next (.kernel .executeNext) rfl (.of_room (by decide))
  exact h4.next (.deliver () (drawn 1 3)) rfl (.of_deliver ⟨1, closing.msg⟩ rfl rfl rfl rfl trivial)

theorem refines_timedNetwork_answering
    : ((lts answering Network.clique).Reach AnsweringStep replying
          ∧ replying.timedWorld.now = 5 ∧ replying.timedWorld.net = {(⟨0, .unicast 1 0 ()⟩, 6)}
          ∧ (TimedNetwork.lts (answering.program (NekoProcess.emit Network.clique)) 0).Reachable
            replying.timedWorld)
        ∧ (lts answering Network.clique).Reach AnsweringStep stopped ∧ Idle stopped
        ∧ (TimedNetwork.lts (answering.program (NekoProcess.emit Network.clique)) 0).Reachable
          stopped.timedWorld
        ∧ stopped.timedWorld.net = 0 := by
  have hruns : ∀ s, (lts answering Network.clique).Reach AnsweringStep s →
      (TimedNetwork.lts (answering.program (NekoProcess.emit Network.clique)) 0).Reachable s.timedWorld
        ∧ (Idle s → s.timedWorld.net = 0) := by
    intro s h
    apply refines_timedNetwork
    exact h.mono (fun _ _ _ h => ⟨h, fun _ _ => trivial⟩)
  have hstopped := stopped_path.reach replying_reach
  have hidle : Idle stopped := ⟨rfl, rfl⟩
  obtain ⟨hafter, hempty⟩ := hruns stopped hstopped
  exact ⟨⟨replying_reach, rfl, rfl, (hruns replying replying_reach).1⟩, hstopped, hidle, hafter,
    hempty hidle⟩

end NekoSimSystem
