import ScalaNeko.NekoSimSystem.Lemmas
import ScalaNeko.Network.DelaySim.Constant

/-!
With a `ConstantSimNetwork`, a simulated system is one of the runs of its processes over FIFO channels.
-/

open AsyncNetwork (Envelope Program)
open FIFONetwork (toDest toDest_append toDest_nil)
open Kernel (Time TaskID KernelTask Stamped)
open DelaySimNetwork (Job SimRun Sent Receipt)
open Network (Eligible)
open Message

namespace NekoProcess

variable {N : Nat} {S M : Type} [Message N M] {neighborsFor : PID N → Option (Finset (PID N))}

instance (m : M) (q : PID N) : Decidable (Eligible neighborsFor m q) :=
  inferInstanceAs (Decidable (if isBroadcast m then _ else _))

theorem mem_emit {m : M} {e : Envelope (PID N) M}
    : e ∈ emit neighborsFor [(.message m : Event S M)] ↔ e.msg = m ∧ Eligible neighborsFor m e.dest := by
  unfold emit
  rw [List.flatMap_singleton, List.mem_map]
  constructor
  . rintro ⟨p, hp, rfl⟩
    obtain ⟨hmsg, heligible, -⟩ := Network.mem_send.mp hp
    exact ⟨hmsg, heligible⟩
  . rintro ⟨hmsg, heligible⟩
    exact ⟨(e, ()), Network.mem_send.mpr ⟨hmsg, heligible, rfl⟩, rfl⟩

theorem nodup_sendTo {dests : List (PID N)} (hdests : dests.Nodup) (m : M)
    : ((dests.flatMap ((Network.lossless neighborsFor (fun _ _ => ())).sendTo · m)).map Prod.fst).Nodup := by
  rw [List.map_flatMap, List.nodup_flatMap]
  constructor
  . intro dest _
    unfold Network.sendTo
    split
    . exact List.nodup_singleton _
    . exact List.nodup_nil
  . apply hdests.imp
    intro dest dest' hne e he he'
    obtain ⟨p, hp, rfl⟩ := List.mem_map.mp he
    obtain ⟨p', hp', heq⟩ := List.mem_map.mp he'
    rw [(Network.mem_sendTo.mp hp).1, (Network.mem_sendTo.mp hp').1, Envelope.mk.injEq] at heq
    exact hne heq.1.symm

theorem nodup_emit (m : M) : (emit neighborsFor [(.message m : Event S M)]).Nodup := by
  unfold emit Network.send
  rw [List.flatMap_singleton]
  dsimp only
  split
  . exact nodup_sendTo ((List.nodup_finRange N).filter _) m
  . exact nodup_sendTo (nodup_destList m) m

theorem toDest_emit (m : M) (q : PID N)
    : toDest (emit neighborsFor [(.message m : Event S M)]) q
      = if Eligible neighborsFor m q then [m] else [] := by
  unfold toDest
  have hnodup : ((emit neighborsFor [(.message m : Event S M)]).filter (fun e => e.dest = q)).Nodup :=
    (nodup_emit m).filter _
  have hmem : ∀ e, e ∈ (emit neighborsFor [(.message m : Event S M)]).filter (fun e => e.dest = q)
      ↔ e = ⟨q, m⟩ ∧ Eligible neighborsFor m q := by
    rintro ⟨dest, m'⟩
    rw [List.mem_filter, mem_emit, decide_eq_true_eq, Envelope.mk.injEq]
    constructor
    . rintro ⟨⟨rfl, heligible⟩, rfl⟩
      exact ⟨⟨rfl, rfl⟩, heligible⟩
    . rintro ⟨⟨rfl, rfl⟩, heligible⟩
      exact ⟨⟨rfl, heligible⟩, rfl⟩
  split
  . next heligible =>
    have hperm : ((emit neighborsFor [(.message m : Event S M)]).filter (fun e => e.dest = q)).Perm
        [⟨q, m⟩] := by
      rw [List.perm_ext_iff_of_nodup hnodup (List.nodup_singleton _)]
      intro e
      rw [hmem, List.mem_singleton, and_iff_left heligible]
    rw [List.perm_singleton.mp hperm]
    rfl
  . next heligible =>
    rw [List.map_eq_nil_iff, List.eq_nil_iff_forall_not_mem]
    intro e he
    exact heligible ((hmem e).mp he).2

end NekoProcess

namespace ConstantSimNetwork

variable {N : Nat} {S M : Type} [Message N M] {neighborsFor : PID N → Option (Finset (PID N))}
  {lambda : Time} {network : SimRun N M}

-- What has been handed to the network for `q`, with the number of the call of `send`.
def posted (neighborsFor : PID N → Option (Finset (PID N))) (network : SimRun N M) (q : PID N)
    : List (M × Nat) :=
  (network.sends.zipIdx.filter (fun x => decide (Eligible neighborsFor x.1.msg q))).map
    (fun x => (x.1.msg, x.2))

theorem mem_posted {q : PID N} {m : M} {n : Nat}
    : (m, n) ∈ posted neighborsFor network q
      ↔ ∃ x, network.sends[n]? = some x ∧ x.msg = m ∧ Eligible neighborsFor x.msg q := by
  unfold posted
  rw [List.mem_map]
  constructor
  . rintro ⟨⟨x, n⟩, hx, heq⟩
    cases heq
    rw [List.mem_filter, List.mem_zipIdx_iff_getElem?, decide_eq_true_eq] at hx
    exact ⟨x, hx.1, rfl, hx.2⟩
  . rintro ⟨x, hx, rfl, heligible⟩
    refine ⟨(x, n), ?_, rfl⟩
    rw [List.mem_filter, List.mem_zipIdx_iff_getElem?, decide_eq_true_eq]
    exact ⟨hx, heligible⟩

theorem posted_sorted (q : PID N)
    : (posted neighborsFor network q).Pairwise (fun x y => x.2 < y.2) := by
  have hsorted : network.sends.zipIdx.Pairwise (fun x y => x.2 < y.2) := by
    rw [← List.pairwise_map (f := Prod.snd), List.zipIdx_map_snd]
    exact List.pairwise_lt_range'
  exact List.pairwise_map.mpr (hsorted.filter _)

theorem received_sorted
    (h : (SimRun.lts S neighborsFor).Reach (fun s a _ => Regular neighborsFor lambda s a) network)
    (q : PID N)
    : (network.received q).Pairwise (fun r r' => r.sent < r'.sent) := by
  have hinv := DelaySimNetwork.inv_of_reach (reach h)
  have hkernel := Kernel.inv_of_reach (DelaySimNetwork.run_reach (reach h))
  have hordered := ordered_of_reach h
  rw [SimRun.received, List.pairwise_filterMap]
  apply (List.pairwise_map.mp (List.pairwise_append.mp hkernel.ordered).1).imp_of_mem
  intro e e' he he' hlt r hr r' hr'
  obtain ⟨x, delay, hx, hp, heq, -⟩ := hinv.receipt hkernel he hr
  obtain ⟨x', delay', hx', hp', heq', -⟩ := hinv.receipt hkernel he' hr'
  rw [heq, heq'] at hlt
  rcases Nat.lt_trichotomy r.sent r'.sent with hsent | hsent | hsent
  . exact hsent
  . rw [← hsent, hx, Option.some.injEq] at hx'
    subst hx'
    have hdelay := (DelaySimNetwork.mem_inFlight.mp hp).2.2
    have hdelay' := (DelaySimNetwork.mem_inFlight.mp hp').2.2
    dsimp only at hdelay hdelay'
    rw [hdelay, Option.some.injEq] at hdelay'
    rw [hsent, hdelay'] at hlt
    exact absurd hlt (lt_irrefl _)
  . exact absurd (hordered.rank_lt hinv hsent hx' hx hp' hp) (lt_asymm hlt)

/--
The receiver of `q` has got a first part of what has been handed to the network for it.
-/
theorem received_isPrefix
    (h : (SimRun.lts S neighborsFor).Reach (fun s a _ => Regular neighborsFor lambda s a) network)
    (q : PID N)
    : (network.received q).map (fun r => (r.msg, r.sent)) <+: posted neighborsFor network q := by
  have hinv := DelaySimNetwork.inv_of_reach (reach h)
  have hkernel := Kernel.inv_of_reach (DelaySimNetwork.run_reach (reach h))
  have hpunctual := hinv.punctual hkernel q
  have hordered := ordered_of_reach h
  have hconstant : ∀ (n : Nat) (x : Sent N M), network.sends[n]? = some x →
      x.delayForMessage q x.msg = some lambda := by
    intro n x hx
    rw [hordered.constant x (List.mem_of_getElem? hx), delayForMessage]
  have hmsg : ∀ (n : Nat) (x : Sent N M), network.sends[n]? = some x →
      n ∈ (network.received q).map Receipt.sent →
      (x.msg, n) ∈ (network.received q).map (fun r => (r.msg, r.sent)) := by
    intro n x hx hn
    obtain ⟨r, hr, rfl⟩ := List.mem_map.mp hn
    obtain ⟨y, -, hy, hmsg, -⟩ := hpunctual.sound r hr
    rw [hx, Option.some.injEq] at hy
    subst hy
    rw [← hmsg]
    exact List.mem_map_of_mem hr
  apply Record.prefix_of_closed Prod.snd
  . exact List.pairwise_map.mpr (received_sorted h q)
  . exact posted_sorted q
  . rintro ⟨m, n⟩ hmem
    obtain ⟨r, hr, heq⟩ := List.mem_map.mp hmem
    cases heq
    obtain ⟨x, -, hx, hmsg, heligible, -⟩ := hpunctual.sound r hr
    exact mem_posted.mpr ⟨x, hx, hmsg.symm, heligible⟩
  . rintro ⟨m₂, n₂⟩ ⟨m₁, n₁⟩ h₂ h₁ hlt
    obtain ⟨r, hr, heq⟩ := List.mem_map.mp h₂
    cases heq
    obtain ⟨x₂, -, hx₂, -, heligible₂, -⟩ := hpunctual.sound r hr
    obtain ⟨x₁, hx₁, rfl, heligible₁⟩ := mem_posted.mp h₁
    apply hmsg n₁ x₁ hx₁
    have hp₁ : (⟨q, x₁.msg⟩, lambda) ∈ x₁.inFlight neighborsFor :=
      DelaySimNetwork.mem_inFlight.mpr ⟨rfl, heligible₁, hconstant _ _ hx₁⟩
    have hp₂ : (⟨q, x₂.msg⟩, lambda) ∈ x₂.inFlight neighborsFor :=
      DelaySimNetwork.mem_inFlight.mpr ⟨rfl, heligible₂, hconstant _ _ hx₂⟩
    -- The task of the earlier delivery has been executed before that of the later one.
    have hexecuted := hinv.executed_of_received hkernel hx₂ (hconstant _ _ hx₂)
      (List.mem_map_of_mem hr)
    have hheld := hinv.held _ (hinv.scheduled n₁ x₁ _ hx₁ hp₁) (DelaySimNetwork.isDelivery_stamped x₁ n₁ _)
    have hsublist := DelaySimNetwork.received_sublist heligible₁ heligible₂
      (hheld.before hkernel (hordered.rank_lt hinv hlt hx₁ hx₂ hp₁ hp₂) hexecuted)
    exact hsublist.subset List.mem_cons_self

-- What `p` has handed to the network for `q`.
def sentTo (neighborsFor : PID N → Option (Finset (PID N))) (network : SimRun N M) (p q : PID N)
    : List M :=
  ((posted neighborsFor network q).map Prod.fst).filter (fun m => fromPID m = p)

-- What `q` has got from `p`.
def gotFrom (network : SimRun N M) (p q : PID N) : List M :=
  ((network.received q).map Receipt.msg).filter (fun m => fromPID m = p)

theorem gotFrom_prefix
    (h : (SimRun.lts S neighborsFor).Reach (fun s a _ => Regular neighborsFor lambda s a) network)
    (p q : PID N)
    : gotFrom network p q <+: sentTo neighborsFor network p q := by
  have hprefix := ((received_isPrefix h q).map Prod.fst).filter (fun m => decide (fromPID m = p))
  rw [List.map_map] at hprefix
  exact hprefix

theorem posted_append {run : Kernel.Run (Job N M)} {sends xs : List (Sent N M)} (q : PID N)
    : (posted neighborsFor ⟨run, sends ++ xs⟩ q).map Prod.fst
      = (posted neighborsFor ⟨run, sends⟩ q).map Prod.fst
        ++ (xs.filter (fun x => decide (Eligible neighborsFor x.msg q))).map Sent.msg := by
  have hfst : ∀ ys : List (Sent N M), (posted neighborsFor ⟨run, ys⟩ q).map Prod.fst
      = (ys.filter (fun x => decide (Eligible neighborsFor x.msg q))).map Sent.msg := by
    intro ys
    have hmap := List.filter_map (f := Prod.fst) (l := ys.zipIdx)
      (p := fun x : Sent N M => decide (Eligible neighborsFor x.msg q))
    rw [List.zipIdx_map_fst] at hmap
    rw [hmap, posted, List.map_map, List.map_map]
    rfl
  rw [hfst, hfst, List.filter_append, List.map_append]

theorem sentTo_send {e : Event S M} {draw : Draw N M} {p : PID N}
    (hown : ∀ m, e = .message m → fromPID m = p) (p' q : PID N)
    : sentTo neighborsFor (network.send neighborsFor draw.delayForMessage draw.ids e) p' q
      = sentTo neighborsFor network p' q
        ++ if p' = p then toDest (NekoProcess.emit neighborsFor [e]) q else [] := by
  cases e with
  | signal ie =>
    symm
    show _ ++ (if p' = p then [] else []) = _
    rw [ite_self, List.append_nil]
    rfl
  | message m =>
    have hfrom := hown m rfl
    rw [NekoProcess.toDest_emit]
    unfold sentTo
    rw [SimRun.send, posted_append, List.filter_append]
    congr 1
    by_cases heligible : Eligible neighborsFor m q
    . by_cases hp : p' = p
      . simp [heligible, hp, hfrom]
      . simp [heligible, hp, hfrom, Ne.symm hp]
    . simp [heligible]

theorem sentTo_sendAll {sends : List (Event S M)} {draws : Nat → Draw N M} {p : PID N}
    (hown : ∀ m, .message m ∈ sends → fromPID m = p) (p' q : PID N)
    : sentTo neighborsFor (NekoSimSystem.sendAll neighborsFor sends draws network) p' q
      = sentTo neighborsFor network p' q
        ++ if p' = p then toDest (NekoProcess.emit neighborsFor sends) q else [] := by
  induction sends generalizing draws network with
  | nil =>
    show _ = _ ++ (if p' = p then [] else [])
    rw [ite_self, List.append_nil]
    rfl
  | cons e sends ih =>
    have hhead : ∀ m, e = .message m → fromPID m = p := by
      rintro m rfl
      exact hown m List.mem_cons_self
    rw [NekoSimSystem.sendAll, ih (fun m hm => hown m (List.mem_cons_of_mem _ hm)), sentTo_send hhead,
      NekoProcess.emit_cons e sends, toDest_append, List.append_assoc]
    split
    . rfl
    . rfl

theorem received_sendAll (sends : List (Event S M)) (draws : Nat → Draw N M) (q : PID N)
    : (NekoSimSystem.sendAll neighborsFor sends draws network).received q = network.received q := by
  induction sends generalizing draws network with
  | nil => rfl
  | cons e sends ih =>
    rw [NekoSimSystem.sendAll, ih]
    cases e with
    | signal ie => rfl
    | message m =>
      unfold SimRun.received SimRun.send
      dsimp only
      rw [Kernel.executed_foldl]

end ConstantSimNetwork

namespace NekoSimSystem

open ConstantSimNetwork

variable {N : Nat} {σ ι κ S M : Type} [Message N M] {neighborsFor : PID N → Option (Finset (PID N))}
  {lambda : Time} {network : SimRun N M} {run : Kernel.Run (Job N M)}

-- What the call of the action of `t` hands to the receiver of `q`.
def receiptOf (q : PID N) (clock : Time) (t : Stamped (Job N M)) : List (Receipt M) :=
  (SimRun.receipt q (clock, t)).toList

theorem receiptOf_eq_nil {q : PID N} {clock : Time} {t : Stamped (Job N M)} (h : envelope t = none)
    : receiptOf q clock t = [] := by
  obtain ⟨task, since⟩ := t
  cases task with
  | simple time action id daemon =>
    cases action with
    | deliver n env => cases h
    | other => rfl
  | periodic time period action id daemon => rfl

theorem receiptOf_envelope {q : PID N} {clock : Time} {t : Stamped (Job N M)}
    {env : Envelope (PID N) M} (h : envelope t = some env)
    (hdeliver : Network.deliver env = some env.msg)
    : (receiptOf q clock t).map Receipt.msg = if env.dest = q then [env.msg] else [] := by
  obtain ⟨task, since⟩ := t
  cases task with
  | simple time action id daemon =>
    cases action with
    | deliver n env' =>
      cases h
      unfold receiptOf SimRun.receipt
      dsimp only
      split
      . rw [hdeliver]
        rfl
      . rfl
    | other => cases h
  | periodic time period action id daemon => cases h

theorem received_call (hst : network.run.step .call = some run) (q : PID N)
    : ∃ t, network.run.batch.head? = some t
        ∧ SimRun.received { network with run } q
          = network.received q ++ receiptOf q network.run.sched.currentTime t := by
  obtain ⟨t, batch, hbatch, -, rfl⟩ := Kernel.step_call hst
  refine ⟨t, by rw [hbatch]; rfl, ?_⟩
  unfold SimRun.received receiptOf
  dsimp only
  rw [List.filterMap_append, List.filterMap_cons, List.filterMap_nil]
  cases SimRun.receipt q (network.run.sched.currentTime, t) with
  | none => rfl
  | some r => rfl

theorem received_kernel {a : Kernel.Action (Job N M)} (hst : network.run.step a = some run)
    (hcall : a = .call → nextDelivery network.run = none) (q : PID N)
    : SimRun.received { network with run } q = network.received q := by
  cases a with
  | schedule task =>
    cases hst
    rfl
  | cancel taskID =>
    cases hst
    rfl
  | executeNext =>
    obtain ⟨-, -, rfl⟩ := Kernel.step_executeNext hst
    rfl
  | call =>
    obtain ⟨t, hhead, hreceived⟩ := received_call hst q
    have hnone := hcall rfl
    rw [nextDelivery, hhead] at hnone
    rw [hreceived, receiptOf_eq_nil hnone, List.append_nil]
  | finish willReschedule =>
    obtain ⟨t, -, hst⟩ := Kernel.step_finish hst
    rcases hst with rfl | ⟨task, -, rfl⟩
    . rfl
    . rfl

-- The system as processes with FIFO channels between them see it.
def fifoWorld (neighborsFor : PID N → Option (Finset (PID N))) (s : NekoSimSystem N σ M)
    : FIFONetwork.World (PID N) σ M where
  node := s.processes
  sent := sentTo neighborsFor s.network
  taken := fun q p => (gotFrom s.network p q).length

variable {s s' : NekoSimSystem N σ M} {a : Action N ι κ M} {proc : NekoProcess N σ ι κ S M}

theorem fifoWorld_update {p : PID N} {state : σ} {sends : List (Event S M)} {draws : Nat → Draw N M}
    (hown : ∀ m, .message m ∈ sends → fromPID m = p)
    : fifoWorld neighborsFor (s.update neighborsFor p state sends draws)
      = (fifoWorld neighborsFor s).emit p state (NekoProcess.emit neighborsFor sends) := by
  unfold fifoWorld update FIFONetwork.World.emit gotFrom
  dsimp only
  congr 1
  . funext p' q
    rw [sentTo_sendAll hown]
    by_cases hp : p' = p
    . rw [hp, Function.update_self, if_pos rfl]
    . rw [Function.update_of_ne hp, if_neg hp, List.append_nil]
  . funext q p'
    rw [received_sendAll]

theorem fifoWorld_kernel {a : Kernel.Action (Job N M)} (hst : s.network.run.step a = some run)
    (hcall : a = .call → nextDelivery s.network.run = none)
    : fifoWorld neighborsFor { s with network := { s.network with run } }
      = fifoWorld neighborsFor s := by
  unfold fifoWorld gotFrom
  dsimp only
  congr 1
  funext q p
  rw [received_kernel hst hcall]

theorem gotFrom_call {env : Envelope (PID N) M} (hnext : nextDelivery network.run = some env)
    (hdeliver : Network.deliver env = some env.msg) (hst : network.run.step .call = some run)
    (p q : PID N)
    : gotFrom { network with run } p q
      = gotFrom network p q ++ if q = env.dest ∧ p = fromPID env.msg then [env.msg] else [] := by
  obtain ⟨t, hhead, hreceived⟩ := received_call hst q
  have henv : envelope t = some env := by
    rw [nextDelivery, hhead] at hnext
    exact hnext
  unfold gotFrom
  rw [hreceived, List.map_append, List.filter_append, receiptOf_envelope henv hdeliver]
  congr 1
  by_cases hq : q = env.dest
  . by_cases hp : p = fromPID env.msg
    . simp [hq, hp]
    . simp [hq, hp, Ne.symm hp]
  . simp [hq, Ne.symm hq]

theorem fifoWorld_call {env : Envelope (PID N) M} (hnext : nextDelivery s.network.run = some env)
    (hdeliver : Network.deliver env = some env.msg) (hst : s.network.run.step .call = some run)
    : fifoWorld neighborsFor { s with network := { s.network with run } }
      = (fifoWorld neighborsFor s).take env.dest (fromPID env.msg) := by
  unfold fifoWorld FIFONetwork.World.take
  dsimp only
  congr 1
  funext q p
  rw [gotFrom_call hnext hdeliver hst]
  by_cases hq : q = env.dest
  . subst hq
    rw [Function.update_self]
    by_cases hp : p = fromPID env.msg
    . simp [hp]
    . simp [hp]
  . simp [hq]

def PerformsFIFO (s : NekoSimSystem N σ M)
    : Action N ι κ M → FIFONetwork.Action (PID N) ι κ M → Prop
  | .input p i _, b => b = .input p i
  | .kernel _, _ => False
  | .deliver k _, b => ∃ env, nextDelivery s.network.run = some env
      ∧ b = .receive env.dest (fromPID env.msg) env.msg k

theorem constant_call
    : ConstantSimNetwork.Regular (S := S) neighborsFor lambda network (.kernel .call) where
  regular := kernelStep_call
  constant := nofun
  increasing := nofun

theorem fifoWorld_step
    (h : (lts proc neighborsFor).Reach
      (fun s a _ => Meets (ConstantSimNetwork.Regular neighborsFor lambda) proc neighborsFor s a) s)
    (hown : proc.Own) (hst : s.step proc neighborsFor a = some s')
    : fifoWorld neighborsFor s' = fifoWorld neighborsFor s
      ∨ ∃ b, PerformsFIFO s a b
          ∧ FIFONetwork.Step (proc.fifoProgram (NekoProcess.emit neighborsFor)) (fifoWorld neighborsFor s) b
            (fifoWorld neighborsFor s') := by
  have hnetwork := network_reach (fun _ => constant_call) h
  cases a with
  | input p i draws =>
    obtain ⟨state, sends, hinput, rfl⟩ := step_input hst
    refine .inr ⟨_, rfl, ?_⟩
    rw [fifoWorld_update (hown.input _ _ _ _ _ hinput)]
    exact .input (NekoProcess.program_input hinput _)
  | kernel a =>
    obtain ⟨hcall, run, hrun, rfl⟩ := step_kernel hst
    exact .inl (fifoWorld_kernel hrun hcall)
  | deliver k draws =>
    have hinv := DelaySimNetwork.inv_of_reach (ConstantSimNetwork.reach hnetwork)
    have hkernel := Kernel.inv_of_reach (DelaySimNetwork.run_reach (ConstantSimNetwork.reach hnetwork))
    obtain ⟨env, run, state, sends, hnext, hdeliver, hrun, hstate, rfl⟩ :=
      step_deliver_of_inv hinv hkernel hst
    refine .inr ⟨_, ⟨env, hnext, rfl⟩, ?_⟩
    rw [fifoWorld_update (hown.deliver _ _ _ _ _ _ hstate), fifoWorld_call hnext hdeliver hrun]
    apply FIFONetwork.Step.receive
    . -- what has been received after the call is a first part of what has been sent
      have hprefix := gotFrom_prefix (reach_kernel hnetwork hrun constant_call) (fromPID env.msg) env.dest
      rw [gotFrom_call hnext hdeliver hrun, if_pos ⟨rfl, rfl⟩] at hprefix
      apply Record.getElem?_of_prefix hprefix
      exact List.getElem?_concat_length
    . unfold NekoProcess.fifoProgram
      dsimp only
      rw [if_pos rfl]
      exact NekoProcess.program_receive hstate _

/--
Every run of the system over a network with a constant delay is a run of its processes over FIFO
channels.
-/
theorem fifoWorld_reach
    {ok : FIFONetwork.World (PID N) σ M → FIFONetwork.Action (PID N) ι κ M →
      FIFONetwork.World (PID N) σ M → Prop}
    (hown : proc.Own)
    (h : (lts proc neighborsFor).Reach (fun s a s' =>
      Meets (ConstantSimNetwork.Regular neighborsFor lambda) proc neighborsFor s a
        ∧ ∀ b, PerformsFIFO s a b → ok (fifoWorld neighborsFor s) b (fifoWorld neighborsFor s')) s)
    : (FIFONetwork.lts (proc.fifoProgram (NekoProcess.emit neighborsFor))).Reach ok
        (fifoWorld neighborsFor s) := by
  apply LTS.Reach.refine (fifoWorld neighborsFor) _ _ h
  . rintro s rfl
    rfl
  . intro s a s' hreach hst hok
    rcases fifoWorld_step (hreach.mono (fun _ _ _ h => h.1)) hown hst with heq | ⟨b, hb, hstep⟩
    . rw [heq]
      exact .refl
    . exact .single _ hstep (hok.2 b hb)

theorem Idle.received_posted (hidle : Idle s)
    (h : (SimRun.lts S neighborsFor).Reach
      (fun s a _ => ConstantSimNetwork.Regular neighborsFor lambda s a) s.network) (q : PID N)
    : (posted neighborsFor s.network q).length ≤ (s.network.received q).length := by
  have hinv := DelaySimNetwork.inv_of_reach (ConstantSimNetwork.reach h)
  have hkernel := Kernel.inv_of_reach (DelaySimNetwork.run_reach (ConstantSimNetwork.reach h))
  have hordered := ordered_of_reach h
  have hqueue := hidle.queue
  rw [Kernel.Scheduler.nonEmptyBesideDaemons, List.any_eq_false] at hqueue
  have hnodup : ((posted neighborsFor s.network q).map Prod.snd).Nodup :=
    (List.pairwise_map.mpr (posted_sorted q)).imp (fun hlt => Nat.ne_of_lt hlt)
  have hsubset : (posted neighborsFor s.network q).map Prod.snd
      ⊆ (s.network.received q).map Receipt.sent := by
    intro n hn
    obtain ⟨⟨m, n⟩, hmem, rfl⟩ := List.mem_map.mp hn
    obtain ⟨x, hx, -, heligible⟩ := mem_posted.mp hmem
    have hdelay : x.delayForMessage q x.msg = some lambda := by
      rw [hordered.constant x (List.mem_of_getElem? hx), ConstantSimNetwork.delayForMessage]
    have hp : (⟨q, x.msg⟩, lambda) ∈ x.inFlight neighborsFor :=
      DelaySimNetwork.mem_inFlight.mpr ⟨rfl, heligible, hdelay⟩
    have hheld := hinv.held _ (hinv.scheduled n x _ hx hp) (DelaySimNetwork.isDelivery_stamped x n _)
    -- a delivery does not wait any more, so its action has been called
    rcases hheld.somewhere with hwaiting | hbatch | hexecuted
    . exact absurd rfl (hqueue _ hwaiting)
    . rw [hidle.batch] at hbatch
      cases hbatch
    . obtain ⟨⟨clock, t⟩, he, heq⟩ := List.mem_map.mp hexecuted
      dsimp only at heq
      subst heq
      rw [SimRun.received, List.map_filterMap, List.mem_filterMap]
      exact ⟨_, he, by rw [DelaySimNetwork.receipt_stamped heligible]; rfl⟩
  have hle := (List.subperm_of_subset hnodup hsubset).length_le
  rw [List.length_map, List.length_map] at hle
  exact hle

/--
When the simulation has come to its end, everything has been received.
-/
theorem Idle.received_all (hidle : Idle s)
    (h : (SimRun.lts S neighborsFor).Reach
      (fun s a _ => ConstantSimNetwork.Regular neighborsFor lambda s a) s.network) (q : PID N)
    : (s.network.received q).map (fun r => (r.msg, r.sent)) = posted neighborsFor s.network q := by
  apply (received_isPrefix h q).eq_of_length_le
  rw [List.length_map]
  exact hidle.received_posted h q

theorem Idle.received_eq (hidle : Idle s)
    (h : (SimRun.lts S neighborsFor).Reach
      (fun s a _ => ConstantSimNetwork.Regular neighborsFor lambda s a) s.network) (p q : PID N)
    : (fifoWorld neighborsFor s).received q p = (fifoWorld neighborsFor s).sent p q := by
  have hall : gotFrom s.network p q = sentTo neighborsFor s.network p q := by
    unfold gotFrom sentTo
    rw [← hidle.received_all h, List.map_map]
    rfl
  show (sentTo neighborsFor s.network p q).take (gotFrom s.network p q).length = _
  rw [hall]
  exact List.take_length

theorem refines_fifoNetwork
    {ok : FIFONetwork.World (PID N) σ M → FIFONetwork.Action (PID N) ι κ M →
      FIFONetwork.World (PID N) σ M → Prop}
    (hown : proc.Own)
    (h : (lts proc neighborsFor).Reach (fun s a s' =>
      Meets (ConstantSimNetwork.Regular neighborsFor lambda) proc neighborsFor s a
        ∧ ∀ b, PerformsFIFO s a b → ok (fifoWorld neighborsFor s) b (fifoWorld neighborsFor s')) s)
    : (FIFONetwork.lts (proc.fifoProgram (NekoProcess.emit neighborsFor))).Reach ok
          (fifoWorld neighborsFor s)
      ∧ (Idle s → ∀ p q,
          (fifoWorld neighborsFor s).received q p = (fifoWorld neighborsFor s).sent p q) := by
  refine ⟨fifoWorld_reach hown h, ?_⟩
  intro hidle p q
  exact hidle.received_eq (network_reach (fun _ => constant_call) (h.mono (fun _ _ _ hok => hok.1))) p q

theorem answering_own : answering.Own where
  input := by
    rintro me i s s' sends ⟨⟩ m hm
    rw [List.mem_singleton] at hm
    cases hm
    rfl
  deliver := by
    rintro me m k s s' sends ⟨⟩ m' hm
    split at hm
    . rw [List.mem_singleton] at hm
      cases hm
      rfl
    . cases hm

section Answering

attribute [local instance] PID.twoProcesses

abbrev AnsweringSystem := NekoSimSystem 2 Nat (AppMessage 2 Unit)

def sentAtOnce (m : AppMessage 2 Unit) (since : Time) (id : TaskID) : Sent 2 (AppMessage 2 Unit) :=
  ⟨m, since, ConstantSimNetwork.delayForMessage 0, fun _ => id⟩

def dueAtOnce (n : Nat) (m : AppMessage 2 Unit) (dest : PID 2) (since : Time) (id : TaskID)
    : Stamped (Job 2 (AppMessage 2 Unit)) :=
  (sentAtOnce m since id).stamped n (⟨dest, m⟩, 0)

def atOnce (id : TaskID) : Nat → Draw 2 (AppMessage 2 Unit) :=
  fun _ => ⟨ConstantSimNetwork.delayForMessage 0, fun _ => id⟩

-- The first two messages of process 0, and the answer of process 1 to the first one.
def answered : AnsweringSystem where
  processes := Function.update (Function.update (Function.update answering.init 0 0) 0 0) 1 1
  network :=
    { run :=
        { sched := ⟨[dueAtOnce 2 (.unicast 1 0 ()) 0 1 2], 1⟩
          batch := [dueAtOnce 1 (.unicast 0 1 ()) 1 0 1]
          running := some (dueAtOnce 0 (.unicast 0 1 ()) 1 0 0)
          scheduled := [dueAtOnce 0 (.unicast 0 1 ()) 1 0 0, dueAtOnce 1 (.unicast 0 1 ()) 1 0 1,
            dueAtOnce 2 (.unicast 1 0 ()) 0 1 2]
          executed := [(1, dueAtOnce 0 (.unicast 0 1 ()) 1 0 0)] }
      sends := [sentAtOnce (.unicast 0 1 ()) 0 0, sentAtOnce (.unicast 0 1 ()) 0 1,
        sentAtOnce (.unicast 1 0 ()) 1 2] }

abbrev AtOnceStep (s : AnsweringSystem) (a : Action 2 Unit Unit (AppMessage 2 Unit))
    (_ : AnsweringSystem)
    : Prop :=
  Meets (ConstantSimNetwork.Regular Network.clique 0) answering Network.clique s a

-- Without a delay, process 0 sends two messages. The first one is received a clock tick later.
theorem answered_reach : (lts answering Network.clique).Reach AtOnceStep answered := by
  let t := dueAtOnce 0 (.unicast 0 1 ()) 1 0 0
  let u := dueAtOnce 1 (.unicast 0 1 ()) 1 0 1
  let x := sentAtOnce (.unicast 0 1 ()) 0 0
  let y := sentAtOnce (.unicast 0 1 ()) 0 1
  let start := Function.update (Function.update answering.init 0 0) 0 0
  have h0 : (lts answering Network.clique).Reach AtOnceStep (initial answering) := .init rfl
  have h1 : (lts answering Network.clique).Reach AtOnceStep
      ⟨Function.update answering.init 0 0, ⟨{ sched := ⟨[t], 0⟩, scheduled := [t] }, [x]⟩⟩ :=
    h0.next (.input 0 () (atOnce 0)) rfl (by
      rintro _ _ ⟨⟩
      exact ⟨⟨⟨⟨by decide, by decide⟩, by decide⟩, by rintro _ _ _ ⟨⟩; rfl, by rintro _ _ _ ⟨⟩; decide⟩,
        trivial⟩)
  have h2 : (lts answering Network.clique).Reach AtOnceStep
      ⟨start, ⟨{ sched := ⟨[t, u], 0⟩, scheduled := [t, u] }, [x, y]⟩⟩ :=
    h1.next (.input 0 () (atOnce 1)) rfl (by
      rintro _ _ ⟨⟩
      exact ⟨⟨⟨⟨by decide, by decide⟩, by decide⟩, by rintro _ _ _ ⟨⟩; rfl, by rintro _ _ _ ⟨⟩; decide⟩,
        trivial⟩)
  have h3 : (lts answering Network.clique).Reach AtOnceStep
      ⟨start, ⟨{ sched := ⟨[], 1⟩, batch := [t, u], scheduled := [t, u] }, [x, y]⟩⟩ :=
    h2.next (.kernel .executeNext) rfl ⟨⟨.of_room (by decide), nofun, nofun⟩, nofun, nofun⟩
  exact h3.next (.deliver () (atOnce 2)) rfl (by
    apply Meets.of_deliver ⟨1, x.msg⟩ rfl rfl rfl rfl
    exact ⟨⟨⟨⟨by decide, by decide⟩, by decide⟩, by rintro _ _ _ ⟨⟩; rfl, by rintro _ _ _ ⟨⟩; decide⟩,
      trivial⟩)

-- The answer of process 0 to the answer is the last message.
def finished : AnsweringSystem where
  processes :=
    Function.update (Function.update (Function.update answered.processes 1 2) 0 1) 1 3
  network :=
    { run :=
        { sched := ⟨[], 3⟩
          running := some (dueAtOnce 3 (.unicast 0 1 ()) 1 2 3)
          scheduled := [dueAtOnce 0 (.unicast 0 1 ()) 1 0 0, dueAtOnce 1 (.unicast 0 1 ()) 1 0 1,
            dueAtOnce 2 (.unicast 1 0 ()) 0 1 2, dueAtOnce 3 (.unicast 0 1 ()) 1 2 3]
          executed := [(1, dueAtOnce 0 (.unicast 0 1 ()) 1 0 0), (1, dueAtOnce 1 (.unicast 0 1 ()) 1 0 1),
            (2, dueAtOnce 2 (.unicast 1 0 ()) 0 1 2), (3, dueAtOnce 3 (.unicast 0 1 ()) 1 2 3)] }
      sends := [sentAtOnce (.unicast 0 1 ()) 0 0, sentAtOnce (.unicast 0 1 ()) 0 1,
        sentAtOnce (.unicast 1 0 ()) 1 2, sentAtOnce (.unicast 0 1 ()) 2 3] }

theorem finished_path : (lts answering Network.clique).Path AtOnceStep answered finished := by
  let t := dueAtOnce 0 (.unicast 0 1 ()) 1 0 0
  let u := dueAtOnce 1 (.unicast 0 1 ()) 1 0 1
  let v := dueAtOnce 2 (.unicast 1 0 ()) 0 1 2
  let w := dueAtOnce 3 (.unicast 0 1 ()) 1 2 3
  let received := Function.update answered.processes 1 2
  let sends := finished.network.sends
  have h1 : (lts answering Network.clique).Path AtOnceStep answered
      ⟨answered.processes,
        ⟨{ sched := ⟨[v], 1⟩, batch := [u], scheduled := [t, u, v], executed := [(1, t)] },
          answered.network.sends⟩⟩ :=
    .single (.kernel (.finish false)) rfl ⟨⟨.of_finish, nofun, nofun⟩, nofun, nofun⟩
  have h2 : (lts answering Network.clique).Path AtOnceStep answered
      ⟨received,
        ⟨{ sched := ⟨[v], 1⟩
           running := some u
           scheduled := [t, u, v]
           executed := [(1, t), (1, u)] }, answered.network.sends⟩⟩ :=
    h1.next (.deliver () (atOnce 3)) rfl (.of_deliver ⟨1, .unicast 0 1 ()⟩ rfl rfl rfl rfl trivial)
  have h3 : (lts answering Network.clique).Path AtOnceStep answered
      ⟨received,
        ⟨{ sched := ⟨[v], 1⟩, scheduled := [t, u, v], executed := [(1, t), (1, u)] },
          answered.network.sends⟩⟩ :=
    h2.next (.kernel (.finish false)) rfl ⟨⟨.of_finish, nofun, nofun⟩, nofun, nofun⟩
  have h4 : (lts answering Network.clique).Path AtOnceStep answered
      ⟨received,
        ⟨{ sched := ⟨[], 2⟩
           batch := [v]
           scheduled := [t, u, v]
           executed := [(1, t), (1, u)] }, answered.network.sends⟩⟩ :=
    h3.next (.kernel .executeNext) rfl ⟨⟨.of_room (by decide), nofun, nofun⟩, nofun, nofun⟩
  have h5 : (lts answering Network.clique).Path AtOnceStep answered
      ⟨Function.update received 0 1,
        ⟨{ sched := ⟨[w], 2⟩
           running := some v
           scheduled := [t, u, v, w]
           executed := [(1, t), (1, u), (2, v)] }, sends⟩⟩ :=
    h4.next (.deliver () (atOnce 3)) rfl (by
      apply Meets.of_deliver ⟨0, .unicast 1 0 ()⟩ rfl rfl rfl rfl
      exact ⟨⟨⟨⟨by decide, by decide⟩, by decide⟩, by rintro _ _ _ ⟨⟩; rfl, by rintro _ _ _ ⟨⟩; decide⟩,
        trivial⟩)
  have h6 : (lts answering Network.clique).Path AtOnceStep answered
      ⟨Function.update received 0 1,
        ⟨{ sched := ⟨[w], 2⟩
           scheduled := [t, u, v, w]
           executed := [(1, t), (1, u), (2, v)] }, sends⟩⟩ :=
    h5.next (.kernel (.finish false)) rfl ⟨⟨.of_finish, nofun, nofun⟩, nofun, nofun⟩
  have h7 : (lts answering Network.clique).Path AtOnceStep answered
      ⟨Function.update received 0 1,
        ⟨{ sched := ⟨[], 3⟩
           batch := [w]
           scheduled := [t, u, v, w]
           executed := [(1, t), (1, u), (2, v)] }, sends⟩⟩ :=
    h6.next (.kernel .executeNext) rfl ⟨⟨.of_room (by decide), nofun, nofun⟩, nofun, nofun⟩
  exact h7.next (.deliver () (atOnce 4)) rfl (.of_deliver ⟨1, .unicast 0 1 ()⟩ rfl rfl rfl rfl trivial)

theorem refines_fifoNetwork_answering
    : ((lts answering Network.clique).Reach AtOnceStep answered
          ∧ (fifoWorld Network.clique answered).sent 0 1 = [.unicast 0 1 (), .unicast 0 1 ()]
          ∧ (fifoWorld Network.clique answered).taken 1 0 = 1
          ∧ (FIFONetwork.lts (answering.fifoProgram (NekoProcess.emit Network.clique))).Reachable
            (fifoWorld Network.clique answered))
        ∧ (lts answering Network.clique).Reach AtOnceStep finished ∧ Idle finished
        ∧ (FIFONetwork.lts (answering.fifoProgram (NekoProcess.emit Network.clique))).Reachable
          (fifoWorld Network.clique finished)
        ∧ ∀ p q, (fifoWorld Network.clique finished).received q p
          = (fifoWorld Network.clique finished).sent p q := by
  have hruns : ∀ s, (lts answering Network.clique).Reach AtOnceStep s →
      (FIFONetwork.lts (answering.fifoProgram (NekoProcess.emit Network.clique))).Reachable
          (fifoWorld Network.clique s)
        ∧ (Idle s → ∀ p q,
          (fifoWorld Network.clique s).received q p = (fifoWorld Network.clique s).sent p q) := by
    intro s h
    apply refines_fifoNetwork answering_own
    exact h.mono (fun _ _ _ h => ⟨h, fun _ _ => trivial⟩)
  have hfinished := finished_path.reach answered_reach
  have hidle : Idle finished := ⟨rfl, rfl⟩
  obtain ⟨hafter, hall⟩ := hruns finished hfinished
  exact ⟨⟨answered_reach, by decide, by decide, (hruns answered answered_reach).1⟩, hfinished, hidle,
    hafter, hall hidle⟩

end Answering

end NekoSimSystem
