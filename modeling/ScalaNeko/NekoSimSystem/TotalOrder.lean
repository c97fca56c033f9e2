import ScalaNeko.Lib.LogNetwork
import ScalaNeko.NekoSimSystem.Constant

/-!
With a `ConstantSimNetwork`, the messages of all processes are received in the one order in which they
have been handed to the network.
-/

open AsyncNetwork (Envelope)
open Kernel (Time TaskID Stamped)
open LogNetwork (Post inbox)
open DelaySimNetwork (Job SimRun Sent Receipt)
open Network (Eligible)

namespace NekoProcess

variable {N : Nat} {σ ι κ S M : Type} [Message N M]

-- A message with the processes for which the network puts it in flight.
def post (neighborsFor : PID N → Option (Finset (PID N))) (m : M) : Post (PID N) M where
  msg := m
  dests := (((Network.lossless neighborsFor (fun _ _ => ())).send (.message m : Event Empty M)).map
    (fun x => x.1.dest)).toFinset

def posts (neighborsFor : PID N → Option (Finset (PID N))) : List (Event S M) → List (Post (PID N) M)
  | [] => []
  -- signals are dropped
  | .signal _ :: sends => posts neighborsFor sends
  | .message m :: sends => post neighborsFor m :: posts neighborsFor sends

/--
The same processes over a log.
-/
def logProgram (proc : NekoProcess N σ ι κ S M) (neighborsFor : PID N → Option (Finset (PID N)))
    : LogNetwork.Program (PID N) σ ι κ M where
  init := proc.init
  input := fun me i s => (proc.input me i s).map (fun (s, sends) => (s, posts neighborsFor sends))
  receive := fun me m k s => (proc.deliver me m k s).map (fun (s, sends) => (s, posts neighborsFor sends))

variable {neighborsFor : PID N → Option (Finset (PID N))}

theorem mem_post {m : M} {q : PID N} : q ∈ (post neighborsFor m).dests ↔ Eligible neighborsFor m q := by
  unfold post
  rw [List.mem_toFinset, List.mem_map]
  constructor
  . rintro ⟨p, hp, rfl⟩
    exact (Network.mem_send.mp hp).2.1
  . intro heligible
    exact ⟨(⟨q, m⟩, ()), Network.mem_send.mpr ⟨rfl, heligible, rfl⟩, rfl⟩

end NekoProcess

namespace NekoSimSystem

open ConstantSimNetwork

variable {N : Nat} {σ ι κ S M : Type} [Message N M] {neighborsFor : PID N → Option (Finset (PID N))}
  {lambda : Time} {network : SimRun N M} {run : Kernel.Run (Job N M)}

-- What has been handed to the network, in this order.
def log (neighborsFor : PID N → Option (Finset (PID N))) (network : SimRun N M) : List (Post (PID N) M) :=
  network.sends.map (fun x => NekoProcess.post neighborsFor x.msg)

theorem inbox_log (q : PID N) : inbox (log neighborsFor network) q = posted neighborsFor network q := by
  unfold inbox log posted
  rw [List.zipIdx_map, List.filter_map, List.map_map]
  congr 1
  apply List.filter_congr
  rintro ⟨x, n⟩ _
  exact decide_eq_decide.mpr NekoProcess.mem_post

theorem log_sendAll {sends : List (Event S M)} {draws : Nat → Draw N M}
    : log neighborsFor (sendAll neighborsFor sends draws network)
      = log neighborsFor network ++ NekoProcess.posts neighborsFor sends := by
  induction sends generalizing draws network with
  | nil => exact (List.append_nil _).symm
  | cons e sends ih =>
    rw [sendAll, ih]
    cases e with
    | signal ie => rfl
    | message m =>
      unfold log SimRun.send
      rw [List.map_append, List.append_assoc]
      rfl

-- The system as processes that share a log see it.
def logWorld (neighborsFor : PID N → Option (Finset (PID N))) (s : NekoSimSystem N σ M)
    : LogNetwork.World (PID N) σ M where
  node := s.processes
  log := log neighborsFor s.network
  read := fun q => (s.network.received q).length

variable {s s' : NekoSimSystem N σ M} {a : Action N ι κ M} {proc : NekoProcess N σ ι κ S M}

theorem logWorld_update {p : PID N} {state : σ} {sends : List (Event S M)} {draws : Nat → Draw N M}
    : logWorld neighborsFor (s.update neighborsFor p state sends draws)
      = (logWorld neighborsFor s).post p state (NekoProcess.posts neighborsFor sends) := by
  unfold logWorld update LogNetwork.World.post
  dsimp only
  rw [log_sendAll]
  congr 1
  funext q
  rw [received_sendAll]

theorem logWorld_kernel {a : Kernel.Action (Job N M)} (hst : s.network.run.step a = some run)
    (hcall : a = .call → nextDelivery s.network.run = none)
    : logWorld neighborsFor { s with network := { s.network with run } } = logWorld neighborsFor s := by
  unfold logWorld
  dsimp only
  congr 1
  funext q
  rw [received_kernel hst hcall]

/--
The receiver of `q` has got what it has received from the log.
-/
theorem received_logWorld
    (h : (SimRun.lts S neighborsFor).Reach
      (fun s a _ => ConstantSimNetwork.Regular neighborsFor lambda s a) s.network) (q : PID N)
    : (logWorld neighborsFor s).received q = (s.network.received q).map (fun r => (r.msg, r.sent)) := by
  have hprefix := received_isPrefix h q
  rw [← inbox_log] at hprefix
  rw [List.prefix_iff_eq_take.mp hprefix, List.length_map]
  rfl

theorem received_of_call {env : Envelope (PID N) M} (hnext : nextDelivery network.run = some env)
    (hdeliver : Network.deliver env = some env.msg) (hst : network.run.step .call = some run)
    (q : PID N)
    : (SimRun.received { network with run } q).map Receipt.msg
      = (network.received q).map Receipt.msg ++ if env.dest = q then [env.msg] else [] := by
  obtain ⟨t, hhead, hreceived⟩ := received_call hst q
  have henv : envelope t = some env := by
    rw [nextDelivery, hhead] at hnext
    exact hnext
  rw [hreceived, List.map_append, receiptOf_envelope henv hdeliver]

theorem logWorld_call {env : Envelope (PID N) M} (hnext : nextDelivery s.network.run = some env)
    (hdeliver : Network.deliver env = some env.msg) (hst : s.network.run.step .call = some run)
    : logWorld neighborsFor { s with network := { s.network with run } }
      = (logWorld neighborsFor s).next env.dest := by
  unfold logWorld LogNetwork.World.next
  dsimp only
  congr 1
  funext q
  have hlen := congrArg List.length (received_of_call hnext hdeliver hst q)
  rw [List.length_map, List.length_append, List.length_map] at hlen
  rw [hlen]
  by_cases hq : q = env.dest
  . rw [hq, Function.update_self, if_pos rfl]
    rfl
  . rw [Function.update_of_ne hq, if_neg (Ne.symm hq)]
    rfl

theorem logWorld_step
    (h : (lts proc neighborsFor).Reach
      (fun s a _ => Meets (ConstantSimNetwork.Regular neighborsFor lambda) proc neighborsFor s a) s)
    (hst : s.step proc neighborsFor a = some s')
    : logWorld neighborsFor s' = logWorld neighborsFor s
      ∨ ∃ b, Performs s a b
          ∧ LogNetwork.Step (proc.logProgram neighborsFor) (logWorld neighborsFor s) b
            (logWorld neighborsFor s') := by
  have hnetwork := network_reach (fun _ => constant_call) h
  cases a with
  | input p i draws =>
    obtain ⟨state, sends, hinput, rfl⟩ := step_input hst
    refine .inr ⟨_, rfl, ?_⟩
    rw [logWorld_update]
    apply LogNetwork.Step.input
    show (proc.input p i (s.processes p)).map _ = _
    rw [hinput]
    rfl
  | kernel a =>
    obtain ⟨hcall, run, hrun, rfl⟩ := step_kernel hst
    exact .inl (logWorld_kernel hrun hcall)
  | deliver k draws =>
    have hinv := DelaySimNetwork.inv_of_reach (ConstantSimNetwork.reach hnetwork)
    have hkernel := Kernel.inv_of_reach (DelaySimNetwork.run_reach (ConstantSimNetwork.reach hnetwork))
    obtain ⟨env, run, state, sends, hnext, hdeliver, hrun, hstate, rfl⟩ :=
      step_deliver_of_inv hinv hkernel hst
    refine .inr ⟨_, ⟨env, hnext, rfl⟩, ?_⟩
    rw [logWorld_update, logWorld_call hnext hdeliver hrun]
    -- what has been received after the call is a first part of what is addressed to the process
    have hprefix := (received_isPrefix (reach_kernel hnetwork hrun constant_call) env.dest).map Prod.fst
    rw [List.map_map] at hprefix
    rw [show Prod.fst ∘ (fun r : Receipt M => (r.msg, r.sent)) = Receipt.msg from rfl,
      received_of_call hnext hdeliver hrun, if_pos rfl] at hprefix
    have hget := Record.getElem?_of_prefix hprefix List.getElem?_concat_length
    rw [List.length_map, List.getElem?_map, Option.map_eq_some_iff] at hget
    obtain ⟨⟨m, n⟩, hget, hm⟩ := hget
    apply LogNetwork.Step.receive (n := n)
    . show (inbox (log neighborsFor s.network) env.dest)[(s.network.received env.dest).length]? = _
      rw [inbox_log, ← hm]
      exact hget
    . show (proc.deliver env.dest _ k (s.processes env.dest)).map _ = _
      rw [hstate]
      rfl

/--
Every run of the system over a network with a constant delay is a run of its processes over a log.
-/
theorem logWorld_reach
    {ok : LogNetwork.World (PID N) σ M → AsyncNetwork.Action (PID N) ι κ M →
      LogNetwork.World (PID N) σ M → Prop}
    (h : (lts proc neighborsFor).Reach (fun s a s' =>
      Meets (ConstantSimNetwork.Regular neighborsFor lambda) proc neighborsFor s a
        ∧ ∀ b, Performs s a b → ok (logWorld neighborsFor s) b (logWorld neighborsFor s')) s)
    : (LogNetwork.lts (proc.logProgram neighborsFor)).Reach ok (logWorld neighborsFor s) := by
  apply LTS.Reach.refine (logWorld neighborsFor) _ _ h
  . rintro s rfl
    rfl
  . intro s a s' hreach hst hok
    rcases logWorld_step (hreach.mono (fun _ _ _ h => h.1)) hst with heq | ⟨b, hb, hstep⟩
    . rw [heq]
      exact .refl
    . exact .single _ hstep (hok.2 b hb)

theorem refines_logNetwork
    {ok : LogNetwork.World (PID N) σ M → AsyncNetwork.Action (PID N) ι κ M →
      LogNetwork.World (PID N) σ M → Prop}
    (h : (lts proc neighborsFor).Reach (fun s a s' =>
      Meets (ConstantSimNetwork.Regular neighborsFor lambda) proc neighborsFor s a
        ∧ ∀ b, Performs s a b → ok (logWorld neighborsFor s) b (logWorld neighborsFor s')) s)
    : (LogNetwork.lts (proc.logProgram neighborsFor)).Reach ok (logWorld neighborsFor s)
      ∧ (∀ q, (logWorld neighborsFor s).received q = (s.network.received q).map (fun r => (r.msg, r.sent)))
      ∧ (Idle s → ∀ q, (logWorld neighborsFor s).received q = inbox (log neighborsFor s.network) q) := by
  have hnetwork := network_reach (fun _ => constant_call) (h.mono (fun _ _ _ hok => hok.1))
  refine ⟨logWorld_reach h, received_logWorld hnetwork, ?_⟩
  intro hidle q
  rw [received_logWorld hnetwork, hidle.received_all hnetwork, inbox_log]

theorem refines_logNetwork_answering
    : ((lts answering Network.clique).Reach AtOnceStep answered
          ∧ (logWorld Network.clique answered).log.map (fun post => (post.msg, post.dests))
            = [(.unicast 0 1 (), {1}), (.unicast 0 1 (), {1}), (.unicast 1 0 (), {0})]
          ∧ (logWorld Network.clique answered).received 1 = [(.unicast 0 1 (), 0)]
          ∧ (LogNetwork.lts (answering.logProgram Network.clique)).Reachable
            (logWorld Network.clique answered))
        ∧ (lts answering Network.clique).Reach AtOnceStep finished ∧ Idle finished
        ∧ (LogNetwork.lts (answering.logProgram Network.clique)).Reachable
          (logWorld Network.clique finished)
        ∧ (∀ q, (logWorld Network.clique finished).received q
          = (finished.network.received q).map (fun r => (r.msg, r.sent)))
        ∧ ∀ q, (logWorld Network.clique finished).received q
          = inbox (log Network.clique finished.network) q := by
  have hruns : ∀ s, (lts answering Network.clique).Reach AtOnceStep s →
      (LogNetwork.lts (answering.logProgram Network.clique)).Reachable (logWorld Network.clique s)
        ∧ (∀ q, (logWorld Network.clique s).received q
          = (s.network.received q).map (fun r => (r.msg, r.sent)))
        ∧ (Idle s → ∀ q,
          (logWorld Network.clique s).received q = inbox (log Network.clique s.network) q) := by
    intro s h
    apply refines_logNetwork
    exact h.mono (fun _ _ _ h => ⟨h, fun _ _ => trivial⟩)
  have hfinished := finished_path.reach answered_reach
  have hidle : Idle finished := ⟨rfl, rfl⟩
  obtain ⟨hafter, hreceived, hall⟩ := hruns finished hfinished
  exact ⟨⟨answered_reach, by decide, by decide, (hruns answered answered_reach).1⟩, hfinished, hidle,
    hafter, hreceived, hall hidle⟩

end NekoSimSystem
