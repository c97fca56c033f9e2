import ScalaNeko.Protocol.Lemmas.FIFOLatency
import ScalaNeko.Protocol.Lemmas.SnapshotStack

/-!
The system of `ChandyLamportMain` in simulated time: a snapshot is complete after twice the time that
the slowest message takes.
-/

open DelaySimNetwork (Job Sent)
open FIFOChannel (TimedRun InTime above below timed FewMessages)
open Kernel (Stamped)
open NekoSimSystem (Meets Regular DelaysWithin)

namespace ChandyLamport

variable {N : Nat} {M : Type} [Message N M] [DecidableEq M]

section Saved

variable {w w' : Run N M} {p : PID N}

theorem log_step {a : FIFONetwork.Action (PID N) (Event Initiate M) Unit (Wire N M)}
    (h : (FIFONetwork.lts ((process (M := M) Network.clique).fifoProgram transmit)).step w a w') (p : PID N)
    : (w.node p).log <+: (w'.node p).log := by
  have hupdate : ∀ {q : PID N} {node : Node N M}, (w.node q).log <+: node.log →
      (w.node p).log <+: (Function.update w.node q node p).log := by
    intro q node hprefix
    by_cases hp : p = q
    . subst hp
      rw [Function.update_self]
      exact hprefix
    . rw [Function.update_of_ne hp]
  cases h with
  | @input q e node out h =>
    apply hupdate
    simp only [NekoProcess.fifoProgram, NekoProcess.program, Option.map_eq_some_iff, Prod.exists,
      Prod.mk.injEq] at h
    obtain ⟨_, _, h, rfl, -⟩ := h
    cases e with
    | signal ie =>
      cases h
      rw [List.append_assoc]
      exact List.prefix_append _ _
    | message m =>
      simp only [process] at h
      split at h
      . cases h
        rw [List.append_assoc]
        exact List.prefix_append _ _
      . cases h
  | receive hget h =>
    apply hupdate
    simp only [NekoProcess.fifoProgram, NekoProcess.program] at h
    split at h
    . cases h
      rw [List.append_assoc]
      exact List.prefix_append _ _
    . cases h

-- A process that has saved its state has turned red, and stays so.
theorem Inv.red_of_saved (h : Inv True w') (hsaved : 0 < (w.node p).log.countP isSaveState)
    (hp : (FIFONetwork.lts ((process (M := M) Network.clique).fifoProgram transmit)).Path
      (fun _ _ _ => True) w w')
    : (w'.node p).snap.color = .red := by
  have hlog : (w.node p).log <+: (w'.node p).log := by
    apply hp.stable (I := fun w' => (w.node p).log <+: (w'.node p).log) _ List.prefix_rfl
    intro v a v' hprefix hst _
    exact hprefix.trans (log_step hst p)
  cases hcolor : (w'.node p).snap.color with
  | red => rfl
  | white =>
    have hle := hlog.countP_le (p := isSaveState)
    rw [((h.row p).white hcolor).1] at hle
    exact absurd hsaved (Nat.not_lt.mpr hle)

end Saved

section System

abbrev MainTimed (N : Nat) (M : Type) := TimedRun N (Node N M) (Wire N M)

variable {hi : Int} {w w' : MainTimed N M}

theorem timed_inv (h : (timed (process (M := M) Network.clique)).Reach (InTime hi) w)
    : Inv True (above w.untimed) :=
  inv_of_reach True (fun _ hok _ => hok) (program_reach (FIFOChannel.layers_reach process_own h).2)

/--
One delay after a process has turned red, all have.
-/
theorem red_of_due {p₀ : PID N} (h : (timed (process (M := M) Network.clique)).Reach (InTime hi) w)
    (hsaved : 0 < ((above w.untimed).node p₀).log.countP isSaveState)
    (hp : (timed (process (M := M) Network.clique)).Path (InTime hi) w w')
    (hdue : ∀ x, x ∈ w'.net → w.now + hi < x.2) (p : PID N)
    : ((above w'.untimed).node p).snap.color = .red := by
  have hpath := FIFOChannel.above_path process_own h hp
  have hinv := timed_inv (hp.reach h)
  by_cases hp₀ : p₀ = p
  . subst hp₀
    exact hinv.red_of_saved hsaved hpath
  . have hsent := (timed_inv h).marker_sent ((timed_inv h).red_of_saved hsaved .refl) hp₀
    have hreceived := (FIFOChannel.delivered_of_due process_own h hp hdue p₀ p).countP_le (p := isMarker)
    cases hcolor : ((above w'.untimed).node p).snap.color with
    | red => rfl
    | white =>
      rw [hinv.unmarked p hcolor] at hreceived
      exact absurd hsent (Nat.not_lt.mpr hreceived)

/--
One delay after all processes have turned red, all markers have been received.
-/
theorem markers_of_due (h : (timed (process (M := M) Network.clique)).Reach (InTime hi) w)
    (hred : ∀ p, ((above w.untimed).node p).snap.color = .red)
    (hp : (timed (process (M := M) Network.clique)).Path (InTime hi) w w')
    (hdue : ∀ x, x ∈ w'.net → w.now + hi < x.2) {p q : PID N} (hq : q ≠ p)
    : q ∈ markers ((above w'.untimed).node p).log := by
  have hsent := (timed_inv h).marker_sent (hred q) hq
  have hreceived := (FIFOChannel.delivered_of_due process_own h hp hdue q p).countP_le (p := isMarker)
  rw [← List.count_pos_iff, ((timed_inv (hp.reach h)).recv p).marked]
  exact Nat.lt_of_lt_of_le hsent hreceived

/--
When no message takes longer than `hi`, the snapshot that a process has begun is complete after twice
that time: every process has saved its state once and has the markers of all others, so that whatever
has been sent before is in one of the states or, as it crosses the cut, recorded.
-/
theorem completes_in_time (hhi : 0 ≤ hi) {s₀ s : Main N M}
    (h : (NekoSimSystem.lts (mainProcess N M) Network.clique).Reach (fun s a s' =>
      Meets (Regular Network.clique) (mainProcess N M) Network.clique s a
        ∧ Meets (fun _ a => DelaysWithin 1 hi a) (mainProcess N M) Network.clique s a
        ∧ FewMessages (below s'.world)) s₀)
    {p₀ : PID N} (hsaved : 0 < ((above s₀.world).node p₀).log.countP isSaveState)
    (hp : (NekoSimSystem.lts (mainProcess N M) Network.clique).Path (fun s a s' =>
      Meets (Regular Network.clique) (mainProcess N M) Network.clique s a
        ∧ Meets (fun _ a => DelaysWithin 1 hi a) (mainProcess N M) Network.clique s a
        ∧ FewMessages (below s'.world)) s₀ s)
    (hlate : s₀.network.run.sched.currentTime.toInt + 2 * hi < s.network.run.sched.currentTime.toInt)
    (p : PID N)
    : ((above s.world).node p).log.countP isSaveState = 1
      ∧ (∀ q, q ≠ p → q ∈ markers ((above s.world).node p).log
          ∧ sends (untilSaved ((above s.world).node q).log) p
            = receives (untilSaved ((above s.world).node p).log) q ++ crossing (above s.world) q p)
      ∧ ∀ m, m ∈ ((above s.world).node p).snap.record ↔ ∃ q, m ∈ crossing (above s.world) q p := by
  have hreach := NekoSimSystem.timedWorld_reach (h.mono (fun _ _ _ => FIFOChannel.inTime_of_meets))
  have hpath := NekoSimSystem.timedWorld_path (h.mono (fun _ _ _ => FIFOChannel.inTime_of_meets))
    (hp.mono (fun _ _ _ => FIFOChannel.inTime_of_meets))
  rw [NekoProcess.emit_clique (fun _ => rfl)] at hreach hpath
  rw [← NekoSimSystem.untimed_timedWorld] at hsaved ⊢
  have hnow : s₀.timedWorld.now + 2 * hi < s.timedWorld.now := hlate
  obtain ⟨v, hbefore, hafter, hv, hdue⟩ := TimedNetwork.exists_before_deadline
    (s₀.timedWorld.now + hi) hpath (by omega) (by omega)
  have hred := red_of_due hreach hsaved hbefore hdue
  have hreach' := hbefore.reach hreach
  have hpast : ∀ x, x ∈ s.timedWorld.net → v.now + hi < x.2 := by
    intro x hx
    have hle := FIFOChannel.not_overdue (hpath.reach hreach) x hx
    omega
  have hinv := timed_inv (hpath.reach hreach)
  refine ⟨?_, ?_, hinv.mem_record p⟩
  . have hsaved' := ((timed_inv hreach').row p).red (hred p)
    have hred' := hinv.red_of_saved (by rw [hsaved'.1]; exact Nat.one_pos)
      (FIFOChannel.above_path process_own hreach' hafter)
    exact ((hinv.row p).red hred').1
  . intro q hq
    have hmarker := markers_of_due hreach' hred hafter hpast hq
    refine ⟨hmarker, ?_⟩
    rw [hinv.channel hq, hinv.conserved.arrived p q hmarker, List.append_nil]

attribute [local instance] PID.twoProcesses

-- The answer to the marker arrives at 6, and something else happens at 11.
theorem completes_in_time_reordered
    : ∃ s : Main 2 (AppMessage 2 Unit),
        (NekoSimSystem.lts (mainProcess 2 (AppMessage 2 Unit)) Network.clique).Path OvertakingStep initiated s
          ∧ s.network.run.sched.currentTime = 11
          ∧ ∀ p, ((above s.world).node p).log.countP isSaveState = 1
              ∧ ∀ m, m ∈ ((above s.world).node p).snap.record ↔ ∃ q, m ∈ crossing (above s.world) q p := by
  have h1 := answered_path.next (.kernel (.schedule (.simple 11 .other 3 false))) rfl
    ⟨.of_fresh (by decide) rfl, trivial, by decide⟩
  have h2 := h1.next (.kernel .executeNext) rfl
    ⟨.of_room (by decide), trivial, by decide⟩
  have hsaved : 0 < ((above initiated.world).node 0).log.countP isSaveState := by decide
  refine ⟨_, h2, rfl, ?_⟩
  intro p
  obtain ⟨honce, -, hrecord⟩ := completes_in_time (by decide) initiated_reach hsaved h2 (by decide) p
  exact ⟨honce, hrecord⟩

end System

end ChandyLamport
