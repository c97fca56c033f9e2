import ScalaNeko.Protocol.Impl.SnapshotStack
import ScalaNeko.Protocol.Lemmas.FIFOLayer
import ScalaNeko.Protocol.Lemmas.Snapshot

/-!
The system of `ChandyLamportMain`: snapshots over `FIFOChannel`s on a simulated network whose delays
reorder messages. Nothing is lost and nothing is counted twice in a snapshot.
-/

open AsyncNetwork (Envelope)
open DelaySimNetwork (Job Sent)
open FIFOChannel (Layered under above below FewMessages Allows)
open Kernel (Stamped TaskID Time)
open NekoSimSystem (Meets Regular DelaysWithin Idle)

namespace ChandyLamport

variable {N : Nat} {M : Type} [Message N M] [DecidableEq M]

section Conserved

/--
The messages from `q` to `p` that are sent before the `SaveState` of `q` and not received yet.
-/
def underway (w : Run N M) (q p : PID N) : List M :=
  (sends (untilSaved (w.node q).log) p).drop (receives (w.node p).log q).length

/--
What was sent through a channel before the `SaveState` of its sender was received before that of its
receiver, or since then and recorded by the receiver, or it is the first that is still in the channel.
-/
structure Conserved (w : Run N M) : Prop where
  once : ∀ p, (w.node p).log.countP isSaveState ≤ 1
  channel : ∀ p q, q ≠ p → sends (untilSaved (w.node q).log) p
    = receives (untilSaved (w.node p).log) q ++ crossing w q p ++ underway w q p
  crossed : ∀ p q, q ≠ p →
    receives (untilSaved (w.node p).log) q ++ crossing w q p <+: receives (w.node p).log q
  recorded : ∀ p m, m ∈ (w.node p).snap.record ↔ ∃ q, m ∈ crossing w q p
  waiting : ∀ p q,
    (underway w q p).map (Wire.payload · .white) <+: (w.sent q p).drop (w.taken p q)
  arrived : ∀ p q, q ∈ markers (w.node p).log → underway w q p = []

variable {w : Run N M}

omit [DecidableEq M] in
theorem Inv.once (h : Inv True w) (p : PID N) : (w.node p).log.countP isSaveState ≤ 1 := by
  cases hcolor : (w.node p).snap.color with
  | white =>
    rw [((h.row p).white hcolor).1]
    exact Nat.zero_le 1
  | red => exact Nat.le_of_eq ((h.row p).red hcolor).1

omit [DecidableEq M] in
theorem Inv.take_sends (h : Inv True w) {p q : PID N} (hne : q ≠ p)
    : (sends (untilSaved (w.node q).log) p).take (receives (w.node p).log q).length
      = receives (untilSaved (w.node p).log) q ++ crossing w q p := by
  have hreceived : receives (untilSaved (w.node p).log) q <+: receives (w.node p).log q :=
    (List.takeWhile_prefix _).filterMap _
  have hsent : sends (untilSaved (w.node q).log) p <+: sends (w.node q).log p :=
    (List.takeWhile_prefix _).filterMap _
  have hinitial := List.prefix_of_prefix_length_le (hreceived.trans (h.receives_prefix p q)) hsent
    (h.consistent hne)
  obtain ⟨rest, hrest⟩ := hinitial
  rw [crossing, ← hrest, List.take_append, List.take_of_length_le hreceived.length_le, List.drop_left]

omit [DecidableEq M] in
theorem Inv.channel (h : Inv True w) {p q : PID N} (hne : q ≠ p)
    : sends (untilSaved (w.node q).log) p
      = receives (untilSaved (w.node p).log) q ++ crossing w q p ++ underway w q p := by
  rw [← h.take_sends hne]
  exact (List.take_append_drop _ _).symm

omit [DecidableEq M] in
theorem Inv.crossed (h : Inv True w) {p q : PID N} (hne : q ≠ p)
    : receives (untilSaved (w.node p).log) q ++ crossing w q p <+: receives (w.node p).log q := by
  have hsent : sends (untilSaved (w.node q).log) p <+: sends (w.node q).log p :=
    (List.takeWhile_prefix _).filterMap _
  rw [← h.take_sends hne]
  exact List.prefix_of_prefix_length_le ((List.take_prefix _ _).trans hsent) (h.receives_prefix p q)
    (List.length_take_le _ _)

omit [DecidableEq M] in
theorem Inv.waiting (h : Inv True w) (p q : PID N)
    : (underway w q p).map (Wire.payload · .white) <+: (w.sent q p).drop (w.taken p q) := by
  have hwhite := (h.row q).white_first p
  have hreceived : (receives (w.node p).log q).length = (payloads (w.received p q)).length := by
    rw [(h.recv p).delivered, List.length_map]
  unfold underway
  rw [hreceived]
  by_cases htaken : w.taken p q ≤ (sends (untilSaved (w.node q).log) p).length
  -- nothing but these messages has been received
  . have hall : w.received p q
        = ((sends (untilSaved (w.node q).log) p).take (w.taken p q)).map (Wire.payload · .white) := by
      obtain ⟨rest, hrest⟩ := hwhite
      rw [FIFONetwork.World.received, ← hrest, List.map_take, List.take_append_of_le_length]
      rwa [List.length_map]
    rw [hall, payloads_map, List.length_map, List.length_take_of_le htaken, List.map_drop]
    exact hwhite.drop _
  . have hlen := hwhite.length_le
    rw [List.length_map] at hlen
    have hpre : (sends (untilSaved (w.node q).log) p).map (Wire.payload · .white) <+: w.received p q := by
      apply List.prefix_of_prefix_length_le hwhite (FIFONetwork.received_prefix w p q)
      rw [List.length_map, FIFONetwork.World.received, List.length_take]
      omega
    have hle : (payloads ((sends (untilSaved (w.node q).log) p).map
        (Wire.payload (N := N) · .white))).length ≤ (payloads (w.received p q)).length :=
      (hpre.filterMap _).length_le
    rw [payloads_map, List.length_map] at hle
    rw [List.drop_eq_nil_of_le hle]
    exact List.nil_prefix

omit [DecidableEq M] in
theorem Inv.conserved (h : Inv True w) : Conserved w where
  once := h.once
  channel := fun _ _ => h.channel
  crossed := fun _ _ => h.crossed
  recorded := h.mem_record
  waiting := h.waiting
  arrived := fun _ _ hq => List.drop_eq_nil_of_le (h.white_initial hq).length_le

omit [DecidableEq M] in
theorem Inv.marker_sent (h : Inv True w) {p q : PID N} (hred : (w.node q).snap.color = .red)
    (hne : q ≠ p)
    : 0 < (w.sent q p).countP isMarker := by
  obtain ⟨early, late, -, -, hsent⟩ := ((h.row q).red hred).2 p
  rw [hsent, if_pos (Finset.mem_erase.mpr ⟨hne.symm, Finset.mem_univ p⟩), List.countP_append,
    List.countP_append, List.countP_append]
  have hone : [(.snapshot q (Finset.univ.erase q) : Wire N M)].countP isMarker = 1 := rfl
  omega

omit [DecidableEq M] in
/--
When one process has saved its state and all channels are empty, all have, and all markers are there.
-/
theorem Inv.finished (h : Inv True w) (hempty : ∀ p q, w.received p q = w.sent q p) {p₀ : PID N}
    (hsaved : 0 < (w.node p₀).log.countP isSaveState) (p : PID N)
    : (w.node p).log.countP isSaveState = 1 ∧ ∀ q, q ≠ p → q ∈ markers (w.node p).log := by
  have hred₀ : (w.node p₀).snap.color = .red := by
    cases hcolor : (w.node p₀).snap.color with
    | white =>
      rw [((h.row p₀).white hcolor).1] at hsaved
      exact absurd hsaved (Nat.lt_irrefl 0)
    | red => rfl
  have hred : ∀ q, (w.node q).snap.color = .red := by
    intro q
    by_cases hq : p₀ = q
    . rw [← hq]
      exact hred₀
    . cases hcolor : (w.node q).snap.color with
      | white =>
        have hsent := h.marker_sent hred₀ hq
        rw [← hempty, h.unmarked q hcolor] at hsent
        exact absurd hsent (Nat.lt_irrefl 0)
      | red => rfl
  refine ⟨((h.row p).red (hred p)).1, ?_⟩
  intro q hq
  have hsent := h.marker_sent (hred q) hq
  rw [← hempty, ← (h.recv p).marked] at hsent
  exact List.count_pos_iff.mp hsent

end Conserved

section System

omit [Message N M] in
theorem onReceive_sends (snap : ChandyLamport M) (me : PID N) (neighbors : Finset (PID N)) (w : Wire N M)
    : (snap.onReceive me neighbors [] w).2.2 = []
      ∨ (snap.onReceive me neighbors [] w).2.2 = [.message (.snapshot me neighbors)] := by
  cases w with
  | payload m color =>
    left
    cases color with
    | white =>
      simp only [onReceive]
      split
      . rfl
      . rfl
    | red => rfl
  | snapshot q dests =>
    by_cases hwhite : snap.color = .white
    . right
      simp only [onReceive, if_pos hwhite, turnRed]
      rfl
    . left
      simp only [onReceive, if_neg hwhite]

theorem process_own : (process (M := M) (Network.clique : PID N → Option (Finset (PID N)))).Own where
  input := by
    intro me e node node' sends h m hm
    cases e with
    | signal ie =>
      cases ie
      simp only [process, onSend] at h
      split at h
      . cases h
        simp only [turnRed, List.map_nil, List.nil_append, List.mem_singleton, Event.message.injEq] at hm
        rw [hm]
        rfl
      . cases h
        cases hm
    | message m' =>
      simp only [process, onSend] at h
      split at h
      . next hfrom =>
        cases h
        simp only [List.mem_singleton, Event.message.injEq] at hm
        rw [hm]
        exact hfrom
      . cases h
  deliver := by
    intro me w k node node' sends h m hm
    simp only [process, Option.some.injEq, Prod.mk.injEq] at h
    obtain ⟨-, rfl⟩ := h
    rcases onReceive_sends node.snap me ((Network.clique me).getD ∅) w with hsends | hsends
    . rw [hsends] at hm
      cases hm
    . rw [hsends, List.mem_singleton, Event.message.injEq] at hm
      rw [hm]
      rfl

/--
What the protocols above the channels do, `program` does as well.
-/
theorem program_reach {w : Run N M}
    (h : (FIFONetwork.lts ((process (M := M) Network.clique).fifoProgram transmit)).Reachable w)
    : (FIFONetwork.lts (program Network.clique)).Reach (fun _ a _ => reaction a = []) w := by
  apply FIFONetwork.reach_relabel (fun e => (e, [])) (fun _ => []) rfl _ _ h
  . intro p e node r h
    refine ⟨rfl, ?_⟩
    rw [← h]
    cases e with
    | signal ie => rfl
    | message m =>
      simp only [NekoProcess.fifoProgram, NekoProcess.program, process] at h ⊢
      split
      . rfl
      . next hfrom =>
        rw [if_neg hfrom] at h
        cases h
  . intro p q m k node r h
    refine ⟨rfl, ?_⟩
    simp only [NekoProcess.fifoProgram] at h
    split at h
    . next hfrom =>
      rw [← h, ← hfrom]
      rfl
    . cases h

abbrev Main (N : Nat) (M : Type) :=
  NekoSimSystem N (Layered N (Node N M) (Wire N M)) (FIFOSequenced N (Wire N M))

abbrev mainProcess (N : Nat) (M : Type) [Message N M] [DecidableEq M]
    : NekoProcess N (Layered N (Node N M) (Wire N M)) (Event Initiate M) (Nat → Unit) Initiate
      (FIFOSequenced N (Wire N M)) :=
  under (process Network.clique)

/--
In the system of `ChandyLamportMain`, however long the network delays its messages, no message is lost
or counted twice by a snapshot. When the simulation has come to its end, the snapshot of one process
is one of all processes.
-/
theorem conserved_of_simulation {s : Main N M}
    (h : (NekoSimSystem.lts (mainProcess N M) Network.clique).Reach (fun s a s' =>
      Meets (Regular Network.clique) (mainProcess N M) Network.clique s a
        ∧ FewMessages (below s'.world)) s)
    : Conserved (above s.world)
      ∧ (Idle s → ∀ p₀, 0 < ((above s.world).node p₀).log.countP isSaveState →
          ∀ p, ((above s.world).node p).log.countP isSaveState = 1
            ∧ ∀ q, q ≠ p → q ∈ markers ((above s.world).node p).log) := by
  have hworld : ((mainProcess N M).program transmit).lts.Reach
      (fun _ l w => Allows (fun _ => True) l.action ∧ FewMessages (below w)) s.world := by
    rw [← NekoProcess.emit_clique (fun _ => rfl)]
    apply NekoSimSystem.world_reach
    apply h.mono
    intro s a s' hok
    refine ⟨hok.1, ?_⟩
    intro b out hb
    refine ⟨?_, hok.2⟩
    cases b with
    | input => trivial
    | receive => exact fun _ _ => trivial
  have hprogram := program_reach (FIFOChannel.above_reach _ process_own hworld).2
  have hinv := inv_of_reach True (fun _ hok _ => hok) hprogram
  refine ⟨hinv.conserved, ?_⟩
  intro hidle p₀ hsaved
  apply hinv.finished _ hsaved
  intro p q
  apply FIFOChannel.above_received_eq process_own hworld
  exact hidle.net_eq_zero (h.mono (fun _ _ _ hok => hok.1))

end System

section Overtaking

/-!
The marker of process 0 overtakes its message to process 1 on the network, but not in the channel.
-/

attribute [local instance] PID.twoProcesses

abbrev Packet := FIFOSequenced 2 (Wire 2 (AppMessage 2 Unit))

abbrev State := Layered 2 (Node 2 (AppMessage 2 Unit)) (Wire 2 (AppMessage 2 Unit))

def token : AppMessage 2 Unit := .unicast 0 1 ()

def tokenSent : Sent 2 Packet := ⟨⟨.payload token .white, 1, 0⟩, 0, fun _ _ => some 5, fun _ => 0⟩

def markerSent : Sent 2 Packet := ⟨⟨.snapshot 0 {1}, 1, 1⟩, 0, fun _ _ => some 1, fun _ => 1⟩

def tokenTask : Stamped (Job 2 Packet) := tokenSent.stamped 0 (⟨1, tokenSent.msg⟩, 5)

def markerTask : Stamped (Job 2 Packet) := markerSent.stamped 1 (⟨1, markerSent.msg⟩, 1)

def afterToken : State :=
  ⟨⟨⟨.white, ∅, 0⟩, [.sent token]⟩,
    { channel := { nextSendTo := Function.update (fun _ => 0) 1 1 }, sent := [tokenSent.msg.m] }⟩

def afterInitiate : State :=
  ⟨⟨⟨.red, ∅, 0⟩, [.sent token, .saveState]⟩,
    { channel := { nextSendTo := Function.update afterToken.fifo.channel.nextSendTo 1 2 }
      sent := [tokenSent.msg.m, markerSent.msg.m] }⟩

def afterMarker : State :=
  ⟨⟨⟨.white, ∅, 0⟩, []⟩,
    { channel :=
        { nextReceiveFrom := Function.update (fun _ => 0) 0 0
          messageBuffer := Function.update (fun _ => []) 0 [⟨0, 1, markerSent.msg.m⟩] }
      received := [markerSent.msg] }⟩

def started : PID 2 → State :=
  Function.update (Function.update (mainProcess 2 (AppMessage 2 Unit)).init 0 afterToken) 0 afterInitiate

def draws (delay : Time) (id : TaskID) : Nat → Draw 2 Packet :=
  fun _ => ⟨fun _ _ => some delay, fun _ => id⟩

abbrev OvertakingStep (s : Main 2 (AppMessage 2 Unit))
    (a : NekoSimSystem.Action 2 (Event Initiate (AppMessage 2 Unit)) (Nat → Unit) Packet)
    (s' : Main 2 (AppMessage 2 Unit)) : Prop :=
  Meets (Regular Network.clique) (mainProcess 2 (AppMessage 2 Unit)) Network.clique s a
    ∧ Meets (fun _ a => DelaysWithin 1 5 a) (mainProcess 2 (AppMessage 2 Unit)) Network.clique s a
    ∧ FewMessages (below s'.world)

def initiated : Main 2 (AppMessage 2 Unit) :=
  ⟨started,
    ⟨{ sched := ⟨[markerTask, tokenTask], 0⟩, scheduled := [tokenTask, markerTask] },
      [tokenSent, markerSent]⟩⟩

def backSent : Sent 2 Packet := ⟨⟨.snapshot 1 {0}, 0, 0⟩, 5, fun _ _ => some 1, fun _ => 2⟩

def backTask : Stamped (Job 2 Packet) := backSent.stamped 2 (⟨0, backSent.msg⟩, 1)

def afterBoth : State :=
  ⟨⟨⟨.red, ∅, -1⟩, [.received 0 token, .marker 0, .saveState]⟩,
    { channel :=
        { nextSendTo := Function.update (fun _ => 0) 0 1
          nextReceiveFrom := Function.update afterMarker.fifo.channel.nextReceiveFrom 0 2
          messageBuffer := Function.update afterMarker.fifo.channel.messageBuffer 0 [] }
      sent := [backSent.msg.m]
      received := [markerSent.msg, tokenSent.msg]
      delivered := [tokenSent.msg.m, markerSent.msg.m] }⟩

def overtaken : Main 2 (AppMessage 2 Unit) :=
  ⟨Function.update (Function.update started 1 afterMarker) 1 afterBoth,
    ⟨{ sched := ⟨[backTask], 5⟩
       running := some tokenTask
       scheduled := [tokenTask, markerTask, backTask]
       executed := [(1, markerTask), (5, tokenTask)] }, [tokenSent, markerSent, backSent]⟩⟩

theorem initiated_reach
    : (NekoSimSystem.lts (mainProcess 2 (AppMessage 2 Unit)) Network.clique).Reach OvertakingStep initiated := by
  have h0 : (NekoSimSystem.lts (mainProcess 2 (AppMessage 2 Unit)) Network.clique).Reach OvertakingStep
      (NekoSimSystem.initial (mainProcess 2 (AppMessage 2 Unit))) := .init rfl
  have h1 : (NekoSimSystem.lts (mainProcess 2 (AppMessage 2 Unit)) Network.clique).Reach OvertakingStep
      ⟨Function.update (mainProcess 2 (AppMessage 2 Unit)).init 0 afterToken,
        ⟨{ sched := ⟨[tokenTask], 0⟩, scheduled := [tokenTask] }, [tokenSent]⟩⟩ :=
    h0.next (.input 0 (.message token) (draws 5 0)) rfl ⟨by
      rintro _ _ ⟨⟩
      exact ⟨.of_send ⟨⟨by decide, by decide⟩, by decide⟩ (fun _ _ => rfl), trivial⟩, by
      rintro _ _ ⟨⟩
      exact ⟨by rintro _ _ _ ⟨⟩; decide, trivial⟩, by decide⟩
  exact h1.next (.input 0 (.signal .initiate) (draws 1 1)) rfl ⟨by
      rintro _ _ ⟨⟩
      exact ⟨.of_send ⟨⟨by decide, by decide⟩, by decide⟩ (fun _ _ => rfl), trivial⟩, by
      rintro _ _ ⟨⟩
      exact ⟨by rintro _ _ _ ⟨⟩; decide, trivial⟩, by decide⟩

theorem overtaken_path
    : (NekoSimSystem.lts (mainProcess 2 (AppMessage 2 Unit)) Network.clique).Path OvertakingStep initiated
        overtaken := by
  have h3 : (NekoSimSystem.lts (mainProcess 2 (AppMessage 2 Unit)) Network.clique).Path OvertakingStep
      initiated
      ⟨started,
        ⟨{ sched := ⟨[tokenTask], 1⟩, batch := [markerTask], scheduled := [tokenTask, markerTask] },
          [tokenSent, markerSent]⟩⟩ :=
    LTS.Path.single (.kernel .executeNext) rfl
      ⟨.of_room (by decide), trivial, by decide⟩
  have h4 : (NekoSimSystem.lts (mainProcess 2 (AppMessage 2 Unit)) Network.clique).Path OvertakingStep
      initiated
      ⟨Function.update started 1 afterMarker,
        ⟨{ sched := ⟨[tokenTask], 1⟩
           running := some markerTask
           scheduled := [tokenTask, markerTask]
           executed := [(1, markerTask)] }, [tokenSent, markerSent]⟩⟩ :=
    h3.next (.deliver (fun _ => ()) (draws 1 2)) rfl
      ⟨.of_deliver ⟨1, markerSent.msg⟩ rfl rfl rfl rfl trivial,
        .of_deliver ⟨1, markerSent.msg⟩ rfl rfl rfl rfl trivial, by decide⟩
  have h5 : (NekoSimSystem.lts (mainProcess 2 (AppMessage 2 Unit)) Network.clique).Path OvertakingStep
      initiated
      ⟨Function.update started 1 afterMarker,
        ⟨{ sched := ⟨[tokenTask], 1⟩
           scheduled := [tokenTask, markerTask]
           executed := [(1, markerTask)] }, [tokenSent, markerSent]⟩⟩ :=
    h4.next (.kernel (.finish false)) rfl ⟨.of_finish, trivial, by decide⟩
  have h6 : (NekoSimSystem.lts (mainProcess 2 (AppMessage 2 Unit)) Network.clique).Path OvertakingStep
      initiated
      ⟨Function.update started 1 afterMarker,
        ⟨{ sched := ⟨[], 5⟩
           batch := [tokenTask]
           scheduled := [tokenTask, markerTask]
           executed := [(1, markerTask)] }, [tokenSent, markerSent]⟩⟩ :=
    h5.next (.kernel .executeNext) rfl
      ⟨.of_room (by decide), trivial, by decide⟩
  exact h6.next (.deliver (fun _ => ()) (draws 1 2)) rfl ⟨by
    apply Meets.of_deliver ⟨1, tokenSent.msg⟩ rfl rfl rfl rfl
    exact ⟨.of_send ⟨⟨by decide, by decide⟩, by decide⟩ (fun _ _ => rfl), trivial⟩, by
    apply Meets.of_deliver ⟨1, tokenSent.msg⟩ rfl rfl rfl rfl
    exact ⟨by rintro _ _ _ ⟨⟩; decide, trivial⟩, by decide⟩

def afterBack : State :=
  ⟨⟨⟨.red, ∅, -1⟩, [.sent token, .saveState, .marker 1]⟩,
    { channel :=
        { nextSendTo := afterInitiate.fifo.channel.nextSendTo
          nextReceiveFrom := Function.update (fun _ => 0) 1 1
          messageBuffer := Function.update (fun _ => []) 1 [] }
      sent := [tokenSent.msg.m, markerSent.msg.m]
      received := [backSent.msg]
      delivered := [backSent.msg.m] }⟩

def answered : Main 2 (AppMessage 2 Unit) :=
  ⟨Function.update overtaken.processes 0 afterBack,
    ⟨{ sched := ⟨[], 6⟩
       scheduled := [tokenTask, markerTask, backTask]
       executed := [(1, markerTask), (5, tokenTask), (6, backTask)] }, [tokenSent, markerSent, backSent]⟩⟩

theorem answered_path
    : (NekoSimSystem.lts (mainProcess 2 (AppMessage 2 Unit)) Network.clique).Path OvertakingStep initiated
        answered := by
  have h1 : (NekoSimSystem.lts (mainProcess 2 (AppMessage 2 Unit)) Network.clique).Path OvertakingStep
      initiated
      ⟨overtaken.processes,
        ⟨{ sched := ⟨[backTask], 5⟩
           scheduled := [tokenTask, markerTask, backTask]
           executed := [(1, markerTask), (5, tokenTask)] }, [tokenSent, markerSent, backSent]⟩⟩ :=
    overtaken_path.next (.kernel (.finish false)) rfl
      ⟨.of_finish, trivial, by decide⟩
  have h2 : (NekoSimSystem.lts (mainProcess 2 (AppMessage 2 Unit)) Network.clique).Path OvertakingStep
      initiated
      ⟨overtaken.processes,
        ⟨{ sched := ⟨[], 6⟩
           batch := [backTask]
           scheduled := [tokenTask, markerTask, backTask]
           executed := [(1, markerTask), (5, tokenTask)] }, [tokenSent, markerSent, backSent]⟩⟩ :=
    h1.next (.kernel .executeNext) rfl
      ⟨.of_room (by decide), trivial, by decide⟩
  have h3 : (NekoSimSystem.lts (mainProcess 2 (AppMessage 2 Unit)) Network.clique).Path OvertakingStep
      initiated
      ⟨Function.update overtaken.processes 0 afterBack,
        ⟨{ sched := ⟨[], 6⟩
           running := some backTask
           scheduled := [tokenTask, markerTask, backTask]
           executed := [(1, markerTask), (5, tokenTask), (6, backTask)] },
          [tokenSent, markerSent, backSent]⟩⟩ :=
    h2.next (.deliver (fun _ => ()) (draws 1 3)) rfl
      ⟨.of_deliver ⟨0, backSent.msg⟩ rfl rfl rfl rfl trivial,
        .of_deliver ⟨0, backSent.msg⟩ rfl rfl rfl rfl trivial, by decide⟩
  exact h3.next (.kernel (.finish false)) rfl ⟨.of_finish, trivial, by decide⟩

theorem conserved_of_simulation_reordered
    : ∃ s : Main 2 (AppMessage 2 Unit),
        (NekoSimSystem.lts (mainProcess 2 (AppMessage 2 Unit)) Network.clique).Reach OvertakingStep s
          ∧ ((above s.world).node 1).log = [.received 0 token, .marker 0, .saveState]
          ∧ Conserved (above s.world) ∧ Idle s
          ∧ ∀ p, ((above s.world).node p).log.countP isSaveState = 1
              ∧ ∀ q, q ≠ p → q ∈ markers ((above s.world).node p).log := by
  have hreach := answered_path.reach initiated_reach
  have hidle : Idle answered := ⟨rfl, rfl⟩
  have hsaved : 0 < ((above answered.world).node 0).log.countP isSaveState := by decide
  obtain ⟨hconserved, hend⟩ := conserved_of_simulation (hreach.mono (fun _ _ _ h => ⟨h.1, h.2.2⟩))
  exact ⟨answered, hreach, rfl, hconserved, hidle, hend hidle 0 hsaved⟩

end Overtaking

end ChandyLamport
