import ScalaNeko.Lib.Refinement
import ScalaNeko.NekoSimSystem.Lemmas
import ScalaNeko.Protocol.Impl.FIFOLayer
import ScalaNeko.Protocol.Lemmas.FIFOChannel

/-!
A `FIFOChannel` at each process turns a network that reorders messages into FIFO channels, for all the
protocols above it.
-/

open AsyncNetwork
open FIFONetwork (toDest toDest_append receiveAll)
open Message

namespace FIFOChannel

variable {N : Nat} {σ ι κ S M : Type} [Message N M]

section Sends

variable {fifo : Node N M} {me : PID N}

theorem sendAll_cons (e : Event S M) (es : List (Event S M))
    : sendAll fifo (e :: es)
      = ((sendAll (send fifo e).1 es).1, (send fifo e).2 ++ (sendAll (send fifo e).1 es).2) := rfl

theorem sendAll_append (es es' : List (Event S M))
    : sendAll fifo (es ++ es')
      = ((sendAll (sendAll fifo es).1 es').1, (sendAll fifo es).2 ++ (sendAll (sendAll fifo es).1 es').2) := by
  induction es generalizing fifo with
  | nil => rfl
  | cons e es ih =>
    rw [List.cons_append, sendAll_cons, ih, sendAll_cons, List.append_assoc]

theorem transmit_append {W : Type} [Message N W] (es es' : List (Event S W))
    : transmit (es ++ es') = transmit es ++ transmit es' :=
  List.flatMap_append

theorem send_kept (fifo : Node N M) (e : Event S M)
    : (send fifo e).1.received = fifo.received ∧ (send fifo e).1.delivered = fifo.delivered := by
  cases e with
  | signal ie => exact ⟨rfl, rfl⟩
  | message m => exact ⟨rfl, rfl⟩

theorem sendAll_kept (es : List (Event S M))
    : (sendAll fifo es).1.received = fifo.received
      ∧ (sendAll fifo es).1.delivered = fifo.delivered := by
  induction es generalizing fifo with
  | nil => exact ⟨rfl, rfl⟩
  | cons e es ih =>
    obtain ⟨hreceived, hdelivered⟩ := @ih (send fifo e).1
    obtain ⟨hreceived', hdelivered'⟩ := send_kept fifo e
    exact ⟨hreceived.trans hreceived', hdelivered.trans hdelivered'⟩

theorem sendAll_sent (es : List (Event S M)) (q : PID N)
    : (sendAll fifo es).1.sent.filter (fun m => q ∈ destinations m)
      = fifo.sent.filter (fun m => q ∈ destinations m) ++ toDest (transmit es) q := by
  induction es generalizing fifo with
  | nil => exact (List.append_nil _).symm
  | cons e es ih =>
    rw [sendAll_cons, ih]
    cases e with
    | signal ie => rfl
    | message m =>
      have htransmit : transmit ((.message m : Event S M) :: es) = fanOut m ++ transmit es := rfl
      rw [htransmit, toDest_append, ← List.append_assoc, toDest_fanOut, send]
      dsimp only
      rw [List.filter_append, List.filter_singleton]
      congr 2
      by_cases hq : q ∈ destinations m
      . simp [hq]
      . simp [hq]

end Sends

section Below

variable {w w' : Run N M} {p : PID N}

theorem step_send {e : Event S M} (hown : ∀ m, e = .message m → fromPID m = p)
    : (program (S := S)).Step w ⟨.input p e, transmit (send (w.node p) e).2⟩
        ⟨Function.update w.node p (send (w.node p) e).1, ↑(transmit (send (w.node p) e).2) + w.net⟩ := by
  apply Program.Step.input
  cases e with
  | signal ie => rfl
  | message m =>
    simp only [program, send]
    rw [if_pos (hown m rfl)]

/--
What is handed to the channel in one go, event by event.
-/
theorem path_sendAll {es : List (Event S M)} (hown : ∀ m, .message m ∈ es → fromPID m = p)
    : (program (S := S)).lts.Path (fun _ _ _ => True) w
        ⟨Function.update w.node p (sendAll (w.node p) es).1,
          ↑(transmit (sendAll (w.node p) es).2) + w.net⟩ := by
  induction es generalizing w with
  | nil =>
    simp only [sendAll, Function.update_eq_self]
    convert LTS.Path.refl
    exact Multiset.zero_add _
  | cons e es ih =>
    have hstep := step_send (S := S) (w := w) (p := p) (e := e) (by
      rintro m rfl
      exact hown m List.mem_cons_self)
    have hpath := @ih ⟨Function.update w.node p (send (w.node p) e).1,
      ↑(transmit (send (w.node p) e).2) + w.net⟩ (fun m hm => hown m (List.mem_cons_of_mem _ hm))
    dsimp only at hpath
    rw [Function.update_self, Function.update_idem, ← Multiset.add_assoc, Multiset.coe_add,
      Multiset.coe_eq_coe.mpr List.perm_append_comm, ← transmit_append] at hpath
    exact (LTS.Path.single _ hstep trivial).trans hpath

theorem step_received {e : FIFOSequenced N M} {rest : Multiset (Envelope (PID N) (FIFOSequenced N M))}
    (hnet : w.net = ⟨p, e⟩ ::ₘ rest)
    : (program (S := S)).Step w ⟨.receive p e (), []⟩
        ⟨Function.update w.node p (receive (w.node p) e).1, rest⟩ := by
  have hstep : (program (S := S)).Step w ⟨.receive p e (), []⟩
      ⟨Function.update w.node p (receive (w.node p) e).1,
        Multiset.ofList ([] : List (Envelope (PID N) (FIFOSequenced N M))) + rest⟩ :=
    .receive hnet rfl
  rw [Multiset.coe_nil, Multiset.zero_add] at hstep
  exact hstep

-- Streams only grow.
theorem fewMessages_of_step {l : Label (PID N) (Event S M) Unit (FIFOSequenced N M)}
    (hst : program.Step w l w') (h : FewMessages w')
    : FewMessages w := by
  obtain ⟨node, hnode, hcase⟩ := hst.cases_node
  obtain ⟨a, out⟩ := l
  dsimp only at hnode hcase
  have hsent : (w.node a.proc).sent <+: node.sent := by
    rcases hcase with ⟨e, hinput, -⟩ | ⟨e, k, rest, hreceive, -, -⟩
    . cases e with
      | signal ie =>
        cases hinput
        exact List.prefix_rfl
      | message m =>
        simp only [program] at hinput
        split at hinput
        . cases hinput
          exact List.prefix_append _ _
        . cases hinput
    . cases hreceive
      exact List.prefix_rfl
  intro p q
  apply Nat.lt_of_le_of_lt _ (h p q)
  unfold stream
  rw [hnode]
  by_cases hp : p = a.proc
  . subst hp
    rw [Function.update_self]
    exact (hsent.filter _).length_le
  . rw [Function.update_of_ne hp]

end Below

section Layer

variable {proc : NekoProcess N σ ι κ S M}

-- The channels of a network of processes that send through them.
def below (w : World (PID N) (Layered N σ M) (FIFOSequenced N M)) : Run N M where
  node := fun p => (w.node p).fifo
  net := w.net

-- What the protocols above see.
def above (w : World (PID N) (Layered N σ M) (FIFOSequenced N M))
    : FIFONetwork.World (PID N) σ M where
  node := fun p => (w.node p).above
  sent := stream (below w)
  taken := fun q p => (link (below w) p q).delivered.length

def choices : List M → (Nat → κ) → List (M × κ)
  | [], _ => []
  | m :: ms, ks => (m, ks 0) :: choices ms (fun n => ks (n + 1))

omit [Message N M] in
theorem choices_map (ms : List M) (ks : Nat → κ) : (choices ms ks).map Prod.fst = ms := by
  induction ms generalizing ks with
  | nil => rfl
  | cons m ms ih => rw [choices, List.map_cons, ih]

omit [Message N M] in
theorem mem_choices {ms : List M} {ks : Nat → κ} {m : M} {k : κ} (h : (m, k) ∈ choices ms ks)
    : m ∈ ms ∧ ∃ n, k = ks n := by
  induction ms generalizing ks with
  | nil => cases h
  | cons m' ms ih =>
    rw [choices, List.mem_cons] at h
    rcases h with heq | h
    . cases heq
      exact ⟨List.mem_cons_self, 0, rfl⟩
    . obtain ⟨hm, n, hk⟩ := ih h
      exact ⟨List.mem_cons_of_mem _ hm, n + 1, hk⟩

/--
The deliveries of one reaction are receptions of the protocols above, and the channel is handed what
all of them send.
-/
theorem deliverAll_cases (hown : proc.Own) {me p : PID N} {ms : List M} {ks : Nat → κ}
    {s s' : Layered N σ M} {out : List (Event S (FIFOSequenced N M))}
    (hfrom : ∀ m, m ∈ ms → fromPID m = p) (h : deliverAll proc me ms ks s = some (s', out))
    : ∃ sends, receiveAll (proc.fifoProgram transmit) me p (choices ms ks) s.above
          = some (s'.above, transmit sends)
        ∧ s'.fifo = (sendAll s.fifo sends).1 ∧ out = (sendAll s.fifo sends).2
        ∧ ∀ m, .message m ∈ sends → fromPID m = me := by
  induction ms generalizing ks s s' out with
  | nil =>
    cases h
    exact ⟨[], rfl, rfl, rfl, by simp⟩
  | cons m ms ih =>
    simp only [deliverAll, Option.bind_eq_bind, Option.bind_eq_some_iff, Prod.exists, Option.pure_def,
      Option.some.injEq, Prod.mk.injEq] at h
    obtain ⟨state, sends, hdeliver, s₁, outs, hrest, rfl, rfl⟩ := h
    obtain ⟨sends', hreceive, hfifo, hout, hsends'⟩ :=
      ih (fun m hm => hfrom m (List.mem_cons_of_mem _ hm)) hrest
    dsimp only at hreceive hfifo hout
    refine ⟨sends ++ sends', ?_, ?_, ?_, ?_⟩
    . have hstep : (proc.fifoProgram transmit).receive me m (p, ks 0) s.above
          = some (state, transmit sends) := by
        unfold NekoProcess.fifoProgram
        dsimp only
        rw [if_pos (hfrom m List.mem_cons_self)]
        exact NekoProcess.program_receive hdeliver transmit
      rw [choices, receiveAll, hstep]
      simp only [Option.bind_eq_bind, Option.bind_some, hreceive, transmit_append]
      rfl
    . rw [hfifo, sendAll_append]
    . rw [hout, sendAll_append]
    . intro m hm
      rw [List.mem_append] at hm
      rcases hm with hm | hm
      . exact hown.deliver _ _ _ _ _ _ hdeliver m hm
      . exact hsends' m hm

variable {w : World (PID N) (Layered N σ M) (FIFOSequenced N M)} {p q : PID N} {s : Layered N σ M}
  {net : Multiset (Envelope (PID N) (FIFOSequenced N M))}

omit [Message N M] in
theorem below_update
    : below ⟨Function.update w.node p s, net⟩ = ⟨Function.update (below w).node p s.fifo, net⟩ := by
  unfold below
  dsimp only
  congr 1
  exact Function.comp_update Layered.fifo w.node p s

theorem above_send {state : σ} {sends : List (Event S M)}
    : above ⟨Function.update w.node p ⟨state, (sendAll (w.node p).fifo sends).1⟩, net⟩
      = (above w).emit p state (transmit sends) := by
  unfold above FIFONetwork.World.emit
  rw [below_update]
  simp only [FIFONetwork.World.mk.injEq]
  refine ⟨Function.comp_update Layered.above w.node p _, ?_, ?_⟩
  . funext p' r
    unfold stream
    dsimp only
    by_cases hp : p' = p
    . subst hp
      rw [Function.update_self, Function.update_self]
      exact sendAll_sent sends r
    . rw [Function.update_of_ne hp, Function.update_of_ne hp]
  . funext r p'
    unfold link
    dsimp only
    by_cases hr : r = p
    . subst hr
      rw [Function.update_self, (sendAll_kept sends).2]
      rfl
    . rw [Function.update_of_ne hr]

section Reception

variable {e : FIFOSequenced N M} {fifo : Node N M} {delivered : List M}

theorem receive_cases (h : receive (w.node q).fifo e = (fifo, delivered))
    : fifo.sent = (w.node q).fifo.sent ∧ fifo.delivered = (w.node q).fifo.delivered ++ delivered
      ∧ ((w.node q).fifo.channel.onReceive e).2 = delivered := by
  cases h
  exact ⟨rfl, rfl, rfl⟩

theorem stream_received (h : receive (w.node q).fifo e = (fifo, delivered)) (state : σ)
    : stream (below ⟨Function.update w.node q ⟨state, fifo⟩, net⟩) = stream (below w) := by
  funext p r
  rw [below_update]
  unfold stream
  dsimp only
  by_cases hp : p = q
  . subst hp
    rw [Function.update_self, (receive_cases h).1]
    rfl
  . rw [Function.update_of_ne hp]

theorem delivered_received (net : Multiset (Envelope (PID N) (FIFOSequenced N M)))
    (hfiled : Filed (w.node q).fifo)
    (h : receive (w.node q).fifo e = (fifo, delivered)) (state : σ)
    : (∀ m, m ∈ delivered → fromPID m = fromPID e)
      ∧ ∀ p r, (link (below ⟨Function.update w.node q ⟨state, fifo⟩, net⟩) p r).delivered
        = (link (below w) p r).delivered ++ if r = q ∧ p = fromPID e then delivered else [] := by
  obtain ⟨-, hdelivered, hnew⟩ := receive_cases h
  have hfrom : ∀ m, m ∈ delivered → fromPID m = fromPID e := by
    rw [← hnew]
    exact (hfiled.onReceive e).1
  refine ⟨hfrom, ?_⟩
  intro p r
  rw [below_update]
  unfold link
  dsimp only
  by_cases hr : r = q
  . subst hr
    rw [Function.update_self, hdelivered, List.filter_append]
    congr 1
    by_cases hp : p = fromPID e
    . rw [if_pos ⟨rfl, hp⟩, List.filter_eq_self]
      intro m hm
      rw [hfrom m hm, hp, decide_eq_true_eq]
    . rw [if_neg (fun h => hp h.2), List.filter_eq_nil_iff]
      intro m hm
      rw [hfrom m hm, decide_eq_true_eq]
      exact Ne.symm hp
  . rw [Function.update_of_ne hr, if_neg (fun h => hr h.1), List.append_nil]

theorem above_received (hfiled : Filed (w.node q).fifo)
    (h : receive (w.node q).fifo e = (fifo, delivered))
    : above ⟨Function.update w.node q ⟨(w.node q).above, fifo⟩, net⟩
      = (above w).takeMany q (fromPID e) delivered.length := by
  unfold above FIFONetwork.World.takeMany
  simp only [FIFONetwork.World.mk.injEq]
  refine ⟨?_, stream_received h _, ?_⟩
  . have hnode := Function.comp_update Layered.above w.node q ⟨(w.node q).above, fifo⟩
    exact hnode.trans (Function.update_eq_self q _)
  . funext r p
    rw [(delivered_received _ hfiled h _).2]
    by_cases hr : r = q
    . subst hr
      rw [Function.update_self]
      by_cases hp : p = fromPID e
      . simp [hp]
      . simp [hp]
    . simp [hr]

end Reception

-- What a step means for the protocols above, if it meets `ok`.
def Allows (ok : FIFONetwork.Action (PID N) ι κ M → Prop)
    : Action (PID N) ι (Nat → κ) (FIFOSequenced N M) → Prop
  | .input p i => ok (.input p i)
  | .receive p e ks => ∀ m n, ok (.receive p (fromPID e) m (ks n))

section Step

variable {state : σ} {sends : List (Event S M)} {e : FIFOSequenced N M} {fifo : Node N M}
  {delivered : List M} {rest : Multiset (Envelope (PID N) (FIFOSequenced N M))}
  {ks : Nat → κ} {ok : FIFONetwork.Action (PID N) ι κ M → Prop}

theorem below_send (hsends : ∀ m, .message m ∈ sends → fromPID m = p)
    (hfew : FewMessages (below ⟨Function.update w.node p ⟨state, (sendAll (w.node p).fifo sends).1⟩,
      ↑(transmit (sendAll (w.node p).fifo sends).2) + w.net⟩))
    : (program (S := S)).lts.Path (fun _ _ w => FewMessages w) (below w)
        (below ⟨Function.update w.node p ⟨state, (sendAll (w.node p).fifo sends).1⟩,
          ↑(transmit (sendAll (w.node p).fifo sends).2) + w.net⟩) := by
  rw [below_update] at hfew ⊢
  exact (path_sendAll hsends).backward (fun _ _ _ => fewMessages_of_step) hfew

-- The reaction of the channel, before the protocols above react.
theorem below_received
    (hreach : (program (S := S)).lts.Reach (fun _ _ w => FewMessages w) (below w))
    (hnet : w.net = ⟨q, e⟩ ::ₘ rest) (hreceive : receive (w.node q).fifo e = (fifo, delivered))
    : (program (S := S)).lts.Path (fun _ _ w => FewMessages w) (below w)
        (below ⟨Function.update w.node q ⟨(w.node q).above, fifo⟩, rest⟩) := by
  have hfew : FewMessages (below ⟨Function.update w.node q ⟨(w.node q).above, fifo⟩, rest⟩) := by
    intro p r
    rw [stream_received hreceive]
    exact (inv_of_reach hreach).1 p r
  have hstep := step_received (S := S) (w := below w) hnet
  have heq : (receive ((below w).node q) e).1 = fifo := congrArg Prod.fst hreceive
  rw [heq] at hstep
  rw [below_update] at hfew ⊢
  exact .single _ hstep hfew

theorem received_next
    (hreach : (program (S := S)).lts.Reach (fun _ _ w => FewMessages w) (below w))
    (hnet : w.net = ⟨q, e⟩ ::ₘ rest) (hreceive : receive (w.node q).fifo e = (fifo, delivered))
    : delivered <+: ((above w).sent (fromPID e) q).drop ((above w).taken q (fromPID e)) := by
  have hinv := (inv_of_reach ((below_received hreach hnet hreceive).reach hreach)).2 (fromPID e) q
  obtain ⟨next, -, -, -, -, htake⟩ := hinv.reassembly
  obtain ⟨-, hdelivered⟩ := delivered_received rest (filed_of_reach hreach q) hreceive (w.node q).above
  rw [hdelivered, if_pos ⟨rfl, rfl⟩] at htake
  have hprefix : (link (below w) (fromPID e) q).delivered ++ delivered
      <+: stream (below w) (fromPID e) q := by
    have hstream : stream (below ⟨Function.update w.node q ⟨(w.node q).above, fifo⟩, rest⟩)
        = stream (below w) :=
      stream_received hreceive _
    rw [htake, ← hstream]
    exact List.take_prefix _ _
  obtain ⟨more, hmore⟩ := hprefix
  refine ⟨more, ?_⟩
  show _ = (stream (below w) (fromPID e) q).drop (link (below w) (fromPID e) q).delivered.length
  rw [← hmore, List.append_assoc, List.drop_left]

theorem above_react (hok : ∀ m n, ok (.receive q (fromPID e) m (ks n)))
    (hnext : delivered <+: ((above w).sent (fromPID e) q).drop ((above w).taken q (fromPID e)))
    (hall : receiveAll (proc.fifoProgram transmit) q (fromPID e) (choices delivered ks) (w.node q).above
      = some (state, transmit sends))
    : (FIFONetwork.lts (proc.fifoProgram transmit)).Path (fun _ a _ => ok a) (above w)
        (((above w).takeMany q (fromPID e) delivered.length).emit q state (transmit sends)) := by
  rw [← choices_map delivered ks] at hnext
  have hok' : ∀ m k, (m, k) ∈ choices delivered ks → ok (.receive q (fromPID e) m k) := by
    intro m k hmk
    obtain ⟨-, n, rfl⟩ := mem_choices hmk
    exact hok m n
  have hpath := FIFONetwork.path_receiveAll hok' hnext hall
  have hlen : (choices delivered ks).length = delivered.length := by
    rw [← List.length_map (f := Prod.fst), choices_map]
  rw [hlen] at hpath
  exact hpath

end Step

theorem layer_step (ok : FIFONetwork.Action (PID N) ι κ M → Prop) (hown : proc.Own)
    {w' : World (PID N) (Layered N σ M) (FIFOSequenced N M)}
    {a : Action (PID N) ι (Nat → κ) (FIFOSequenced N M)}
    {out : List (Envelope (PID N) (FIFOSequenced N M))}
    (hreach : (program (S := S)).lts.Reach (fun _ _ w => FewMessages w) (below w))
    (hst : ((under proc).program transmit).Step w ⟨a, out⟩ w') (hfew : FewMessages (below w'))
    (hok : Allows ok a)
    : (program (S := S)).lts.Path (fun _ _ w => FewMessages w) (below w) (below w')
      ∧ (FIFONetwork.lts (proc.fifoProgram transmit)).Path (fun _ a _ => ok a) (above w) (above w') := by
  cases hst with
  | @input p i s _ h =>
    simp only [NekoProcess.program, under, Option.map_eq_some_iff, Option.bind_eq_bind,
      Option.bind_eq_some_iff, Prod.exists, Option.pure_def, Option.some.injEq, Prod.mk.injEq] at h
    obtain ⟨_, _, ⟨state, sends, hinput, rfl, rfl⟩, rfl, rfl⟩ := h
    constructor
    . exact below_send (hown.input _ _ _ _ _ hinput) hfew
    . rw [above_send]
      have hstep : (FIFONetwork.lts (proc.fifoProgram transmit)).step (above w) (.input p i)
          ((above w).emit p state (transmit sends)) :=
        .input (NekoProcess.program_input hinput transmit)
      exact .single _ hstep hok
  | @receive q e ks s _ rest hnet h =>
    rcases hreceive : receive (w.node q).fifo e with ⟨fifo, delivered⟩
    simp only [NekoProcess.program, under, hreceive, Option.map_eq_some_iff, Prod.exists,
      Prod.mk.injEq] at h
    obtain ⟨s', outs, hdeliver, rfl, rfl⟩ := h
    have hfiled := filed_of_reach hreach q
    obtain ⟨hfrom, -⟩ := delivered_received rest hfiled hreceive (w.node q).above
    obtain ⟨sends, hall, hfifo, rfl, hsends⟩ := deliverAll_cases hown hfrom hdeliver
    let w₁ : World (PID N) (Layered N σ M) (FIFOSequenced N M) :=
      ⟨Function.update w.node q ⟨(w.node q).above, fifo⟩, rest⟩
    have hself : w₁.node q = ⟨(w.node q).above, fifo⟩ := Function.update_self _ _ _
    have hw' : (⟨Function.update w.node q s', ↑(transmit (sendAll fifo sends).2) + rest⟩ :
          World (PID N) (Layered N σ M) (FIFOSequenced N M))
        = ⟨Function.update w₁.node q ⟨s'.above, (sendAll (w₁.node q).fifo sends).1⟩,
            ↑(transmit (sendAll (w₁.node q).fifo sends).2) + w₁.net⟩ := by
      rw [Function.update_idem, hself, ← hfifo]
    rw [hw'] at hfew ⊢
    constructor
    . exact (below_received hreach hnet hreceive).trans (below_send hsends hfew)
    . rw [above_send, above_received hfiled hreceive]
      exact above_react hok (received_next hreach hnet hreceive) hall

/--
Every run of processes over `FIFOChannel`s is a run of what is above them over FIFO channels.
-/
theorem above_reach (ok : FIFONetwork.Action (PID N) ι κ M → Prop) (hown : proc.Own)
    (h : ((under proc).program transmit).lts.Reach
      (fun _ l w => Allows ok l.action ∧ FewMessages (below w)) w)
    : (program (S := S)).lts.Reach (fun _ _ w => FewMessages w) (below w)
      ∧ (FIFONetwork.lts (proc.fifoProgram transmit)).Reach (fun _ a _ => ok a) (above w) := by
  induction h with
  | init h0 =>
    obtain rfl := h0
    exact ⟨.init rfl, .init rfl⟩
  | @step w w' l _ hst hok ih =>
    obtain ⟨hbelow, habove⟩ := layer_step ok hown ih.1 hst hok.2 hok.1
    exact ⟨hbelow.reach ih.1, habove.reach ih.2⟩

/--
When nothing is on the network any more, everything has been received.
-/
theorem above_received_eq {ok : FIFONetwork.Action (PID N) ι κ M → Prop} (hown : proc.Own)
    (h : ((under proc).program transmit).lts.Reach
      (fun _ l w => Allows ok l.action ∧ FewMessages (below w)) w) (hnet : w.net = 0) (p q : PID N)
    : (above w).received q p = (above w).sent p q := by
  have hinv := (inv_of_reach (above_reach ok hown h).1).2 p q
  have hflight : (link (below w) p q).flight = 0 := by
    unfold link select below
    rw [hnet]
    rfl
  have hdelivered := hinv.delivered_eq hflight
  show (stream (below w) p q).take (link (below w) p q).delivered.length = stream (below w) p q
  rw [hdelivered]
  exact List.take_length

theorem implements_fifoNetwork {ok : FIFONetwork.Action (PID N) ι κ M → Prop} (hown : proc.Own)
    (h : ((under proc).program transmit).lts.Reach
      (fun _ l w => Allows ok l.action ∧ FewMessages (below w)) w)
    : (FIFONetwork.lts (proc.fifoProgram transmit)).Reach (fun _ a _ => ok a) (above w)
      ∧ (w.net = 0 → ∀ p q, (above w).received q p = (above w).sent p q) :=
  ⟨(above_reach ok hown h).2, fun hnet p q => above_received_eq hown h hnet p q⟩

attribute [local instance] PID.twoProcesses

/--
Processes that count what they receive.
-/
def counting : NekoProcess 2 Nat Nat Unit Empty (AppMessage 2 Nat) where
  init := fun _ => 0
  input := fun me body count => some (count, [.message (.unicast me (1 - me) body)])
  deliver := fun _ _ _ count => some (count + 1, [])

theorem counting_own : counting.Own where
  input := by
    rintro me i s s' sends ⟨⟩ m hm
    rw [List.mem_singleton] at hm
    cases hm
    rfl
  deliver := by
    rintro me m k s s' sends ⟨⟩ m' hm
    cases hm

-- The second message arrives first and waits for the other one.
theorem implements_fifoNetwork_reordered
    : ∃ w : World (PID 2) (Layered 2 Nat (AppMessage 2 Nat)) (FIFOSequenced 2 (AppMessage 2 Nat)),
        ((under counting).program transmit).lts.Reach
            (fun _ l w => Allows (fun _ => True) l.action ∧ FewMessages (below w)) w
          ∧ (w.node 1).above = 2 ∧ (above w).received 1 0 = [.unicast 0 1 7, .unicast 0 1 8]
          ∧ (FIFONetwork.lts (counting.fifoProgram transmit)).Reachable (above w)
          ∧ w.net = 0 ∧ ∀ p q, (above w).received q p = (above w).sent p q := by
  let prog := (under counting).program transmit
  let any : FIFONetwork.Action (PID 2) Nat Unit (AppMessage 2 Nat) → Prop := fun _ => True
  have h0 : prog.lts.Reach (fun _ l w => Allows any l.action ∧ FewMessages (below w)) prog.initWorld :=
    .init rfl
  have h1 := Program.Reach.input h0 0 7 rfl ⟨trivial, by decide⟩
  have h2 := Program.Reach.input h1 0 8 rfl ⟨trivial, by decide⟩
  have h3 := Program.Reach.receive h2 1 ⟨.unicast 0 1 8, 1, 1⟩ (fun _ => ())
    {⟨1, ⟨.unicast 0 1 7, 1, 0⟩⟩} (by decide) rfl ⟨fun _ _ => trivial, by decide⟩
  have h4 := Program.Reach.receive h3 1 ⟨.unicast 0 1 7, 1, 0⟩ (fun _ => ()) 0 (by decide) rfl
    ⟨fun _ _ => trivial, by decide⟩
  obtain ⟨hreach, hend⟩ := implements_fifoNetwork counting_own h4
  exact ⟨_, h4, by decide, by decide, hreach, rfl, hend rfl⟩

end Layer

end FIFOChannel
