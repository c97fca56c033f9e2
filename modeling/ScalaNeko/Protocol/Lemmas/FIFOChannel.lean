import ScalaNeko.Network.Lemmas
import ScalaNeko.Protocol.Lemmas.FIFOLink

/-!
FIFO channels deliver in the order of sending, as long as no sequence number overflows.
-/

open AsyncNetwork
open Message

namespace FIFOChannel

variable {N : Nat} {S M : Type}

section Operations

theorem deliverPending_mem {buffer : List (FIFOInfo N M)} {next : Int64}
    : (∀ m, m ∈ (deliverPending buffer next).1 → ∃ info, info ∈ buffer ∧ info.msg = m)
      ∧ (∀ info, info ∈ (deliverPending buffer next).2.1 → info ∈ buffer) := by
  induction buffer generalizing next with
  | nil => simp [deliverPending]
  | cons head buffer ih =>
    unfold deliverPending
    split
    . obtain ⟨hdelivered, hrest⟩ := @ih (next + 1)
      constructor
      . intro m hm
        rw [List.mem_cons] at hm
        cases hm with
        | inl heq => exact ⟨head, by simp, heq.symm⟩
        | inr hm =>
          obtain ⟨info, hinfo, heq⟩ := hdelivered m hm
          exact ⟨info, List.mem_cons_of_mem _ hinfo, heq⟩
      . intro info hinfo
        exact List.mem_cons_of_mem _ (hrest info hinfo)
    . simp

theorem mem_enqueue {buffer : List (FIFOInfo N M)} {a info : FIFOInfo N M}
    : a ∈ enqueue buffer info ↔ a = info ∨ a ∈ buffer :=
  List.mem_orderedInsert _

theorem foldl_sendTo (m : M) (dests : List (PID N)) (hnodup : dests.Nodup)
    (channel : FIFOChannel N M) (sends : List (Event S (FIFOSequenced N M)))
    : dests.foldl (sendTo m) (channel, sends)
      = ({ channel with
            nextSendTo := fun q =>
              if q ∈ dests then channel.nextSendTo q + 1 else channel.nextSendTo q },
          sends ++ dests.map (fun q => .message ⟨m, q, channel.nextSendTo q⟩)) := by
  induction dests generalizing channel sends with
  | nil => simp
  | cons dest dests ih =>
    rw [List.nodup_cons] at hnodup
    rw [List.foldl_cons, sendTo, ih hnodup.2]
    simp only [Prod.mk.injEq, FIFOChannel.mk.injEq, List.map_cons, List.append_assoc,
      List.singleton_append, and_true]
    constructor
    . funext q
      by_cases hq : q = dest
      . subst hq
        simp [hnodup.1]
      . simp [hq]
    . congr 2
      apply List.map_congr_left
      intro q hq
      have hne : q ≠ dest := by
        rintro rfl
        exact hnodup.1 hq
      rw [Function.update_of_ne hne]

variable [Message N M]

theorem fanOut_sequenced (e : FIFOSequenced N M) : fanOut e = [⟨e.dest, e⟩] :=
  fanOut_singleton rfl

theorem onSend_message (channel : FIFOChannel N M) (m : M)
    : (channel.onSend (.message m : Event S M)).1
        = { channel with
              nextSendTo := fun q =>
                if q ∈ destinations m then channel.nextSendTo q + 1 else channel.nextSendTo q }
      ∧ transmit (channel.onSend (.message m : Event S M)).2
        = (destList m).map (fun q => ⟨q, ⟨m, q, channel.nextSendTo q⟩⟩) := by
  rw [onSend, foldl_sendTo m _ (nodup_destList m)]
  constructor
  . simp
  . simp only [transmit, fanOut_sequenced, List.nil_append, List.flatMap_map]
    exact List.map_eq_flatMap.symm

end Operations

section Run

variable [Message N M]

abbrev Run (N : Nat) (M : Type) := World (PID N) (Node N M) (FIFOSequenced N M)

def stream (w : Run N M) (p q : PID N) : List M :=
  (w.node p).sent.filter (fun m => q ∈ destinations m)

def select (p q : PID N) (net : Multiset (Envelope (PID N) (FIFOSequenced N M)))
    : Multiset (FIFOSequenced N M) :=
  (net.filter (fun env => env.dest = q ∧ fromPID env.msg = p)).map Envelope.msg

def link (w : Run N M) (p q : PID N) : Link N M where
  stream := stream w p q
  nextSend := (w.node p).channel.nextSendTo q
  flight := select p q w.net
  received := (w.node q).received.filter (fun e => fromPID e = p)
  nextReceive := (w.node q).channel.nextReceiveFrom p
  buffer := (w.node q).channel.messageBuffer p
  delivered := (w.node q).delivered.filter (fun m => fromPID m = p)

def Filed (node : Node N M) : Prop :=
  ∀ p info, info ∈ node.channel.messageBuffer p → fromPID info.msg = p

theorem Filed.onReceive {node : Node N M} (h : Filed node) (e : FIFOSequenced N M)
    : (∀ m, m ∈ (node.channel.onReceive e).2 → fromPID m = fromPID e)
      ∧ (∀ p info, info ∈ (node.channel.onReceive e).1.messageBuffer p → fromPID info.msg = p) := by
  have hqueue : ∀ info, info ∈ enqueue (node.channel.messageBuffer (fromPID e.m))
      ⟨fromPID e.m, e.seqNum, e.m⟩ → fromPID info.msg = fromPID e.m := by
    intro info hinfo
    rw [mem_enqueue] at hinfo
    rcases hinfo with rfl | hinfo
    . rfl
    . exact h _ _ hinfo
  constructor
  . intro m hm
    obtain ⟨info, hinfo, rfl⟩ := deliverPending_mem.1 m hm
    exact hqueue info hinfo
  . intro p info hinfo
    simp only [FIFOChannel.onReceive] at hinfo
    by_cases hp : p = fromPID e.m
    . subst hp
      rw [Function.update_self] at hinfo
      exact hqueue info (deliverPending_mem.2 info hinfo)
    . rw [Function.update_of_ne hp] at hinfo
      exact h p info hinfo

theorem filed_of_reach {ok : Run N M → Label (PID N) (Event S M) Unit (FIFOSequenced N M) →
      Run N M → Prop} {w : Run N M} (h : (program : Program _ _ (Event S M) _ _).lts.Reach ok w)
    : ∀ q, Filed (w.node q) := by
  apply Program.local_invariant (I := fun _ => Filed) _ _ _ h
  . intro q p info hinfo
    simp [program] at hinfo
  . intro q e node node' out hs hinput
    cases e with
    | signal ie =>
      simp only [program, FIFOChannel.onSend, Option.some.injEq, Prod.mk.injEq] at hinput
      rw [← hinput.1]
      exact hs
    | message m =>
      simp only [program] at hinput
      split at hinput
      . simp only [Option.some.injEq, Prod.mk.injEq] at hinput
        rw [← hinput.1, (onSend_message node.channel m).1]
        exact hs
      . simp at hinput
  . intro q e k node node' out hs hreceive
    simp only [program, Option.some.injEq, Prod.mk.injEq] at hreceive
    rw [← hreceive.1]
    exact (hs.onReceive e).2

theorem select_add (p q : PID N) (s t : Multiset (Envelope (PID N) (FIFOSequenced N M)))
    : select p q (s + t) = select p q s + select p q t := by
  rw [select, Multiset.filter_add, Multiset.map_add]
  rfl

theorem select_cons (p q : PID N) (env : Envelope (PID N) (FIFOSequenced N M))
    (s : Multiset (Envelope (PID N) (FIFOSequenced N M)))
    : select p q (env ::ₘ s)
      = if env.dest = q ∧ fromPID env.msg = p then env.msg ::ₘ select p q s else select p q s := by
  rw [select, Multiset.filter_cons]
  split
  . simp [select]
  . simp [select]

theorem select_dests {p q : PID N} {m : M} {sn : PID N → Int64} (dests : List (PID N))
    (hnodup : dests.Nodup)
    : select p q (dests.map (fun q => (⟨q, ⟨m, q, sn q⟩⟩ : Envelope (PID N) (FIFOSequenced N M))))
      = if q ∈ dests ∧ fromPID m = p then {⟨m, q, sn q⟩} else 0 := by
  induction dests with
  | nil => simp [select]
  | cons dest dests ih =>
    rw [List.nodup_cons] at hnodup
    rw [List.map_cons, ← Multiset.cons_coe, select_cons, ih hnodup.2]
    have hfrom : fromPID (⟨m, dest, sn dest⟩ : FIFOSequenced N M) = fromPID m := rfl
    rw [hfrom]
    by_cases hdest : dest = q
    . subst hdest
      simp [hnodup.1]
    . simp [hdest, Ne.symm hdest]

theorem link_congr {w w' : Run N M} {p q : PID N}
    (hsent : (w'.node p).sent = (w.node p).sent)
    (hnextSend : (w'.node p).channel.nextSendTo q = (w.node p).channel.nextSendTo q)
    (hselect : select p q w'.net = select p q w.net)
    (hreceived : (link w' p q).received = (link w p q).received)
    (hnextReceive : (w'.node q).channel.nextReceiveFrom p = (w.node q).channel.nextReceiveFrom p)
    (hbuffer : (w'.node q).channel.messageBuffer p = (w.node q).channel.messageBuffer p)
    (hdelivered : (link w' p q).delivered = (link w p q).delivered)
    : link w' p q = link w p q := by
  ext1
  . simp only [link, stream, hsent]
  . exact hnextSend
  . exact hselect
  . exact hreceived
  . exact hnextReceive
  . exact hbuffer
  . exact hdelivered

theorem link_send {w w' : Run N M} {p : PID N} {m : M} {node : Node N M} (hfrom : fromPID m = p)
    (hnode : w'.node = Function.update w.node p node)
    (hsend : node = { w.node p with
        channel := ((w.node p).channel.onSend (.message m : Event S M)).1
        sent := (w.node p).sent ++ [m] })
    (hnet : w'.net = ↑(transmit ((w.node p).channel.onSend (.message m : Event S M)).2) + w.net)
    (q r : PID N)
    : link w' q r = if q = p ∧ r ∈ destinations m then (link w q r).send r m else link w q r := by
  obtain ⟨hchannel, hout⟩ := onSend_message (S := S) (w.node p).channel m
  have hrec : ∀ x, (w'.node x).received = (w.node x).received
      ∧ (w'.node x).delivered = (w.node x).delivered
      ∧ (w'.node x).channel.nextReceiveFrom = (w.node x).channel.nextReceiveFrom
      ∧ (w'.node x).channel.messageBuffer = (w.node x).channel.messageBuffer := by
    intro x
    rw [hnode]
    by_cases hx : x = p
    . subst hx
      rw [Function.update_self, hsend, hchannel]
      exact ⟨rfl, rfl, rfl, rfl⟩
    . rw [Function.update_of_ne hx]
      exact ⟨rfl, rfl, rfl, rfl⟩
  have hselect : select q r w'.net
      = if q = p ∧ r ∈ destinations m then ⟨m, r, (w.node p).channel.nextSendTo r⟩ ::ₘ select q r w.net
        else select q r w.net := by
    simp only [hnet, hout, select_add, select_dests _ (nodup_destList m), mem_destList, hfrom]
    by_cases hq : q = p
    . subst hq
      by_cases hr : r ∈ destinations m
      . simp [hr]
      . simp [hr]
    . simp [hq, Ne.symm hq]
  by_cases hq : q = p
  . subst hq
    by_cases hr : r ∈ destinations m
    . simp only [hr, and_self, if_true] at hselect ⊢
      ext1
      . simp [link, Link.send, stream, hnode, hsend, hr]
      . simp [link, Link.send, hnode, hsend, hchannel, hr]
      . exact hselect
      . simp [link, Link.send, hrec]
      . simp [link, Link.send, hrec]
      . simp [link, Link.send, hrec]
      . simp [link, Link.send, hrec]
    -- `q` sent `m`, but not over this link: the list of what it sent grows, the stream does not
    . simp only [hr, and_false, if_false] at hselect ⊢
      ext1
      . simp [link, stream, hnode, hsend, hr]
      . simp [link, hnode, hsend, hchannel, hr]
      . exact hselect
      . simp [link, hrec]
      . simp [link, hrec]
      . simp [link, hrec]
      . simp [link, hrec]
  . simp only [hq, false_and, if_false] at hselect ⊢
    have hother : w'.node q = w.node q := by
      rw [hnode, Function.update_of_ne hq]
    apply link_congr (congrArg Node.sent hother)
      (congrFun (congrArg (fun x => x.channel.nextSendTo) hother) r) hselect
    . simp only [link, hrec]
    . simp only [hrec]
    . simp only [hrec]
    . simp only [link, hrec]

theorem onReceive_eq (channel : FIFOChannel N M) (e : FIFOSequenced N M)
    : channel.onReceive e
      = let (delivered, buffer, next) :=
          deliverPending
            (enqueue (channel.messageBuffer (fromPID e)) ⟨fromPID e, e.seqNum, e.m⟩)
            (channel.nextReceiveFrom (fromPID e))
        ({ channel with
            messageBuffer := Function.update channel.messageBuffer (fromPID e) buffer
            nextReceiveFrom := Function.update channel.nextReceiveFrom (fromPID e) next },
          delivered) := rfl

theorem link_receive {w w' : Run N M} {q : PID N} {e : FIFOSequenced N M} {node : Node N M}
    {rest : Multiset (Envelope (PID N) (FIFOSequenced N M))} (hfiled : Filed (w.node q))
    (hnode : w'.node = Function.update w.node q node)
    (hreceive : node = { w.node q with
        channel := ((w.node q).channel.onReceive e).1
        received := (w.node q).received ++ [e]
        delivered := (w.node q).delivered ++ ((w.node q).channel.onReceive e).2 })
    (hnet : w.net = ⟨q, e⟩ ::ₘ rest) (hnet' : w'.net = rest) (p r : PID N)
    : if p = fromPID e ∧ r = q then
        (link w p r).flight = e ::ₘ select p r rest
          ∧ link w' p r = (link w p r).receive p e (select p r rest)
      else link w' p r = link w p r := by
  obtain ⟨hdelivered, -⟩ := hfiled.onReceive e
  have hsent : ∀ x, (w'.node x).sent = (w.node x).sent
      ∧ (w'.node x).channel.nextSendTo = (w.node x).channel.nextSendTo := by
    intro x
    rw [hnode]
    by_cases hx : x = q
    . subst hx
      rw [Function.update_self, hreceive]
      exact ⟨rfl, rfl⟩
    . rw [Function.update_of_ne hx]
      exact ⟨rfl, rfl⟩
  by_cases hr : r = q
  . subst hr
    by_cases hp : p = fromPID e
    . subst hp
      have hall : ((w.node r).channel.onReceive e).2.filter (fun m => fromPID m = fromPID e)
          = ((w.node r).channel.onReceive e).2 := by
        rw [List.filter_eq_self]
        intro m hm
        rw [hdelivered m hm, decide_eq_true_eq]
      rw [if_pos ⟨rfl, rfl⟩]
      constructor
      . simp [link, hnet, select_cons]
      . ext1
        . simp [link, Link.receive, stream, hsent]
        . simp [link, Link.receive, hsent]
        . simp [link, Link.receive, hnet']
        . simp [link, Link.receive, hnode, hreceive]
        . simp [link, Link.receive, hnode, hreceive, onReceive_eq]
        . simp [link, Link.receive, hnode, hreceive, onReceive_eq]
        . simp [link, Link.receive, hnode, hreceive, hall]
          simp [onReceive_eq]
    . have hnone : ((w.node r).channel.onReceive e).2.filter (fun m => fromPID m = p) = [] := by
        rw [List.filter_eq_nil_iff]
        intro m hm
        rw [hdelivered m hm, decide_eq_true_eq]
        exact Ne.symm hp
      rw [if_neg (by simp [hp])]
      apply link_congr (hsent p).1 (congrFun (hsent p).2 r)
      . simp [hnet, hnet', select_cons, Ne.symm hp]
      . simp [link, hnode, hreceive, Ne.symm hp]
      . simp [hnode, hreceive, onReceive_eq, Function.update_of_ne hp]
      . simp [hnode, hreceive, onReceive_eq, Function.update_of_ne hp]
      . simp [link, hnode, hreceive, hnone]
  . rw [if_neg (by simp [hr])]
    have hother : w'.node r = w.node r := by
      rw [hnode, Function.update_of_ne hr]
    apply link_congr (hsent p).1 (congrFun (hsent p).2 r)
    . simp [hnet, hnet', select_cons, Ne.symm hr]
    . simp only [link, hother]
    . rw [hother]
    . rw [hother]
    . simp only [link, hother]

theorem link_step {w w' : Run N M} {l : Label (PID N) (Event S M) Unit (FIFOSequenced N M)}
    (hst : program.Step w l w') (hfiled : ∀ q, Filed (w.node q)) (p q : PID N)
    : link w' p q = link w p q
      ∨ (∃ m, link w' p q = (link w p q).send q m)
      ∨ (∃ e rest, (link w p q).flight = e ::ₘ rest
          ∧ link w' p q = (link w p q).receive p e rest) := by
  obtain ⟨node, hnode, ⟨e, h, hnet⟩ | ⟨e, k, rest, h, hnet, hnet'⟩⟩ := hst.cases_node
  . cases e with
    | signal ie =>
      simp only [program, onSend, transmit, List.flatMap_cons, List.flatMap_nil, List.append_nil,
        Option.some.injEq, Prod.mk.injEq] at h
      obtain ⟨hsame, hout⟩ := h
      left
      rw [← hsame, Function.update_eq_self] at hnode
      rw [← hout, Multiset.coe_nil, Multiset.zero_add] at hnet
      simp [link, stream, hnode, hnet]
    | message m =>
      simp only [program] at h
      split at h
      . next hm =>
        simp only [Option.some.injEq, Prod.mk.injEq] at h
        obtain ⟨hsend, hout⟩ := h
        rw [← hout] at hnet
        rw [link_send hm hnode hsend.symm hnet]
        split
        . exact .inr (.inl ⟨m, rfl⟩)
        . exact .inl rfl
      . simp at h
  . simp only [program, Option.some.injEq, Prod.mk.injEq] at h
    obtain ⟨hreceive, hout⟩ := h
    rw [← hout, Multiset.coe_nil, Multiset.zero_add] at hnet'
    have hlink := link_receive (hfiled _) hnode hreceive.symm hnet hnet' p q
    split at hlink
    . exact .inr (.inr ⟨e, _, hlink⟩)
    . exact .inl hlink

def FewMessages (w : Run N M) : Prop := ∀ p q, (stream w p q).length < 2 ^ 63

instance (w : Run N M) : Decidable (FewMessages w) :=
  inferInstanceAs (Decidable (∀ p q, (stream w p q).length < 2 ^ 63))

structure ExactFIFO (w : Run N M) : Prop where
  exact : ∀ p q, (link w p q).Exact p
  complete : w.net = 0 → ∀ p q, (link w p q).delivered = stream w p q

theorem inv_of_reach {w : Run N M}
    (h : (program : Program _ _ (Event S M) _ _).lts.Reach (fun _ _ w => FewMessages w) w)
    : FewMessages w ∧ ∀ p q, (link w p q).Inv p := by
  apply LTS.Reach.invariant (I := fun w => FewMessages w ∧ ∀ p q, (link w p q).Inv p) _ _ h
  . rintro w rfl
    constructor
    . intro p q
      simp [stream, Program.initWorld, program]
    . intro p q
      exact Link.Inv.empty
  . intro w l w' hr ⟨hfew, hinv⟩ hst hfew'
    refine ⟨hfew', ?_⟩
    intro p q
    have hlen := hfew' p q
    rcases link_step hst (filed_of_reach hr) p q with heq | ⟨m, heq⟩ | ⟨e, rest, hflight, heq⟩
    . rw [heq]
      exact hinv p q
    . have hstream : stream w' p q = (link w p q).stream ++ [m] := congrArg Link.stream heq
      rw [heq]
      apply (hinv p q).send
      rw [hstream, List.length_append] at hlen
      exact hlen
    . rw [heq]
      exact (hinv p q).receive hflight (hfew p q)

theorem exactFIFO {w : Run N M}
    (h : (program : Program _ _ (Event S M) _ _).lts.Reach (fun _ _ w => FewMessages w) w)
    : ExactFIFO w := by
  obtain ⟨hfew, hinv⟩ := inv_of_reach h
  constructor
  . intro p q
    exact (hinv p q).exact (hfew p q)
  . intro hnet p q
    apply (hinv p q).delivered_eq
    simp [link, select, hnet]

end Run

theorem exactFIFO_reordered
    : ∃ w : Run 2 (AppMessage 2 Nat),
        (w.node 1).delivered = [.unicast 0 1 7, .multicast 0 {0, 1} 8] ∧ ExactFIFO w := by
  let prog : Program _ _ (Event Unit (AppMessage 2 Nat)) _ _ := program
  have h0 : prog.lts.Reach (fun _ _ w => FewMessages w) prog.initWorld := .init rfl
  have h1 := Program.Reach.input h0 0 (.message (.unicast 0 1 7)) rfl (by decide)
  have h2 := Program.Reach.input h1 0 (.message (.multicast 0 {0, 1} 8)) rfl (by decide)
  have h3 := Program.Reach.receive h2 1 ⟨.multicast 0 {0, 1} 8, 1, 1⟩ ()
    {⟨0, ⟨.multicast 0 {0, 1} 8, 0, 0⟩⟩, ⟨1, ⟨.unicast 0 1 7, 1, 0⟩⟩} (by decide) rfl (by decide)
  have h4 := Program.Reach.receive h3 1 ⟨.unicast 0 1 7, 1, 0⟩ ()
    {⟨0, ⟨.multicast 0 {0, 1} 8, 0, 0⟩⟩} (by decide) rfl (by decide)
  exact ⟨_, by decide, exactFIFO h4⟩

def loopNode (sent received : Nat) : Node 1 (AppMessage 1 Unit) where
  channel :=
    { nextSendTo := fun _ => Int64.ofNat sent
      nextReceiveFrom := fun _ => Int64.ofNat received }
  sent := List.replicate sent (.unicast 0 0 ())
  received := (List.range received).map (fun i => ⟨.unicast 0 0 (), 0, Int64.ofNat i⟩)
  delivered := List.replicate received (.unicast 0 0 ())

def loopRun (n : Nat) : Run 1 (AppMessage 1 Unit) where
  node := fun _ => loopNode n n
  net := 0

theorem input_loopNode (n : Nat)
    : program.input 0 (.message (.unicast 0 0 ()) : Event Unit (AppMessage 1 Unit)) (loopNode n n)
      = some (loopNode (n + 1) n, [⟨0, ⟨.unicast 0 0 (), 0, Int64.ofNat n⟩⟩]) := by
  have hdest : destList (.unicast 0 0 () : AppMessage 1 Unit) = [0] := rfl
  have hall : ∀ q : PID 1, q ∈ destinations (.unicast 0 0 () : AppMessage 1 Unit) := by decide
  have hfrom : fromPID (.unicast 0 0 () : AppMessage 1 Unit) = 0 := rfl
  obtain ⟨hchannel, hout⟩ := onSend_message (S := Unit) (loopNode n n).channel (.unicast 0 0 ())
  simp only [program, hchannel, hout, hdest, hall, hfrom, if_true]
  simp [loopNode, Int64.ofNat_add, List.replicate_succ']

theorem receive_loopNode (n : Nat)
    : (program : Program _ _ (Event Unit _) _ _).receive 0 ⟨.unicast 0 0 (), 0, Int64.ofNat n⟩ ()
        (loopNode (n + 1) n)
      = some (loopNode (n + 1) (n + 1), []) := by
  have hconst : ∀ {α : Type} (f : PID 1 → α) (a : α) (p : PID 1),
      Function.update f p a = fun _ => a := by
    intro α f a p
    funext q
    rw [Subsingleton.elim q p, Function.update_self]
  simp [program, loopNode, onReceive, enqueue, deliverPending, hconst, Int64.ofNat_add,
    List.replicate_succ', List.range_succ]

theorem loopRun_reachable (n : Nat)
    : (program : Program _ _ (Event Unit (AppMessage 1 Unit)) _ _).lts.Reachable (loopRun n) := by
  induction n with
  | zero => exact .init rfl
  | succ n ih =>
    have hsend := Program.Reach.input ih 0 _ (input_loopNode n) trivial
    have hreceive := Program.Reach.receive hsend 0 _ () 0 rfl (receive_loopNode n) trivial
    convert hreceive using 1
    simp only [loopRun, World.mk.injEq]
    refine ⟨?_, rfl⟩
    funext p
    rw [Subsingleton.elim p 0, Function.update_self]

theorem not_exactFIFO_of_overflow
    : ¬ ∀ w : Run 1 (AppMessage 1 Unit),
        (program : Program _ _ (Event Unit (AppMessage 1 Unit)) _ _).lts.Reachable w →
          ExactFIFO w := by
  intro hall
  obtain ⟨k, -, -, hnext, -⟩ := (hall _ (loopRun_reachable (2 ^ 63))).exact 0 0
  have hneg : (Int64.ofNat (2 ^ 63)).toInt = - 2 ^ 63 := by decide
  change (Int64.ofNat (2 ^ 63)).toInt = k at hnext
  omega

end FIFOChannel
