import ScalaNeko.Protocol.Impl.FIFOChannels
import ScalaNeko.Protocol.Lemmas.FIFOChannel

/-!
Several FIFO channels on each process all receive what any of them sends.
-/

open AsyncNetwork
open Message
open Kernel (SimpleDispatcher Handler Receiver)

namespace FIFOChannels

variable {k N : Nat} {S M : Type}

theorem registerFor_new {d : SimpleDispatcher EventClass (Fin k)} {i : Fin k}
    (hnew : i ∉ d.protocolsForMessage .fifoSequenced)
    : (d.registerFor .fifoSequenced i).protocolsForMessage .fifoSequenced
      = i :: d.protocolsForMessage .fifoSequenced := by
  have hany : ¬ (d.protocolsForMessage .fifoSequenced).any (fun p => Receiver.equals p i) := by
    simpa [Receiver.equals] using hnew
  simp only [SimpleDispatcher.registerFor, hany, Bool.false_eq_true, if_false]
  rw [Function.update_self]

theorem foldl_registerFor {d : SimpleDispatcher EventClass (Fin k)} {protos : List (Fin k)}
    (hnodup : protos.Nodup) (hnew : ∀ i, i ∈ protos → i ∉ d.protocolsForMessage .fifoSequenced)
    : (protos.foldl (fun d i => d.registerFor .fifoSequenced i) d).protocolsForMessage .fifoSequenced
      = protos.reverse ++ d.protocolsForMessage .fifoSequenced := by
  induction protos generalizing d with
  | nil => rfl
  | cons i protos ih =>
    rw [List.nodup_cons] at hnodup
    have hi := registerFor_new (hnew i List.mem_cons_self)
    rw [List.foldl_cons, ih hnodup.2, hi, List.reverse_cons, List.append_assoc,
      List.singleton_append]
    intro j hj
    rw [hi, List.mem_cons, not_or]
    refine ⟨?_, hnew j (List.mem_cons_of_mem _ hj)⟩
    rintro rfl
    exact hnodup.1 hj

section Receive

variable [Message N M] {node : Node k N M} {e : FIFOSequenced N M}

theorem foldl_protocolsFor (e : FIFOSequenced N M) (node : Node k N M)
    : ((dispatcher k).protocolsFor .fifoSequenced).foldl (deliver e) node
      = (List.finRange k).reverse.foldl (fun node i => deliver e node (.protocol i)) node := by
  have hall : (dispatcher k).protocolsForMessage .fifoSequenced = (List.finRange k).reverse := by
    rw [dispatcher, foldl_registerFor (List.nodup_finRange k) (fun _ _ => by nofun), List.append_nil]
  unfold SimpleDispatcher.protocolsFor
  rw [hall]
  split
  . next hnil =>
    rw [hnil]
    rfl
  . exact List.foldl_map

-- What one of the channels has delivered.
def Node.deliveredBy (node : Node k N M) (i : Fin k) : List M :=
  (node.delivered.filter (fun d => d.1 = i)).map Prod.snd

theorem deliveredBy_deliver (i j : Fin k)
    : (deliver e node (.protocol j)).deliveredBy i
      = node.deliveredBy i ++ if i = j then ((node.channels j).onReceive e).2 else [] := by
  simp only [Node.deliveredBy, deliver, List.filter_append, List.filter_map, List.map_append,
    List.map_map]
  congr 1
  by_cases hij : i = j
  . subst hij
    simp [Function.comp_def]
  . have hne : ¬ j = i := fun heq => hij heq.symm
    simp [Function.comp_def, hij, hne]

/--
What a message does to the channels that receive it, each of which receives it once.
-/
theorem foldl_deliver (node : Node k N M) (e : FIFOSequenced N M) {protos : List (Fin k)}
    (hnodup : protos.Nodup)
    : let node' := protos.foldl (fun node i => deliver e node (.protocol i)) node
      node'.sent = node.sent ∧ node'.received = node.received
        ∧ ∀ i, node'.channels i
              = (if i ∈ protos then ((node.channels i).onReceive e).1 else node.channels i)
            ∧ node'.deliveredBy i
              = node.deliveredBy i
                ++ if i ∈ protos then ((node.channels i).onReceive e).2 else [] := by
  induction protos generalizing node with
  | nil => simp
  | cons j protos ih =>
    rw [List.nodup_cons] at hnodup
    obtain ⟨hsent, hreceived, hchannels⟩ := ih (deliver e node (.protocol j)) hnodup.2
    refine ⟨hsent, hreceived, ?_⟩
    intro i
    obtain ⟨hchannel, hdelivered⟩ := hchannels i
    rw [List.foldl_cons, hchannel, hdelivered, deliveredBy_deliver]
    by_cases hij : i = j
    . subst hij
      simp [hnodup.1, deliver]
    . simp [hij, deliver]

theorem receive_eq {me : PID N} {node' : Node k N M} {out : List (Envelope (PID N) (FIFOSequenced N M))}
    (h : (program : Program _ _ (Fin k × Event S M) _ _).receive me e () node = some (node', out))
    : out = [] ∧ node'.sent = node.sent ∧ node'.received = node.received ++ [e]
        ∧ ∀ i, node'.channels i = ((node.channels i).onReceive e).1
            ∧ node'.deliveredBy i = node.deliveredBy i ++ ((node.channels i).onReceive e).2 := by
  simp only [program, foldl_protocolsFor, Option.some.injEq, Prod.mk.injEq] at h
  obtain ⟨rfl, rfl⟩ := h
  have hnodup : (List.finRange k).reverse.Nodup := List.nodup_reverse.mpr (List.nodup_finRange k)
  obtain ⟨hsent, hreceived, hchannels⟩ := foldl_deliver node e hnodup
  refine ⟨rfl, hsent, by rw [hreceived], ?_⟩
  intro i
  have hi := hchannels i
  rw [if_pos (by simp), if_pos (by simp)] at hi
  exact hi

end Receive

section Run

abbrev Run (k N : Nat) (M : Type) := World (PID N) (Node k N M) (FIFOSequenced N M)

/-!
A single channel on each process.
-/

def Node.single (node : Node 1 N M) : FIFOChannel.Node N M where
  channel := node.channels (Fin.last 0)
  sent := node.sent.map Prod.snd
  received := node.received
  delivered := node.delivered.map Prod.snd

def single (w : Run 1 N M) : FIFOChannel.Run N M where
  node := fun p => (w.node p).single
  net := w.net

theorem single_update {w : Run 1 N M} {p : PID N} {node : Node 1 N M}
    {net : Multiset (Envelope (PID N) (FIFOSequenced N M))}
    : single ⟨Function.update w.node p node, net⟩
      = ⟨Function.update (single w).node p node.single, net⟩ := by
  simp only [single, World.mk.injEq, and_true]
  funext q
  by_cases hq : q = p
  . subst hq
    rw [Function.update_self, Function.update_self]
  . rw [Function.update_of_ne hq, Function.update_of_ne hq]

theorem deliveredBy_single (node : Node 1 N M) (i : Fin 1)
    : node.deliveredBy i = node.delivered.map Prod.snd := by
  rw [Node.deliveredBy, List.filter_eq_self.mpr]
  intro d _
  rw [decide_eq_true_eq]
  exact Subsingleton.elim _ _

/--
The channels of a process are in the same state as receivers.
-/
def Node.Alike (node : Node k N M) : Prop :=
  ∀ i j, (node.channels i).nextReceiveFrom = (node.channels j).nextReceiveFrom
    ∧ (node.channels i).messageBuffer = (node.channels j).messageBuffer
    ∧ node.deliveredBy i = node.deliveredBy j

theorem mem_delivered_of_alike {node : Node k N M} (h : node.Alike) {i : Fin k} {m : M}
    (hm : (i, m) ∈ node.delivered) (j : Fin k)
    : (j, m) ∈ node.delivered := by
  have hi : m ∈ node.deliveredBy i :=
    List.mem_map.mpr ⟨(i, m), List.mem_filter.mpr ⟨hm, by simp⟩, rfl⟩
  rw [(h i j).2.2] at hi
  obtain ⟨⟨j', m'⟩, hmem, heq⟩ := List.mem_map.mp hi
  obtain ⟨hd, hj⟩ := List.mem_filter.mp hmem
  rw [decide_eq_true_eq] at hj
  dsimp only at hj heq
  rwa [hj, heq] at hd

variable [Message N M]

-- What `p` has handed to its channels for `q`.
def handed (w : Run k N M) (p q : PID N) : List M :=
  ((w.node p).sent.map Prod.snd).filter (fun m => q ∈ destinations m)

def handedTo (w : Run k N M) (i : Fin k) (p q : PID N) : List M :=
  (((w.node p).sent.filter (fun x => x.1 = i)).map Prod.snd).filter (fun m => q ∈ destinations m)

def deliveredFrom (w : Run k N M) (q p : PID N) : List M :=
  ((w.node q).delivered.map Prod.snd).filter (fun m => fromPID m = p)

def FewMessages (w : Run k N M) : Prop := ∀ p q, (handed w p q).length < 2 ^ 63

structure Coexist (w : Run k N M) : Prop where
  once : ∀ p q, (deliveredFrom w q p).Perm (handed w p q)
  ordered : ∀ i p q, (handedTo w i p q).Sublist (deliveredFrom w q p)

theorem onSend_receiver (channel : FIFOChannel N M) (e : Event S M)
    : (channel.onSend e).1.nextReceiveFrom = channel.nextReceiveFrom
      ∧ (channel.onSend e).1.messageBuffer = channel.messageBuffer := by
  cases e with
  | signal ie => exact ⟨rfl, rfl⟩
  | message m =>
    rw [(FIFOChannel.onSend_message channel m).1]
    exact ⟨rfl, rfl⟩

theorem onReceive_receiver {channel channel' : FIFOChannel N M}
    (hnext : channel.nextReceiveFrom = channel'.nextReceiveFrom)
    (hbuffer : channel.messageBuffer = channel'.messageBuffer) (e : FIFOSequenced N M)
    : (channel.onReceive e).1.nextReceiveFrom = (channel'.onReceive e).1.nextReceiveFrom
      ∧ (channel.onReceive e).1.messageBuffer = (channel'.onReceive e).1.messageBuffer
      ∧ (channel.onReceive e).2 = (channel'.onReceive e).2 := by
  simp only [FIFOChannel.onReceive, hnext, hbuffer, and_self]

theorem input_eq {me : PID N} {i : Fin k} {e : Event S M} {node node' : Node k N M}
    {out : List (Envelope (PID N) (FIFOSequenced N M))}
    (h : program.input me (i, e) node = some (node', out))
    : out = transmit ((node.channels i).onSend e).2
        ∧ node'.channels = Function.update node.channels i ((node.channels i).onSend e).1
        ∧ node'.received = node.received ∧ node'.delivered = node.delivered
        ∧ (node'.sent = node.sent ∧ (∃ ie, e = .signal ie)
          ∨ ∃ m, e = .message m ∧ fromPID m = me ∧ node'.sent = node.sent ++ [(i, m)]) := by
  cases e with
  | signal ie =>
    simp only [program, Option.some.injEq, Prod.mk.injEq] at h
    obtain ⟨rfl, rfl⟩ := h
    exact ⟨rfl, rfl, rfl, rfl, .inl ⟨rfl, ie, rfl⟩⟩
  | message m =>
    simp only [program] at h
    split at h
    . next hfrom =>
      simp only [Option.some.injEq, Prod.mk.injEq] at h
      obtain ⟨rfl, rfl⟩ := h
      exact ⟨rfl, rfl, rfl, rfl, .inr ⟨m, rfl, hfrom, rfl⟩⟩
    . cases h

theorem alike_of_reach {ok : Run k N M → Label (PID N) (Fin k × Event S M) Unit (FIFOSequenced N M) →
      Run k N M → Prop} {w : Run k N M}
    (h : (program : Program _ _ (Fin k × Event S M) _ _).lts.Reach ok w)
    : ∀ p, (w.node p).Alike := by
  apply Program.local_invariant (I := fun _ => Node.Alike) _ _ _ h
  . intro p i j
    exact ⟨rfl, rfl, rfl⟩
  . rintro p ⟨l, e⟩ node node' out hs hinput
    obtain ⟨-, hchannels, -, hdelivered, -⟩ := input_eq hinput
    have hreceiver : ∀ i, (node'.channels i).nextReceiveFrom = (node.channels i).nextReceiveFrom
        ∧ (node'.channels i).messageBuffer = (node.channels i).messageBuffer := by
      intro i
      rw [hchannels]
      by_cases hi : i = l
      . subst hi
        rw [Function.update_self]
        exact onSend_receiver _ e
      . rw [Function.update_of_ne hi]
        exact ⟨rfl, rfl⟩
    intro i j
    obtain ⟨hnext, hbuffer, hby⟩ := hs i j
    rw [(hreceiver i).1, (hreceiver j).1, (hreceiver i).2, (hreceiver j).2, Node.deliveredBy,
      Node.deliveredBy, hdelivered]
    exact ⟨hnext, hbuffer, hby⟩
  . intro p e u node node' out hs hreceive
    obtain ⟨-, -, -, hchannels⟩ := receive_eq hreceive
    intro i j
    obtain ⟨hnext, hbuffer, hby⟩ := hs i j
    obtain ⟨hnext', hbuffer', hdelivered'⟩ := onReceive_receiver hnext hbuffer e
    rw [(hchannels i).1, (hchannels j).1, (hchannels i).2, (hchannels j).2]
    exact ⟨hnext', hbuffer', by rw [hby, hdelivered']⟩

/--
As long as nothing has been handed to a channel for any process, nothing happens.
-/
def Idle (w : Run k N M) : Prop :=
  (∃ p x, x ∈ (w.node p).sent ∧ destinations x.2 ≠ ∅) ∨ w.net = 0 ∧ ∀ p, (w.node p).delivered = []

theorem sent_subset {w w' : Run k N M} {l : Label (PID N) (Fin k × Event S M) Unit (FIFOSequenced N M)}
    (hst : program.Step w l w') (p : PID N)
    : (w.node p).sent ⊆ (w'.node p).sent := by
  cases hst with
  | @input q i node' out h =>
    obtain ⟨-, -, -, -, hcases⟩ := input_eq h
    by_cases hp : p = q
    . subst hp
      dsimp only
      rw [Function.update_self]
      rcases hcases with ⟨hsame, -⟩ | ⟨m, -, -, hsent⟩
      . rw [hsame]
        exact List.Subset.refl _
      . rw [hsent]
        exact List.subset_append_left _ _
    . dsimp only
      rw [Function.update_of_ne hp]
      exact List.Subset.refl _
  | @receive q e u node' out rest hnet h =>
    obtain ⟨-, hsent, -, -⟩ := receive_eq h
    dsimp only
    rw [field_update Node.sent hsent]
    exact List.Subset.refl _

theorem idle_of_reach {ok : Run k N M → Label (PID N) (Fin k × Event S M) Unit (FIFOSequenced N M) →
      Run k N M → Prop} {w : Run k N M}
    (h : (program : Program _ _ (Fin k × Event S M) _ _).lts.Reach ok w)
    : Idle w := by
  apply LTS.Reach.invariant (I := Idle) _ _ h
  . rintro w rfl
    exact .inr ⟨rfl, fun _ => rfl⟩
  . intro w l w' _ hidle hst _
    rcases hidle with ⟨p, x, hx, hne⟩ | ⟨hnet, hdelivered⟩
    . exact .inl ⟨p, x, sent_subset hst p hx, hne⟩
    . cases hst with
      | @input q i node' out h =>
        obtain ⟨hout, -, -, hsame, hcases⟩ := input_eq h
        have hquiet : (∀ p, (Function.update w.node q node' p).delivered = []) := by
          intro p
          rw [field_update Node.delivered hsame]
          exact hdelivered p
        rcases hcases with ⟨-, ie, hsignal⟩ | ⟨m, hmessage, -, hsent⟩
        . refine .inr ⟨?_, hquiet⟩
          rw [hout, hsignal, hnet]
          rfl
        . by_cases hempty : destinations m = ∅
          . refine .inr ⟨?_, hquiet⟩
            rw [hout, hmessage, (FIFOChannel.onSend_message _ m).2, hnet, destList, hempty]
            simp
          . refine .inl ⟨q, (i.1, m), ?_, hempty⟩
            dsimp only
            rw [Function.update_self, hsent]
            simp
      | receive hnet' =>
        rw [hnet] at hnet'
        exact absurd hnet'.symm Multiset.cons_ne_zero

section Single

theorem single_input {p : PID N} {i : Fin 1} {e : Event S M} {node node' : Node 1 N M}
    {out : List (Envelope (PID N) (FIFOSequenced N M))}
    (h : program.input p (i, e) node = some (node', out))
    : FIFOChannel.program.input p e node.single = some (node'.single, out) := by
  obtain rfl : i = Fin.last 0 := Subsingleton.elim _ _
  obtain ⟨hout, hchannels, hreceived, hdelivered, hcases⟩ := input_eq h
  have hnode' : node'.channels (Fin.last 0) = ((node.channels (Fin.last 0)).onSend e).1 := by
    rw [hchannels, Function.update_self]
  rcases hcases with ⟨hsent, ie, rfl⟩ | ⟨m, rfl, hfrom, hsent⟩
  . simp only [FIFOChannel.program, Node.single, hnode', hreceived, hdelivered, hsent, hout]
  . simp only [FIFOChannel.program, Node.single, hnode', hreceived, hdelivered, hsent, hout, hfrom,
      if_true, List.map_append, List.map_cons, List.map_nil]

theorem single_receive {p : PID N} {e : FIFOSequenced N M} {node node' : Node 1 N M}
    {out : List (Envelope (PID N) (FIFOSequenced N M))}
    (h : (program : Program _ _ (Fin 1 × Event S M) _ _).receive p e () node = some (node', out))
    : (FIFOChannel.program : Program _ _ (Event S M) _ _).receive p e () node.single
      = some (node'.single, out) := by
  obtain ⟨rfl, hsent, hreceived, hchannels⟩ := receive_eq h
  obtain ⟨hchannel, hdelivered⟩ := hchannels (Fin.last 0)
  rw [deliveredBy_single, deliveredBy_single] at hdelivered
  simp only [FIFOChannel.program, Node.single, hchannel, hsent, hreceived, hdelivered]

theorem reach_single {w : Run 1 N M}
    (h : (program : Program _ _ (Fin 1 × Event S M) _ _).lts.Reach (fun _ _ w => FewMessages w) w)
    : (FIFOChannel.program : Program _ _ (Event S M) _ _).lts.Reach
        (fun _ _ w => FIFOChannel.FewMessages w) (single w) := by
  induction h with
  | init h0 =>
    obtain rfl := h0
    exact .init rfl
  | @step w w' l _ hst hfew ih =>
    cases hst with
    | @input p i node' out h =>
      have hstep := Program.Step.input (w := single w) (single_input h)
      rw [single_update]
      refine .step ih hstep ?_
      rw [← single_update]
      exact hfew
    | @receive p e u node' out rest hnet h =>
      have hstep := Program.Step.receive (w := single w) hnet (single_receive h)
      rw [single_update]
      refine .step ih hstep ?_
      rw [← single_update]
      exact hfew

end Single

theorem single_coexist {w : Run 1 N M}
    (h : (program : Program _ _ (Fin 1 × Event S M) _ _).lts.Reach (fun _ _ w => FewMessages w) w)
    (hnet : w.net = 0)
    : Coexist w := by
  have hsame : ∀ p q, deliveredFrom w q p = handed w p q :=
    fun p q => (FIFOChannel.exactFIFO (reach_single h)).complete hnet p q
  constructor
  . intro p q
    rw [hsame]
  . intro i p q
    rw [hsame]
    exact (List.filter_sublist.map _).filter _

theorem idle_coexist {w : Run k N M} (hidle : Idle w)
    (hnone : ∀ p x, x ∈ (w.node p).sent → destinations x.2 = ∅)
    : Coexist w := by
  rcases hidle with ⟨p, x, hx, hne⟩ | ⟨-, hdelivered⟩
  . exact absurd (hnone p x hx) hne
  . have hempty : ∀ p q (l : List (Fin k × M)), l ⊆ (w.node p).sent →
        (l.map Prod.snd).filter (fun m => q ∈ destinations m) = [] := by
      intro p q l hl
      rw [List.filter_eq_nil_iff]
      intro m hm
      obtain ⟨x, hx, rfl⟩ := List.mem_map.mp hm
      simp [hnone p x (hl hx)]
    constructor
    . intro p q
      rw [handed, hempty p q _ (List.Subset.refl _), deliveredFrom, hdelivered]
      exact .refl _
    . intro i p q
      rw [handedTo, hempty p q _ List.filter_sublist.subset]
      exact List.nil_sublist _

theorem eq_one_of_coexist {w : Run k N M} (halike : ∀ p, (w.node p).Alike) (h : Coexist w)
    (hdistinct : ∀ p, ((w.node p).sent.map Prod.snd).Nodup) {p : PID N} {x : Fin k × M}
    (hx : x ∈ (w.node p).sent) (hne : destinations x.2 ≠ ∅)
    : k = 1 := by
  obtain ⟨q, hq⟩ := Finset.nonempty_iff_ne_empty.mpr hne
  have hhanded : x.2 ∈ handed w p q :=
    List.mem_filter.mpr ⟨List.mem_map_of_mem hx, by simpa using hq⟩
  have hnodup : (deliveredFrom w q p).Nodup :=
    (h.once p q).nodup_iff.mpr ((hdistinct p).filter _)
  have hdelivered := (h.once p q).mem_iff.mpr hhanded
  obtain ⟨hmem, hfrom⟩ := List.mem_filter.mp hdelivered
  obtain ⟨⟨i, m⟩, hd, heq⟩ := List.mem_map.mp hmem
  rw [← heq] at hfrom
  rw [deliveredFrom, List.filter_map] at hnodup
  have hall : ∀ j, (j, m) ∈ (w.node q).delivered.filter
      ((fun m => decide (fromPID m = p)) ∘ Prod.snd) :=
    fun j => List.mem_filter.mpr ⟨mem_delivered_of_alike (halike q) hd j, hfrom⟩
  have hsub : Subsingleton (Fin k) := by
    constructor
    intro j j'
    have heq := List.inj_on_of_nodup_map hnodup (hall j) (hall j') rfl
    exact congrArg Prod.fst heq
  have hle := Fin.subsingleton_iff_le_one.mp hsub
  have hlt := i.isLt
  omega

/--
In a state in which nothing is in flight.
-/
theorem coexist_iff {w : Run k N M}
    (h : (program : Program _ _ (Fin k × Event S M) _ _).lts.Reach (fun _ _ w => FewMessages w) w)
    (hnet : w.net = 0) (hdistinct : ∀ p, ((w.node p).sent.map Prod.snd).Nodup)
    : Coexist w ↔ k = 1 ∨ ∀ p x, x ∈ (w.node p).sent → destinations x.2 = ∅ := by
  constructor
  . intro hcoexist
    by_contra hneither
    rw [not_or] at hneither
    apply hneither.2
    intro p x hx
    by_contra hne
    exact hneither.1 (eq_one_of_coexist (alike_of_reach h) hcoexist hdistinct hx hne)
  . rintro (rfl | hnone)
    . exact single_coexist h hnet
    . exact idle_coexist (idle_of_reach h) hnone

end Run

instance [Message N M] (w : Run k N M) : Decidable (FewMessages w) :=
  inferInstanceAs (Decidable (∀ p q, (handed w p q).length < 2 ^ 63))

theorem coexist_iff_reordered
    : ∃ w : Run 1 2 (AppMessage 2 Nat),
        (w.node 1).delivered = [(0, .unicast 0 1 7), (0, .unicast 0 1 8)] ∧ Coexist w := by
  let prog : Program _ _ (Fin 1 × Event Unit (AppMessage 2 Nat)) _ _ := program
  have h0 : prog.lts.Reach (fun _ _ w => FewMessages w) prog.initWorld := .init rfl
  have h1 := Program.Reach.input h0 0 (0, .message (.unicast 0 1 7)) rfl (by decide)
  have h2 := Program.Reach.input h1 0 (0, .message (.unicast 0 1 8)) rfl (by decide)
  have h3 := Program.Reach.receive h2 1 ⟨.unicast 0 1 8, 1, 1⟩ ()
    {⟨1, ⟨.unicast 0 1 7, 1, 0⟩⟩} (by decide) rfl (by decide)
  have h4 := Program.Reach.receive h3 1 ⟨.unicast 0 1 7, 1, 0⟩ () 0 (by decide) rfl (by decide)
  exact ⟨_, by decide, (coexist_iff h4 (by decide) (by decide)).mpr (.inl rfl)⟩

/--
Of two channels, both deliver what is sent over the first and none what is sent over the second.
-/
theorem not_coexist_two
    : ∃ w : Run 2 2 (AppMessage 2 Nat),
        (program : Program _ _ (Fin 2 × Event Unit (AppMessage 2 Nat)) _ _).lts.Reach
          (fun _ _ w => FewMessages w) w
        ∧ w.net = 0
        ∧ (w.node 0).sent = [(0, .unicast 0 1 7), (1, .unicast 0 1 8)]
        ∧ (w.node 1).delivered = [(1, .unicast 0 1 7), (0, .unicast 0 1 7)]
        ∧ ¬ Coexist w := by
  let prog : Program _ _ (Fin 2 × Event Unit (AppMessage 2 Nat)) _ _ := program
  have h0 : prog.lts.Reach (fun _ _ w => FewMessages w) prog.initWorld := .init rfl
  have h1 := Program.Reach.input h0 0 (0, .message (.unicast 0 1 7)) rfl (by decide)
  have h2 := Program.Reach.input h1 0 (1, .message (.unicast 0 1 8)) rfl (by decide)
  have h3 := Program.Reach.receive h2 1 ⟨.unicast 0 1 7, 1, 0⟩ ()
    {⟨1, ⟨.unicast 0 1 8, 1, 0⟩⟩} (by decide) rfl (by decide)
  have h4 := Program.Reach.receive h3 1 ⟨.unicast 0 1 8, 1, 0⟩ () 0 (by decide) rfl (by decide)
  refine ⟨_, h4, by decide, by decide, by decide, ?_⟩
  intro hcoexist
  have hmem := (hcoexist.once 0 1).mem_iff (a := .unicast 0 1 8)
  revert hmem
  decide

end FIFOChannels
