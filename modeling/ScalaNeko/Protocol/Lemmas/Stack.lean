import ScalaNeko.Protocol.Impl.Stack
import ScalaNeko.Protocol.Lemmas.FIFOChannel

/-!
Which processes get a message that was sent through a stack of protocol layers.
-/

open Message

namespace Stack

variable {N : Nat} {S M W α τ : Type}

def Distributes {σ : Type} [Message N M] [Message N W]
    (onSend : σ → Event S M → Option (σ × List (Event S W))) (I : σ → Prop) (P : M → W → Prop)
    : Prop :=
  ∀ s m, I s → ∃ (s' : σ) (ws : List W), onSend s (.message m) = some (s', ws.map .message) ∧ I s'
    ∧ (∀ w, w ∈ ws → P m w) ∧ ws.flatMap destList = destList m

theorem Distributes.through {σ : Type} [Message N M] [Message N W]
    {onSend : σ → Event S M → Option (σ × List (Event S W))} {I : σ → Prop} {P : M → W → Prop}
    (h : Distributes onSend I P) (s : σ) (hs : I s) (ms : List M)
    : ∃ (s' : σ) (ws : List W), through onSend s (ms.map .message) = some (s', ws.map .message) ∧ I s'
      ∧ (∀ w, w ∈ ws → ∃ m, m ∈ ms ∧ P m w) ∧ ws.flatMap destList = ms.flatMap destList := by
  induction ms generalizing s with
  | nil => exact ⟨s, [], rfl, hs, by simp, rfl⟩
  | cons m ms ih =>
    obtain ⟨s₁, ws₁, honSend, hs₁, hP₁, hdest₁⟩ := h s m hs
    obtain ⟨s₂, ws₂, hthrough, hs₂, hP₂, hdest₂⟩ := ih s₁ hs₁
    refine ⟨s₂, ws₁ ++ ws₂, ?_, hs₂, ?_, ?_⟩
    . simp [Stack.through, honSend, hthrough]
    . intro w hw
      rw [List.mem_append] at hw
      cases hw with
      | inl hw => exact ⟨m, by simp, hP₁ w hw⟩
      | inr hw =>
        obtain ⟨m', hm', hP⟩ := hP₂ w hw
        exact ⟨m', List.mem_cons_of_mem _ hm', hP⟩
    . rw [List.flatMap_append, List.flatMap_cons, hdest₁, hdest₂]

section Layers

variable [Message N M]

theorem lamport_distributes
    : Distributes (S := S) (fun clock e => some (LamportClock.onSend clock e)) (fun _ => True)
        (fun (m : M) w => w.m = m) := by
  intro clock m _
  exact ⟨_, [_], rfl, trivial, by simp, List.append_nil _⟩

theorem vector_distributes (me : PID N)
    : Distributes (S := S) (fun clock e => some (VectorClock.onSend me clock e)) (fun _ => True)
        (fun (m : M) w => w.m = m) := by
  intro clock m _
  exact ⟨_, [_], rfl, trivial, by simp, List.append_nil _⟩

theorem safra_distributes [NeZero N] (me : PID N)
    : Distributes
        (fun s (e : Event (TerminationSignal S) M) =>
          (SafraTerminationDetection.onSend me s e).map fun (s, effects) => (s, effects.sends))
        (fun s => s.state = .active) (fun m w => w = .payload m) := by
  intro s m hs
  refine ⟨{ s with msgCount := s.msgCount + Int32.ofNat (destinations m).card }, [.payload m], ?_, hs,
    by simp, List.append_nil _⟩
  simp [SafraTerminationDetection.onSend, hs]

theorem fifo_distributes
    : Distributes (S := S) (fun channel e => some (FIFOChannel.onSend channel e)) (fun _ => True)
        (fun (m : M) w => w.m = m) := by
  intro channel m _
  have hdest : ∀ q, destList (⟨m, q, channel.nextSendTo q⟩ : FIFOSequenced N M) = [q] :=
    fun q => destList_singleton rfl
  have honSend := FIFOChannel.foldl_sendTo (S := S) m _ (nodup_destList m) channel []
  rw [List.nil_append] at honSend
  refine ⟨(channel.onSend (.message m : Event S M)).1,
    (destList m).map (fun q => ⟨m, q, channel.nextSendTo q⟩), ?_, trivial, by simp, ?_⟩
  . simp only [FIFOChannel.onSend, honSend, List.map_map]
    rfl
  . simp [List.flatMap_map, hdest]

end Layers

structure Carries [Message N M] (st : Stack N M W) (b : M) (ws : List W) : Prop where
  content : ∀ w, w ∈ ws → st.unwrap w = some b
  sender : ∀ w, w ∈ ws → st.message.fromPID w = fromPID b
  kind : ∀ w, w ∈ ws → st.message.isBroadcast w = (st.isEmpty && isBroadcast b)
  dests : ws.flatMap (@destList N W st.message) = destList b

theorem Carries.layer [Message N M] {V : Type} {above : Stack N M V} {st : Stack N M W} {b : M}
    {vs : List V} {ws : List W} (h : above.Carries b vs) (hst : st.isEmpty = false)
    (hwrap : ∀ w, w ∈ ws → ∃ v, v ∈ vs ∧ st.unwrap w = above.unwrap v
      ∧ st.message.fromPID w = above.message.fromPID v ∧ st.message.isBroadcast w = false)
    (hdests : ws.flatMap (@destList N W st.message) = vs.flatMap (@destList N V above.message))
    : st.Carries b ws where
  content := by
    intro w hw
    obtain ⟨v, hv, hunwrap, -, -⟩ := hwrap w hw
    rw [hunwrap]
    exact h.content v hv
  sender := by
    intro w hw
    obtain ⟨v, hv, -, hfrom, -⟩ := hwrap w hw
    rw [hfrom]
    exact h.sender v hv
  kind := by
    intro w hw
    obtain ⟨v, hv, -, -, hb⟩ := hwrap w hw
    rw [hb, hst]
    rfl
  dests := by
    rw [hdests]
    exact h.dests

theorem onSend_message [Message N M] [NeZero N] (me : PID N) (b : M) (st : Stack N M W)
    (hactive : st.Active)
    : ∃ (st' : Stack N M W) (ws : List W), st.onSend (S := S) me (.message b)
        = some (st', ws.map .message) ∧ st'.Active ∧ st.Carries b ws := by
  induction st with
  | empty => exact ⟨empty, [b], rfl, trivial, by simp [unwrap], by simp, by simp [isEmpty], by simp⟩
  | lamport clock above ih =>
    obtain ⟨above', vs, honSend, hactive', hcarries⟩ := ih hactive
    let _ := above.message
    obtain ⟨clock', ws, hthrough, -, hwrap, hdests⟩ :=
      (lamport_distributes (S := TerminationSignal S)).through clock trivial vs
    refine ⟨lamport clock' above', ws, ?_, hactive', hcarries.layer rfl ?_ hdests⟩
    . simp [onSend, honSend, hthrough]
    . intro w hw
      obtain ⟨v, hv, rfl⟩ := hwrap w hw
      exact ⟨_, hv, rfl, rfl, rfl⟩
  | vector clock above ih =>
    obtain ⟨above', vs, honSend, hactive', hcarries⟩ := ih hactive
    let _ := above.message
    obtain ⟨clock', ws, hthrough, -, hwrap, hdests⟩ :=
      (vector_distributes (S := TerminationSignal S) me).through clock trivial vs
    refine ⟨vector clock' above', ws, ?_, hactive', hcarries.layer rfl ?_ hdests⟩
    . simp [onSend, honSend, hthrough]
    . intro w hw
      obtain ⟨v, hv, rfl⟩ := hwrap w hw
      exact ⟨_, hv, rfl, rfl, rfl⟩
  | safra s above ih =>
    obtain ⟨above', vs, honSend, hactive', hcarries⟩ := ih hactive.2
    let _ := above.message
    obtain ⟨s', ws, hthrough, hs', hwrap, hdests⟩ :=
      (safra_distributes (S := S) me).through s hactive.1 vs
    refine ⟨safra s' above', ws, ?_, ⟨hs', hactive'⟩, hcarries.layer rfl ?_ hdests⟩
    . simp [onSend, honSend, hthrough]
    . intro w hw
      obtain ⟨v, hv, rfl⟩ := hwrap w hw
      exact ⟨_, hv, rfl, rfl, rfl⟩
  | fifo channel above ih =>
    obtain ⟨above', vs, honSend, hactive', hcarries⟩ := ih hactive
    let _ := above.message
    obtain ⟨channel', ws, hthrough, -, hwrap, hdests⟩ :=
      (fifo_distributes (S := TerminationSignal S)).through channel trivial vs
    refine ⟨fifo channel' above', ws, ?_, hactive', hcarries.layer rfl ?_ hdests⟩
    . simp [onSend, honSend, hthrough]
    . intro w hw
      obtain ⟨v, hv, rfl⟩ := hwrap w hw
      exact ⟨_, hv, rfl, rfl, rfl⟩

/--
The processes that get `b` through the stack are those that get it directly, and each of them gets it
once.
-/
structure SameReceivers [Message N M] (st : Stack N M W) (b : M) (direct : List (PID N × M))
    (got : List (PID N × W)) : Prop where
  content : ∀ d, d ∈ got → st.unwrap d.2 = some b
  once : (got.map Prod.fst).Nodup
  same : ∀ q, q ∈ got.map Prod.fst ↔ q ∈ direct.map Prod.fst

section Receivers

variable {neighborsFor : PID N → Option (Finset (PID N))} {b : AppMessage N α}
  {st : Stack N (AppMessage N α) W}

theorem delivered_empty [Message N M] (net : Network N M τ) (sends : List (Event S M))
    : empty.delivered net sends = net.delivered sends := rfl

theorem Carries.delivered {delay : PID N → W → τ} {ws : List W} (h : st.Carries b ws)
    (hclass : (st.isEmpty && isBroadcast b) = false)
    : (st.delivered (Network.lossless neighborsFor delay) (ws.map (.message : W → Event S W))).map
          Prod.fst
        = (destList b).filter (· ∈ (Network.lossless neighborsFor delay).neighborhoodFor (fromPID b))
      ∧ ∀ d, d ∈ st.delivered (Network.lossless neighborsFor delay)
          (ws.map (.message : W → Event S W)) → d.2 ∈ ws := by
  let _ := st.message
  rw [← h.dests]
  apply Network.delivered_messages Network.lossless_delay ws h.sender
  intro w hw
  rw [h.kind w hw, hclass]

theorem sameReceivers_of_carries {delay : PID N → W → τ} {delay' : PID N → AppMessage N α → τ}
    {ws : List W} (h : st.Carries b ws) (hb : isBroadcast b = false)
    : st.SameReceivers b
        ((Network.lossless neighborsFor delay').delivered [(.message b : Event S _)])
        (st.delivered (Network.lossless neighborsFor delay) (ws.map (.message : W → Event S W))) := by
  obtain ⟨hfst, hsnd⟩ := h.delivered (by rw [hb, Bool.and_false])
  constructor
  . intro d hd
    exact h.content _ (hsnd d hd)
  . rw [hfst]
    exact (nodup_destList b).filter _
  . intro q
    rw [hfst, Network.delivered_message Network.lossless_delay hb, List.map_map]
    simp [Network.lossless, Network.neighborhoodFor]

theorem mem_delivered_broadcast {delay : PID N → AppMessage N α → τ} (hb : isBroadcast b = true)
    (q : PID N)
    : q ∈ ((Network.lossless neighborsFor delay).delivered [(.message b : Event S _)]).map Prod.fst
      ↔ q ∈ (neighborsFor (fromPID b)).getD ∅ ∧ q ≠ fromPID b := by
  rw [Network.delivered_broadcast Network.lossless_delay hb, List.map_map]
  simp only [List.mem_map, List.mem_filter, List.mem_finRange, Bool.and_eq_true, decide_eq_true_iff,
    bne_iff_ne, true_and, Function.comp_apply, exists_eq_right]
  rfl

theorem delivered_eq_nil {delay : PID N → W → τ} {ws : List W} (h : st.Carries b ws)
    (hst : st.isEmpty = false) (hb : isBroadcast b = true)
    : st.delivered (Network.lossless neighborsFor delay) (ws.map (.message : W → Event S W)) = [] := by
  have hdests : destList b = [] := by
    cases b with
    | broadcast p body => simp [destList, destinations, AppMessage.destinations]
    | unicast => simp [isBroadcast, AppMessage.isBroadcast] at hb
    | multicast => simp [isBroadcast, AppMessage.isBroadcast] at hb
  obtain ⟨hfst, -⟩ := h.delivered (by rw [hst, Bool.false_and])
  rw [hdests, List.filter_nil, List.map_eq_nil_iff] at hfst
  exact hfst

-- A layer turns a broadcast into messages without destinations.
theorem sameReceivers_broadcast_iff {delay : PID N → W → τ} {delay' : PID N → AppMessage N α → τ}
    {ws : List W} (h : st.Carries b ws) (hst : st.isEmpty = false) (hb : isBroadcast b = true)
    : st.SameReceivers b
          ((Network.lossless neighborsFor delay').delivered [(.message b : Event S _)])
          (st.delivered (Network.lossless neighborsFor delay) (ws.map (.message : W → Event S W)))
      ↔ ∀ q, q ∈ (neighborsFor (fromPID b)).getD ∅ → q = fromPID b := by
  rw [delivered_eq_nil h hst hb]
  constructor
  . intro hsame q hq
    by_contra hne
    have hmem := (hsame.same q).mpr ((mem_delivered_broadcast hb q).mpr ⟨hq, hne⟩)
    simp at hmem
  . intro hnone
    constructor
    . simp
    . simp
    . intro q
      rw [mem_delivered_broadcast hb]
      constructor
      . intro h
        simp at h
      . rintro ⟨hq, hne⟩
        exact absurd (hnone q hq) hne

theorem sameReceivers_empty {delay delay' : PID N → AppMessage N α → τ}
    (hb : isBroadcast b = true)
    : (empty : Stack N (AppMessage N α) (AppMessage N α)).SameReceivers b
        ((Network.lossless neighborsFor delay').delivered [(.message b : Event S _)])
        ((Network.lossless neighborsFor delay).delivered [(.message b : Event S _)]) := by
  constructor
  . intro d hd
    rw [Network.delivered_broadcast Network.lossless_delay hb, List.mem_map] at hd
    obtain ⟨q, -, rfl⟩ := hd
    rfl
  . rw [Network.delivered_broadcast Network.lossless_delay hb, List.map_map]
    apply List.Nodup.map
    . exact fun _ _ h => h
    . exact (List.nodup_finRange N).filter _
  . intro q
    rw [mem_delivered_broadcast hb]
    exact (mem_delivered_broadcast hb q).symm

/--
A stack of layers changes who gets a message exactly when it has a layer, the message is a broadcast
and somebody is there to miss it.
-/
theorem sameReceivers_iff [NeZero N] (hactive : st.Active) (delay : PID N → W → τ)
    (delay' : PID N → AppMessage N α → τ)
    : ∃ (st' : Stack N (AppMessage N α) W) (sends : List (Event (TerminationSignal S) W)),
        st.onSend (fromPID b) (.message b) = some (st', sends)
        ∧ (st.SameReceivers b
            ((Network.lossless neighborsFor delay').delivered
              [(.message b : Event (TerminationSignal S) _)])
            (st.delivered (Network.lossless neighborsFor delay) sends)
          ↔ st.isEmpty ∨ isBroadcast b = false
            ∨ ∀ q, q ∈ (neighborsFor (fromPID b)).getD ∅ → q = fromPID b) := by
  obtain ⟨st', ws, honSend, -, hcarries⟩ := onSend_message (S := S) (fromPID b) b st hactive
  refine ⟨st', ws.map .message, honSend, ?_⟩
  cases hb : isBroadcast b with
  | false =>
    constructor
    . intro _
      exact .inr (.inl rfl)
    . intro _
      exact sameReceivers_of_carries hcarries hb
  | true =>
    cases hst : st.isEmpty with
    | false =>
      rw [sameReceivers_broadcast_iff hcarries hst hb]
      constructor
      . intro hnone
        exact .inr (.inr hnone)
      . rintro (h | h | hnone)
        . exact absurd h Bool.false_ne_true
        . exact absurd h.symm Bool.false_ne_true
        . exact hnone
    | true =>
      refine ⟨fun _ => .inl rfl, fun _ => ?_⟩
      cases st with
      | empty =>
        rw [onSend, Option.some.injEq, Prod.mk.injEq] at honSend
        obtain ⟨-, hsends⟩ := honSend
        rw [← hsends, delivered_empty]
        exact sameReceivers_empty hb
      | lamport | vector | safra | fifo => simp [isEmpty] at hst

end Receivers

theorem sameReceivers_multicast
    : ∃ (st' : Stack 3 (AppMessage 3 Unit) _) (sends : List (Event (TerminationSignal Unit) _)),
        (fifo {} (safra { token := none } (lamport {} empty))).onSend 0
          (.message (.multicast 0 {0, 2} ())) = some (st', sends)
        ∧ (fifo {} (safra { token := none } (lamport {} empty))).SameReceivers (.multicast 0 {0, 2} ())
          ((Network.lossless Network.clique (fun _ _ => 1)).delivered
            [(.message (.multicast 0 {0, 2} ()) : Event (TerminationSignal Unit) _)])
          ((Network.lossless Network.clique (fun _ _ => 1)).delivered sends) := by
  obtain ⟨st', sends, honSend, hiff⟩ := @sameReceivers_iff 3 Unit _ Unit Nat
    Network.clique (.multicast 0 {0, 2} ())
    (fifo {} (safra { token := none } (lamport {} empty))) _ ⟨rfl, trivial⟩ (fun _ _ => 1)
    (fun _ _ => 1)
  exact ⟨st', sends, honSend, hiff.mpr (.inr (.inl rfl))⟩

theorem not_sameReceivers_lamport
    : ¬ ∀ (st' : Stack 2 (AppMessage 2 Unit) (LCTimeStamped (AppMessage 2 Unit)))
        (sends : List (Event (TerminationSignal Unit) (LCTimeStamped (AppMessage 2 Unit)))),
        (lamport {} empty).onSend 0 (.message (.broadcast 0 ())) = some (st', sends) →
        (lamport {} empty).SameReceivers (.broadcast 0 ())
          ((Network.lossless Network.clique (fun _ _ => 1)).delivered
            [(.message (.broadcast 0 ()) : Event (TerminationSignal Unit) (AppMessage 2 Unit))])
          ((Network.lossless Network.clique (fun _ _ => 1)).delivered sends) := by
  intro hall
  have hsame := (hall _ _ rfl).same 1
  revert hsame
  decide

end Stack
