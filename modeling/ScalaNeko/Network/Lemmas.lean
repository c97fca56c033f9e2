import ScalaNeko.Lib.FIFONetwork
import ScalaNeko.Network.Impl

/-!
What the network puts in flight and who receives it.
-/

open AsyncNetwork (Envelope undelivered undelivered_add undelivered_zero)
open FIFONetwork (toDest)

-- The names of the processes of small systems, `0 : PID 2` for one, rest on these two.
theorem PID.twoProcesses : NeZero 2 := ⟨by decide⟩

theorem PID.threeProcesses : NeZero 3 := ⟨by decide⟩

section FanOut

variable {N : Nat} {M : Type} [Message N M] {m : M}

@[simp]
theorem mem_fanOut {e : Envelope (PID N) M}
    : e ∈ fanOut m ↔ e.dest ∈ Message.destinations m ∧ e.msg = m := by
  rcases e with ⟨q, x⟩
  simp only [fanOut, List.mem_map, Message.mem_destList, Envelope.mk.injEq]
  constructor
  . rintro ⟨a, ha, rfl, rfl⟩
    exact ⟨ha, rfl⟩
  . rintro ⟨hq, rfl⟩
    exact ⟨q, hq, rfl, rfl⟩

@[simp]
theorem length_fanOut : (fanOut m).length = (Message.destinations m).card := by
  rw [fanOut, List.length_map, Message.length_destList]

theorem fanOut_singleton {q : PID N} (h : Message.destinations m = {q}) : fanOut m = [⟨q, m⟩] := by
  rw [fanOut, Message.destList_singleton h]
  rfl

theorem filter_fanOut (m : M) (p : PID N)
    : (fanOut m).filter (fun e => e.dest = p) = if p ∈ Message.destinations m then [⟨p, m⟩] else [] := by
  have hfilter : (Message.destList m).filter
      ((fun e : Envelope (PID N) M => decide (e.dest = p)) ∘ fun q => ⟨q, m⟩)
      = if p ∈ Message.destinations m then [p] else [] := by
    have hdecide : ((fun e : Envelope (PID N) M => decide (e.dest = p)) ∘ fun q => ⟨q, m⟩)
        = (fun q => q == p) := by
      funext q
      exact (beq_eq_decide q p).symm
    rw [hdecide, List.filter_beq, (Message.nodup_destList m).count]
    simp only [Message.mem_destList]
    split
    . rfl
    . rfl
  rw [fanOut, List.filter_map, hfilter]
  split
  . rfl
  . rfl

theorem toDest_fanOut (m : M) (p : PID N)
    : toDest (fanOut m) p = if p ∈ Message.destinations m then [m] else [] := by
  rw [toDest, filter_fanOut]
  split
  . rfl
  . rfl

theorem undelivered_fanOut (m : M) (p : PID N)
    : undelivered ↑(fanOut m) p = if p ∈ Message.destinations m then {m} else 0 := by
  rw [undelivered, Multiset.filter_coe, Multiset.map_coe, filter_fanOut]
  split
  . rfl
  . rfl

end FanOut

namespace Network

variable {N : Nat} {S M τ : Type} {net : Network N M τ} {m : M}

open Message

theorem lossless_delay {neighborsFor : PID N → Option (Finset (PID N))} {delay : PID N → M → τ}
    (dest : PID N) (m : M)
    : ((lossless neighborsFor delay).delayForMessage dest m).isSome := rfl

theorem neighborhoodFor_clique {delay : PID N → M → τ} (p q : PID N)
    : q ∈ (lossless clique delay).neighborhoodFor p := by
  simp [neighborhoodFor, lossless, clique]

variable [Message N M]

theorem send_clique {delay : PID N → M → τ} (hb : isBroadcast m = false)
    : ((lossless clique delay).send (.message m : Event S M)).map Prod.fst = fanOut m := by
  have hsendTo : ∀ q, (lossless clique delay).sendTo q m = [(⟨q, m⟩, delay q m)] := by
    intro q
    rw [sendTo, if_pos (neighborhoodFor_clique _ q)]
    rfl
  rw [send, if_neg (by simp [hb])]
  simp only [hsendTo, fanOut, List.map_flatMap, List.map_cons, List.map_nil]
  exact List.map_eq_flatMap.symm

-- Whether `q` is a receiver of `m` by the topology.
def Eligible (neighborsFor : PID N → Option (Finset (PID N))) (m : M) (q : PID N) : Prop :=
  if isBroadcast m then
    q ∈ (neighborsFor (fromPID m)).getD ∅ ∧ q ≠ fromPID m
  else
    q ∈ destinations m ∧ q ∈ insert (fromPID m) ((neighborsFor (fromPID m)).getD ∅)

theorem mem_sendTo {dest : PID N} {p : Envelope (PID N) M × τ}
    : p ∈ net.sendTo dest m
      ↔ p.1 = ⟨dest, m⟩ ∧ dest ∈ net.neighborhoodFor (fromPID m)
        ∧ net.delayForMessage dest m = some p.2 := by
  unfold sendTo
  split
  . next hmem =>
    cases hdelay : net.delayForMessage dest m with
    | none => simp
    | some delay =>
      rw [List.mem_singleton, Prod.ext_iff]
      simp only [hmem, true_and, Option.some.injEq]
      exact and_congr_right fun _ => eq_comm
  . next hmem => simp [hmem]

theorem mem_send {p : Envelope (PID N) M × τ}
    : p ∈ net.send (.message m : Event S M)
      ↔ p.1.msg = m ∧ Eligible net.neighborsFor m p.1.dest
        ∧ net.delayForMessage p.1.dest m = some p.2 := by
  rcases p with ⟨⟨dest, m'⟩, delay⟩
  by_cases hb : isBroadcast m = true
  . simp only [send, Eligible, if_pos hb, List.mem_flatMap, mem_sendTo, Envelope.mk.injEq,
      List.mem_filter, List.mem_finRange, true_and, Bool.and_eq_true, decide_eq_true_eq, bne_iff_ne,
      neighborhoodFor, Finset.mem_insert]
    constructor
    . rintro ⟨_, hmem, ⟨rfl, rfl⟩, -, hdelay⟩
      exact ⟨rfl, hmem, hdelay⟩
    . rintro ⟨rfl, hmem, hdelay⟩
      exact ⟨dest, hmem, ⟨rfl, rfl⟩, .inr hmem.1, hdelay⟩
  . simp only [send, Eligible, if_neg hb, List.mem_flatMap, mem_sendTo, Envelope.mk.injEq,
      mem_destList, neighborhoodFor]
    constructor
    . rintro ⟨_, hmem, ⟨rfl, rfl⟩, hneighbor, hdelay⟩
      exact ⟨rfl, ⟨hmem, hneighbor⟩, hdelay⟩
    . rintro ⟨rfl, ⟨hmem, hneighbor⟩, hdelay⟩
      exact ⟨dest, hmem, ⟨rfl, rfl⟩, hneighbor, hdelay⟩

theorem Eligible.deliver {neighborsFor : PID N → Option (Finset (PID N))} {q : PID N}
    (h : Eligible neighborsFor m q)
    : deliver ⟨q, m⟩ = some m := by
  unfold Eligible at h
  unfold Network.deliver
  rw [if_pos]
  split at h
  . next hb => simp [hb]
  . simp [h.1]

@[simp]
theorem delivered_nil : net.delivered ([] : List (Event S M)) = [] := rfl

theorem delivered_cons (e : Event S M) (sends : List (Event S M))
    : net.delivered (e :: sends) = net.delivered [e] ++ net.delivered sends := by
  simp [delivered]

theorem filterMap_sendTo (hdelay : ∀ dest m, (net.delayForMessage dest m).isSome)
    (dests : List (PID N)) (h : ∀ q, q ∈ dests → q ∈ destinations m ∨ isBroadcast m)
    : (dests.flatMap (net.sendTo · m)).filterMap
        (fun task => (deliver task.1).map (fun m => (task.1.dest, m)))
      = (dests.filter (· ∈ net.neighborhoodFor (fromPID m))).map (fun q => (q, m)) := by
  induction dests with
  | nil => rfl
  | cons q dests ih =>
    rw [List.flatMap_cons, List.filterMap_append, ih (fun q hq => h q (List.mem_cons_of_mem _ hq)),
      List.filter_cons]
    have hq := h q (by simp)
    obtain ⟨delay, hd⟩ := Option.isSome_iff_exists.mp (hdelay q m)
    split
    . next hmem =>
      rw [decide_eq_true_eq] at hmem
      simp [sendTo, hmem, hd, deliver, hq]
    . next hmem =>
      rw [decide_eq_true_eq] at hmem
      simp [sendTo, hmem]

theorem delivered_message (hdelay : ∀ dest m, (net.delayForMessage dest m).isSome)
    (hb : isBroadcast m = false)
    : net.delivered [(.message m : Event S M)]
      = ((destList m).filter (· ∈ net.neighborhoodFor (fromPID m))).map (fun q => (q, m)) := by
  rw [← filterMap_sendTo hdelay]
  . simp [delivered, send, hb]
  . intro q hq
    exact .inl (mem_destList.mp hq)

theorem delivered_broadcast (hdelay : ∀ dest m, (net.delayForMessage dest m).isSome)
    (hb : isBroadcast m = true)
    : net.delivered [(.message m : Event S M)]
      = ((List.finRange N).filter
          (fun q => q ∈ (net.neighborsFor (fromPID m)).getD ∅ && q != fromPID m)).map
            (fun q => (q, m)) := by
  rw [delivered, List.flatMap_singleton, send, if_pos hb, filterMap_sendTo hdelay]
  . rw [List.filter_filter]
    congr 1
    apply List.filter_congr
    intro q hq
    by_cases hn : q ∈ (net.neighborsFor (fromPID m)).getD ∅
    . simp [neighborhoodFor, hn]
    . simp [hn]
  . intro q hq
    exact .inr hb

theorem delivered_messages {p : PID N} (hdelay : ∀ dest m, (net.delayForMessage dest m).isSome)
    (ms : List M) (hfrom : ∀ m, m ∈ ms → fromPID m = p) (hb : ∀ m, m ∈ ms → isBroadcast m = false)
    : (net.delivered (ms.map (.message : M → Event S M))).map Prod.fst
        = (ms.flatMap destList).filter (· ∈ net.neighborhoodFor p)
      ∧ ∀ d, d ∈ net.delivered (ms.map (.message : M → Event S M)) → d.2 ∈ ms := by
  induction ms with
  | nil => simp
  | cons m ms ih =>
    obtain ⟨ihfst, ihsnd⟩ := ih (fun m hm => hfrom m (List.mem_cons_of_mem _ hm))
      (fun m hm => hb m (List.mem_cons_of_mem _ hm))
    have hm := hfrom m (by simp)
    rw [List.map_cons, delivered_cons, delivered_message hdelay (hb m (by simp)), hm]
    constructor
    . rw [List.map_append, ihfst, List.flatMap_cons, List.filter_append, List.map_map]
      congr 1
      simp [Function.comp_def]
    . intro d hd
      rw [List.mem_append, List.mem_map] at hd
      rcases hd with ⟨q, -, rfl⟩ | hd
      . simp
      . exact List.mem_cons_of_mem _ (ihsnd d hd)

end Network
