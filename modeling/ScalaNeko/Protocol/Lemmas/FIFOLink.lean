import Mathlib.Data.Multiset.Range
import ScalaNeko.Lib.MachineInt
import ScalaNeko.Lib.Reassembly
import ScalaNeko.Protocol.Impl.FIFOChannel

/-!
One FIFO channel from a process to another: the messages on the network, the buffer of the receiver
and the numbers that both sides keep reassemble the stream of the sender.
-/

open AsyncNetwork
open Reassembly (Holds Pending drain)

namespace FIFOChannel

variable {N : Nat} {M : Type}

def number (e : FIFOSequenced N M) : Nat := e.seqNum.toInt.toNat

def info (p : PID N) (e : Nat × M) : FIFOInfo N M := ⟨p, Int64.ofNat e.1, e.2⟩

@[ext]
structure Link (N : Nat) (M : Type) where
  stream : List M
  nextSend : Int64
  flight : Multiset (FIFOSequenced N M)
  received : List (FIFOSequenced N M)
  nextReceive : Int64
  buffer : List (FIFOInfo N M)
  delivered : List M

namespace Link

def send (l : Link N M) (q : PID N) (m : M) : Link N M :=
  { l with
      stream := l.stream ++ [m]
      nextSend := l.nextSend + 1
      flight := ⟨m, q, l.nextSend⟩ ::ₘ l.flight }

def receive (l : Link N M) (p : PID N) (e : FIFOSequenced N M)
    (rest : Multiset (FIFOSequenced N M)) : Link N M :=
  let (delivered, buffer, next) :=
    deliverPending (enqueue l.buffer ⟨p, e.seqNum, e.m⟩) l.nextReceive
  { l with
      flight := rest
      received := l.received ++ [e]
      nextReceive := next
      buffer := buffer
      delivered := l.delivered ++ delivered }

/--
What the channel promises: with `k` the least number that was not received, the first `k` messages
have been delivered in order, `k` is expected next and the buffer holds what came too early.
-/
def Exact (l : Link N M) (p : PID N) : Prop :=
  ∃ k, IsLeast { i | i ∉ l.received.map number } k
    ∧ l.delivered = l.stream.take k
    ∧ l.nextReceive.toInt = k
    ∧ l.buffer.Perm ((l.received.filter (fun e => k < number e)).map (fun e => ⟨p, e.seqNum, e.m⟩))

structure Inv (l : Link N M) (p : PID N) : Prop where
  counter : l.nextSend = Int64.ofNat l.stream.length
  numbers : l.flight.map number + ↑(l.received.map number) = Multiset.range l.stream.length
  content : ∀ e, e ∈ l.flight ∨ e ∈ l.received →
    e.seqNum = Int64.ofNat (number e) ∧ l.stream[number e]? = some e.m
  reassembly : ∃ next buffer, l.nextReceive = Int64.ofNat next ∧ l.buffer = buffer.map (info p)
    ∧ Holds l.stream { i | i ∈ l.received.map number } next buffer
    ∧ l.delivered = l.stream.take next

variable {l : Link N M} {p q : PID N}

theorem Inv.number_lt (h : l.Inv p) {e : FIFOSequenced N M} (he : e ∈ l.flight ∨ e ∈ l.received)
    : number e < l.stream.length :=
  (List.getElem?_eq_some_iff.mp (h.content e he).2).1

theorem Inv.nodup_received (h : l.Inv p) : (l.received.map number).Nodup := by
  have hnodup := Multiset.nodup_range l.stream.length
  rw [← h.numbers, Multiset.nodup_add] at hnodup
  exact hnodup.2.1

theorem Inv.not_received (h : l.Inv p) {e : FIFOSequenced N M} (he : e ∈ l.flight)
    : number e ∉ l.received.map number := by
  have hnodup := Multiset.nodup_range l.stream.length
  rw [← h.numbers, Multiset.nodup_add] at hnodup
  intro hmem
  exact Multiset.disjoint_left.mp hnodup.2.2 (Multiset.mem_map_of_mem number he) hmem

theorem Inv.empty : Inv (⟨[], 0, 0, [], 0, [], []⟩ : Link N M) p where
  counter := rfl
  numbers := rfl
  content := by simp
  reassembly := by
    refine ⟨0, [], rfl, rfl, ?_, rfl⟩
    simpa using Holds.empty

theorem Inv.send (h : l.Inv p) (m : M) (hlen : l.stream.length + 1 < 2 ^ 63)
    : (l.send q m).Inv p := by
  have hnumber : number (⟨m, q, l.nextSend⟩ : FIFOSequenced N M) = l.stream.length := by
    rw [number, h.counter, Int64.toInt_ofNat_of_lt (by omega)]
    exact Int.toNat_natCast _
  constructor
  . simp only [Link.send, List.length_append, List.length_singleton]
    rw [h.counter, Int64.ofNat_add]
    rfl
  . simp only [Link.send, List.length_append, List.length_singleton, Multiset.map_cons]
    rw [Multiset.cons_add, h.numbers, hnumber, Multiset.range_succ]
  . intro e he
    simp only [Link.send, Multiset.mem_cons] at he
    have hold : e ∈ l.flight ∨ e ∈ l.received →
        e.seqNum = Int64.ofNat (number e) ∧ (l.send q m).stream[number e]? = some e.m := by
      intro he
      obtain ⟨hseq, hm⟩ := h.content e he
      refine ⟨hseq, ?_⟩
      rw [Link.send, List.getElem?_append_left (h.number_lt he)]
      exact hm
    rcases he with (rfl | he) | he
    . rw [hnumber]
      exact ⟨h.counter, by simp [Link.send]⟩
    . exact hold (.inl he)
    . exact hold (.inr he)
  . obtain ⟨next, buffer, hnext, hbuffer, hholds, hdelivered⟩ := h.reassembly
    refine ⟨next, buffer, hnext, hbuffer, hholds.append [m], ?_⟩
    simp only [Link.send]
    rw [List.take_append_of_le_length hholds.next_le]
    exact hdelivered

end Link

theorem enqueue_map {p : PID N} {buffer : List (Nat × M)} {e : Nat × M}
    (hbuffer : ∀ a, a ∈ buffer → a.1 < 2 ^ 63) (he : e.1 < 2 ^ 63)
    : enqueue (buffer.map (info p)) (info p e) = (Reassembly.insert e buffer).map (info p) := by
  have hgt : ∀ a b : Nat × M, a.1 < 2 ^ 63 → b.1 < 2 ^ 63 →
      (a.1 < b.1 ↔ FIFOOrdering.gt (info p a) (info p b)) := by
    intro a b ha hb
    have hneg : ∀ n : Nat, n < 2 ^ 63 → (-Int64.ofNat n).toInt = -n := by
      intro n hn
      rw [Int64.toInt_neg, Int64.toInt_ofNat_of_lt hn]
      apply Int.bmod_eq_of_le
      . omega
      . omega
    simp only [FIFOOrdering.gt, info, Int64.lt_iff_toInt_lt, lt_irrefl, and_false, or_false]
    rw [hneg _ ha, hneg _ hb]
    omega
  unfold enqueue Reassembly.insert
  symm
  apply List.map_orderedInsert
  . intro a ha
    exact hgt a e (hbuffer a ha) he
  . intro a ha
    exact hgt e a he (hbuffer a ha)

theorem ofNat_eq_iff {i n : Nat} (hi : i < 2 ^ 63) (hn : n ≤ 2 ^ 63)
    : Int64.ofNat i = Int64.ofNat n ↔ i = n := by
  constructor
  . intro h
    rw [← Int64.toInt_inj, Int64.toInt_ofNat_of_lt hi] at h
    rcases Nat.lt_or_eq_of_le hn with hlt | rfl
    . rw [Int64.toInt_ofNat_of_lt hlt] at h
      exact Int.ofNat_inj.mp h
    . have : (Int64.ofNat (2 ^ 63)).toInt < 0 := by decide
      omega
  . rintro rfl
    rfl

theorem deliverPending_map {p : PID N} {buffer : List (Nat × M)} {next : Nat}
    (hbuffer : ∀ a, a ∈ buffer → a.1 < 2 ^ 63) (hnext : next ≤ 2 ^ 63)
    : deliverPending (buffer.map (info p)) (Int64.ofNat next)
        = ((drain buffer next).1, (drain buffer next).2.1.map (info p),
            Int64.ofNat (drain buffer next).2.2) := by
  induction buffer generalizing next with
  | nil => rfl
  | cons e buffer ih =>
    have he := hbuffer e (by simp)
    have heq := ofNat_eq_iff he hnext
    unfold drain
    simp only [List.map_cons, deliverPending, info, heq]
    split
    . next h =>
      have hsucc : Int64.ofNat next + 1 = Int64.ofNat (next + 1) := by
        rw [Int64.ofNat_add]
        rfl
      rw [hsucc, ih]
      . intro a ha
        exact hbuffer a (List.mem_cons_of_mem _ ha)
      . omega
    . simp [info]

namespace Link

variable {l : Link N M} {p q : PID N}

/-- The priority queue and the loop of the source compute what the library's do on numbers. -/
theorem receive_map {e : FIFOSequenced N M} {rest : Multiset (FIFOSequenced N M)}
    {next : Nat} {buffer : List (Nat × M)} (hnext : l.nextReceive = Int64.ofNat next)
    (hbuffer : l.buffer = buffer.map (info p)) (hseq : e.seqNum = Int64.ofNat (number e))
    (hbound : ∀ a, a ∈ Reassembly.insert (number e, e.m) buffer → a.1 < 2 ^ 63)
    (hle : next ≤ 2 ^ 63)
    : l.receive p e rest
      = { l with
            flight := rest
            received := l.received ++ [e]
            nextReceive := Int64.ofNat (drain (Reassembly.insert (number e, e.m) buffer) next).2.2
            buffer :=
              (drain (Reassembly.insert (number e, e.m) buffer) next).2.1.map (info p)
            delivered :=
              l.delivered ++ (drain (Reassembly.insert (number e, e.m) buffer) next).1 } := by
  have hinfo : (⟨p, e.seqNum, e.m⟩ : FIFOInfo N M) = info p (number e, e.m) := by
    rw [info, ← hseq]
  have henqueue : enqueue (buffer.map (info p)) (info p (number e, e.m))
      = (Reassembly.insert (number e, e.m) buffer).map (info p) := by
    apply enqueue_map
    . intro a ha
      exact hbound a ((List.mem_orderedInsert _).mpr (.inr ha))
    . exact hbound (number e, e.m) ((List.mem_orderedInsert _).mpr (.inl rfl))
  have hdeliver := @deliverPending_map _ _ p _ _ hbound hle
  simp only [Link.receive]
  rw [hinfo, hbuffer, henqueue, hnext, hdeliver]

theorem Inv.receive (h : l.Inv p) {e : FIFOSequenced N M} {rest : Multiset (FIFOSequenced N M)}
    (hflight : l.flight = e ::ₘ rest) (hlen : l.stream.length < 2 ^ 63)
    : (l.receive p e rest).Inv p := by
  have hmem : e ∈ l.flight := by
    rw [hflight]
    exact Multiset.mem_cons_self _ _
  obtain ⟨hseq, hm⟩ := h.content e (.inl hmem)
  obtain ⟨next, buffer, hnext, hbuffer, hholds, hdelivered⟩ := h.reassembly
  have hpending := hholds.insert (h.not_received hmem) hm
  have hR : { i | i ∈ (l.received ++ [e]).map number }
      = Insert.insert (number e) { i | i ∈ l.received.map number } := by
    ext i
    simp only [List.map_append, List.mem_append, List.map_cons, List.map_nil, List.mem_singleton,
      Set.mem_ofPred_eq, Set.mem_insert_iff]
    exact or_comm
  have hbound : ∀ a, a ∈ Reassembly.insert (number e, e.m) buffer → a.1 < 2 ^ 63 := by
    intro a ha
    have := hpending.bound _ ((hpending.mem_buffer a.1 a.2).mp ha).1
    omega
  have hle : next ≤ 2 ^ 63 := by
    have := hholds.next_le
    omega
  obtain ⟨hholds', htake⟩ := hpending.drain
  rw [receive_map hnext hbuffer hseq hbound hle]
  constructor
  . exact h.counter
  . have hnumbers := h.numbers
    rw [hflight] at hnumbers
    rw [← hnumbers, List.map_append, ← Multiset.coe_add, Multiset.map_cons]
    simp only [List.map_cons, List.map_nil, Multiset.coe_singleton]
    rw [Multiset.add_comm (_ : Multiset Nat) {number e}, ← Multiset.add_assoc,
      Multiset.add_comm (_ : Multiset Nat) {number e}, Multiset.singleton_add]
  . intro e' he'
    apply h.content e'
    rw [hflight, Multiset.mem_cons]
    simp only [List.mem_append, List.mem_singleton] at he'
    rcases he' with he' | he' | rfl
    . exact .inl (.inr he')
    . exact .inr he'
    . exact .inl (.inl rfl)
  . refine ⟨_, _, rfl, rfl, ?_, ?_⟩
    . dsimp only
      rw [hR]
      exact hholds'
    . dsimp only
      rw [hdelivered, htake]

theorem Inv.exact (h : l.Inv p) (hlen : l.stream.length < 2 ^ 63) : l.Exact p := by
  obtain ⟨next, buffer, hnext, hbuffer, hholds, hdelivered⟩ := h.reassembly
  have hnextlt : next < 2 ^ 63 := Nat.lt_of_le_of_lt hholds.next_le hlen
  refine ⟨next, hholds.isLeast, hdelivered, ?_, ?_⟩
  . rw [hnext]
    exact Int64.toInt_ofNat_of_lt hnextlt
  . have hperm : buffer.Perm
        ((l.received.filter (fun e => next < number e)).map (fun e => (number e, e.m))) := by
      rw [List.perm_ext_iff_of_nodup]
      . rintro ⟨i, b⟩
        rw [hholds.mem_buffer]
        simp only [List.mem_map, List.mem_filter, decide_eq_true_eq, Prod.mk.injEq,
          Set.mem_ofPred_eq]
        constructor
        . rintro ⟨⟨e, he, rfl⟩, hlt, hb⟩
          refine ⟨e, ⟨he, hlt⟩, rfl, ?_⟩
          rw [(h.content e (.inr he)).2, Option.some.injEq] at hb
          exact hb
        . rintro ⟨e, ⟨he, hlt⟩, rfl, rfl⟩
          exact ⟨⟨e, he, rfl⟩, hlt, (h.content e (.inr he)).2⟩
      . apply hholds.sorted.imp
        rintro a b hlt rfl
        omega
      . apply List.Nodup.of_map Prod.fst
        rw [List.map_map]
        exact h.nodup_received.sublist (List.filter_sublist.map _)
    rw [hbuffer]
    have hmap := hperm.map (info p)
    rw [List.map_map] at hmap
    apply hmap.trans
    apply List.Perm.of_eq
    apply List.map_congr_left
    intro e he
    have hseq := (h.content e (.inr (List.mem_of_mem_filter he))).1
    simp only [Function.comp_apply, info]
    rw [← hseq]

theorem Inv.delivered_eq (h : l.Inv p) (hflight : l.flight = 0) : l.delivered = l.stream := by
  obtain ⟨next, buffer, -, -, hholds, hdelivered⟩ := h.reassembly
  have hnext : ¬ next < l.stream.length := by
    intro hlt
    have hmem := Multiset.mem_range.mpr hlt
    rw [← h.numbers, hflight, Multiset.map_zero, Multiset.zero_add] at hmem
    exact hholds.fresh hmem
  rw [hdelivered, List.take_of_length_le (by omega)]

end Link

end FIFOChannel
