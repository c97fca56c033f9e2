import ScalaNeko.Lib.Closing
import ScalaNeko.Protocol.Lemmas.SynchronousRounds

/-!
What the rounds that an instance starts owe to the order in which its messages arrive. A reception
closes one round at most, also when the next one is complete already.
-/

open AsyncNetwork
open Closing (closed)

namespace RoundBased

variable {N : Nat} {S M : Type} [Message N M]

open Message (fromPID)

/--
One message from each process for each of the rounds `0` to `R - 1`.
-/
structure IsFamily (R : Nat) (family : List (Round M)) : Prop where
  nodup : (family.map (fun e => (e.round.toInt, fromPID e.msg))).Nodup
  mem : ∀ (k : Int) p, (k, p) ∈ family.map (fun e => (e.round.toInt, fromPID e.msg)) ↔ 0 ≤ k ∧ k < R

def sentIn (family : List (Round M)) (k : Nat) (p : PID N) : Option M :=
  (family.find? (fun e => e.round.toInt = (k : Int) ∧ fromPID e.msg = p)).map Round.msg

def promised (R : Nat) (family : List (Round M)) : List (Int × (PID N → Option (Option M))) :=
  (List.range R).map (fun k : Nat => ((k : Int) + 1, fun p => (sentIn family k p).map some))

-- The number of messages that arrive after the last one of round `k`.
def after (arrivals : List (Round M)) (k : Nat) : Nat :=
  (arrivals.reverse.takeWhile (fun e => e.round.toInt ≠ (k : Int))).length

-- Whether the messages of round `k` are among the first `t` ones.
def complete (N : Nat) (arrivals : List (Round M)) (k t : Nat) : Prop :=
  (batch (arrivals.take t) (Int32.ofNat k)).length = N

instance (arrivals : List (Round M)) (k t : Nat) : Decidable (complete N arrivals k t) :=
  inferInstanceAs (Decidable (_ = N))

namespace Party

def started (party : Party N M) : List (Int × (PID N → Option (Option M))) :=
  party.startRounds.map (fun e => (e.round.toInt, e.msgs))

def Settled (party : Party N M) : Prop :=
  (party.rounds.recvStash party.rounds.recvRound).length ≠ N

end Party

/--
The parties of an instance of `RoundBased` that has received `received`, whatever its client does.
-/
def Reactive [DecidableEq M] (S : Type) (me : PID N) (received : List (Round M)) (party : Party N M)
    : Prop :=
  ∃ node, (program (S := S)).After me received node ∧ node.party = party

/--
The parties of an instance of `SynchronousRounds` that has received `received`, whenever nothing is
left in its queue.
-/
def Active [DecidableEq M] (S : Type) (me : PID N) (received : List (Round M)) (party : Party N M)
    : Prop :=
  ∃ node, (SynchronousRounds.program (S := S)).After me received node ∧ node.queue = []
    ∧ node.party = party

def StartsAll (instances : List (Round M) → Party N M → Prop) (R : Nat)
    (family arrivals : List (Round M)) : Prop :=
  (∃ party, instances arrivals party)
    ∧ ∀ party, instances arrivals party → party.started = promised R family

def AlwaysSettled (instances : List (Round M) → Party N M → Prop) (arrivals : List (Round M))
    : Prop :=
  ∀ received party, received <+: arrivals → instances received party → party.Settled

-- Round `k` is complete early enough for the rounds from `k + 1` to be closed one reception each.
def Punctual (R : Nat) (arrivals : List (Round M)) : Prop :=
  ∀ k, k < R → R - 1 - k ≤ after arrivals k

instance (R : Nat) (arrivals : List (Round M)) : Decidable (Punctual R arrivals) :=
  inferInstanceAs (Decidable (∀ k, k < R → _))

def InOrder (R : Nat) (arrivals : List (Round M)) : Prop :=
  ∀ k, k + 1 < R → after arrivals (k + 1) < after arrivals k

section Family

variable {R : Nat} {family arrivals : List (Round M)} {k : Nat} {p : PID N}

theorem IsFamily.perm (h : IsFamily R family) (hperm : arrivals.Perm family) : IsFamily R arrivals where
  nodup := (hperm.map _).nodup_iff.mpr h.nodup
  mem := by
    intro k p
    rw [(hperm.map _).mem_iff]
    exact h.mem k p

theorem IsFamily.sentIn_eq (h : IsFamily R family) {e : Round M} (he : e ∈ family)
    (hround : e.round.toInt = k)
    : sentIn family k (fromPID e.msg) = some e.msg := by
  have hfind : ∃ e', family.find? (fun x => x.round.toInt = (k : Int) ∧ fromPID x.msg = fromPID e.msg)
      = some e' := by
    rw [← Option.isSome_iff_exists, List.find?_isSome]
    exact ⟨e, he, decide_eq_true ⟨hround, rfl⟩⟩
  obtain ⟨e', hfind⟩ := hfind
  have hfound := List.find?_some hfind
  obtain ⟨hround', hfrom'⟩ := of_decide_eq_true hfound
  have heq : e' = e := by
    apply List.inj_on_of_nodup_map h.nodup (List.mem_of_find?_eq_some hfind) he
    rw [hround, hround', hfrom']
  rw [sentIn, hfind, heq]
  rfl

theorem round_eq_iff {e : Round M} (hk : k < 2 ^ 31) : e.round = Int32.ofNat k ↔ e.round.toInt = k := by
  rw [← Int32.toInt_inj, Int32.toInt_ofNat_of_lt hk]

theorem IsFamily.mem_batch (h : IsFamily R family) (hR : R < 2 ^ 31) (hk : k < R) (p : PID N)
    : ∃ m, m ∈ batch family (Int32.ofNat k) ∧ fromPID m = p := by
  have hmem := (h.mem k p).mpr ⟨Int.natCast_nonneg k, Int.ofNat_lt.mpr hk⟩
  obtain ⟨e, he, heq⟩ := List.mem_map.mp hmem
  simp only [Prod.mk.injEq] at heq
  refine ⟨e.msg, ?_, heq.2⟩
  rw [Exchange.mem_batch, ← (round_eq_iff (Nat.lt_trans hk hR)).mpr heq.1]
  exact he

theorem IsFamily.nodup_batch (h : IsFamily R family) (t : Int32)
    : ((batch family t).map fromPID).Nodup := by
  have hpairwise := List.pairwise_map.mp h.nodup
  rw [batch, List.map_reverse, List.nodup_reverse, List.map_map, List.Nodup, List.pairwise_map]
  apply (hpairwise.filter _).imp_of_mem
  intro a b ha hb hne heq
  apply hne
  have ha' := of_decide_eq_true (List.mem_filter.mp ha).2
  have hb' := of_decide_eq_true (List.mem_filter.mp hb).2
  rw [ha', hb', Prod.mk.injEq]
  exact ⟨rfl, heq⟩

theorem IsFamily.length_batch (h : IsFamily R family) (hR : R < 2 ^ 31) (hk : k < R)
    : (batch family (Int32.ofNat k)).length = N := by
  have hall : ((batch family (Int32.ofNat k)).map fromPID).toFinset = Finset.univ := by
    ext p
    rw [List.mem_toFinset, List.mem_map]
    exact ⟨fun _ => Finset.mem_univ p, fun _ => h.mem_batch hR hk p⟩
  have hcard := List.toFinset_card_of_nodup (h.nodup_batch (Int32.ofNat k))
  rw [hall, Finset.card_univ, Fintype.card_fin, List.length_map] at hcard
  exact hcard.symm

theorem IsFamily.messageVector_eq (h : IsFamily R family) (hR : R < 2 ^ 31) (hk : k < R)
    : messageVector (batch family (Int32.ofNat k)) = fun p => (sentIn family k p).map some := by
  funext p
  obtain ⟨m, hm, rfl⟩ := h.mem_batch hR hk p
  have hmem := Exchange.mem_batch.mp hm
  rw [h.sentIn_eq hmem (Int32.toInt_ofNat_of_lt (Nat.lt_trans hk hR))]
  apply toMap_of_mem
  . rw [List.map_map]
    exact h.nodup_batch (Int32.ofNat k)
  . exact List.mem_map.mpr ⟨m, hm, rfl⟩

theorem length_take_le_takeWhile {α : Type} (pred : α → Bool) (l : List α) (n : Nat) (hn : n ≤ l.length)
    : (∀ x, x ∈ l.take n → pred x) ↔ n ≤ (l.takeWhile pred).length := by
  induction l generalizing n with
  | nil => simp at hn; simp [hn]
  | cons a l ih =>
    cases n with
    | zero => simp
    | succ n =>
      rw [List.length_cons, Nat.succ_le_succ_iff] at hn
      rw [List.take_succ_cons, List.forall_mem_cons, ih n hn, List.takeWhile_cons]
      cases pred a with
      | true => simp
      | false => simp

theorem IsFamily.roundComplete_iff (h : IsFamily R arrivals) (hR : R < 2 ^ 31) (hk : k < R) (t : Nat)
    : complete N arrivals k t ↔ arrivals.length - after arrivals k ≤ t := by
  unfold complete
  rcases Nat.le_total arrivals.length t with ht | ht
  . rw [List.take_of_length_le ht]
    exact iff_of_true (h.length_batch hR hk) (Nat.le_trans (Nat.sub_le _ _) ht)
  have hsplit : (batch (arrivals.take t) (Int32.ofNat k)).length
      + (batch (arrivals.drop t) (Int32.ofNat k)).length = N := by
    rw [← h.length_batch hR hk]
    conv => rhs; rw [← List.take_append_drop t arrivals]
    simp only [batch, List.length_reverse, List.length_map, List.filter_append, List.length_append]
  have hnone : (batch (arrivals.drop t) (Int32.ofNat k)).length = 0
      ↔ ∀ e, e ∈ arrivals.reverse.take (arrivals.length - t) → decide (e.round.toInt ≠ k) := by
    rw [batch, List.length_reverse, List.length_map, List.length_eq_zero_iff, List.filter_eq_nil_iff,
      ← List.reverse_drop]
    simp [round_eq_iff (Nat.lt_trans hk hR)]
  rw [length_take_le_takeWhile _ _ _ (by rw [List.length_reverse]; exact Nat.sub_le _ _)] at hnone
  have hafter : after arrivals k
      = (arrivals.reverse.takeWhile (fun e => decide (e.round.toInt ≠ (k : Int)))).length := rfl
  rw [hafter]
  omega

end Family

section Receive

variable {R : Nat} {arrivals : List (Round M)}

/--
What is known after `t` receptions.
-/
structure Party.Received (party : Party N M) (arrivals : List (Round M)) (t : Nat) : Prop where
  receives : party.Receives
  collected : party.collected = arrivals.take t
  count : party.startRounds.length = closed (complete N arrivals) t
  older : party.older = []

theorem Party.Received.init : ({} : Party N M).Received arrivals 0 where
  receives := .init
  collected := rfl
  count := rfl
  older := rfl

theorem Party.Received.initRound {party : Party N M} {t : Nat} (h : party.Received arrivals t)
    : (party.deliver .initRound).Received arrivals t := by
  have hstartRounds : (party.deliver .initRound).startRounds = party.startRounds := by
    simp [Party.deliver, Party.startRounds]
  constructor
  . constructor
    . rw [hstartRounds]
      exact h.receives.recvRound
    . exact h.receives.recvStash
    . rw [hstartRounds]
      exact h.receives.startRounds
  . exact h.collected
  . rw [hstartRounds]
    exact h.count
  . exact h.older

theorem Party.Received.send [DecidableEq M] {party : Party N M} {t : Nat}
    (h : party.Received arrivals t) {me : PID N} {m : M} {result : Party N M × List (Event S (Round M))}
    (hcase : party.SendCase me m result)
    : result.1.Received arrivals t := by
  obtain ⟨hcollected, holder, hsignals, -, -⟩ := hcase.frame
  constructor
  . exact hcase.receives h.receives
  . rw [hcollected]
    exact h.collected
  . rw [Party.startRounds, hsignals]
    exact h.count
  . rw [holder]
    exact h.older

theorem IsFamily.not_complete (h : IsFamily R arrivals) (hN : 0 < N) (hR : R < 2 ^ 31) (t : Nat)
    : ¬ complete N arrivals R t := by
  have hempty : batch (arrivals.take t) (Int32.ofNat R) = [] := by
    rw [List.eq_nil_iff_forall_not_mem]
    intro m hm
    have hmem := List.mem_of_mem_take (Exchange.mem_batch.mp hm)
    have hkey := (h.mem _ _).mp (List.mem_map.mpr ⟨_, hmem, rfl⟩)
    rw [Int32.toInt_ofNat_of_lt hR] at hkey
    exact Int.lt_irrefl _ hkey.2
  rw [complete, hempty]
  exact Nat.ne_of_lt hN

theorem IsFamily.not_older (h : IsFamily R arrivals) (hN : 0 < N) (hR : R < 2 ^ 31)
    {party : Party N M} {t : Nat} (hparty : party.Received arrivals t) {e : Round M}
    (he : arrivals[t]? = some e)
    : party.rounds.recvRound ≤ e.round := by
  obtain ⟨ht, hget⟩ := List.getElem?_eq_some_iff.mp he
  have hmem : e ∈ arrivals := List.mem_of_getElem? he
  obtain ⟨hlo, hhi⟩ := (h.mem _ _).mp (List.mem_map.mpr ⟨e, hmem, rfl⟩)
  obtain ⟨k, hk⟩ := Int.eq_ofNat_of_zero_le hlo
  have hkR : k < R := by omega
  have hle := Closing.closed_le (h.not_complete hN hR) t
  rw [← hparty.count] at hle
  rw [hparty.receives.recvRound, (round_eq_iff (Nat.lt_trans hkR hR)).mpr hk,
    Int32.ofNat_le_ofNat_of_lt (by omega) (by omega)]
  by_contra hlt
  -- a round that has been closed has had all its messages
  obtain ⟨start, hstart⟩ : ∃ start, party.startRounds[k]? = some start :=
    ⟨_, List.getElem?_eq_getElem (Nat.lt_of_not_le hlt)⟩
  have hcomplete := (hparty.receives.startRounds k start hstart).2
  rw [hparty.collected] at hcomplete
  have hfull := h.length_batch hR hkR
  rw [← List.take_append_drop (t + 1) arrivals, List.take_add_one, he] at hfull
  simp only [batch, List.length_reverse, List.length_map, List.filter_append, List.length_append,
    Option.toList_some, List.filter_singleton] at hfull hcomplete
  rw [decide_eq_true ((round_eq_iff (Nat.lt_trans hkR hR)).mpr hk), cond_true,
    List.length_singleton] at hfull
  omega

theorem IsFamily.receive (h : IsFamily R arrivals) (hN : 0 < N) (hR : R < 2 ^ 31)
    {party : Party N M} {t : Nat} (hparty : party.Received arrivals t) {e : Round M}
    (he : arrivals[t]? = some e)
    : (party.onReceive e).1.Received arrivals (t + 1) := by
  have hround := h.not_older hN hR hparty he
  have hcase := party.onReceive_cases e
  have hle := Closing.closed_le (h.not_complete hN hR) (t + 1)
  have htake : party.collected ++ [e] = arrivals.take (t + 1) := by
    rw [hparty.collected, List.take_add_one, he]
    rfl
  have hstash := hparty.receives.stashWith (Int32.le_refl _) e
  rw [htake, hparty.receives.recvRound, hparty.count] at hstash
  have hclosed : (party.onReceive e).1.startRounds.length = closed (complete N arrivals) (t + 1) := by
    rw [hcase.startRounds_eq, List.length_append, hparty.count, closed]
    revert hcase
    generalize party.onReceive e = result
    intro hcase
    cases hcase with
    | older hnot => exact absurd hround hnot
    | stashed _ hlength =>
      rw [hparty.receives.recvRound, hparty.count, hstash] at hlength
      rw [if_neg (show ¬ complete N arrivals _ _ from hlength)]
      rfl
    | started start _ hlength =>
      rw [hparty.receives.recvRound, hparty.count, hstash] at hlength
      rw [if_pos (show complete N arrivals _ _ from hlength)]
      rfl
  obtain ⟨holder, hcollected⟩ := hcase.collected hround
  constructor
  . apply hcase.receives hparty.receives
    omega
  . rw [hcollected, htake]
  . exact hclosed
  . rw [holder, hparty.older]

theorem Party.Received.started_eq {party : Party N M}
    (hparty : party.Received arrivals arrivals.length) {family : List (Round M)}
    (hfamily : IsFamily R family) (hperm : arrivals.Perm family) (hR : R < 2 ^ 31)
    (hle : closed (complete N arrivals) arrivals.length ≤ R)
    : party.started = promised (closed (complete N arrivals) arrivals.length) family := by
  apply List.ext_getElem?
  intro i
  rw [Party.started, promised, List.getElem?_map, List.getElem?_map, ← hparty.count]
  rw [← hparty.count] at hle
  rcases Nat.lt_or_ge i party.startRounds.length with hi | hi
  . have hget := List.getElem?_eq_getElem hi
    obtain ⟨hstart, -⟩ := hparty.receives.startRounds i _ hget
    have hiR : i < R := Nat.lt_of_lt_of_le hi hle
    rw [hget, hstart, hparty.collected, List.take_length, List.getElem?_range hi]
    have hvector := (hfamily.perm hperm).messageVector_eq hR hiR
    have hsent : ∀ p, sentIn arrivals i p = sentIn family i p := by
      intro p
      obtain ⟨m, hm, rfl⟩ := (hfamily.perm hperm).mem_batch hR hiR p
      have hmem := Exchange.mem_batch.mp hm
      have hto := Int32.toInt_ofNat_of_lt (Nat.lt_trans hiR hR)
      rw [(hfamily.perm hperm).sentIn_eq hmem hto,
        hfamily.sentIn_eq ((hperm.mem_iff).mp hmem) hto]
    simp only [Option.map_some, Option.some_inj, Prod.mk.injEq]
    constructor
    . rw [Int32.toInt_ofNat_of_lt (by omega)]
      rfl
    . rw [hvector]
      funext p
      rw [hsent]
  . rw [List.getElem?_eq_none hi, List.getElem?_eq_none (by simpa using hi)]
    rfl

end Receive

section Instances

variable {R t : Nat} {received arrivals family : List (Round M)} {me : PID N}

theorem Node.onReceive_party (node : Node N M) (e : Round M) (reaction : List M)
    : (node.onReceive e reaction).party = (node.party.onReceive e).1 := by
  unfold Node.onReceive
  split
  . next heq => rw [heq]
  . next heq =>
    rw [heq]
    rfl

theorem Node.handOver_received [DecidableEq M] {node node' : Node N M}
    {sends : List (Event S (Round M))} (h : node.party.Received arrivals t)
    (hst : node.handOver S me = some (node', sends))
    : node'.party.Received arrivals t := by
  obtain ⟨m, outbox, result, -, hcase, hnode, -⟩ := Node.handOver_cases hst
  rw [hnode]
  exact h.send hcase

theorem received_take (h : IsFamily R arrivals) (hR : R < 2 ^ 31) (me : PID N) {t : Nat}
    {node : Node N M} {queue : List (Round M)} {e : Round M} (hparty : node.party.Received arrivals t)
    (hpre : received <+: arrivals) (hcons : received.drop t = e :: queue) (reaction : List M)
    : t + 1 ≤ received.length ∧ queue = received.drop (t + 1)
        ∧ (node.onReceive e reaction).party.Received arrivals (t + 1) := by
  have hget : received[t]? = some e := by
    rw [← List.head?_drop, hcons]
    rfl
  obtain ⟨hlt, -⟩ := List.getElem?_eq_some_iff.mp hget
  refine ⟨hlt, ?_, ?_⟩
  . rw [← List.tail_drop, hcons]
    rfl
  . rw [Node.onReceive_party]
    apply h.receive (Nat.zero_lt_of_lt me.isLt) hR hparty
    rw [List.prefix_iff_getElem?.mp hpre t hlt, ← List.getElem?_eq_getElem hlt, hget]

variable [DecidableEq M]

theorem received_of_after (h : IsFamily R arrivals) (hR : R < 2 ^ 31) {node : Node N M}
    (hafter : (program (S := S)).After me received node) (hpre : received <+: arrivals)
    : node.party.Received arrivals received.length := by
  induction hafter with
  | init => exact .init
  | input i _ hinput ih =>
    cases i with
    | preStart reaction =>
      simp only [program, Option.ite_none_left_eq_some, Option.some_inj, Prod.mk.injEq] at hinput
      obtain ⟨-, hnode, -⟩ := hinput
      rw [← hnode]
      exact (ih hpre).initRound
    | handOver =>
      simp only [program, Option.map_eq_some_iff] at hinput
      obtain ⟨⟨node', sends⟩, hhand, hnode⟩ := hinput
      cases hnode
      exact Node.handOver_received (ih hpre) hhand
    | signal ie =>
      simp only [program, Party.onSend_signal, Option.some_inj, Prod.mk.injEq] at hinput
      obtain ⟨hnode, -⟩ := hinput
      rw [← hnode]
      exact ih hpre
  | receive e reaction _ hreceive ih =>
    simp only [program, Option.some_inj, Prod.mk.injEq] at hreceive
    obtain ⟨hnode, -⟩ := hreceive
    obtain ⟨rest, rfl⟩ := hpre
    rw [← hnode, Node.onReceive_party, List.length_append, List.length_singleton]
    apply h.receive (Nat.zero_lt_of_lt me.isLt) hR (ih ⟨[e] ++ rest, (List.append_assoc _ _ _).symm⟩)
    rw [List.append_assoc, List.getElem?_append_right (Nat.le_refl _), Nat.sub_self]
    rfl

theorem exists_after (S : Type) (me : PID N) (received : List (Round M))
    : ∃ node, (program (S := S)).After me received node := by
  induction received using List.reverseRecOn with
  | nil => exact ⟨_, .init⟩
  | append_singleton received e ih =>
    obtain ⟨node, hnode⟩ := ih
    exact ⟨_, .receive e [] hnode rfl⟩

theorem active_of_after (h : IsFamily R arrivals) (hR : R < 2 ^ 31)
    {node : SynchronousRounds.Node N M}
    (hafter : (SynchronousRounds.program (S := S)).After me received node)
    (hpre : received <+: arrivals)
    : ∃ t, t ≤ received.length ∧ node.queue = received.drop t ∧ node.party.Received arrivals t := by
  induction hafter with
  | init => exact ⟨0, Nat.le_refl 0, rfl, .init⟩
  | @input received _ _ _ i _ hinput ih =>
    obtain ⟨t, ht, hqueue, hparty⟩ := ih hpre
    cases i with
    | run reaction =>
      simp only [SynchronousRounds.program, Option.ite_none_right_eq_some, Option.some_inj,
        Prod.mk.injEq] at hinput
      obtain ⟨-, hnode, -⟩ := hinput
      rw [← hnode]
      exact ⟨t, ht, hqueue, hparty.initRound⟩
    | test =>
      simp only [SynchronousRounds.program, Option.ite_none_right_eq_some, Option.some_inj,
        Prod.mk.injEq] at hinput
      obtain ⟨-, hnode, -⟩ := hinput
      rw [← hnode]
      exact ⟨t, ht, hqueue, hparty⟩
    | take reaction =>
      simp only [SynchronousRounds.program] at hinput
      split at hinput
      . next e queue _ hcons =>
        simp only [Option.some_inj, Prod.mk.injEq] at hinput
        obtain ⟨hnode, -⟩ := hinput
        rw [hqueue] at hcons
        rw [← hnode]
        exact ⟨t + 1, received_take h hR me hparty hpre hcons reaction⟩
      . cases hinput
    | handOver =>
      simp only [SynchronousRounds.program, Option.map_eq_some_iff] at hinput
      obtain ⟨⟨node', sends⟩, hhand, hnode⟩ := hinput
      cases hnode
      obtain ⟨hnode', hqueue', -, -⟩ := SynchronousRounds.Node.handOver_cases hhand
      rw [hqueue']
      exact ⟨t, ht, hqueue, Node.handOver_received hparty hnode'⟩
    | signal ie =>
      simp only [SynchronousRounds.program, Option.some_inj, Prod.mk.injEq] at hinput
      obtain ⟨hnode, -⟩ := hinput
      obtain ⟨hnode', hqueue', -, -⟩ := SynchronousRounds.Node.onSend_signal (M := M) _ me ie
      rw [← hnode, hqueue', hnode']
      exact ⟨t, ht, hqueue, hparty⟩
  | receive e _ _ hreceive ih =>
    simp only [SynchronousRounds.program, Option.some_inj, Prod.mk.injEq] at hreceive
    obtain ⟨hnode, -⟩ := hreceive
    obtain ⟨t, ht, hqueue, hparty⟩ := ih ((List.prefix_append _ _).trans hpre)
    rw [← hnode]
    refine ⟨t, ?_, ?_, hparty⟩
    . rw [List.length_append]
      exact Nat.le_add_right_of_le ht
    . rw [List.drop_append_of_le_length ht, ← hqueue]

-- The thread takes each message from the queue before the next one arrives.
theorem exists_active (h : IsFamily R arrivals) (hR : R < 2 ^ 31) (S : Type) (me : PID N)
    (hpre : received <+: arrivals)
    : ∃ node, (SynchronousRounds.program (S := S)).After me received node ∧ node.queue = []
        ∧ node.control = .loop ∧ node.isDone = false := by
  induction received using List.reverseRecOn with
  | nil => exact ⟨_, .input (.run []) .init rfl, rfl, rfl, rfl⟩
  | append_singleton received e ih =>
    have hbefore : received <+: arrivals := (List.prefix_append _ _).trans hpre
    obtain ⟨node, hafter, hqueue, hcontrol, hdone⟩ := ih hbefore
    obtain ⟨t, ht, hdrop, hparty⟩ := active_of_after h hR hafter hbefore
    have hget : arrivals[t]? = some e := by
      have hlen : t = received.length := by
        rw [hqueue, eq_comm, List.drop_eq_nil_iff] at hdrop
        omega
      rw [hlen, List.prefix_iff_getElem?.mp hpre _ (by simp), List.getElem_concat_length rfl]
    have hround := h.not_older (Nat.zero_lt_of_lt me.isLt) hR hparty hget
    have hreceive := hafter.receive e () rfl
    have htest := hreceive.input (i := .test) (by
      simp only [SynchronousRounds.program]
      rw [if_pos hcontrol])
    have htake := htest.input (i := .take []) (by
      simp only [SynchronousRounds.program, SynchronousRounds.Node.test, hdone, hqueue]
      rfl)
    refine ⟨_, htake, rfl, ?_, rfl⟩
    simp only [SynchronousRounds.Node.take, RoundBased.onReceive]
    rw [if_pos hround]
    rfl

end Instances

section Order

variable {R : Nat} {family arrivals : List (Round M)}
  {instances : List (Round M) → Party N M → Prop}

/--
What `instances` is to `arrivals`, for both protocols.
-/
structure Accepting (instances : List (Round M) → Party N M → Prop) (arrivals : List (Round M))
    : Prop where
  received : ∀ received party, received <+: arrivals → instances received party →
    party.Received arrivals received.length
  exist : ∀ received, received <+: arrivals → ∃ party, instances received party

theorem IsFamily.after_lt (h : IsFamily R arrivals) (hN : 0 < N) {k : Nat} (hk : k < R)
    : after arrivals k < arrivals.length := by
  obtain ⟨e, he, heq⟩ := List.mem_map.mp
    ((h.mem k ⟨0, hN⟩).mpr ⟨Int.natCast_nonneg k, Int.ofNat_lt.mpr hk⟩)
  rw [Prod.mk.injEq] at heq
  by_contra hnot
  have hall : ∀ x, x ∈ arrivals.reverse.take arrivals.length → decide (x.round.toInt ≠ (k : Int)) := by
    rw [length_take_le_takeWhile _ _ _ (by rw [List.length_reverse])]
    exact Nat.not_lt.mp hnot
  rw [← List.length_reverse, List.take_length] at hall
  exact of_decide_eq_true (hall e (List.mem_reverse.mpr he)) heq.1

theorem IsFamily.remaining_pos (h : IsFamily R arrivals) (hN : 0 < N) (k : Nat) (hk : k < R)
    : 0 < arrivals.length - after arrivals k :=
  Nat.sub_pos_of_lt (h.after_lt hN hk)

theorem promised_inj {R R' : Nat} (h : promised R family = promised (N := N) R' family) : R = R' := by
  have hlen := congrArg List.length h
  simpa [promised] using hlen

theorem Accepting.startsAll_iff_punctual (hinstances : Accepting instances arrivals)
    (hfamily : IsFamily R family) (hperm : arrivals.Perm family) (hN : 0 < N) (hR : R < 2 ^ 31)
    : StartsAll instances R family arrivals ↔ Punctual R arrivals := by
  have h := hfamily.perm hperm
  have hle := Closing.closed_le (h.not_complete hN hR) arrivals.length
  have hstarted : ∀ party, instances arrivals party →
      party.started = promised (closed (complete N arrivals) arrivals.length) family := by
    intro party hparty
    exact (hinstances.received _ party List.prefix_rfl hparty).started_eq hfamily hperm hR hle
  have hclosed : R ≤ closed (complete N arrivals) arrivals.length ↔ Punctual R arrivals := by
    rw [Closing.le_closed_iff (fun k t hk => h.roundComplete_iff hR hk t) (h.remaining_pos hN)
      (Nat.le_refl R)]
    apply forall₂_congr
    intro k hk
    have := h.after_lt hN hk
    omega
  constructor
  . rintro ⟨⟨party, hparty⟩, hall⟩
    rw [← hclosed]
    apply Nat.le_of_eq
    have hpromised := (hstarted party hparty).symm.trans (hall party hparty)
    exact promised_inj hpromised.symm
  . intro hpunctual
    refine ⟨hinstances.exist _ List.prefix_rfl, ?_⟩
    intro party hparty
    rw [hstarted party hparty, Nat.le_antisymm hle (hclosed.mpr hpunctual)]

theorem Accepting.alwaysSettled_iff (hinstances : Accepting instances arrivals)
    (h : IsFamily R arrivals) (hN : 0 < N) (hR : R < 2 ^ 31)
    : AlwaysSettled instances arrivals ↔ InOrder R arrivals := by
  have hsettled : ∀ received party, received <+: arrivals → instances received party →
      (party.Settled
        ↔ ¬ complete N arrivals (closed (complete N arrivals) received.length) received.length) := by
    intro received party hpre hparty
    have hreceived := hinstances.received received party hpre hparty
    rw [Party.Settled, hreceived.receives.recvStash _ (Int32.le_refl _),
      hreceived.receives.recvRound, hreceived.collected, hreceived.count]
    rfl
  have hiff := Closing.settled_iff (L := arrivals.length) (fun k t hk => h.roundComplete_iff hR hk t)
    (h.remaining_pos hN) (fun k _ => Nat.sub_le _ _) (h.not_complete hN hR)
  have horder : InOrder R arrivals
      ↔ ∀ k, k + 1 < R → arrivals.length - after arrivals k < arrivals.length - after arrivals (k + 1) := by
    apply forall₂_congr
    intro k hk
    have := h.after_lt hN hk
    have := h.after_lt hN (Nat.lt_of_succ_lt hk)
    omega
  rw [horder, ← hiff]
  constructor
  . intro hall t ht
    have hpre := List.take_prefix t arrivals
    obtain ⟨party, hparty⟩ := hinstances.exist _ hpre
    have hnot := (hsettled _ party hpre hparty).mp (hall _ party hpre hparty)
    rw [List.length_take_of_le ht] at hnot
    exact hnot
  . intro hall received party hpre hparty
    exact (hsettled received party hpre hparty).mpr (hall _ hpre.length_le)

-- The number of the last signal that is promised is not an `Int32`.
theorem not_startsAll_of_overflow (hR : ¬ R < 2 ^ 31) : ¬ StartsAll instances R family arrivals := by
  rintro ⟨⟨party, hparty⟩, hall⟩
  have hpromised : ((2 ^ 31 : Int), fun p => (sentIn family (2 ^ 31 - 1) p).map some)
      ∈ promised (N := N) R family := by
    rw [promised, List.mem_map]
    exact ⟨2 ^ 31 - 1, List.mem_range.mpr (by omega), by simp⟩
  rw [← hall party hparty, Party.started, List.mem_map] at hpromised
  obtain ⟨e, -, heq⟩ := hpromised
  have hround := congrArg Prod.fst heq
  have hlt := Int32.toInt_lt e.round
  dsimp only at hround
  omega

end Order

section OrderFree

variable [DecidableEq M] {R : Nat} {family arrivals : List (Round M)}

theorem accepting_reactive (h : IsFamily R arrivals) (hR : R < 2 ^ 31) (me : PID N)
    : Accepting (Reactive S me) arrivals where
  received := by
    rintro received party hpre ⟨node, hafter, rfl⟩
    exact received_of_after h hR hafter hpre
  exist := by
    intro received _
    obtain ⟨node, hafter⟩ := exists_after S me received
    exact ⟨_, node, hafter, rfl⟩

theorem accepting_active (h : IsFamily R arrivals) (hR : R < 2 ^ 31) (me : PID N)
    : Accepting (Active S me) arrivals where
  received := by
    rintro received party hpre ⟨node, hafter, hqueue, rfl⟩
    obtain ⟨t, ht, hdrop, hparty⟩ := active_of_after h hR hafter hpre
    rw [hqueue, eq_comm, List.drop_eq_nil_iff] at hdrop
    rw [Nat.le_antisymm hdrop ht]
    exact hparty
  exist := by
    intro received hpre
    obtain ⟨node, hafter, hqueue, -, -⟩ := exists_active h hR S me hpre
    exact ⟨_, node, hafter, hqueue, rfl⟩

/--
The instance starts all rounds if and only if the number of the last one is an `Int32`, and after the
last message of each round there are as many receptions as there are rounds after it. No complete batch
ever waits if and only if the rounds are completed in their order.
-/
theorem startsAll_iff (hfamily : IsFamily R family) (hperm : arrivals.Perm family) (me : PID N)
    : (StartsAll (Reactive S me) R family arrivals ↔ R < 2 ^ 31 ∧ Punctual R arrivals)
        ∧ (StartsAll (Active S me) R family arrivals ↔ R < 2 ^ 31 ∧ Punctual R arrivals)
        ∧ (R < 2 ^ 31 →
          (AlwaysSettled (Reactive S me) arrivals ↔ InOrder R arrivals)
            ∧ (AlwaysSettled (Active S me) arrivals ↔ InOrder R arrivals)) := by
  have hN := Nat.zero_lt_of_lt me.isLt
  have h := hfamily.perm hperm
  by_cases hR : R < 2 ^ 31
  . have hreactive := accepting_reactive (S := S) h hR me
    have hactive := accepting_active (S := S) h hR me
    rw [hreactive.startsAll_iff_punctual hfamily hperm hN hR, hactive.startsAll_iff_punctual hfamily hperm hN hR]
    refine ⟨(and_iff_right hR).symm, (and_iff_right hR).symm, fun _ => ?_⟩
    exact ⟨hreactive.alwaysSettled_iff h hN hR, hactive.alwaysSettled_iff h hN hR⟩
  . refine ⟨?_, ?_, fun hlt => absurd hlt hR⟩
    . exact iff_of_false (not_startsAll_of_overflow hR) (fun h => hR h.1)
    . exact iff_of_false (not_startsAll_of_overflow hR) (fun h => hR h.1)

end OrderFree

section Overtaking

-- A message of process `p` in round `k`, to everybody.
def vote (k : Nat) (p : PID 2) : Round (AppMessage 2 Unit) :=
  ⟨.multicast p Finset.univ (), Int32.ofNat k⟩

def votes : List (Round (AppMessage 2 Unit)) :=
  [0, 1].flatMap fun k => (List.finRange 2).map (vote k)

-- Both processes are a round ahead.
def overtaken : List (Round (AppMessage 2 Unit)) :=
  [1, 0].flatMap fun k => (List.finRange 2).map (vote k)

theorem isFamily_votes : IsFamily 2 votes where
  nodup := by decide
  mem := by
    intro k p
    have hkeys : votes.map (fun e => (e.round.toInt, fromPID e.msg))
        = [((0 : Int), (0 : PID 2)), (0, 1), (1, 0), (1, 1)] := rfl
    rw [hkeys]
    match p with
    | 0 =>
      simp
      omega
    | 1 =>
      simp
      omega

theorem startsAll_votes : StartsAll (Active Unit (0 : PID 2)) 2 votes votes :=
  (startsAll_iff isFamily_votes (.refl votes) 0).2.1.mpr (by decide)

theorem not_startsAll_of_overtaking
    : IsFamily 2 votes ∧ overtaken.Perm votes
        ∧ ¬ StartsAll (Reactive Unit (0 : PID 2)) 2 votes overtaken
        ∧ ¬ StartsAll (Active Unit (0 : PID 2)) 2 votes overtaken := by
  have hperm : overtaken.Perm votes := by decide
  have hnot : ¬ Punctual 2 overtaken := by decide
  have h := isFamily_votes.perm hperm
  have hreactive := accepting_reactive (S := Unit) h (by decide) 0
  have hactive := accepting_active (S := Unit) h (by decide) 0
  refine ⟨isFamily_votes, hperm, ?_, ?_⟩
  . rw [hreactive.startsAll_iff_punctual isFamily_votes hperm (by decide) (by decide)]
    exact hnot
  . rw [hactive.startsAll_iff_punctual isFamily_votes hperm (by decide) (by decide)]
    exact hnot

end Overtaking

end RoundBased
