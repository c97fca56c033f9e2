import ScalaNeko.Network.Lemmas
import ScalaNeko.Protocol.Lemmas.RoundParty

/-!
Instances of the round protocol that exchange their messages over a network that delivers each of
them once, in any order.
-/

open AsyncNetwork
open DisjointCover

namespace RoundBased

variable {N : Nat} {S M : Type} [Message N M]

open Message (destinations fromPID)

theorem destinations_round (e : Round M) : destinations e = destinations e.msg := rfl

theorem undelivered_transmit (sends : List (Event S (Round M))) (p : PID N)
    : undelivered ↑(transmit sends) p
      = (↑((messages sends).filter (fun e => p ∈ destinations e.msg)) : Multiset (Round M)) := by
  induction sends with
  | nil => rfl
  | cons event sends ih =>
    rw [transmit, List.flatMap_cons, ← Multiset.coe_add, undelivered_add]
    cases event with
    | signal ie =>
      rw [Multiset.coe_nil, undelivered_zero, Multiset.zero_add]
      exact ih
    | message e =>
      have hmessages : messages (.message e :: sends) = e :: messages sends := rfl
      rw [undelivered_fanOut, destinations_round, hmessages, List.filter_cons]
      by_cases hp : p ∈ destinations e.msg
      . rw [if_pos hp, if_pos (decide_eq_true hp), Multiset.singleton_add, ← Multiset.cons_coe]
        exact congrArg _ ih
      . rw [if_neg hp, if_neg (by simpa using hp), Multiset.zero_add]
        exact ih

theorem undelivered_transmit_add (sends : List (Event S (Round M)))
    (net : Multiset (Envelope (PID N) (Round M)))
    : undelivered (↑(transmit sends) + net : Multiset (Envelope (PID N) (Round M)))
      = fun p => ↑((messages sends).filter (fun e => p ∈ destinations e.msg)) + undelivered net p := by
  funext p
  rw [undelivered_add, undelivered_transmit]

/--
`flight p` is what `p` is still to receive. What a process received and is still to receive from
another is what that one sent to it.
-/
structure Exchange (party : PID N → Party N M) (flight : PID N → Multiset (Round M)) : Prop where
  sends : ∀ p, (party p).Sends p
  receives : ∀ p, (party p).Receives
  flushes_le : ∀ p, (party p).flushes ≤ 2 ^ 31
  startRounds_lt : ∀ p, (party p).startRounds.length < 2 ^ 31
  link : ∀ p q, (flight p).filter (fun e => fromPID e.msg = q)
      + ↑((party p).collected.filter (fun e => fromPID e.msg = q))
    = ↑((party q).emitted.filter (fun e => p ∈ destinations e.msg))
  older : ∀ p, (party p).older = []

def sentTo (party : Party N M) (p : PID N) (round : Int32) : List (Round M) :=
  party.emitted.filter (fun e => p ∈ destinations e.msg ∧ e.round = round)

theorem Party.Sends.sentTo_of_lt {party : Party N M} {me : PID N} (h : party.Sends me) (p : PID N)
    {k : Nat} (hk : k < party.flushes)
    : ∃ m, p ∈ destinations m ∧ sentTo party p (Int32.ofNat k) = [⟨m, Int32.ofNat k⟩] := by
  obtain ⟨m, hp, hfilter⟩ := (h.partition k hk).exists_filter_eq p
  refine ⟨m, hp, ?_⟩
  rw [tagged, List.filter_map, List.map_eq_singleton_iff] at hfilter
  obtain ⟨e, he, rfl⟩ := hfilter
  rw [List.filter_filter] at he
  have hround : e ∈ [e] := List.mem_singleton_self e
  rw [← he, List.mem_filter] at hround
  simp only [Function.comp_apply, Bool.and_eq_true, decide_eq_true_eq] at hround
  rw [← hround.2.2]
  rw [← hround.2.2] at he
  have hsentTo : sentTo party p e.round = [e] := by
    rw [← he, sentTo]
    apply List.filter_congr
    intro x hx
    simp
  exact hsentTo

theorem map_msg_sentTo (party : Party N M) (p : PID N) (round : Int32)
    : (sentTo party p round).map Round.msg
      = (tagged party.emitted round).filter (fun m => p ∈ destinations m) := by
  rw [tagged, List.filter_map, List.filter_filter, sentTo]
  congr 1
  apply List.filter_congr
  intro e he
  simp

theorem Party.Sends.exists_lt {party : Party N M} {me : PID N} (h : party.Sends me) {p : PID N}
    {round : Int32} {e : Round M} (he : e ∈ sentTo party p round)
    : ∃ k, k < party.flushes ∧ round = Int32.ofNat k := by
  rw [sentTo, List.mem_filter, decide_eq_true_eq] at he
  obtain ⟨k, hk, hround⟩ := h.emitted_round e he.1
  exact ⟨k, hk, he.2.2.symm.trans hround⟩

theorem Party.Sends.length_sentTo_le {party : Party N M} {me : PID N} (h : party.Sends me)
    (p : PID N) (round : Int32)
    : (sentTo party p round).length ≤ 1 := by
  cases hsent : sentTo party p round with
  | nil => exact Nat.zero_le _
  | cons e l =>
    have he : e ∈ sentTo party p round := by
      rw [hsent]
      exact List.mem_cons_self
    obtain ⟨k, hk, rfl⟩ := h.exists_lt he
    obtain ⟨m, -, hm⟩ := h.sentTo_of_lt p hk
    rw [← hsent, hm]
    exact Nat.le_refl _

theorem mem_of_nodup_of_length {l : List (PID N)} (hnodup : l.Nodup) (hlength : l.length = N)
    (q : PID N)
    : q ∈ l := by
  have huniv : l.toFinset = Finset.univ := by
    rw [← Finset.card_eq_iff_eq_univ, List.toFinset_card_of_nodup hnodup, hlength, Fintype.card_fin]
  rw [← List.mem_toFinset, huniv]
  exact Finset.mem_univ q

theorem foldl_update_of_not_mem {α : Type} {pairs : List (PID N × α)} {q : PID N}
    (map : PID N → Option α) (hnot : q ∉ pairs.map Prod.fst)
    : pairs.foldl (fun (map : PID N → Option α) pair => Function.update map pair.1 (some pair.2)) map q
      = map q := by
  induction pairs generalizing map with
  | nil => rfl
  | cons pair pairs ih =>
    rw [List.map_cons, List.mem_cons, not_or] at hnot
    rw [List.foldl_cons, ih _ hnot.2, Function.update_of_ne hnot.1]

theorem toMap_of_mem {α : Type} {pairs : List (PID N × α)} {q : PID N} {a : α}
    (hnodup : (pairs.map Prod.fst).Nodup) (hmem : (q, a) ∈ pairs)
    : toMap pairs q = some a := by
  unfold toMap
  generalize (fun _ => none : PID N → Option α) = map
  induction pairs generalizing map with
  | nil => cases hmem
  | cons pair pairs ih =>
    rw [List.map_cons, List.nodup_cons] at hnodup
    rw [List.mem_cons] at hmem
    rw [List.foldl_cons]
    rcases hmem with rfl | hmem
    . rw [foldl_update_of_not_mem _ hnodup.1, Function.update_self]
    . exact ih hnodup.2 hmem _

namespace Exchange

variable {party : PID N → Party N M} {flight : PID N → Multiset (Round M)} {p q : PID N}
  {e : Round M}

theorem link_round (h : Exchange party flight) (p q : PID N) (round : Int32)
    : (flight p).filter (fun e => fromPID e.msg = q ∧ e.round = round)
        + ↑((party p).collected.filter (fun e => fromPID e.msg = q ∧ e.round = round))
      = (↑(sentTo (party q) p round) : Multiset (Round M)) := by
  have hlink := congrArg (Multiset.filter (fun e => e.round = round)) (h.link p q)
  rw [Multiset.filter_add, Multiset.filter_filter, Multiset.filter_coe, Multiset.filter_coe,
    List.filter_filter, List.filter_filter] at hlink
  simp only [sentTo]
  simpa [and_comm] using hlink

theorem nodup_collected (h : Exchange party flight) (p : PID N) (round : Int32)
    : ((batch (party p).collected round).map fromPID).Nodup := by
  rw [batch, List.map_reverse, List.nodup_reverse, List.nodup_iff_count_le_one]
  intro q
  have hcard := congrArg Multiset.card (h.link_round p q round)
  rw [Multiset.card_add, Multiset.coe_card, Multiset.coe_card] at hcard
  have hle := (h.sends q).length_sentTo_le p round
  rw [List.map_map, List.count_eq_countP, List.countP_map, List.countP_filter,
    List.countP_eq_length_filter]
  have hfilter : (party p).collected.filter
      (fun e => ((fun x => x == q) ∘ fromPID ∘ Round.msg) e && decide (e.round = round))
      = (party p).collected.filter (fun e => fromPID e.msg = q ∧ e.round = round) := by
    apply List.filter_congr
    intro e he
    rw [Bool.eq_iff_iff]
    simp
  rw [hfilter]
  omega

theorem exists_of_complete (h : Exchange party flight) {round : Int32}
    (hlength : (batch (party p).collected round).length = N) (q : PID N)
    : ∃ m, m ∈ batch (party p).collected round ∧ fromPID m = q := by
  have hmem := mem_of_nodup_of_length (h.nodup_collected p round) (by rw [List.length_map, hlength]) q
  rw [List.mem_map] at hmem
  exact hmem

theorem mem_sentTo_of_flight (h : Exchange party flight) (he : e ∈ flight p)
    : e ∈ sentTo (party (fromPID e.msg)) p e.round := by
  rw [← Multiset.mem_coe, ← h.link_round, Multiset.mem_add]
  exact .inl (Multiset.mem_filter.mpr ⟨he, rfl, rfl⟩)

theorem mem_batch {collected : List (Round M)} {round : Int32} {m : M}
    : m ∈ batch collected round ↔ ⟨m, round⟩ ∈ collected := by
  rw [batch, List.mem_reverse, List.mem_map]
  constructor
  . rintro ⟨e, he, rfl⟩
    rw [List.mem_filter, decide_eq_true_eq] at he
    obtain ⟨he, rfl⟩ := he
    exact he
  . intro he
    exact ⟨_, List.mem_filter.mpr ⟨he, decide_eq_true rfl⟩, rfl⟩

theorem mem_sentTo_of_batch (h : Exchange party flight) {round : Int32} {m : M}
    (hm : m ∈ batch (party p).collected round)
    : ⟨m, round⟩ ∈ sentTo (party (fromPID m)) p round := by
  rw [← Multiset.mem_coe, ← h.link_round, Multiset.mem_add]
  exact .inr (List.mem_filter.mpr ⟨mem_batch.mp hm, decide_eq_true ⟨rfl, rfl⟩⟩)

theorem not_older (h : Exchange party flight) (he : e ∈ flight p)
    : (party p).rounds.recvRound ≤ e.round := by
  obtain ⟨k, hk, hround⟩ := (h.sends _).exists_lt (h.mem_sentTo_of_flight he)
  have hk31 := Nat.lt_of_lt_of_le hk (h.flushes_le _)
  rw [(h.receives p).recvRound, hround, Int32.ofNat_le_ofNat_of_lt (h.startRounds_lt p) hk31]
  by_contra hover
  -- the round is over, so a message of the same sender has been collected
  rw [not_le] at hover
  obtain ⟨start, hstart⟩ : ∃ start, (party p).startRounds[k]? = some start :=
    ⟨_, List.getElem?_eq_getElem hover⟩
  obtain ⟨-, hlength⟩ := (h.receives p).startRounds k start hstart
  obtain ⟨m, hm, hfrom⟩ := h.exists_of_complete hlength (fromPID e.msg)
  have hcard := congrArg Multiset.card (h.link_round p (fromPID e.msg) e.round)
  rw [Multiset.card_add, Multiset.coe_card, Multiset.coe_card] at hcard
  have hle := (h.sends (fromPID e.msg)).length_sentTo_le p e.round
  have hflight : 0 < Multiset.card
      ((flight p).filter (fun x => fromPID x.msg = fromPID e.msg ∧ x.round = e.round)) :=
    Multiset.card_pos_iff_exists_mem.mpr ⟨e, Multiset.mem_filter.mpr ⟨he, rfl, rfl⟩⟩
  have hcollected : 0 < ((party p).collected.filter
      (fun x => fromPID x.msg = fromPID e.msg ∧ x.round = e.round)).length := by
    apply List.length_pos_of_mem (a := ⟨m, e.round⟩)
    rw [List.mem_filter, decide_eq_true_eq]
    rw [hround]
    exact ⟨mem_batch.mp hm, hfrom, rfl⟩
  omega

theorem msgs_startRound (h : Exchange party flight) {i : Nat} {start : StartRound N M}
    (hstart : (party p).startRounds[i]? = some start) (q : PID N)
    : ∃ m, start.msgs q = some (some m) ∧ fromPID m = q
        ∧ sentTo (party q) p (Int32.ofNat i) = [⟨m, Int32.ofNat i⟩] := by
  obtain ⟨rfl, hlength⟩ := (h.receives p).startRounds i start hstart
  obtain ⟨m, hm, rfl⟩ := h.exists_of_complete hlength q
  refine ⟨m, ?_, rfl, ?_⟩
  . apply toMap_of_mem
    . rw [List.map_map]
      exact h.nodup_collected p (Int32.ofNat i)
    . exact List.mem_map.mpr ⟨m, hm, rfl⟩
  . have hmem := h.mem_sentTo_of_batch hm
    obtain ⟨k, hk, hround⟩ := (h.sends _).exists_lt hmem
    obtain ⟨m', -, hsent⟩ := (h.sends _).sentTo_of_lt p hk
    rw [hround, hsent, List.mem_singleton] at hmem
    rw [hround, hsent, hmem]

theorem startRounds_le_flushes (h : Exchange party flight) (p q : PID N)
    : (party p).startRounds.length ≤ (party q).flushes := by
  by_contra hlt
  rw [not_le] at hlt
  obtain ⟨start, hstart⟩ : ∃ start, (party p).startRounds[(party q).flushes]? = some start :=
    ⟨_, List.getElem?_eq_getElem hlt⟩
  obtain ⟨m, -, -, hsent⟩ := h.msgs_startRound hstart q
  obtain ⟨k, hk, hround⟩ := (h.sends q).exists_lt (p := p) (by rw [hsent]; exact List.mem_cons_self)
  have hlt31 := Nat.lt_trans hlt (h.startRounds_lt p)
  rw [Int32.ofNat_inj_of_lt hlt31 (by omega)] at hround
  omega

theorem incomplete_of_flushes_le (h : Exchange party flight)
    (hle : (party p).flushes ≤ (party p).startRounds.length)
    : (batch (party p).collected (party p).rounds.recvRound).length ≠ N := by
  intro hlength
  obtain ⟨m, hm, hfrom⟩ := h.exists_of_complete hlength p
  have hmem := h.mem_sentTo_of_batch hm
  rw [hfrom] at hmem
  obtain ⟨k, hk, hround⟩ := (h.sends p).exists_lt hmem
  have hlt := h.startRounds_lt p
  rw [(h.receives p).recvRound, Int32.ofNat_inj_of_lt hlt (by omega)] at hround
  omega

theorem complete_of_not_in_flight (h : Exchange party flight) {k : Nat}
    (hflight : ∀ e, e ∈ flight p → e.round ≠ Int32.ofNat k) (hk : ∀ q, k < (party q).flushes)
    : (batch (party p).collected (Int32.ofNat k)).length = N := by
  have hall : ((batch (party p).collected (Int32.ofNat k)).map fromPID).toFinset = Finset.univ := by
    rw [Finset.eq_univ_iff_forall]
    intro q
    obtain ⟨m, -, hsent⟩ := (h.sends q).sentTo_of_lt p (hk q)
    have hlink := h.link_round p q (Int32.ofNat k)
    have hnone : (flight p).filter (fun e => fromPID e.msg = q ∧ e.round = Int32.ofNat k) = 0 :=
      Multiset.filter_eq_nil.mpr (fun e he hround => hflight e he hround.2)
    rw [hnone, Multiset.zero_add, hsent, Multiset.coe_eq_coe,
      List.perm_singleton] at hlink
    have hmem : (⟨m, Int32.ofNat k⟩ : Round M) ∈ (party p).collected.filter
        (fun e => fromPID e.msg = q ∧ e.round = Int32.ofNat k) := by
      rw [hlink]
      exact List.mem_cons_self
    rw [List.mem_filter, decide_eq_true_eq] at hmem
    rw [List.mem_toFinset, List.mem_map]
    exact ⟨m, mem_batch.mpr hmem.1, hmem.2.1⟩
  have hcard := List.toFinset_card_of_nodup (h.nodup_collected p (Int32.ofNat k))
  rw [hall, Finset.card_univ, Fintype.card_fin, List.length_map] at hcard
  exact hcard.symm

theorem complete_of_flight_eq_zero (h : Exchange party flight) (hflight : flight p = 0) {k : Nat}
    (hk : ∀ q, k < (party q).flushes)
    : (batch (party p).collected (Int32.ofNat k)).length = N := by
  apply h.complete_of_not_in_flight _ hk
  intro e he
  rw [hflight] at he
  exact absurd he (Multiset.notMem_zero e)

theorem init : Exchange (fun _ => ({} : Party N M)) (fun _ => 0) where
  sends := fun _ => .init
  receives := fun _ => .init
  flushes_le := by simp
  startRounds_lt := by simp [Party.startRounds]
  link := by simp
  older := by simp

theorem update {party' : Party N M} {flight' : PID N → Multiset (Round M)}
    (h : Exchange party flight) (hsends : party'.Sends p) (hreceives : party'.Receives)
    (hflushes : party'.flushes ≤ 2 ^ 31) (hstartRounds : party'.startRounds.length < 2 ^ 31)
    (holder : party'.older = [])
    (hlink : ∀ p' q, (flight' p').filter (fun e => fromPID e.msg = q)
        + ↑((Function.update party p party' p').collected.filter (fun e => fromPID e.msg = q))
      = ↑((Function.update party p party' q).emitted.filter (fun e => p' ∈ destinations e.msg)))
    : Exchange (Function.update party p party') flight' := by
  constructor
  . exact (Function.forall_update_iff party (fun p x => Party.Sends x p)).mpr
      ⟨hsends, fun q _ => h.sends q⟩
  . exact (Function.forall_update_iff party (fun _ x => Party.Receives x)).mpr
      ⟨hreceives, fun q _ => h.receives q⟩
  . exact (Function.forall_update_iff party (fun _ x => Party.flushes x ≤ 2 ^ 31)).mpr
      ⟨hflushes, fun q _ => h.flushes_le q⟩
  . exact (Function.forall_update_iff party (fun _ x => (Party.startRounds x).length < 2 ^ 31)).mpr
      ⟨hstartRounds, fun q _ => h.startRounds_lt q⟩
  . exact hlink
  . exact (Function.forall_update_iff party (fun _ x => Party.older x = [])).mpr
      ⟨holder, fun q _ => h.older q⟩

theorem silent {party' : Party N M} {sends : List (Event S (Round M))} (h : Exchange party flight)
    (hparty : party p = party') (hsends : messages sends = [])
    : Exchange (Function.update party p party')
        (fun q => ↑((messages sends).filter (fun e => q ∈ destinations e.msg)) + flight q) := by
  have hflight : (fun q => ↑((messages sends).filter (fun e => q ∈ destinations e.msg)) + flight q)
      = flight := by
    funext q
    rw [hsends, List.filter_nil, Multiset.coe_nil, Multiset.zero_add]
  rw [hflight, ← hparty, Function.update_eq_self]
  exact h

theorem initRound (h : Exchange party flight) (p : PID N)
    : Exchange (Function.update party p ((party p).deliver .initRound)) flight := by
  have hstartRounds : ((party p).deliver .initRound).startRounds = (party p).startRounds := by
    simp [Party.deliver, Party.startRounds]
  apply h.update
  . exact { h.sends p with }
  . constructor
    . rw [hstartRounds]
      exact (h.receives p).recvRound
    . exact (h.receives p).recvStash
    . rw [hstartRounds]
      exact (h.receives p).startRounds
  . exact h.flushes_le p
  . rw [hstartRounds]
    exact h.startRounds_lt p
  . exact h.older p
  . intro p' q
    have hcollected : ((party p).deliver .initRound).collected = (party p).collected := rfl
    have hemitted : ((party p).deliver .initRound).emitted = (party p).emitted := rfl
    rw [field_update Party.collected hcollected, field_update Party.emitted hemitted]
    exact h.link p' q

theorem send [DecidableEq M] {m : M} {result : Party N M × List (Event S (Round M))}
    (h : Exchange party flight) (hcase : (party p).SendCase p m result) (hm : fromPID m = p)
    (hflushes : result.1.flushes ≤ 2 ^ 31)
    : Exchange (Function.update party p result.1)
        (fun q => ↑((messages result.2).filter (fun e => q ∈ destinations e.msg)) + flight q) := by
  obtain ⟨hcollected, holder, hsignals, -, -⟩ := hcase.frame
  have hsends := hcase.sends (h.sends p) hm hflushes
  have hfrom : ∀ e, e ∈ messages result.2 → fromPID e.msg = p := by
    intro e he
    apply hsends.emitted_from
    rw [hcase.emitted]
    exact List.mem_append_right _ he
  apply h.update hsends (hcase.receives (h.receives p)) hflushes
  . rw [Party.startRounds, hsignals]
    exact h.startRounds_lt p
  . rw [holder]
    exact h.older p
  . intro p' q
    rw [field_update Party.collected hcollected, Multiset.filter_add, Multiset.filter_coe,
      Multiset.add_assoc, h.link p' q]
    by_cases hq : q = p
    . subst hq
      have hall : ((messages result.2).filter (fun e => p' ∈ destinations e.msg)).filter
          (fun e => fromPID e.msg = q)
          = (messages result.2).filter (fun e => p' ∈ destinations e.msg) := by
        rw [List.filter_eq_self]
        intro e he
        exact decide_eq_true (hfrom e (List.mem_of_mem_filter he))
      rw [hall, Function.update_self, hcase.emitted, List.filter_append, Multiset.coe_add]
      exact Multiset.coe_eq_coe.mpr List.perm_append_comm
    . have hnone : ((messages result.2).filter (fun e => p' ∈ destinations e.msg)).filter
          (fun e => fromPID e.msg = q) = [] := by
        rw [List.filter_eq_nil_iff]
        intro e he heq
        exact hq ((of_decide_eq_true heq).symm.trans (hfrom e (List.mem_of_mem_filter he)))
      rw [hnone, Function.update_of_ne hq, Multiset.coe_nil, Multiset.zero_add]

theorem receive {rest : Multiset (Round M)} {result : Party N M × Option (StartRound N M)}
    (h : Exchange party flight) (hflight : flight p = e ::ₘ rest)
    (hcase : (party p).ReceiveCase e result) (hstartRounds : result.1.startRounds.length < 2 ^ 31)
    : Exchange (Function.update party p result.1) (Function.update flight p rest) := by
  obtain ⟨hemitted, hflushes, -, -, -⟩ := hcase.frame
  have hround := h.not_older (e := e) (by rw [hflight]; exact Multiset.mem_cons_self e rest)
  obtain ⟨holder, hcollected⟩ := hcase.collected hround
  apply h.update (hcase.sends (h.sends p)) (hcase.receives (h.receives p) hstartRounds) _ hstartRounds
  . rw [holder]
    exact h.older p
  . intro p' q
    rw [field_update Party.emitted hemitted, ← h.link p' q]
    by_cases hp : p' = p
    . have hmoved : rest + ↑((party p).collected ++ [e]) = flight p + ↑(party p).collected := by
        rw [hflight, ← Multiset.coe_add, Multiset.coe_singleton, ← Multiset.add_assoc,
          Multiset.add_comm, Multiset.singleton_add, Multiset.cons_add]
      have hfilter := congrArg (Multiset.filter (fun e => fromPID e.msg = q)) hmoved
      rw [Multiset.filter_add, Multiset.filter_add, Multiset.filter_coe, Multiset.filter_coe]
        at hfilter
      rw [hp, Function.update_self, Function.update_self, hcollected]
      exact hfilter
    . rw [Function.update_of_ne hp, Function.update_of_ne hp]
  . rw [hflushes]
    exact h.flushes_le p

end Exchange

end RoundBased
