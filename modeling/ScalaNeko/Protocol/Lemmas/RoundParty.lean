import ScalaNeko.Lib.DisjointCover
import ScalaNeko.Lib.MachineInt
import ScalaNeko.Lib.Record
import ScalaNeko.Protocol.Impl.RoundBased

/-!
One instance of the round protocol: what it sends in a round partitions the processes, and it starts
a round with all that it collected in the round before.
-/

open DisjointCover

namespace RoundBased

variable {N : Nat} {S M : Type} [Message N M]

open Message (destinations fromPID)

theorem foldl_card (batch : List M) (a : Nat)
    : batch.foldl (fun a m => a + (destinations m).card) a = a + size destinations batch := by
  induction batch generalizing a with
  | nil => rfl
  | cons m batch ih => rw [List.foldl_cons, ih, size_cons, Nat.add_assoc]

theorem batchSize_eq (batch : List M) : batchSize batch = size destinations batch := by
  rw [batchSize, foldl_card, Nat.zero_add]

theorem messages_map {W : Type} (f : M → W) (ms : List M)
    : messages (ms.map (fun m => (.message (f m) : Event S W))) = ms.map f := by
  rw [messages, List.filterMap_map, ← List.filterMap_eq_map]
  rfl

def tagged (emitted : List (Round M)) (round : Int32) : List M :=
  (emitted.filter (fun e => e.round = round)).map Round.msg

def batch (collected : List (Round M)) (round : Int32) : List M :=
  ((collected.filter (fun e => e.round = round)).map Round.msg).reverse

theorem tagged_append_map (emitted : List (Round M)) (ms : List M) (round t : Int32)
    : tagged (emitted ++ ms.map (fun m => ⟨m, round⟩)) t
      = if round = t then tagged emitted t ++ ms else tagged emitted t := by
  rw [tagged, List.filter_append, List.map_append, List.filter_map, List.map_map]
  split
  . next h => simp [tagged, Function.comp_def, h]
  . next h => simp [tagged, Function.comp_def, h]

theorem batch_append_singleton (collected : List (Round M)) (e : Round M) (t : Int32)
    : batch (collected ++ [e]) t
      = if e.round = t then e.msg :: batch collected t else batch collected t := by
  rw [batch, List.filter_append, List.map_append, List.reverse_append, List.filter_singleton]
  split
  . next h => simp [batch, h]
  . next h => simp [batch, h]

namespace Party

def startRounds (party : Party N M) : List (StartRound N M) :=
  party.signals.filterMap fun
    | .initRound => none
    | .startRound e => some e

structure Sends (party : Party N M) (me : PID N) : Prop where
  batch_from : ∀ m, m ∈ party.rounds.sendBatch → fromPID m = me
  batch_disjoint : IsDisjoint destinations party.rounds.sendBatch
  batch_open : size destinations party.rounds.sendBatch ≠ N
  sendRound : party.rounds.sendRound = Int32.ofNat party.flushes
  emitted_from : ∀ e, e ∈ party.emitted → fromPID e.msg = me
  emitted_round : ∀ e, e ∈ party.emitted → ∃ k, k < party.flushes ∧ e.round = Int32.ofNat k
  partition : ∀ k, k < party.flushes →
    IsPartition destinations (tagged party.emitted (Int32.ofNat k))

structure Receives (party : Party N M) : Prop where
  recvRound : party.rounds.recvRound = Int32.ofNat party.startRounds.length
  recvStash : ∀ t, party.rounds.recvRound ≤ t →
    party.rounds.recvStash t = batch party.collected t
  startRounds : ∀ i start, party.startRounds[i]? = some start →
    start = ⟨Int32.ofNat (i + 1), messageVector (batch party.collected (Int32.ofNat i))⟩
      ∧ (batch party.collected (Int32.ofNat i)).length = N

variable {party party' : Party N M} {me : PID N}

theorem Sends.init : Sends ({} : Party N M) me where
  batch_from := by simp
  batch_disjoint := .nil
  batch_open := by
    have := me.isLt
    rw [size_nil]
    omega
  sendRound := rfl
  emitted_from := by simp
  emitted_round := by simp
  partition := by simp

theorem Receives.init : Receives ({} : Party N M) where
  recvRound := rfl
  recvStash := by simp [batch]
  startRounds := by simp [Party.startRounds]

theorem Sends.tagged_eq_nil (h : party.Sends me) (hlt : party.flushes < 2 ^ 31)
    : tagged party.emitted (Int32.ofNat party.flushes) = [] := by
  rw [tagged, List.map_eq_nil_iff, List.filter_eq_nil_iff]
  intro e he
  obtain ⟨k, hk, hround⟩ := h.emitted_round e he
  rw [hround, decide_eq_true_eq, Int32.ofNat_inj_of_lt (by omega) hlt]
  omega

section Send

variable [DecidableEq M]

theorem onSend_signal (party : Party N M) (ie : S)
    : party.onSend me (.signal ie) = (party, [.signal ie]) := by
  simp [Party.onSend, RoundBased.onSend, messages]

inductive SendCase (party : Party N M) (me : PID N) (m : M)
    : Party N M × List (Event S (Round M)) → Prop where
  | refused (b : M) :
      b ∈ party.rounds.sendBatch →
      ¬ Disjoint (destinations b) (destinations m) →
      SendCase party me m
        ({ party with exceptions := party.exceptions ++ [severalMessages me] }, [])
  | kept :
      (∀ b, b ∈ party.rounds.sendBatch → Disjoint (destinations b) (destinations m)) →
      size destinations (party.rounds.sendBatch.insert m) ≠ N →
      SendCase party me m
        ({ party with
            rounds := { party.rounds with sendBatch := party.rounds.sendBatch.insert m } }, [])
  | completed :
      (∀ b, b ∈ party.rounds.sendBatch → Disjoint (destinations b) (destinations m)) →
      size destinations (party.rounds.sendBatch.insert m) = N →
      SendCase party me m
        ({ party with
            rounds :=
              { party.rounds with sendBatch := [], sendRound := party.rounds.sendRound + 1 }
            emitted := party.emitted
              ++ (party.rounds.sendBatch.insert m).map (⟨·, party.rounds.sendRound⟩)
            flushes := party.flushes + 1 },
          ((party.rounds.sendBatch.insert m).map (⟨·, party.rounds.sendRound⟩)).map .message)

theorem onSend_cases (party : Party N M) (me : PID N) (m : M)
    : SendCase (S := S) party me m (party.onSend me (.message m)) := by
  unfold Party.onSend RoundBased.onSend
  simp only [batchSize_eq]
  by_cases hany : party.rounds.sendBatch.any
      (fun b => (destinations b ∩ destinations m).Nonempty)
  . rw [if_pos hany]
    simp only [List.any_eq_true, decide_eq_true_eq] at hany
    obtain ⟨b, hb, hne⟩ := hany
    exact .refused b hb (Finset.not_disjoint_iff_nonempty_inter.mpr hne)
  . have hdisjoint : ∀ b, b ∈ party.rounds.sendBatch → Disjoint (destinations b) (destinations m) := by
      intro b hb
      by_contra hnot
      apply hany
      simp only [List.any_eq_true, decide_eq_true_eq]
      exact ⟨b, hb, Finset.not_disjoint_iff_nonempty_inter.mp hnot⟩
    rw [if_neg hany]
    by_cases hsize : size destinations (party.rounds.sendBatch.insert m) = N
    . have hne : (party.rounds.sendBatch.insert m).isEmpty = false := by
        simp only [List.isEmpty_eq_false_iff]
        intro hnil
        have hmem : m ∈ party.rounds.sendBatch.insert m := List.mem_insert_self
        rw [hnil] at hmem
        cases hmem
      rw [if_pos hsize]
      dsimp only
      rw [messages_map, List.isEmpty_map, hne]
      have hcompleted := @SendCase.completed N S M _ _ party me m hdisjoint hsize
      rw [List.map_map] at hcompleted
      exact hcompleted
    . rw [if_neg hsize]
      have hkept := @SendCase.kept N S M _ _ party me m hdisjoint hsize
      simpa [messages] using hkept

variable {m : M} {result : Party N M × List (Event S (Round M))}

theorem SendCase.frame (h : SendCase party me m result)
    : result.1.collected = party.collected ∧ result.1.older = party.older
        ∧ result.1.signals = party.signals
        ∧ result.1.rounds.recvRound = party.rounds.recvRound
        ∧ result.1.rounds.recvStash = party.rounds.recvStash := by
  cases h with
  | refused => exact ⟨rfl, rfl, rfl, rfl, rfl⟩
  | kept => exact ⟨rfl, rfl, rfl, rfl, rfl⟩
  | completed => exact ⟨rfl, rfl, rfl, rfl, rfl⟩

theorem SendCase.emitted (h : SendCase party me m result)
    : result.1.emitted = party.emitted ++ messages result.2 := by
  cases h with
  | refused => simp [messages]
  | kept => simp [messages]
  | completed =>
    dsimp only
    rw [List.map_map]
    congr 1
    exact (messages_map _ _).symm

theorem SendCase.receives (h : SendCase party me m result) (hreceives : party.Receives)
    : result.1.Receives := by
  obtain ⟨hcollected, -, hsignals, hrecvRound, hrecvStash⟩ := h.frame
  have hstartRounds : result.1.startRounds = party.startRounds := by
    rw [startRounds, hsignals]
    rfl
  constructor
  . rw [hrecvRound, hstartRounds]
    exact hreceives.recvRound
  . rw [hrecvRound, hrecvStash, hcollected]
    exact hreceives.recvStash
  . rw [hstartRounds, hcollected]
    exact hreceives.startRounds

theorem SendCase.sends (h : SendCase party me m result) (hsends : party.Sends me)
    (hm : fromPID m = me) (hflushes : result.1.flushes ≤ 2 ^ 31)
    : result.1.Sends me := by
  have hfrom : ∀ b, b ∈ party.rounds.sendBatch.insert m → fromPID b = me := by
    intro b hb
    rw [List.mem_insert_iff] at hb
    rcases hb with rfl | hb
    . exact hm
    . exact hsends.batch_from b hb
  cases h with
  | refused b hb hnot => exact { hsends with }
  | kept hdisjoint hsize =>
    exact { hsends with
      batch_from := hfrom
      batch_disjoint := hsends.batch_disjoint.insert hdisjoint
      batch_open := hsize }
  | completed hdisjoint hsize =>
    have hlt : party.flushes < 2 ^ 31 := hflushes
    constructor
    . simp
    . exact .nil
    . exact (@Sends.init N M _ me).batch_open
    . rw [hsends.sendRound, Int32.ofNat_add]
      rfl
    . intro e he
      rw [List.mem_append, List.mem_map] at he
      rcases he with he | ⟨b, hb, rfl⟩
      . exact hsends.emitted_from e he
      . exact hfrom b hb
    . intro e he
      rw [List.mem_append, List.mem_map] at he
      rcases he with he | ⟨b, hb, rfl⟩
      . obtain ⟨k, hk, hround⟩ := hsends.emitted_round e he
        exact ⟨k, Nat.lt_succ_of_lt hk, hround⟩
      . exact ⟨party.flushes, Nat.lt_succ_self _, hsends.sendRound⟩
    . intro k hk
      rw [tagged_append_map, hsends.sendRound]
      rcases Nat.lt_succ_iff_lt_or_eq.mp hk with hk | rfl
      . rw [if_neg (by rw [Int32.ofNat_inj_of_lt hlt (by omega)]; omega)]
        exact hsends.partition k hk
      . rw [if_pos rfl, hsends.tagged_eq_nil hlt, List.nil_append, isPartition_iff, Fintype.card_fin]
        exact ⟨hsends.batch_disjoint.insert hdisjoint, hsize⟩

theorem SendCase.of_univ (h : SendCase party me m result) (hbatch : party.rounds.sendBatch = [])
    (hm : destinations m = Finset.univ)
    : result.1.emitted = party.emitted ++ [⟨m, party.rounds.sendRound⟩]
        ∧ result.1.flushes = party.flushes + 1 ∧ result.1.rounds.sendBatch = [] := by
  cases h with
  | refused b hb =>
    rw [hbatch] at hb
    cases hb
  | kept _ hsize =>
    rw [hbatch, List.insert_nil, size_cons, hm, Finset.card_univ, Fintype.card_fin] at hsize
    exact absurd (Nat.add_zero N) hsize
  | completed =>
    dsimp only
    rw [hbatch, List.insert_nil]
    exact ⟨rfl, rfl, rfl⟩

end Send

section Receive

def stashWith (party : Party N M) (e : Round M) : Int32 → List M :=
  Function.update party.rounds.recvStash e.round (e.msg :: party.rounds.recvStash e.round)

inductive ReceiveCase (party : Party N M) (e : Round M)
    : Party N M × Option (StartRound N M) → Prop where
  | older :
      ¬ party.rounds.recvRound ≤ e.round →
      ReceiveCase party e ({ party with older := party.older ++ [e] }, none)
  | stashed :
      party.rounds.recvRound ≤ e.round →
      (party.stashWith e party.rounds.recvRound).length ≠ N →
      ReceiveCase party e
        ({ party with
            rounds := { party.rounds with recvStash := party.stashWith e }
            collected := party.collected ++ [e] }, none)
  | started (start : StartRound N M) :
      party.rounds.recvRound ≤ e.round →
      (party.stashWith e party.rounds.recvRound).length = N →
      start = ⟨party.rounds.recvRound + 1,
        messageVector (party.stashWith e party.rounds.recvRound)⟩ →
      ReceiveCase party e
        ({ party with
            rounds :=
              { party.rounds with
                  recvStash :=
                    Function.update (party.stashWith e) party.rounds.recvRound []
                  recvRound := party.rounds.recvRound + 1 }
            collected := party.collected ++ [e]
            signals := party.signals ++ [.startRound start] }, some start)

theorem onReceive_cases (party : Party N M) (e : Round M)
    : ReceiveCase party e (party.onReceive e) := by
  unfold Party.onReceive RoundBased.onReceive
  by_cases hround : party.rounds.recvRound ≤ e.round
  . rw [if_pos hround]
    unfold RoundBased.collect
    by_cases hlength : (party.stashWith e party.rounds.recvRound).length = N
    . have hstarted := ReceiveCase.started (e := e) _ hround hlength rfl
      unfold stashWith at hlength hstarted
      simp only [if_pos hlength]
      exact hstarted
    . have hstashed := ReceiveCase.stashed (e := e) hround hlength
      unfold stashWith at hlength hstashed
      simp only [if_neg hlength]
      exact hstashed
  . rw [if_neg hround]
    exact .older hround

variable {e : Round M} {result : Party N M × Option (StartRound N M)}

theorem ReceiveCase.frame (h : ReceiveCase party e result)
    : result.1.emitted = party.emitted ∧ result.1.flushes = party.flushes
        ∧ result.1.exceptions = party.exceptions
        ∧ result.1.rounds.sendRound = party.rounds.sendRound
        ∧ result.1.rounds.sendBatch = party.rounds.sendBatch := by
  cases h with
  | older => exact ⟨rfl, rfl, rfl, rfl, rfl⟩
  | stashed => exact ⟨rfl, rfl, rfl, rfl, rfl⟩
  | started => exact ⟨rfl, rfl, rfl, rfl, rfl⟩

theorem ReceiveCase.collected (h : ReceiveCase party e result)
    (hround : party.rounds.recvRound ≤ e.round)
    : result.1.older = party.older ∧ result.1.collected = party.collected ++ [e] := by
  cases h with
  | older hnot => exact absurd hround hnot
  | stashed => exact ⟨rfl, rfl⟩
  | started => exact ⟨rfl, rfl⟩

theorem ReceiveCase.sends (h : ReceiveCase party e result) (hsends : party.Sends me)
    : result.1.Sends me := by
  obtain ⟨hemitted, hflushes, -, hsendRound, hsendBatch⟩ := h.frame
  constructor
  . rw [hsendBatch]
    exact hsends.batch_from
  . rw [hsendBatch]
    exact hsends.batch_disjoint
  . rw [hsendBatch]
    exact hsends.batch_open
  . rw [hsendRound, hflushes]
    exact hsends.sendRound
  . rw [hemitted]
    exact hsends.emitted_from
  . rw [hemitted, hflushes]
    exact hsends.emitted_round
  . rw [hemitted, hflushes]
    exact hsends.partition

theorem Receives.stashWith (h : party.Receives) {t : Int32} (ht : party.rounds.recvRound ≤ t)
    (e : Round M)
    : party.stashWith e t = batch (party.collected ++ [e]) t := by
  rw [batch_append_singleton, Party.stashWith]
  split
  . next heq =>
    rw [heq, Function.update_self, h.recvStash t ht]
  . next hne =>
    rw [Function.update_of_ne (Ne.symm hne), h.recvStash t ht]

theorem Receives.batch_past (h : party.Receives) (hlt : party.startRounds.length < 2 ^ 31)
    (hround : party.rounds.recvRound ≤ e.round) {i : Nat} (hi : i < party.startRounds.length)
    : batch (party.collected ++ [e]) (Int32.ofNat i) = batch party.collected (Int32.ofNat i) := by
  rw [batch_append_singleton, if_neg]
  intro heq
  rw [heq, h.recvRound, Int32.ofNat_le_ofNat_of_lt hlt (by omega)] at hround
  omega

theorem Receives.startRounds_past (h : party.Receives) (hlt : party.startRounds.length < 2 ^ 31)
    (hround : party.rounds.recvRound ≤ e.round) {i : Nat} {start : StartRound N M}
    (hstart : party.startRounds[i]? = some start)
    : start = ⟨Int32.ofNat (i + 1),
          messageVector (batch (party.collected ++ [e]) (Int32.ofNat i))⟩
        ∧ (batch (party.collected ++ [e]) (Int32.ofNat i)).length = N := by
  obtain ⟨hi, -⟩ := List.getElem?_eq_some_iff.mp hstart
  rw [h.batch_past hlt hround hi]
  exact h.startRounds i start hstart

theorem ReceiveCase.startRounds_eq (h : ReceiveCase party e result)
    : result.1.startRounds = party.startRounds ++ result.2.toList := by
  cases h with
  | older => exact (List.append_nil _).symm
  | stashed => exact (List.append_nil _).symm
  | started => simp [startRounds]

theorem ReceiveCase.receives (h : ReceiveCase party e result) (hreceives : party.Receives)
    (hlt : result.1.startRounds.length < 2 ^ 31)
    : result.1.Receives := by
  have hltparty : party.startRounds.length < 2 ^ 31 := by
    rw [h.startRounds_eq, List.length_append] at hlt
    omega
  cases h with
  | older hround => exact { hreceives with }
  | stashed hround hlength =>
    constructor
    . exact hreceives.recvRound
    . intro t ht
      exact hreceives.stashWith ht e
    . intro i start hstart
      exact hreceives.startRounds_past hltparty hround hstart
  | started start hround hlength hstart =>
    have hstartRounds : Party.startRounds
        { party with signals := party.signals ++ [.startRound start] }
          = party.startRounds ++ [start] := by
      simp [Party.startRounds]
    have hlt' : party.startRounds.length + 1 < 2 ^ 31 := by
      have hlength := congrArg List.length hstartRounds
      rw [List.length_append, List.length_singleton] at hlength
      rw [← hlength]
      exact hlt
    have hnext : party.rounds.recvRound + 1 = Int32.ofNat (party.startRounds.length + 1) := by
      rw [hreceives.recvRound, Int32.ofNat_add]
      rfl
    rw [hreceives.stashWith (Int32.le_refl _)] at hlength hstart
    constructor
    . show party.rounds.recvRound + 1 = Int32.ofNat (Party.startRounds
        { party with signals := party.signals ++ [.startRound start] }).length
      rw [hstartRounds, hnext, List.length_append, List.length_singleton]
    . intro t ht
      replace ht : party.rounds.recvRound + 1 ≤ t := ht
      have hlater : party.rounds.recvRound < t := by
        rw [hnext] at ht
        apply Int32.lt_of_lt_of_le _ ht
        rw [hreceives.recvRound, Int32.ofNat_lt_ofNat_of_lt hltparty hlt']
        exact Nat.lt_succ_self _
      dsimp only
      rw [Function.update_of_ne (Int32.ne_of_lt hlater).symm]
      exact hreceives.stashWith (Int32.le_of_lt hlater) e
    . intro i start' hstart'
      replace hstart' : (party.startRounds ++ [start])[i]? = some start' := by
        rw [← hstartRounds]
        exact hstart'
      rcases Record.getElem?_snoc hstart' with hold | ⟨heq, hlast⟩
      . exact hreceives.startRounds_past hltparty hround hold
      . rw [heq, ← hnext, ← hreceives.recvRound, hlast]
        exact ⟨hstart, hlength⟩

end Receive

end Party

end RoundBased
