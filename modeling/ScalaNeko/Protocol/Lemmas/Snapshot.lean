import Mathlib.Data.Fintype.Card
import ScalaNeko.Protocol.Lemmas.ChandyLamport

/-!
Snapshots on a clique with FIFO channels: the cut is consistent, and what is recorded is what crosses
it. The number of markers that a process waits for is one too low.
-/

open AsyncNetwork (Program)
open FIFONetwork (World Action Step)

namespace ChandyLamport

open Message (destinations)

variable {N : Nat} {M : Type} [Message N M]

abbrev Run (N : Nat) (M : Type) := World (PID N) (Node N M) (Wire N M)

abbrev Act (N : Nat) (M : Type) := Action (PID N) (Event Initiate M × List M) (List M) (Wire N M)

def reaction : Act N M → List M
  | .input _ i => i.2
  | .receive _ _ _ reaction => reaction

def handed : Act N M → List M
  | .input _ (.message m, reaction) => m :: reaction
  | .input _ (.signal _, reaction) => reaction
  | .receive _ _ _ reaction => reaction

def proc : Act N M → PID N
  | .input p _ => p
  | .receive p _ _ _ => p

-- The application traffic is between distinct processes.
def Apart (a : Act N M) : Prop := ∀ m, m ∈ handed a → proc a ∉ destinations m

instance (a : Act N M) : Decidable (Apart a) :=
  inferInstanceAs (Decidable (∀ m, m ∈ handed a → _))

/--
The messages from `q` to `p` that are sent before the `SaveState` of `q` and received after that of
`p`: the channel is FIFO, so the messages that are received are the first ones that are sent.
-/
def crossing (w : Run N M) (q p : PID N) : List M :=
  ((sends (untilSaved (w.node q).log) p).take (receives (w.node p).log q).length).drop
    (receives (untilSaved (w.node p).log) q).length

variable [DecidableEq M]

theorem local_of_reach {neighborsFor : PID N → Option (Finset (PID N))} {w : Run N M}
    {ok : Act N M → Prop} (quiet : Prop) (hquiet : ∀ a, ok a → quiet → reaction a = [])
    (h : (FIFONetwork.lts (program neighborsFor)).Reach (fun _ a _ => ok a) w) (p : PID N)
    : Local quiet p ((neighborsFor p).getD ∅) (w.node p) (w.sent p) (w.received p) := by
  apply FIFONetwork.local_invariant
    (I := fun p node sent received => Local quiet p ((neighborsFor p).getD ∅) node sent received)
    _ _ _ h
  . intro p
    exact .init quiet p _
  . rintro p ⟨e, reaction⟩ node sent received node' out hok hlocal hst
    exact hlocal.input (hquiet _ hok) hst
  . intro p q m reaction node sent received node' out hok hlocal hst
    exact hlocal.receive (hquiet _ hok) hst

/--
The states of the runs on a clique.
-/
structure Inv (quiet : Prop) (w : Run N M) : Prop where
  row : ∀ p, Row quiet p (Finset.univ.erase p) (w.node p) (w.sent p)
  recv : ∀ p, Recv (w.node p) (w.received p)
  counted : ∀ p, Counted (Finset.univ.erase p) (w.node p)
  unmarked : ∀ p, (w.node p).snap.color = .white → ∀ q, (w.received p q).countP isMarker = 0

theorem inv_of_reach {w : Run N M} {ok : Act N M → Prop} (quiet : Prop)
    (hquiet : ∀ a, ok a → quiet → reaction a = [])
    (h : (FIFONetwork.lts (program Network.clique)).Reach (fun _ a _ => ok a) w)
    : Inv quiet w where
  row := fun p => (local_of_reach quiet hquiet h p).row
  recv := fun p => (local_of_reach quiet hquiet h p).recv
  counted := fun p => (local_of_reach quiet hquiet h p).counted
  unmarked := fun p => (local_of_reach quiet hquiet h p).unmarked

variable {quiet : Prop} {w : Run N M}

omit [Message N M] [DecidableEq M]

theorem payloads_initial (w : Run N M) (p q : PID N)
    : payloads (w.received p q) <+: payloads (w.sent q p) :=
  (FIFONetwork.received_prefix w p q).filterMap _

theorem mem_white {whites reds : List M} (n b : Nat) (m : M)
    : (m, StateColor.white) ∈ ((whites.map (·, StateColor.white) ++ reds.map (·, StateColor.red)).take n).drop b
      ↔ m ∈ (whites.take n).drop b := by
  rw [List.take_append, List.drop_append, List.mem_append, ← List.map_take, ← List.map_take,
    ← List.map_drop, ← List.map_drop]
  constructor
  . rintro (hwhite | hred)
    . obtain ⟨m', hm', heq⟩ := List.mem_map.mp hwhite
      cases heq
      exact hm'
    . obtain ⟨m', -, heq⟩ := List.mem_map.mp hred
      cases heq
  . intro hm
    exact .inl (List.mem_map.mpr ⟨m, hm, rfl⟩)

variable [Message N M]

theorem Inv.receives_prefix (h : Inv quiet w) (p q : PID N)
    : receives (w.node p).log q <+: sends (w.node q).log p := by
  obtain ⟨rest, hsends, hsent⟩ := (h.row q).payloads p
  have hpre := (payloads_initial w p q).map Prod.fst
  rw [hsent, List.map_append, List.map_map, List.map_map] at hpre
  rw [(h.recv p).delivered, hsends]
  simpa [Function.comp_def] using hpre

theorem Inv.mem_crossing (h : Inv quiet w) (p q : PID N) (m : M)
    : m ∈ crossing w q p ↔ (m, .white) ∈ (payloads (w.received p q)).drop
        (receives (untilSaved (w.node p).log) q).length := by
  obtain ⟨rest, -, hsent⟩ := (h.row q).payloads p
  have htake := List.prefix_iff_eq_take.mp (payloads_initial w p q)
  have hlen : (payloads (w.received p q)).length = (receives (w.node p).log q).length := by
    rw [(h.recv p).delivered, List.length_map]
  rw [htake, hlen, hsent, mem_white]
  rfl

theorem Inv.mem_record (h : Inv quiet w) (p : PID N) (m : M)
    : m ∈ (w.node p).snap.record ↔ ∃ q, m ∈ crossing w q p := by
  rw [(h.recv p).record]
  simp only [h.mem_crossing]

theorem Inv.count_markers (h : Inv quiet w) (p q : PID N)
    : (markers (w.node p).log).count q ≤ if q = p then 0 else 1 := by
  have hle := (FIFONetwork.received_prefix w p q).countP_le (p := isMarker)
  have hrow := (h.row q).countP_le p
  rw [(h.recv p).marked]
  apply Nat.le_trans hle
  by_cases hq : q = p
  . subst hq
    simpa using hrow
  . rw [if_neg hq]
    apply Nat.le_trans hrow
    split
    . exact Nat.le_refl 1
    . exact Nat.zero_le 1

theorem Inv.nodup_markers (h : Inv quiet w) (p : PID N) : (markers (w.node p).log).Nodup := by
  rw [List.nodup_iff_count_le_one]
  intro q
  apply Nat.le_trans (h.count_markers p q)
  split
  . exact Nat.zero_le 1
  . exact Nat.le_refl 1

theorem Inv.markers_subset (h : Inv quiet w) (p : PID N)
    : (markers (w.node p).log).toFinset ⊆ Finset.univ.erase p := by
  intro q hq
  rw [List.mem_toFinset] at hq
  have hcount := h.count_markers p q
  have hpos := List.count_pos_iff.mpr hq
  rw [Finset.mem_erase]
  refine ⟨?_, Finset.mem_univ q⟩
  intro heq
  rw [if_pos heq] at hcount
  omega

-- A process has received all markers when it has received as many as it has neighbours.
theorem Inv.all_markers_iff (h : Inv quiet w) (p : PID N)
    : (∀ q, q ≠ p → q ∈ markers (w.node p).log) ↔ N - 1 ≤ (markers (w.node p).log).length := by
  have hcard : (Finset.univ.erase p).card = N - 1 := by
    rw [Finset.card_erase_of_mem (Finset.mem_univ p), Finset.card_univ, Fintype.card_fin]
  rw [← List.toFinset_card_of_nodup (h.nodup_markers p), ← hcard]
  constructor
  . intro hall
    apply Finset.card_le_card
    intro q hq
    rw [List.mem_toFinset]
    exact hall q (Finset.ne_of_mem_erase hq)
  . intro hle q hq
    rw [← List.mem_toFinset, Finset.eq_of_subset_of_card_le (h.markers_subset p) hle]
    exact Finset.mem_erase.mpr ⟨hq, Finset.mem_univ q⟩

/--
What a snapshot promises to process `p`.
-/
structure Complete (w : Run N M) (p : PID N) : Prop where
  once : (∀ q, q ≠ p → q ∈ markers (w.node p).log) → (dones [] (w.node p).log).length = 1
  atMostOnce : (dones [] (w.node p).log).length ≤ 1
  afterMarkers : ∀ seen recorded, (seen, recorded) ∈ dones [] (w.node p).log → ∀ q, q ≠ p → q ∈ seen
  recorded : ∀ seen recorded, (seen, recorded) ∈ dones [] (w.node p).log →
    ∀ m, m ∈ recorded ↔ ∃ q, q ≠ p ∧ m ∈ crossing w q p

theorem Inv.stateComplete_iff (h : Inv quiet w) (hN : 2 ≤ N) (p : PID N)
    : Complete w p ↔ (markers (w.node p).log).length < max (N - 2) 1 := by
  have hcard : (Finset.univ.erase p).card = N - 1 := by
    rw [Finset.card_erase_of_mem (Finset.mem_univ p), Finset.card_univ, Fintype.card_fin]
  have hcounted := h.counted p
  constructor
  . intro hcomplete
    by_contra hnot
    rw [Nat.not_lt] at hnot
    rcases Nat.lt_or_eq_of_le hN with hlt | rfl
    . obtain ⟨recorded, hdone⟩ := hcounted.late (by omega) (by omega)
      have hseen := hcomplete.afterMarkers _ recorded (by rw [hdone]; exact List.mem_singleton_self _)
      have hsubset : Finset.univ.erase p
          ⊆ ((markers (w.node p).log).take ((Finset.univ.erase p).card - 1)).toFinset := by
        intro q hq
        rw [List.mem_toFinset]
        exact hseen q (Finset.ne_of_mem_erase hq)
      have hle := Nat.le_trans (Finset.card_le_card hsubset) (List.toFinset_card_le _)
      rw [List.length_take, hcard] at hle
      omega
    . have hall := (h.all_markers_iff p).mpr (by omega)
      have hdone := hcounted.early (by omega)
      have honce := hcomplete.once hall
      rw [hdone] at honce
      cases honce
  . intro hlt
    have hdone := hcounted.early (by omega)
    constructor
    . intro hall
      have hle := (h.all_markers_iff p).mp hall
      omega
    . rw [hdone]
      exact Nat.zero_le 1
    . rw [hdone]
      intro _ _ hmem
      cases hmem
    . rw [hdone]
      intro _ _ hmem
      cases hmem

theorem Inv.white_initial (h : Inv quiet w) {p q : PID N} (hq : q ∈ markers (w.node p).log)
    : sends (untilSaved (w.node q).log) p <+: receives (w.node p).log q := by
  have hcount := List.count_pos_iff.mpr hq
  rw [(h.recv p).marked] at hcount
  have hpre := (h.row q).white_initial (FIFONetwork.received_prefix w p q) (Nat.ne_of_gt hcount)
  have hpayloads : payloads (((sends (untilSaved (w.node q).log) p).map (.payload · .white)))
      <+: payloads (w.received p q) := hpre.filterMap _
  rw [payloads_map] at hpayloads
  rw [(h.recv p).delivered]
  simpa [Function.comp_def] using hpayloads.map Prod.fst

section Complete

theorem sends_saved {reaction : List M} {p : PID N} (h : ∀ m, m ∈ reaction → p ∉ destinations m)
    : sends (saved reaction) p = [] := by
  rw [sends, List.filterMap_eq_nil_iff]
  intro e he
  rcases List.mem_cons.mp he with rfl | he
  . rfl
  . obtain ⟨m, hm, rfl⟩ := List.mem_map.mp he
    exact if_neg (h m hm)

variable [DecidableEq M]

theorem sends_self {w : Run N M}
    (h : (FIFONetwork.lts (program Network.clique)).Reach (fun _ a _ => Apart a) w) (p : PID N)
    : sends (w.node p).log p = [] := by
  apply FIFONetwork.local_invariant (I := fun p node _ _ => sends node.log p = []) _ _ _ h
  . intro p
    rfl
  . rintro p ⟨e, reaction⟩ node sent received node' out hok hself hst
    rcases input_cases hst with ⟨m, rfl, rfl, -⟩ | ⟨-, rfl, -⟩ | ⟨rfl, -⟩
    . have hdest : p ∉ destinations m := hok m List.mem_cons_self
      have hm : sends [.sent m] p = [] := by
        simp [sends, hdest]
      rw [sends_append, hself, hm]
      rfl
    . rw [sends_append, hself, sends_saved]
      . rfl
      . intro m hm
        cases e with
        | message m' => exact hok m (List.mem_cons_of_mem m' hm)
        | signal s => exact hok m hm
    . exact hself
  . intro p q wire reaction node sent received node' out hok hself hst
    rcases receive_cases hst with ⟨m, c, -, rfl, -⟩ | ⟨-, -, snap, l, -, hcase, rfl⟩
    . rw [sends_append, hself]
      rfl
    . have hl : sends l p = [] := by
        cases hcase with
        | white => exact sends_saved hok
        | red => rfl
      rw [sends_append, hself, ← List.singleton_append, sends_append, sends_append, hl]
      split
      . rfl
      . rfl

/--
What a snapshot promises is kept to a process until the marker after which it is told, too early, that
the snapshot is done. It always records exactly what crosses the cut, and the marker of a process is
behind all that this process has sent before the cut.
-/
theorem complete_iff {w : Run N M} (hN : 2 ≤ N)
    (h : (FIFONetwork.lts (program Network.clique)).Reach (fun _ a _ => Apart a) w) (p : PID N)
    : (Complete w p ↔ (markers (w.node p).log).length < max (N - 2) 1)
        ∧ (∀ m, m ∈ (w.node p).snap.record ↔ ∃ q, q ≠ p ∧ m ∈ crossing w q p)
        ∧ (∀ q, receives (w.node p).log q <+: sends (w.node q).log p)
        ∧ ∀ q, q ∈ markers (w.node p).log →
          sends (untilSaved (w.node q).log) p <+: receives (w.node p).log q := by
  have hinv := inv_of_reach False (fun _ _ hfalse => hfalse.elim) h
  refine ⟨hinv.stateComplete_iff hN p, ?_, hinv.receives_prefix p, fun _ => hinv.white_initial⟩
  intro m
  rw [hinv.mem_record]
  constructor
  . rintro ⟨q, hm⟩
    refine ⟨q, ?_, hm⟩
    rintro rfl
    have hpre : sends (untilSaved (w.node q).log) q <+: sends (w.node q).log q :=
      (List.takeWhile_prefix _).filterMap _
    rw [sends_self h, List.prefix_nil] at hpre
    rw [crossing, hpre, List.take_nil, List.drop_nil] at hm
    cases hm
  . rintro ⟨q, -, hm⟩
    exact ⟨q, hm⟩

/--
Process 1 receives the marker of process 0 while a message of process 2 is on its way.
-/
theorem reach_early
    : ∃ w : Run 3 (AppMessage 3 Unit),
        (FIFONetwork.lts (program Network.clique)).Reach (fun _ a _ => Apart a) w
          ∧ (w.node 1).log = [.marker 0, .saveState, .snapshotDone ∅, .received 2 (.unicast 2 1 ())]
          ∧ crossing w 2 1 = [.unicast 2 1 ()] := by
  let prog : Program _ _ _ _ (Wire 3 (AppMessage 3 Unit)) := program Network.clique
  have h0 : (FIFONetwork.lts prog).Reach (fun _ a _ => Apart a) (FIFONetwork.initWorld prog) :=
    .init rfl
  have h1 := FIFONetwork.Reach.input h0 2 (.message (.unicast 2 1 ()), []) rfl (by decide)
  have h2 := FIFONetwork.Reach.input h1 0 (.signal .initiate, []) rfl (by decide)
  have h3 := FIFONetwork.Reach.receive h2 1 0 (.snapshot 0 {1, 2}) [] rfl rfl (by decide)
  have h4 := FIFONetwork.Reach.receive h3 1 2 (.payload (.unicast 2 1 ()) .white) [] rfl rfl (by decide)
  exact ⟨_, h4, rfl, rfl⟩

theorem complete_iff_early
    : ∃ w : Run 3 (AppMessage 3 Unit),
        .unicast 2 1 () ∈ (w.node 1).snap.record ∧ ¬ Complete w 1 := by
  obtain ⟨w, h, hlog, hcrossing⟩ := reach_early
  obtain ⟨hcomplete, hrecord, -, -⟩ := complete_iff (by decide) h 1
  refine ⟨w, ?_, ?_⟩
  . rw [hrecord]
    exact ⟨2, by decide, by rw [hcrossing]; exact List.mem_singleton_self _⟩
  . rw [hcomplete, hlog]
    decide

theorem not_complete_of_early
    : ∃ w : Run 3 (AppMessage 3 Unit),
        (FIFONetwork.lts (program Network.clique)).Reach (fun _ a _ => Apart a) w
          ∧ ¬ Complete w 1 := by
  obtain ⟨w, h, hlog, hcrossing⟩ := reach_early
  refine ⟨w, h, ?_⟩
  intro hcomplete
  have hseen := hcomplete.afterMarkers [0] ∅ (by rw [hlog]; exact List.mem_singleton_self _) 2 (by decide)
  revert hseen
  decide

end Complete

section Cut

/--
What a process has received before its `SaveState` was sent before that of the sender.
-/
structure ConsistentCut [DecidableEq M] (w : Run N M) : Prop where
  once : ∀ p, (w.node p).log.countP isSaveState ≤ 1
  fifo : ∀ p q, receives (w.node p).log q <+: sends (w.node q).log p
  consistent : ∀ p q, q ≠ p →
    (receives (untilSaved (w.node p).log) q).length ≤ (sends (untilSaved (w.node q).log) p).length
  white : ∀ a w', Step (program Network.clique) w a w' →
    ∀ p q m reaction, a = .receive p q (.payload m .red) reaction → (w.node p).snap.color = .red

theorem Inv.consistent (h : Inv True w) {p q : PID N} (hq : q ≠ p)
    : (receives (untilSaved (w.node p).log) q).length
      ≤ (sends (untilSaved (w.node q).log) p).length := by
  obtain ⟨ws, hpre, hmarker, hreceives⟩ := (h.recv p).before q
  have hlen : (payloads ws).length ≤ ws.length := List.length_filterMap_le _ _
  rw [hreceives, List.length_map]
  by_contra hlt
  apply (h.row q).marker_of_lt trivial (Finset.mem_erase.mpr ⟨hq.symm, Finset.mem_univ p⟩)
    (hpre.trans (FIFONetwork.received_prefix w p q)) _ hmarker
  omega

-- Before the first red message comes the marker.
theorem Inv.red_of_payload (h : Inv True w) {p q : PID N} {m : M}
    (hget : (w.sent q p)[w.taken p q]? = some (.payload m .red))
    : (w.node p).snap.color = .red := by
  cases hcolor : (w.node p).snap.color with
  | red => rfl
  | white =>
    exfalso
    by_cases hq : q = p
    . subst hq
      have hmem : Wire.payload m .red ∈ w.sent q q := List.mem_of_getElem? hget
      rw [((h.row q).white hcolor).2, List.mem_map] at hmem
      obtain ⟨m', -, heq⟩ := hmem
      cases heq
    . have hnext : (w.sent q p).take (w.taken p q + 1) = w.received p q ++ [.payload m .red] := by
        rw [List.take_add_one, hget]
        rfl
      have hmarker : ((w.sent q p).take (w.taken p q + 1)).countP isMarker = 0 := by
        rw [hnext, List.countP_append, h.unmarked p hcolor]
        rfl
      have hlen : w.taken p q + 1 ≤ (w.sent q p).length := (List.getElem?_eq_some_iff.mp hget).1
      -- without the marker, the message would be white
      have hle : w.taken p q < (sends (untilSaved (w.node q).log) p).length := by
        by_contra hge
        apply (h.row q).marker_of_lt trivial (Finset.mem_erase.mpr ⟨Ne.symm hq, Finset.mem_univ p⟩)
          (List.take_prefix _ _) _ hmarker
        rw [List.length_take_of_le hlen]
        omega
      have hwhite := List.prefix_iff_getElem?.mp ((h.row q).white_first p) (w.taken p q)
        (by rw [List.length_map]; exact hle)
      rw [hget, List.getElem_map, Option.some_inj] at hwhite
      cases hwhite

theorem consistentCut [DecidableEq M] {w : Run N M}
    (h : (FIFONetwork.lts (program Network.clique)).Reach (fun _ a _ => reaction a = []) w)
    : ConsistentCut w := by
  have hinv := inv_of_reach True (fun _ hok _ => hok) h
  constructor
  . intro p
    cases hcolor : (w.node p).snap.color with
    | white =>
      rw [((hinv.row p).white hcolor).1]
      exact Nat.zero_le 1
    | red => exact Nat.le_of_eq ((hinv.row p).red hcolor).1
  . exact hinv.receives_prefix
  . intro p q hq
    exact hinv.consistent hq
  . rintro a w' hst p q m reaction rfl
    cases hst with
    | receive hget => exact hinv.red_of_payload hget

theorem consistentCut_red
    : ∃ w : Run 2 (AppMessage 2 Unit),
        (w.node 1).log = [.marker 0, .saveState, .received 0 (.unicast 0 1 ())]
          ∧ ConsistentCut w := by
  let prog : Program _ _ _ _ (Wire 2 (AppMessage 2 Unit)) := program Network.clique
  have h0 : (FIFONetwork.lts prog).Reach (fun _ a _ => reaction a = []) (FIFONetwork.initWorld prog) :=
    .init rfl
  have h1 := FIFONetwork.Reach.input h0 0 (.signal .initiate, []) rfl rfl
  have h2 := FIFONetwork.Reach.input h1 0 (.message (.unicast 0 1 ()), []) rfl rfl
  have h3 := FIFONetwork.Reach.receive h2 1 0 (.snapshot 0 {1}) [] rfl rfl rfl
  have h4 := FIFONetwork.Reach.receive h3 1 0 (.payload (.unicast 0 1 ()) .red) [] rfl rfl rfl
  exact ⟨_, rfl, consistentCut h4⟩

end Cut

end ChandyLamport
