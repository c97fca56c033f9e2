import Mathlib.Data.List.TakeWhile
import ScalaNeko.Network.Lemmas
import ScalaNeko.Protocol.Impl.ChandyLamport

/-!
What a process that takes part in snapshots has sent, received and recorded, whatever the others do.
-/

open AsyncNetwork (Envelope Program)
open FIFONetwork (World Action Step toDest)

namespace ChandyLamport

open Message (destinations)

variable {N : Nat} {M : Type}

section Log

-- What the application sends to `p`.
def sends [Message N M] (log : List (Entry N M)) (p : PID N) : List M :=
  log.filterMap fun
    | .sent m => if p ∈ destinations m then some m else none
    | _ => none

def receives (log : List (Entry N M)) (q : PID N) : List M :=
  log.filterMap fun
    | .received r m => if r = q then some m else none
    | _ => none

def markers (log : List (Entry N M)) : List (PID N) :=
  log.filterMap fun
    | .marker q => some q
    | _ => none

def isSaveState : Entry N M → Bool
  | .saveState => true
  | _ => false

def untilSaved (log : List (Entry N M)) : List (Entry N M) :=
  log.takeWhile (fun e => !isSaveState e)

/--
The recorded sets that are delivered, each with the markers received before.
-/
def dones : List (PID N) → List (Entry N M) → List (List (PID N) × Finset M)
  | _, [] => []
  | seen, .marker q :: log => dones (seen ++ [q]) log
  | seen, .snapshotDone recorded :: log => (seen, recorded) :: dones seen log
  | seen, .sent _ :: log => dones seen log
  | seen, .received _ _ :: log => dones seen log
  | seen, .saveState :: log => dones seen log

variable {log l : List (Entry N M)} {p q : PID N}

theorem sends_append [Message N M] : sends (log ++ l) p = sends log p ++ sends l p :=
  List.filterMap_append

theorem receives_append : receives (log ++ l) p = receives log p ++ receives l p :=
  List.filterMap_append

theorem markers_append : markers (log ++ l) = markers log ++ markers l :=
  List.filterMap_append

theorem dones_append (seen : List (PID N))
    : dones seen (log ++ l) = dones seen log ++ dones (seen ++ markers log) l := by
  induction log generalizing seen with
  | nil =>
    rw [List.nil_append]
    show _ = dones (seen ++ []) l
    rw [List.append_nil]
  | cons e log ih =>
    cases e with
    | marker q =>
      show dones (seen ++ [q]) (log ++ l) = dones (seen ++ [q]) log ++ dones (seen ++ q :: markers log) l
      rw [ih, List.append_assoc]
      rfl
    | snapshotDone recorded =>
      show (seen, recorded) :: dones seen (log ++ l) = (seen, recorded) :: (dones seen log ++ _)
      rw [ih]
      rfl
    | sent m => exact ih seen
    | received q m => exact ih seen
    | saveState => exact ih seen

theorem untilSaved_eq (h : log.countP isSaveState = 0) : untilSaved log = log := by
  rw [List.countP_eq_zero] at h
  rw [untilSaved, List.takeWhile_eq_self_iff]
  intro e he
  simp [h e he]

theorem untilSaved_append_of_unsaved (h : log.countP isSaveState = 0)
    : untilSaved (log ++ l) = log ++ untilSaved l := by
  have hself := untilSaved_eq h
  unfold untilSaved at hself ⊢
  rw [List.takeWhile_append, hself, if_pos rfl]

theorem untilSaved_append_of_saved (h : log.countP isSaveState ≠ 0)
    : untilSaved (log ++ l) = untilSaved log := by
  unfold untilSaved
  rw [List.takeWhile_append, if_neg]
  intro hlen
  have hself := (List.takeWhile_prefix (p := fun e => !isSaveState e) (l := log)).eq_of_length hlen
  rw [List.takeWhile_eq_self_iff] at hself
  apply h
  rw [List.countP_eq_zero]
  intro e he
  simpa using hself e he

end Log

section Out

variable {W S : Type} [Message N W]

theorem toDest_transmit_cons (w : W) (out : List (Event S W)) (p : PID N)
    : toDest (transmit (.message w :: out)) p
      = (if p ∈ destinations w then [w] else []) ++ toDest (transmit out) p := by
  rw [← toDest_fanOut, ← FIFONetwork.toDest_append]
  rfl

end Out

variable [Message N M]

theorem toDest_payloads (ms : List M) (c : StateColor) (out : List (Event Initiate (Wire N M)))
    (p : PID N)
    : toDest (transmit (ms.map (fun m => .message (.payload m c)) ++ out)) p
      = (sends (ms.map Entry.sent) p).map (.payload · c) ++ toDest (transmit out) p := by
  induction ms with
  | nil => rfl
  | cons m ms ih =>
    have hcons : sends ((m :: ms).map Entry.sent) p
        = (if p ∈ destinations m then [m] else []) ++ sends (ms.map Entry.sent) p := by
      rw [List.map_cons, ← List.singleton_append, sends_append]
      congr 1
      unfold sends
      split
      . next hm => simp [hm]
      . next hm => simp [hm]
    rw [List.map_cons, List.cons_append, toDest_transmit_cons, ih, hcons, List.map_append,
      List.append_assoc]
    congr 1
    show (if p ∈ destinations m then _ else _) = _
    split
    . rfl
    . rfl

section Row

/--
What a process has sent to each process: the white messages, then the marker to its neighbours after
what was sent while `SaveState` was handled, then the red messages.
-/
structure Row (quiet : Prop) (me : PID N) (neighbors : Finset (PID N)) (node : Node N M)
    (sent : PID N → List (Wire N M)) : Prop where
  white : node.snap.color = .white → node.log.countP isSaveState = 0
    ∧ ∀ p, sent p = (sends node.log p).map (.payload · .white)
  red : node.snap.color = .red → node.log.countP isSaveState = 1
    ∧ ∀ p, ∃ early late, (quiet → early = [])
      ∧ sends node.log p = sends (untilSaved node.log) p ++ (early ++ late)
      ∧ sent p = (sends (untilSaved node.log) p).map (.payload · .white)
          ++ (early.map (.payload · .red)
            ++ ((if p ∈ neighbors then [.snapshot me neighbors] else [])
              ++ late.map (.payload · .red)))

variable {quiet : Prop} {me : PID N} {neighbors : Finset (PID N)} {snap snap' : ChandyLamport M}
  {log l : List (Entry N M)} {sent : PID N → List (Wire N M)}

theorem Row.append (h : Row quiet me neighbors ⟨snap, log⟩ sent) (hcolor : snap'.color = snap.color)
    (hsends : ∀ p, sends l p = []) (hsaved : l.countP isSaveState = 0)
    : Row quiet me neighbors ⟨snap', log ++ l⟩ sent := by
  have hsame : ∀ p, sends (log ++ l) p = sends log p := by
    intro p
    rw [sends_append, hsends, List.append_nil]
  constructor
  . intro hwhite
    obtain ⟨hcount, hrow⟩ := h.white (hcolor.symm.trans hwhite)
    refine ⟨?_, ?_⟩
    . rw [List.countP_append, hcount, hsaved]
    . intro p
      rw [hsame]
      exact hrow p
  . intro hred
    obtain ⟨hcount, hrow⟩ := h.red (hcolor.symm.trans hred)
    refine ⟨?_, ?_⟩
    . rw [List.countP_append, hcount, hsaved]
    . intro p
      have hne : log.countP isSaveState ≠ 0 := by
        rw [hcount]
        exact Nat.one_ne_zero
      rw [hsame, untilSaved_append_of_saved hne]
      exact hrow p

theorem Row.send (h : Row quiet me neighbors ⟨snap, log⟩ sent) (m : M)
    : Row quiet me neighbors ⟨snap, log ++ [.sent m]⟩
        (fun p => sent p ++ toDest (transmit [(.message (.payload m snap.color) : Event Initiate (Wire N M))]) p) := by
  have hout : ∀ p, toDest (transmit [(.message (.payload m snap.color) : Event Initiate (Wire N M))]) p
      = (sends [.sent m] p).map (fun m => Wire.payload m snap.color) := by
    intro p
    have hpayloads := toDest_payloads [m] snap.color [] p
    rw [List.append_nil] at hpayloads
    exact hpayloads.trans (List.append_nil _)
  constructor
  . intro hwhite
    obtain ⟨hcount, hrow⟩ := h.white hwhite
    refine ⟨?_, ?_⟩
    . rw [List.countP_append, hcount]
      rfl
    . intro p
      dsimp only at hwhite hrow ⊢
      rw [hout, hrow, hwhite, sends_append, List.map_append]
  . intro hred
    obtain ⟨hcount, hrow⟩ := h.red hred
    refine ⟨?_, ?_⟩
    . rw [List.countP_append, hcount]
      rfl
    . intro p
      obtain ⟨early, late, hquiet, hsends, hsent⟩ := hrow p
      have hne : log.countP isSaveState ≠ 0 := by
        rw [hcount]
        exact Nat.one_ne_zero
      refine ⟨early, late ++ sends [.sent m] p, hquiet, ?_, ?_⟩
      . dsimp only at hsends ⊢
        rw [sends_append, untilSaved_append_of_saved hne, hsends]
        simp only [List.append_assoc]
      . dsimp only at hred hsent ⊢
        rw [hout, hsent, hred, untilSaved_append_of_saved hne, List.map_append]
        simp only [List.append_assoc]

theorem Row.turnRed (h : Row quiet me neighbors ⟨snap, log⟩ sent) (hwhite : snap.color = .white)
    {reaction : List M} (hquiet : quiet → reaction = [])
    : Row quiet me neighbors ⟨{ snap with color := .red }, log ++ .saveState :: reaction.map .sent⟩
        (fun p => sent p ++ toDest (transmit (snap.turnRed me neighbors reaction).2.2) p) := by
  obtain ⟨hcount, hrow⟩ := h.white hwhite
  constructor
  . intro hred
    cases hred
  . intro _
    have hreaction : (reaction.map (Entry.sent : M → Entry N M)).countP isSaveState = 0 := by
      rw [List.countP_map, List.countP_eq_zero]
      intro m _ hm
      cases hm
    refine ⟨?_, ?_⟩
    . rw [List.countP_append, hcount, List.countP_cons, hreaction]
      rfl
    . intro p
      have huntil : untilSaved (log ++ .saveState :: reaction.map .sent) = log := by
        rw [untilSaved_append_of_unsaved hcount]
        exact List.append_nil log
      refine ⟨sends (reaction.map .sent) p, [], ?_, ?_, ?_⟩
      . intro hq
        rw [hquiet hq]
        rfl
      . dsimp only
        rw [huntil, sends_append, List.append_nil]
        rfl
      . dsimp only at hrow ⊢
        rw [huntil, hrow, ChandyLamport.turnRed, toDest_payloads, toDest_transmit_cons]
        rfl

end Row

section Wires

variable {N : Nat} {M : Type}

def isMarker : Wire N M → Bool
  | .payload _ _ => false
  | .snapshot _ _ => true

def payloads (ws : List (Wire N M)) : List (M × StateColor) :=
  ws.filterMap fun
    | .payload m c => some (m, c)
    | .snapshot _ _ => none

theorem payloads_append (ws ws' : List (Wire N M)) : payloads (ws ++ ws') = payloads ws ++ payloads ws' :=
  List.filterMap_append

theorem payloads_map (ms : List M) (c : StateColor)
    : payloads (ms.map (Wire.payload (N := N) · c)) = ms.map (·, c) := by
  induction ms with
  | nil => rfl
  | cons m ms ih => exact congrArg ((m, c) :: ·) ih

theorem countP_map_payload (ms : List M) (c : StateColor)
    : (ms.map (Wire.payload (N := N) · c)).countP isMarker = 0 := by
  rw [List.countP_map, List.countP_eq_zero]
  intro m _ hm
  cases hm

variable [Message N M] {quiet : Prop} {me p : PID N} {neighbors : Finset (PID N)} {node : Node N M}
  {sent : PID N → List (Wire N M)}

theorem Row.payloads (h : Row quiet me neighbors node sent) (p : PID N)
    : ∃ rest, sends node.log p = sends (untilSaved node.log) p ++ rest
        ∧ ChandyLamport.payloads (sent p)
          = (sends (untilSaved node.log) p).map (·, .white) ++ rest.map (·, .red) := by
  cases hcolor : node.snap.color with
  | white =>
    obtain ⟨hcount, hrow⟩ := h.white hcolor
    refine ⟨[], ?_, ?_⟩
    . rw [untilSaved_eq hcount, List.append_nil]
    . rw [hrow, payloads_map, untilSaved_eq hcount]
      exact (List.append_nil _).symm
  | red =>
    obtain ⟨-, hrow⟩ := h.red hcolor
    obtain ⟨early, late, -, hsends, hsent⟩ := hrow p
    refine ⟨early ++ late, hsends, ?_⟩
    have hsnapshot : ChandyLamport.payloads
        (if p ∈ neighbors then [Wire.snapshot (M := M) me neighbors] else []) = [] := by
      split
      . rfl
      . rfl
    rw [hsent, payloads_append, payloads_append, payloads_append, payloads_map, payloads_map,
      payloads_map, hsnapshot, List.map_append]
    rfl

theorem Row.countP_le (h : Row quiet me neighbors node sent) (p : PID N)
    : (sent p).countP isMarker ≤ if p ∈ neighbors then 1 else 0 := by
  cases hcolor : node.snap.color with
  | white =>
    rw [(h.white hcolor).2, countP_map_payload]
    exact Nat.zero_le _
  | red =>
    obtain ⟨early, late, -, -, hsent⟩ := (h.red hcolor).2 p
    rw [hsent, List.countP_append, List.countP_append, List.countP_append, countP_map_payload,
      countP_map_payload, countP_map_payload]
    split
    . exact Nat.le_refl 1
    . exact Nat.le_refl 0

theorem Row.white_first (h : Row quiet me neighbors node sent) (p : PID N)
    : (sends (untilSaved node.log) p).map (.payload · .white) <+: sent p := by
  cases hcolor : node.snap.color with
  | white =>
    obtain ⟨hcount, hrow⟩ := h.white hcolor
    rw [untilSaved_eq hcount, hrow]
  | red =>
    obtain ⟨early, late, -, -, hsent⟩ := (h.red hcolor).2 p
    exact ⟨_, hsent.symm⟩

-- The white messages are received before the marker.
theorem Row.white_initial (h : Row quiet me neighbors node sent) {ws : List (Wire N M)}
    (hpre : ws <+: sent p) (hmarker : ws.countP isMarker ≠ 0)
    : (sends (untilSaved node.log) p).map (.payload · .white) <+: ws := by
  rcases List.prefix_or_prefix_of_prefix hpre (h.white_first p) with hle | hle
  . have hcount := hle.countP_le (p := isMarker)
    rw [countP_map_payload] at hcount
    exact absurd (Nat.le_zero.mp hcount) hmarker
  . exact hle

-- The marker is received before the red messages.
theorem Row.marker_of_lt (h : Row quiet me neighbors node sent) (hquiet : quiet)
    (hp : p ∈ neighbors) {ws : List (Wire N M)} (hpre : ws <+: sent p)
    (hlt : (sends (untilSaved node.log) p).length < ws.length)
    : ws.countP isMarker ≠ 0 := by
  cases hcolor : node.snap.color with
  | white =>
    obtain ⟨hcount, hrow⟩ := h.white hcolor
    have hlen := hpre.length_le
    rw [hrow, List.length_map] at hlen
    rw [untilSaved_eq hcount] at hlt
    omega
  | red =>
    obtain ⟨early, late, hearly, -, hsent⟩ := (h.red hcolor).2 p
    rw [hearly hquiet, if_pos hp, List.map_nil, List.nil_append, ← List.append_assoc] at hsent
    have hmarked := List.prefix_of_prefix_length_le (hsent ▸ List.prefix_append _ _) hpre
      (by simpa using Nat.succ_le_of_lt hlt)
    intro hzero
    have hle := hmarked.countP_le (p := isMarker)
    rw [hzero, List.countP_append] at hle
    simp [isMarker] at hle

end Wires

section Recv

variable {N : Nat} {M : Type}

/--
What a process has received from each process: its white messages are recorded from its `SaveState` on,
and no marker is received before.
-/
structure Recv (node : Node N M) (received : PID N → List (Wire N M)) : Prop where
  delivered : ∀ q, receives node.log q = (payloads (received q)).map Prod.fst
  marked : ∀ q, (markers node.log).count q = (received q).countP isMarker
  before : ∀ q, ∃ ws, ws <+: received q ∧ ws.countP isMarker = 0
    ∧ receives (untilSaved node.log) q = (payloads ws).map Prod.fst
  record : ∀ m, m ∈ node.snap.record ↔
    ∃ q, (m, .white) ∈ (payloads (received q)).drop (receives (untilSaved node.log) q).length

variable {snap snap' : ChandyLamport M} {log l : List (Entry N M)} {q : PID N}
  {received : PID N → List (Wire N M)}

theorem update_append (received : PID N → List (Wire N M)) (q r : PID N) (w : Wire N M)
    : Function.update received q (received q ++ [w]) r = received r ++ if r = q then [w] else [] := by
  rw [Function.update_apply]
  split
  . next hr => rw [hr]
  . rw [List.append_nil]

theorem receives_untilSaved_append (hreceives : receives l q = [])
    : receives (untilSaved (log ++ l)) q = receives (untilSaved log) q := by
  by_cases hcount : log.countP isSaveState = 0
  . have hnone : receives (untilSaved l) q = [] := by
      unfold receives at hreceives ⊢
      rw [List.filterMap_eq_nil_iff] at hreceives ⊢
      intro e he
      exact hreceives e ((List.takeWhile_prefix _).subset he)
    rw [untilSaved_append_of_unsaved hcount, receives_append, hnone, List.append_nil,
      untilSaved_eq hcount]
  . rw [untilSaved_append_of_saved hcount]

theorem Recv.init (neighbors : Finset (PID N))
    : Recv ⟨new neighbors, ([] : List (Entry N M))⟩ (fun _ => []) where
  delivered := fun _ => rfl
  marked := fun _ => rfl
  before := fun _ => ⟨[], List.prefix_rfl, rfl, rfl⟩
  record := by simp [new, payloads]

theorem Recv.append (h : Recv ⟨snap, log⟩ received) (hrecord : snap'.record = snap.record)
    (hreceives : ∀ q, receives l q = []) (hmarkers : markers l = [])
    : Recv ⟨snap', log ++ l⟩ received where
  delivered := by
    intro q
    rw [receives_append, hreceives, List.append_nil]
    exact h.delivered q
  marked := by
    intro q
    rw [markers_append, hmarkers, List.append_nil]
    exact h.marked q
  before := by
    intro q
    rw [receives_untilSaved_append (hreceives q)]
    exact h.before q
  record := by
    intro m
    simp only [receives_untilSaved_append (hreceives _), hrecord]
    exact h.record m

theorem Recv.marker (h : Recv ⟨snap, log⟩ received) (q p : PID N) (dests : Finset (PID N))
    : Recv ⟨snap, log ++ [.marker q]⟩
        (Function.update received q (received q ++ [.snapshot p dests])) := by
  have hnone : ∀ r, receives ([.marker q] : List (Entry N M)) r = [] := fun _ => rfl
  have hpayloads : ∀ r, payloads (Function.update received q (received q ++ [.snapshot p dests]) r)
      = payloads (received r) := by
    intro r
    rw [update_append, payloads_append]
    split
    . exact List.append_nil _
    . exact List.append_nil _
  constructor
  . intro r
    rw [receives_append, hnone, List.append_nil, hpayloads]
    exact h.delivered r
  . intro r
    have hsame := h.marked r
    rw [markers_append, List.count_append, update_append, List.countP_append, ← hsame]
    split
    . next hr => simp [markers, isMarker, hr]
    . next hr => simp [markers, Ne.symm hr]
  . intro r
    obtain ⟨ws, hpre, hmarker, hreceives⟩ := h.before r
    rw [receives_untilSaved_append (hnone r)]
    refine ⟨ws, ?_, hmarker, hreceives⟩
    rw [update_append]
    exact hpre.trans (List.prefix_append _ _)
  . intro m
    simp only [receives_untilSaved_append (hnone _), hpayloads]
    exact h.record m

theorem Recv.length_le (h : Recv ⟨snap, log⟩ received) (q : PID N)
    : (receives (untilSaved log) q).length ≤ (payloads (received q)).length := by
  have hpre : receives (untilSaved log) q <+: receives log q :=
    (List.takeWhile_prefix _).filterMap _
  have hlen := hpre.length_le
  rw [h.delivered q, List.length_map] at hlen
  exact hlen

theorem Recv.record_eq_empty (h : Recv ⟨snap, log⟩ received) (hsaved : log.countP isSaveState = 0)
    : snap.record = ∅ := by
  rw [Finset.eq_empty_iff_forall_notMem]
  intro m hm
  obtain ⟨q, hq⟩ := (h.record m).mp hm
  rw [untilSaved_eq hsaved, h.delivered q, List.length_map, List.drop_length] at hq
  cases hq

section Payload

variable {m : M} {c : StateColor}

theorem payloads_payload (q : PID N) (r : PID N)
    : payloads (Function.update received q (received q ++ [.payload m c]) r)
      = payloads (received r) ++ if r = q then [(m, c)] else [] := by
  rw [update_append, payloads_append]
  congr 1
  split
  . rfl
  . rfl

theorem receives_received (q r : PID N)
    : receives ([.received q m] : List (Entry N M)) r = if r = q then [m] else [] := by
  by_cases hr : r = q
  . simp [receives, hr]
  . simp [receives, hr, Ne.symm hr]

theorem Recv.delivered_payload (h : Recv ⟨snap, log⟩ received) (q r : PID N)
    : receives (log ++ [.received q m]) r
      = (payloads (Function.update received q (received q ++ [.payload m c]) r)).map Prod.fst := by
  rw [receives_append, payloads_payload, List.map_append, receives_received]
  congr 1
  . exact h.delivered r
  . split
    . rfl
    . rfl

theorem Recv.marked_payload (h : Recv ⟨snap, log⟩ received) (q r : PID N)
    : (markers (log ++ [.received q m])).count r
      = (Function.update received q (received q ++ [.payload m c]) r).countP isMarker := by
  have hsame := h.marked r
  rw [markers_append, update_append, List.countP_append]
  split
  . simpa [markers, isMarker] using hsame
  . simpa [markers] using hsame

theorem Recv.payload_of_white (h : Recv ⟨snap, log⟩ received) (hsaved : log.countP isSaveState = 0)
    (hmarker : ∀ q, (received q).countP isMarker = 0) (q : PID N)
    : Recv ⟨snap, log ++ [.received q m]⟩
        (Function.update received q (received q ++ [.payload m c])) := by
  have hsaved' : (log ++ [Entry.received q m]).countP isSaveState = 0 := by
    rw [List.countP_append, hsaved]
    rfl
  refine ⟨h.delivered_payload q, h.marked_payload q, ?_, ?_⟩
  . intro r
    refine ⟨_, List.prefix_rfl, ?_, ?_⟩
    . rw [update_append, List.countP_append, hmarker]
      split
      . rfl
      . rfl
    . rw [untilSaved_eq hsaved']
      exact h.delivered_payload q r
  . intro m'
    dsimp only
    rw [h.record_eq_empty hsaved]
    refine iff_of_false (Finset.notMem_empty m') ?_
    rintro ⟨r, hr⟩
    rw [untilSaved_eq hsaved', h.delivered_payload (c := c), List.length_map, List.drop_length] at hr
    cases hr

theorem Recv.payload_of_red [DecidableEq M] (h : Recv ⟨snap, log⟩ received)
    (hsaved : log.countP isSaveState ≠ 0) (q : PID N)
    (hrecord : snap'.record = if c = .white then insert m snap.record else snap.record)
    : Recv ⟨snap', log ++ [.received q m]⟩
        (Function.update received q (received q ++ [.payload m c])) := by
  have huntil := untilSaved_append_of_saved (l := [Entry.received q m]) hsaved
  refine ⟨h.delivered_payload q, h.marked_payload q, ?_, ?_⟩
  . intro r
    obtain ⟨ws, hpre, hmarker, hreceives⟩ := h.before r
    rw [huntil]
    refine ⟨ws, ?_, hmarker, hreceives⟩
    rw [update_append]
    exact hpre.trans (List.prefix_append _ _)
  . intro m'
    have hold := h.record m'
    dsimp only at hold ⊢
    simp only [huntil, payloads_payload, List.drop_append_of_le_length (h.length_le _),
      List.mem_append, exists_or, ← hold, hrecord]
    have hnew : (∃ r, (m', StateColor.white) ∈ if r = q then [(m, c)] else []) ↔ m' = m ∧ c = .white := by
      constructor
      . rintro ⟨r, hr⟩
        split at hr
        . rw [List.mem_singleton, Prod.mk.injEq] at hr
          exact ⟨hr.1, hr.2.symm⟩
        . cases hr
      . rintro ⟨rfl, rfl⟩
        exact ⟨q, by simp⟩
    rw [hnew]
    split
    . next hc => simp [hc, or_comm]
    . next hc => simp [hc]

end Payload

end Recv

section Counted

/--
`SnapshotDone` is delivered with the marker that comes one before the last one.
-/
structure Counted (neighbors : Finset (PID N)) (node : Node N M) : Prop where
  count : node.snap.snapshotCount = (neighbors.card : Int) - 1 - (markers node.log).length
  early : ¬ (0 < neighbors.card - 1 ∧ neighbors.card - 1 ≤ (markers node.log).length) →
    dones [] node.log = []
  late : 0 < neighbors.card - 1 → neighbors.card - 1 ≤ (markers node.log).length →
    ∃ recorded, dones [] node.log = [((markers node.log).take (neighbors.card - 1), recorded)]

variable {neighbors : Finset (PID N)} {snap snap' : ChandyLamport M} {log l : List (Entry N M)}

omit [Message N M]

theorem Counted.init (neighbors : Finset (PID N))
    : Counted neighbors ⟨new neighbors, ([] : List (Entry N M))⟩ where
  count := (Int.sub_zero _).symm
  early := fun _ => rfl
  late := fun hpos hle => absurd (Nat.lt_of_lt_of_le hpos hle) (Nat.lt_irrefl 0)

theorem Counted.append (h : Counted neighbors ⟨snap, log⟩)
    (hcount : snap'.snapshotCount = snap.snapshotCount) (hmarkers : markers l = [])
    (hdones : ∀ seen, dones seen l = [])
    : Counted neighbors ⟨snap', log ++ l⟩ := by
  have hm : markers (log ++ l) = markers log := by rw [markers_append, hmarkers, List.append_nil]
  have hd : dones [] (log ++ l) = dones [] log := by rw [dones_append, hdones, List.append_nil]
  constructor
  . rw [hm, hcount]
    exact h.count
  . rw [hm, hd]
    exact h.early
  . rw [hm, hd]
    exact h.late

theorem Counted.marker (h : Counted neighbors ⟨snap, log⟩) (q : PID N) (recorded : Finset M)
    (hmarkers : markers l = []) (hdones : ∀ seen, dones seen l = [])
    (hcount : snap'.snapshotCount = snap.snapshotCount - 1)
    : Counted neighbors ⟨snap', log ++ .marker q
        :: (l ++ if snap.snapshotCount - 1 = 0 then [.snapshotDone recorded] else [])⟩ := by
  obtain ⟨done, hdone⟩ : ∃ done : List (Entry N M), done
      = if snap.snapshotCount - 1 = 0 then [.snapshotDone recorded] else [] := ⟨_, rfl⟩
  have hquiet : markers done = [] := by
    rw [hdone]
    split
    . rfl
    . rfl
  have hm : markers (log ++ .marker q :: (l ++ done)) = markers log ++ [q] := by
    rw [markers_append]
    show _ ++ q :: markers (l ++ done) = _
    rw [markers_append, hmarkers, hquiet]
    rfl
  have hd : dones [] (log ++ .marker q :: (l ++ done))
      = dones [] log ++ dones (markers log ++ [q]) done := by
    rw [dones_append, List.nil_append]
    show _ ++ dones (markers log ++ [q]) (l ++ done) = _
    rw [dones_append, hdones, hmarkers, List.append_nil, List.nil_append]
  have hold := h.count
  dsimp only at hold
  rw [← hdone]
  constructor
  . dsimp only
    rw [hm, List.length_append, hcount, hold]
    simp
    omega
  . dsimp only
    rw [hm, hd, List.length_append, List.length_singleton]
    intro hnot
    rw [h.early (by dsimp only; omega), hdone, if_neg (by omega)]
    rfl
  . dsimp only
    rw [hm, hd, List.length_append, List.length_singleton]
    intro hpos hle
    rcases Nat.lt_or_eq_of_le hle with hlt | heq
    . obtain ⟨recorded', hlate⟩ := h.late hpos (Nat.le_of_lt_succ hlt)
      dsimp only at hlate
      refine ⟨recorded', ?_⟩
      rw [hlate, hdone, if_neg (by omega), List.take_append_of_le_length (Nat.le_of_lt_succ hlt)]
      rfl
    . refine ⟨recorded, ?_⟩
      rw [h.early (by dsimp only; omega), hdone, if_pos (by omega), List.take_of_length_le]
      . rfl
      . rw [heq, List.length_append]
        rfl

end Counted

section Local

structure Local (quiet : Prop) (me : PID N) (neighbors : Finset (PID N)) (node : Node N M)
    (sent received : PID N → List (Wire N M)) : Prop where
  row : Row quiet me neighbors node sent
  recv : Recv node received
  counted : Counted neighbors node
  unmarked : node.snap.color = .white → ∀ q, (received q).countP isMarker = 0

variable [DecidableEq M] {quiet : Prop} {me q : PID N} {neighbors : Finset (PID N)}
  {neighborsFor : PID N → Option (Finset (PID N))} {node node' : Node N M} {reaction : List M}
  {out : List (Envelope (PID N) (Wire N M))} {sent received : PID N → List (Wire N M)}

def records (snap : ChandyLamport M) (m : M) (c : StateColor) : Finset M :=
  if c = .white ∧ snap.color = .red then insert m snap.record else snap.record

-- What a process notes when it turns red.
def saved (reaction : List M) : List (Entry N M) := .saveState :: reaction.map .sent

omit [DecidableEq M] in
theorem Local.init (quiet : Prop) (me : PID N) (neighbors : Finset (PID N))
    : Local quiet me neighbors ⟨new neighbors, ([] : List (Entry N M))⟩ (fun _ => []) (fun _ => [])
    where
  row := ⟨fun _ => ⟨rfl, fun _ => rfl⟩, nofun⟩
  recv := .init neighbors
  counted := .init neighbors
  unmarked := fun _ _ => rfl

theorem input_cases {e : Event Initiate M}
    (hst : (program neighborsFor).input me (e, reaction) node = some (node', out))
    : (∃ m, e = .message m ∧ node' = ⟨node.snap, node.log ++ [.sent m]⟩
          ∧ out = transmit [(.message (.payload m node.snap.color) : Event Initiate _)])
        ∨ (node.snap.color = .white
          ∧ node' = ⟨{ node.snap with color := .red }, node.log ++ saved reaction⟩
          ∧ out = transmit (node.snap.turnRed me ((neighborsFor me).getD ∅) reaction).2.2)
        ∨ (node' = node ∧ out = []) := by
  simp only [program, Option.some_inj, Prod.mk.injEq] at hst
  obtain ⟨rfl, rfl⟩ := hst
  cases e with
  | message m =>
    left
    refine ⟨m, rfl, ?_, rfl⟩
    simp [onSend, Entry.handOver]
  | signal s =>
    cases s
    right
    unfold onSend
    by_cases hcolor : node.snap.color = .white
    . left
      refine ⟨hcolor, ?_, ?_⟩
      . simp [hcolor, turnRed, Entry.handOver, Entry.deliver, saved]
      . simp only [if_pos hcolor]
    . right
      simp [hcolor, Entry.handOver, transmit]

/--
What a process does when it receives the marker, before it counts the marker.
-/
inductive MarkCase (me : PID N) (neighbors : Finset (PID N)) (reaction : List M) (snap : ChandyLamport M)
    : ChandyLamport M → List (Entry N M) → List (Envelope (PID N) (Wire N M)) → Prop where
  | white :
      snap.color = .white →
      MarkCase me neighbors reaction snap { snap with color := .red } (saved reaction)
        (transmit (snap.turnRed me neighbors reaction).2.2)
  | red :
      snap.color = .red →
      MarkCase me neighbors reaction snap snap [] []

theorem receive_cases {w : Wire N M}
    (hst : (program neighborsFor).receive me w (q, reaction) node = some (node', out))
    : (∃ m c, w = .payload m c
          ∧ node' = ⟨{ node.snap with record := records node.snap m c }, node.log ++ [.received q m]⟩
          ∧ out = [])
        ∨ (∃ p dests snap l, w = .snapshot p dests
          ∧ MarkCase me ((neighborsFor me).getD ∅) reaction node.snap snap l out
          ∧ node' = ⟨{ snap with snapshotCount := node.snap.snapshotCount - 1 },
              node.log ++ .marker q :: (l ++ if node.snap.snapshotCount - 1 = 0
                then [.snapshotDone snap.record] else [])⟩) := by
  simp only [program, Option.some_inj, Prod.mk.injEq] at hst
  obtain ⟨rfl, rfl⟩ := hst
  cases w with
  | payload m c =>
    left
    refine ⟨m, c, rfl, ?_⟩
    cases c with
    | red => simp [onReceive, records, Entry.arrive, Entry.deliver, transmit]
    | white =>
      by_cases hcolor : node.snap.color = .red
      . simp [onReceive, records, hcolor, Entry.arrive, Entry.deliver, transmit]
      . simp [onReceive, records, hcolor, Entry.arrive, Entry.deliver, transmit]
  | snapshot p dests =>
    right
    cases hcolor : node.snap.color with
    | white =>
      refine ⟨p, dests, { node.snap with color := .red }, saved reaction, rfl, ?_, ?_⟩
      . simp only [onReceive, hcolor, if_true]
        exact .white hcolor
      . have hsaved : List.flatMap (Entry.deliver q reaction) [.signal .saveState] = saved reaction :=
          List.append_nil _
        simp only [onReceive, hcolor, if_true, turnRed, List.flatMap_append, List.append_assoc, hsaved]
        congr 3
        split
        . rfl
        . rfl
    | red =>
      refine ⟨p, dests, node.snap, [], rfl, ?_, ?_⟩
      . simp only [onReceive, hcolor, reduceCtorEq, if_false]
        exact .red hcolor
      . simp only [onReceive, hcolor, reduceCtorEq, if_false, List.nil_append, List.append_assoc]
        congr 2
        split
        . rfl
        . rfl

omit [Message N M] [DecidableEq M] in
theorem saved_inert (reaction : List M)
    : (∀ q, receives (saved reaction : List (Entry N M)) q = [])
        ∧ markers (saved reaction : List (Entry N M)) = []
        ∧ ∀ seen, dones seen (saved reaction : List (Entry N M)) = [] := by
  have hsent : ∀ seen, dones seen (reaction.map (Entry.sent : M → Entry N M)) = [] := by
    intro seen
    induction reaction with
    | nil => rfl
    | cons m reaction ih => exact ih
  refine ⟨?_, ?_, hsent⟩
  . intro q
    simp [receives, saved]
  . simp [markers, saved]

theorem Local.input (h : Local quiet me ((neighborsFor me).getD ∅) node sent received)
    {e : Event Initiate M} (hquiet : quiet → reaction = [])
    (hst : (program neighborsFor).input me (e, reaction) node = some (node', out))
    : Local quiet me ((neighborsFor me).getD ∅) node' (fun q => sent q ++ toDest out q) received := by
  obtain ⟨hreceives, hmarkers, hdones⟩ := saved_inert (N := N) reaction
  rcases input_cases hst with ⟨m, -, rfl, rfl⟩ | ⟨hwhite, rfl, rfl⟩ | ⟨rfl, rfl⟩
  . refine ⟨h.row.send m, ?_, ?_, h.unmarked⟩
    . exact h.recv.append rfl (fun _ => rfl) rfl
    . exact h.counted.append rfl rfl (fun _ => rfl)
  . refine ⟨h.row.turnRed hwhite hquiet, ?_, ?_, nofun⟩
    . exact h.recv.append rfl hreceives hmarkers
    . exact h.counted.append rfl hmarkers hdones
  . simpa using h

omit [DecidableEq M] in
theorem Row.mark (h : Row quiet me neighbors node sent) {snap' : ChandyLamport M}
    {l : List (Entry N M)} (hcase : MarkCase me neighbors reaction node.snap snap' l out)
    (hquiet : quiet → reaction = []) (q : PID N)
    : Row quiet me neighbors ⟨snap', node.log ++ .marker q :: l⟩ (fun p => sent p ++ toDest out p) := by
  have hmarker : Row quiet me neighbors ⟨node.snap, node.log ++ [.marker q]⟩ sent :=
    h.append rfl (fun _ => rfl) rfl
  cases hcase with
  | white hwhite =>
    have hred := hmarker.turnRed hwhite hquiet
    rw [List.append_assoc] at hred
    exact hred
  | red =>
    simpa using hmarker

theorem Local.payload (h : Local quiet me neighbors node sent received) (q : PID N) (m : M)
    (c : StateColor)
    : Local quiet me neighbors
        ⟨{ node.snap with record := records node.snap m c }, node.log ++ [.received q m]⟩ sent
        (Function.update received q (received q ++ [.payload m c])) := by
  refine ⟨h.row.append rfl (fun _ => rfl) rfl, ?_, h.counted.append rfl rfl (fun _ => rfl), ?_⟩
  . cases hcolor : node.snap.color with
    | white =>
      have hrecords : records node.snap m c = node.snap.record := by
        simp [records, hcolor]
      rw [hrecords]
      exact h.recv.payload_of_white (h.row.white hcolor).1 (h.unmarked hcolor) q
    | red =>
      apply h.recv.payload_of_red
      . rw [(h.row.red hcolor).1]
        exact Nat.one_ne_zero
      . simp [records, hcolor]
  . intro hwhite r
    rw [update_append, List.countP_append, h.unmarked hwhite]
    split
    . rfl
    . rfl

omit [DecidableEq M] in
theorem Local.mark (h : Local quiet me neighbors node sent received) {snap : ChandyLamport M}
    {l : List (Entry N M)} (hcase : MarkCase me neighbors reaction node.snap snap l out)
    (hquiet : quiet → reaction = []) (q p : PID N) (dests : Finset (PID N))
    : Local quiet me neighbors
        ⟨{ snap with snapshotCount := node.snap.snapshotCount - 1 },
          node.log ++ .marker q :: (l ++ if node.snap.snapshotCount - 1 = 0
            then [.snapshotDone snap.record] else [])⟩
        (fun r => sent r ++ toDest out r)
        (Function.update received q (received q ++ [.snapshot p dests])) := by
  obtain ⟨done, hdone⟩ : ∃ done : List (Entry N M), done
      = if node.snap.snapshotCount - 1 = 0 then [.snapshotDone snap.record] else [] := ⟨_, rfl⟩
  have hinert : (∀ q, sends done q = []) ∧ done.countP isSaveState = 0
      ∧ (∀ q, receives done q = []) ∧ markers done = [] := by
    rw [hdone]
    split
    . exact ⟨fun _ => rfl, rfl, fun _ => rfl, rfl⟩
    . exact ⟨fun _ => rfl, rfl, fun _ => rfl, rfl⟩
  obtain ⟨hsends, hsaved, hreceives, hmarkers⟩ := hinert
  have hl : (∀ q, receives l q = []) ∧ markers l = [] ∧ ∀ seen, dones seen l = [] := by
    cases hcase with
    | white => exact saved_inert reaction
    | red => exact ⟨fun _ => rfl, rfl, fun _ => rfl⟩
  obtain ⟨hreceives', hmarkers', hdones⟩ := hl
  have hsnap : snap.color = .red ∧ snap.record = node.snap.record := by
    cases hcase with
    | white => exact ⟨rfl, rfl⟩
    | red hred => exact ⟨hred, rfl⟩
  refine ⟨?_, ?_, ?_, ?_⟩
  . rw [← hdone, ← List.cons_append, ← List.append_assoc]
    exact (h.row.mark hcase hquiet q).append rfl hsends hsaved
  . rw [← hdone, ← List.singleton_append, ← List.append_assoc]
    refine (h.recv.marker q p dests).append hsnap.2 ?_ ?_
    . intro r
      rw [receives_append, hreceives, hreceives']
      rfl
    . rw [markers_append, hmarkers, hmarkers']
      rfl
  . exact h.counted.marker q snap.record hmarkers' hdones rfl
  . intro hwhite
    rw [hsnap.1] at hwhite
    cases hwhite

theorem Local.receive (h : Local quiet me ((neighborsFor me).getD ∅) node sent received)
    {w : Wire N M} (hquiet : quiet → reaction = [])
    (hst : (program neighborsFor).receive me w (q, reaction) node = some (node', out))
    : Local quiet me ((neighborsFor me).getD ∅) node' (fun q => sent q ++ toDest out q)
        (Function.update received q (received q ++ [w])) := by
  rcases receive_cases hst with ⟨m, c, rfl, rfl, rfl⟩ | ⟨p, dests, snap, l, rfl, hcase, rfl⟩
  . simpa using h.payload q m c
  . exact h.mark hcase hquiet q p dests

end Local

end ChandyLamport
