import Mathlib.Data.Set.Card
import Mathlib.Order.Bounds.Basic
import ScalaNeko.Lib.Causality.History

/-!
Logical time on distributed computations. A scheme says which value a process has at first, what an
event makes of it and what the reception of a timestamp makes of it. The scheme of vectors counts
the causal past, the scheme of scalars measures the longest chain of events.
-/

namespace Causality

structure Scheme (P τ : Type) where
  zero : τ
  tick : P → τ → τ
  merge : P → τ → τ → τ

namespace Scheme

variable {P τ : Type}

def advance (S : Scheme P τ) (p : P) (cur : τ) (stamp : EventId P → τ) : Option (EventId P) → τ
  | none => S.tick p cur
  | some d => S.merge p cur (stamp d)

/--
`S.Computation h cur stamp`: the computation with the history `h` gave its events the values `stamp`
and left the processes with the values `cur`.
-/
inductive Computation [DecidableEq P] (S : Scheme P τ)
    : History P → (P → τ) → (EventId P → τ) → Prop where
  | empty : Computation S (fun _ => []) (fun _ => S.zero) (fun _ => S.zero)
  | event {h : History P} {cur : P → τ} {stamp : EventId P → τ} {p : P}
      {src : Option (EventId P)} :
      Computation S h cur stamp → (∀ d, src = some d → d ∈ h.events) →
      Computation S (h.snoc p src) (Function.update cur p (S.advance p (cur p) stamp src))
        (Function.update stamp (h.next p) (S.advance p (cur p) stamp src))

variable [DecidableEq P] {S : Scheme P τ} {h : History P} {cur : P → τ} {stamp : EventId P → τ}

theorem Computation.closed (hc : S.Computation h cur stamp) : h.Closed := by
  induction hc with
  | empty =>
    intro d e hd
    cases hd with
    | process hmem => simp [History.mem_events] at hmem
    | message hs => simp [History.source] at hs
  | event _ hsrc ih => exact ih.snoc hsrc

theorem Computation.cur_eq (hc : S.Computation h cur stamp) (p : P)
    : (h p = [] ∧ cur p = S.zero) ∨ ∃ n, (h p).length = n + 1 ∧ cur p = stamp ⟨p, n⟩ := by
  induction hc with
  | empty => exact .inl ⟨rfl, rfl⟩
  | @event h cur stamp q src _ _ ih =>
    by_cases hp : p = q
    . subst hp
      right
      refine ⟨(h p).length, ?_, ?_⟩
      . simp [History.snoc]
      . rw [Function.update_self, ← History.next, Function.update_self]
    . have hne : ∀ n, (⟨p, n⟩ : EventId P) ≠ h.next q := by
        intro n heq
        simp only [History.next, EventId.mk.injEq] at heq
        exact hp heq.1
      simp only [History.snoc, Function.update_of_ne hp, Function.update_of_ne (hne _)]
      exact ih

end Scheme

section Vector

variable {P : Type} [DecidableEq P]

def vectorScheme (P : Type) [DecidableEq P] : Scheme P (P → Nat) where
  zero := fun _ => 0
  tick := fun p v => Function.update v p (v p + 1)
  merge := fun p v ts j => max (Function.update v p (v p + 1) j) (ts j)

variable {h : History P} {cur : P → P → Nat} {stamp : EventId P → P → Nat} {p j : P} {i : Nat}

theorem lt_advance_vectorScheme {cur : P → Nat} {src : Option (EventId P)}
    : i < (vectorScheme P).advance p cur stamp src j ↔
        (j = p ∧ i = cur p) ∨ i < cur j ∨ ∃ d, src = some d ∧ i < stamp d j := by
  have htick : i < Function.update cur p (cur p + 1) j ↔ (j = p ∧ i = cur p) ∨ i < cur j := by
    by_cases hj : j = p
    . subst hj
      rw [Function.update_self]
      simp only [true_and]
      omega
    . simp [hj]
  cases src with
  | none =>
    simp only [Scheme.advance, vectorScheme]
    rw [htick]
    simp
  | some d =>
    simp only [Scheme.advance, vectorScheme]
    rw [lt_max_iff, htick, or_assoc]
    simp

/--
The component `j` of a vector is a threshold: below it are the ranks of the events of `j` in the
causal past.
-/
structure VectorInv (h : History P) (cur : P → P → Nat) (stamp : EventId P → P → Nat) : Prop where
  self : ∀ p, cur p p = (h p).length
  past : ∀ e, e ∈ h.events → ∀ j i, h.CausalPast ⟨j, i⟩ e ↔ i < stamp e j

theorem VectorInv.cur_past (hinv : VectorInv h cur stamp)
    (hc : (vectorScheme P).Computation h cur stamp)
    : i < cur p j ↔ ∃ n, (h p).length = n + 1 ∧ h.CausalPast ⟨j, i⟩ ⟨p, n⟩ := by
  rcases hc.cur_eq p with ⟨hnil, hcur⟩ | ⟨n, hlen, hcur⟩
  . rw [hnil, hcur]
    simp [vectorScheme]
  . rw [hcur, ← hinv.past]
    . constructor
      . intro hd
        exact ⟨n, hlen, hd⟩
      . rintro ⟨m, hm, hd⟩
        have : m = n := by omega
        subst this
        exact hd
    . rw [History.mk_mem_events]
      omega

theorem VectorInv.stamp_self_le (hinv : VectorInv h cur stamp)
    (hc : (vectorScheme P).Computation h cur stamp) {e : EventId P} (he : e ∈ h.events)
    : stamp e p ≤ (h p).length := by
  by_contra hlt
  have hpast : h.CausalPast ⟨p, (h p).length⟩ e := by
    rw [hinv.past e he]
    omega
  exact h.next_not_mem p (hc.closed.mem_of_causalPast he hpast)

theorem VectorInv.event {src : Option (EventId P)} (hinv : VectorInv h cur stamp)
    (hc : (vectorScheme P).Computation h cur stamp) (hsrc : ∀ d, src = some d → d ∈ h.events)
    : VectorInv (h.snoc p src)
        (Function.update cur p ((vectorScheme P).advance p (cur p) stamp src))
        (Function.update stamp (h.next p) ((vectorScheme P).advance p (cur p) stamp src)) := by
  constructor
  . intro q
    by_cases hq : q = p
    . subst hq
      -- the own component is ahead of every timestamp, so a reception counts itself only
      apply Nat.le_antisymm
      . rw [← Nat.not_lt]
        simp only [Function.update_self, History.snoc, List.length_append, List.length_singleton]
        rw [lt_advance_vectorScheme, hinv.self]
        rintro (⟨-, hlt⟩ | hlt | ⟨d, hs, hlt⟩)
        . omega
        . omega
        . have := hinv.stamp_self_le (p := q) hc (hsrc d hs)
          omega
      . simp only [Function.update_self, History.snoc, List.length_append, List.length_singleton]
        rw [Nat.succ_le_iff, lt_advance_vectorScheme, hinv.self]
        exact .inl ⟨rfl, rfl⟩
    . simp only [History.snoc, Function.update_of_ne hq]
      exact hinv.self q
  . intro e he j i
    rw [History.mem_events_snoc] at he
    cases he with
    | inl he =>
      rw [History.causalPast_snoc_of_mem hc.closed he]
      rw [Function.update_of_ne (History.ne_next_of_mem he p)]
      exact hinv.past e he j i
    | inr he =>
      subst he
      rw [History.causalPast_snoc_next hc.closed hsrc, Function.update_self]
      rw [lt_advance_vectorScheme, ← hinv.cur_past hc, hinv.self]
      have hnew : (⟨j, i⟩ : EventId P) = h.next p ↔ j = p ∧ i = (h p).length := by
        simp [History.next]
      have hmsg : (∃ d, src = some d ∧ i < stamp d j)
          ↔ ∃ c, src = some c ∧ h.CausalPast ⟨j, i⟩ c := by
        constructor
        . rintro ⟨d, hs, hlt⟩
          exact ⟨d, hs, (hinv.past d (hsrc d hs) j i).mpr hlt⟩
        . rintro ⟨d, hs, hd⟩
          exact ⟨d, hs, (hinv.past d (hsrc d hs) j i).mp hd⟩
      rw [hnew, hmsg]

theorem vectorInv_of_computation (hc : (vectorScheme P).Computation h cur stamp)
    : VectorInv h cur stamp := by
  induction hc with
  | empty =>
    constructor
    . intro p
      rfl
    . intro e he
      simp [History.mem_events] at he
  | event hc hsrc ih => exact ih.event hc hsrc

theorem ncard_causalPast (hc : (vectorScheme P).Computation h cur stamp) {e : EventId P}
    (he : e ∈ h.events) (j : P)
    : { d : EventId P | d.proc = j ∧ h.CausalPast d e }.ncard = stamp e j := by
  have himage : { d : EventId P | d.proc = j ∧ h.CausalPast d e }
      = (fun i => (⟨j, i⟩ : EventId P)) '' ↑(Finset.range (stamp e j)) := by
    ext d
    rcases d with ⟨q, i⟩
    simp only [Set.mem_ofPred_eq, Set.mem_image, Finset.coe_range, Set.mem_Iio, EventId.mk.injEq]
    constructor
    . rintro ⟨rfl, hd⟩
      exact ⟨i, ((vectorInv_of_computation hc).past e he q i).mp hd, rfl, rfl⟩
    . rintro ⟨k, hk, rfl, rfl⟩
      exact ⟨rfl, ((vectorInv_of_computation hc).past e he j k).mpr hk⟩
  rw [himage, Set.ncard_image_of_injective, Set.ncard_coe_finset, Finset.card_range]
  intro a b hab
  simpa using hab

theorem stamp_le_iff_happensBefore (hc : (vectorScheme P).Computation h cur stamp)
    {d e : EventId P} (hd : d ∈ h.events) (he : e ∈ h.events) (hne : d ≠ e)
    : (∀ j, stamp d j ≤ stamp e j) ↔ h.HappensBefore d e := by
  have hinv := vectorInv_of_computation hc
  constructor
  . intro hle
    have hself : d.idx < stamp d d.proc := (hinv.past d hd d.proc d.idx).mp .refl
    have hpast : h.CausalPast ⟨d.proc, d.idx⟩ e :=
      (hinv.past e he d.proc d.idx).mpr (Nat.lt_of_lt_of_le hself (hle d.proc))
    rw [History.causalPast_iff] at hpast
    cases hpast with
    | inl heq => exact absurd heq hne
    | inr hb => exact hb
  . intro hb j
    by_contra hlt
    have hde : h.CausalPast d e := History.causalPast_iff.mpr (.inr hb)
    have hj : h.CausalPast ⟨j, stamp e j⟩ d := by
      rw [hinv.past d hd]
      omega
    have := (hinv.past e he j (stamp e j)).mp (hj.trans hde)
    omega

end Vector

section Scalar

variable {P : Type} {h : History P} {cur : P → Nat} {stamp : EventId P → Nat} {p : P}

def scalarScheme (P : Type) : Scheme P Nat where
  zero := 0
  tick := fun _ l => l + 1
  merge := fun _ l ts => 1 + max l ts

theorem lt_advance_scalarScheme {l : Nat} {src : Option (EventId P)}
    : l < (scalarScheme P).advance p l stamp src := by
  cases src with
  | none => simp [Scheme.advance, scalarScheme]
  | some d =>
    simp only [Scheme.advance, scalarScheme]
    omega

variable [DecidableEq P]

theorem stamp_le_cur (hc : (scalarScheme P).Computation h cur stamp) {e : EventId P}
    (he : e ∈ h.events)
    : stamp e ≤ cur e.proc := by
  induction hc with
  | empty => simp [History.mem_events] at he
  | @event h cur stamp q src _ _ ih =>
    rw [History.mem_events_snoc] at he
    cases he with
    | inl he =>
      rw [Function.update_of_ne (History.ne_next_of_mem he q)]
      by_cases hq : e.proc = q
      . rw [hq, Function.update_self]
        have hle := ih he
        rw [hq] at hle
        exact Nat.le_of_lt (Nat.lt_of_le_of_lt hle lt_advance_scalarScheme)
      . rw [Function.update_of_ne hq]
        exact ih he
    | inr he =>
      subst he
      simp [History.next]

structure ScalarInv (h : History P) (stamp : EventId P → Nat) : Prop where
  pos : ∀ e, e ∈ h.events → 0 < stamp e
  direct_lt : ∀ d e, e ∈ h.events → h.Direct d e → stamp d < stamp e
  attained : ∀ e, e ∈ h.events → stamp e = 1 ∨ ∃ d, h.Direct d e ∧ stamp e = stamp d + 1

theorem lt_advance_of_direct_next {src : Option (EventId P)} {d : EventId P}
    (hc : (scalarScheme P).Computation h cur stamp) (hsrc : ∀ d, src = some d → d ∈ h.events)
    (hd : (h.snoc p src).Direct d (h.next p))
    : d ∈ h.events ∧ stamp d < (scalarScheme P).advance p (cur p) stamp src := by
  rw [History.direct_snoc_next] at hd
  rcases hd with ⟨hp, hlen⟩ | hs
  . have hmem : d ∈ h.events := by
      rw [History.mem_events, hp]
      omega
    refine ⟨hmem, Nat.lt_of_le_of_lt ?_ lt_advance_scalarScheme⟩
    rw [← hp]
    exact stamp_le_cur hc hmem
  . refine ⟨hsrc d hs, ?_⟩
    rw [hs]
    simp only [Scheme.advance, scalarScheme]
    omega

/-!
The value of a new event is that of the first event of a process or one more than that of a direct
cause.
-/

theorem advance_attained_of_own {src : Option (EventId P)}
    (hc : (scalarScheme P).Computation h cur stamp)
    (hown : (scalarScheme P).advance p (cur p) stamp src = cur p + 1)
    : (scalarScheme P).advance p (cur p) stamp src = 1
        ∨ ∃ d, (h.snoc p src).Direct d (h.next p)
          ∧ (scalarScheme P).advance p (cur p) stamp src = stamp d + 1 := by
  rcases hc.cur_eq p with ⟨-, hcur⟩ | ⟨n, hn, hcur⟩
  . left
    rw [hown, hcur]
    rfl
  . right
    refine ⟨⟨p, n⟩, History.direct_snoc_next.mpr (.inl ⟨rfl, hn⟩), ?_⟩
    rw [hown, hcur]

theorem advance_attained {src : Option (EventId P)} (hc : (scalarScheme P).Computation h cur stamp)
    : (scalarScheme P).advance p (cur p) stamp src = 1
        ∨ ∃ d, (h.snoc p src).Direct d (h.next p)
          ∧ (scalarScheme P).advance p (cur p) stamp src = stamp d + 1 := by
  cases src with
  | none =>
    apply advance_attained_of_own hc
    rfl
  | some d =>
    -- either the process itself or the timestamp is ahead
    by_cases hle : stamp d ≤ cur p
    . apply advance_attained_of_own hc
      simp only [Scheme.advance, scalarScheme]
      omega
    . right
      refine ⟨d, History.direct_snoc_next.mpr (.inr rfl), ?_⟩
      simp only [Scheme.advance, scalarScheme]
      omega

theorem ScalarInv.event {src : Option (EventId P)} (hinv : ScalarInv h stamp)
    (hc : (scalarScheme P).Computation h cur stamp) (hsrc : ∀ d, src = some d → d ∈ h.events)
    : ScalarInv (h.snoc p src)
        (Function.update stamp (h.next p) ((scalarScheme P).advance p (cur p) stamp src)) := by
  have hold : ∀ e, e ∈ h.events →
      Function.update stamp (h.next p) ((scalarScheme P).advance p (cur p) stamp src) e
        = stamp e := by
    intro e he
    rw [Function.update_of_ne (History.ne_next_of_mem he p)]
  constructor
  . intro e he
    rw [History.mem_events_snoc] at he
    cases he with
    | inl he =>
      rw [hold e he]
      exact hinv.pos e he
    | inr he =>
      subst he
      rw [Function.update_self]
      exact Nat.zero_lt_of_lt lt_advance_scalarScheme
  . intro d e he hd
    rw [History.mem_events_snoc] at he
    cases he with
    | inl he =>
      rw [History.direct_snoc_of_mem he] at hd
      rw [hold e he, hold d (hc.closed d e hd)]
      exact hinv.direct_lt d e he hd
    | inr he =>
      subst he
      obtain ⟨hmem, hlt⟩ := lt_advance_of_direct_next hc hsrc hd
      rw [Function.update_self, hold d hmem]
      exact hlt
  . intro e he
    rw [History.mem_events_snoc] at he
    cases he with
    | inl he =>
      rw [hold e he]
      rcases hinv.attained e he with h1 | ⟨d, hd, heq⟩
      . exact .inl h1
      . right
        refine ⟨d, (History.direct_snoc_of_mem he).mpr hd, ?_⟩
        rw [hold d (hc.closed d e hd)]
        exact heq
    | inr he =>
      subst he
      rw [Function.update_self]
      rcases advance_attained hc with h1 | ⟨d, hd, heq⟩
      . exact .inl h1
      . right
        refine ⟨d, hd, ?_⟩
        rw [hold d (lt_advance_of_direct_next hc hsrc hd).1]
        exact heq

theorem scalarInv_of_computation (hc : (scalarScheme P).Computation h cur stamp)
    : ScalarInv h stamp := by
  induction hc with
  | empty =>
    constructor
    all_goals
      intros
      simp_all [History.mem_events]
  | event hc hsrc ih => exact ih.event hc hsrc

theorem stamp_lt_of_happensBefore (hc : (scalarScheme P).Computation h cur stamp)
    {d e : EventId P} (he : e ∈ h.events) (hb : h.HappensBefore d e)
    : stamp d < stamp e := by
  have hinv := scalarInv_of_computation hc
  induction hb with
  | single hd => exact hinv.direct_lt _ _ he hd
  | tail _ hbc ih =>
    have hmem := hc.closed _ _ hbc
    exact Nat.lt_trans (ih hmem) (hinv.direct_lt _ _ he hbc)

theorem Chain.le_stamp (hc : (scalarScheme P).Computation h cur stamp) {e : EventId P} {n : Nat}
    (he : e ∈ h.events) (hn : h.Chain e n)
    : n ≤ stamp e := by
  induction hn with
  | single => exact (scalarInv_of_computation hc).pos _ he
  | cons _ hb ih =>
    have hmem := hc.closed.mem_of_causalPast he (History.causalPast_iff.mpr (.inr hb))
    have := ih hmem
    have := stamp_lt_of_happensBefore hc he hb
    omega

theorem chain_stamp (hc : (scalarScheme P).Computation h cur stamp) {e : EventId P}
    (he : e ∈ h.events)
    : h.Chain e (stamp e) := by
  have hinv := scalarInv_of_computation hc
  generalize hk : stamp e = k
  induction k generalizing e with
  | zero =>
    have := hinv.pos e he
    omega
  | succ k ih =>
    rcases hinv.attained e he with h1 | ⟨d, hd, heq⟩
    . rw [← hk, h1]
      exact .single he
    . apply History.Chain.cons
      . apply ih
        . exact hc.closed d e hd
        . omega
      . exact History.happensBefore_of_direct hd

theorem isGreatest_chain (hc : (scalarScheme P).Computation h cur stamp) {e : EventId P}
    (he : e ∈ h.events)
    : IsGreatest { n | h.Chain e n } (stamp e) :=
  ⟨chain_stamp hc he, fun _ hn => Chain.le_stamp hc he hn⟩

end Scalar

end Causality
