import Mathlib.Data.Set.Insert
import Mathlib.Logic.Function.Basic
import Mathlib.Logic.Relation

/-!
Histories of distributed computations and the happened-before relation on their events.
-/

namespace Causality

structure EventId (P : Type) where
  proc : P
  idx : Nat
  deriving DecidableEq

/--
The events of every process so far. The reception of a message names the event that sent it, any
other event names nothing.
-/
abbrev History (P : Type) := P → List (Option (EventId P))

namespace History

variable {P : Type}

def events (h : History P) : Set (EventId P) := { e | e.idx < (h e.proc).length }

instance (h : History P) (e : EventId P) : Decidable (e ∈ h.events) :=
  inferInstanceAs (Decidable (e.idx < (h e.proc).length))

def source (h : History P) (e : EventId P) : Option (EventId P) := ((h e.proc)[e.idx]?).join

inductive Direct (h : History P) : EventId P → EventId P → Prop where
  | process {p : P} {n : Nat} : ⟨p, n + 1⟩ ∈ h.events → Direct h ⟨p, n⟩ ⟨p, n + 1⟩
  | message {d e : EventId P} : h.source e = some d → Direct h d e

def HappensBefore (h : History P) : EventId P → EventId P → Prop := Relation.TransGen h.Direct

def CausalPast (h : History P) : EventId P → EventId P → Prop := Relation.ReflTransGen h.Direct

inductive Chain (h : History P) : EventId P → Nat → Prop where
  | single {e : EventId P} : e ∈ h.events → Chain h e 1
  | cons {d e : EventId P} {n : Nat} : Chain h d n → h.HappensBefore d e → Chain h e (n + 1)

def Closed (h : History P) : Prop := ∀ d e, h.Direct d e → d ∈ h.events

def next (h : History P) (p : P) : EventId P := ⟨p, (h p).length⟩

def snoc [DecidableEq P] (h : History P) (p : P) (src : Option (EventId P)) : History P :=
  Function.update h p (h p ++ [src])

theorem mem_events {h : History P} {e : EventId P} : e ∈ h.events ↔ e.idx < (h e.proc).length :=
  Iff.rfl

theorem mk_mem_events {h : History P} {p : P} {n : Nat}
    : (⟨p, n⟩ : EventId P) ∈ h.events ↔ n < (h p).length :=
  Iff.rfl

theorem next_not_mem (h : History P) (p : P) : h.next p ∉ h.events := by
  simp [next, mem_events]

theorem ne_next_of_mem {h : History P} {e : EventId P} (he : e ∈ h.events) (p : P)
    : e ≠ h.next p := by
  intro heq
  subst heq
  exact h.next_not_mem p he

theorem Closed.mem_of_causalPast {h : History P} (hc : h.Closed) {d e : EventId P}
    (he : e ∈ h.events) (hd : h.CausalPast d e)
    : d ∈ h.events := by
  cases Relation.ReflTransGen.cases_head hd with
  | inl heq =>
    rw [heq]
    exact he
  | inr hx =>
    obtain ⟨c, hdc, -⟩ := hx
    exact hc d c hdc

theorem happensBefore_of_direct {h : History P} {d e : EventId P} (hd : h.Direct d e)
    : h.HappensBefore d e :=
  .single hd

theorem causalPast_iff {h : History P} {d e : EventId P}
    : h.CausalPast d e ↔ d = e ∨ h.HappensBefore d e := by
  unfold CausalPast HappensBefore
  rw [Relation.reflTransGen_iff_eq_or_transGen]
  constructor
  . rintro (rfl | h)
    . exact .inl rfl
    . exact .inr h
  . rintro (rfl | h)
    . exact .inl rfl
    . exact .inr h

section Snoc

variable [DecidableEq P] {h : History P} {p : P} {src : Option (EventId P)} {d e : EventId P}

theorem mem_events_snoc : e ∈ (h.snoc p src).events ↔ e ∈ h.events ∨ e = h.next p := by
  rcases e with ⟨q, i⟩
  simp only [mem_events, snoc, next, EventId.mk.injEq]
  by_cases hq : q = p
  . subst hq
    simp only [Function.update_self, List.length_append, List.length_singleton, true_and]
    omega
  . simp [hq]

theorem mem_events_snoc_of_mem (he : e ∈ h.events) : e ∈ (h.snoc p src).events :=
  mem_events_snoc.mpr (.inl he)

theorem source_snoc_of_mem (he : e ∈ h.events) : (h.snoc p src).source e = h.source e := by
  rcases e with ⟨q, i⟩
  rw [mem_events] at he
  simp only [source, snoc]
  by_cases hq : q = p
  . subst hq
    rw [Function.update_self, List.getElem?_append_left he]
  . rw [Function.update_of_ne hq]

theorem source_snoc_next : (h.snoc p src).source (h.next p) = src := by
  simp [source, snoc, next]

theorem direct_snoc_of_mem (he : e ∈ h.events)
    : (h.snoc p src).Direct d e ↔ h.Direct d e := by
  constructor
  . intro hd
    cases hd with
    | process => exact .process he
    | message hs =>
      apply Direct.message
      rw [← hs, source_snoc_of_mem he]
  . intro hd
    cases hd with
    | process => exact .process (mem_events_snoc_of_mem he)
    | message hs =>
      apply Direct.message
      rw [← hs, source_snoc_of_mem he]

theorem direct_snoc_next
    : (h.snoc p src).Direct d (h.next p) ↔
        (d.proc = p ∧ (h p).length = d.idx + 1) ∨ src = some d := by
  constructor
  . generalize hn : h.next p = e
    intro hd
    cases hd with
    | process hmem =>
      simp only [next, EventId.mk.injEq] at hn
      exact .inl ⟨hn.1.symm, hn.2⟩
    | message hs =>
      subst hn
      rw [source_snoc_next] at hs
      exact .inr hs
  . rintro (⟨hp, hlen⟩ | hs)
    . rcases d with ⟨q, i⟩
      dsimp only at hp hlen
      subst hp
      have hnext : h.next q = ⟨q, i + 1⟩ := by rw [next, hlen]
      rw [hnext]
      apply Direct.process
      rw [← hnext, mem_events_snoc]
      exact .inr rfl
    . apply Direct.message
      rw [source_snoc_next, hs]

theorem Closed.snoc (hc : h.Closed) (hsrc : ∀ d, src = some d → d ∈ h.events)
    : (h.snoc p src).Closed := by
  intro d e hd
  have he : e ∈ (h.snoc p src).events := by
    cases hd with
    | process hmem => exact hmem
    | message hs =>
      rw [mem_events]
      by_contra hlt
      rw [source, List.getElem?_eq_none (by omega)] at hs
      simp at hs
  rw [mem_events_snoc] at he
  cases he with
  | inl he =>
    rw [direct_snoc_of_mem he] at hd
    exact mem_events_snoc_of_mem (hc d e hd)
  | inr he =>
    subst he
    rw [direct_snoc_next] at hd
    apply mem_events_snoc_of_mem
    rcases hd with ⟨hp, hlen⟩ | hs
    . rw [mem_events, hp]
      omega
    . exact hsrc d hs

theorem causalPast_snoc_of_mem (hc : h.Closed) (he : e ∈ h.events)
    : (h.snoc p src).CausalPast d e ↔ h.CausalPast d e := by
  constructor
  . intro hd
    induction hd with
    | refl => exact .refl
    | tail _ hbc ih =>
      rw [direct_snoc_of_mem he] at hbc
      exact .tail (ih (hc _ _ hbc)) hbc
  . intro hd
    induction hd with
    | refl => exact .refl
    | tail _ hbc ih => exact .tail (ih (hc _ _ hbc)) ((direct_snoc_of_mem he).mpr hbc)

theorem causalPast_snoc_next (hc : h.Closed) (hsrc : ∀ d, src = some d → d ∈ h.events)
    : (h.snoc p src).CausalPast d (h.next p) ↔
        d = h.next p ∨ (∃ n, (h p).length = n + 1 ∧ h.CausalPast d ⟨p, n⟩)
          ∨ (∃ c, src = some c ∧ h.CausalPast d c) := by
  have hlast : ∀ n, (h p).length = n + 1 → (⟨p, n⟩ : EventId P) ∈ h.events := by
    intro n hn
    rw [mk_mem_events]
    omega
  constructor
  . intro hd
    rcases Relation.ReflTransGen.cases_tail hd with heq | ⟨c, hdc, hcn⟩
    . exact .inl heq.symm
    . rw [direct_snoc_next] at hcn
      rcases hcn with ⟨hp, hlen⟩ | hs
      . rcases c with ⟨q, n⟩
        dsimp only at hp hlen
        subst hp
        exact .inr (.inl ⟨n, hlen, (causalPast_snoc_of_mem hc (hlast n hlen)).mp hdc⟩)
      . exact .inr (.inr ⟨c, hs, (causalPast_snoc_of_mem hc (hsrc c hs)).mp hdc⟩)
  . rintro (rfl | ⟨n, hlen, hd⟩ | ⟨c, hs, hd⟩)
    . exact .refl
    . apply Relation.ReflTransGen.tail ((causalPast_snoc_of_mem hc (hlast n hlen)).mpr hd)
      exact direct_snoc_next.mpr (.inl ⟨rfl, hlen⟩)
    . apply Relation.ReflTransGen.tail ((causalPast_snoc_of_mem hc (hsrc c hs)).mpr hd)
      exact direct_snoc_next.mpr (.inr hs)

end Snoc

end History

end Causality
