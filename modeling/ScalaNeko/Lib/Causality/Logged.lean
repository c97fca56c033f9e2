import ScalaNeko.Lib.Causality.History

/-!
Computations whose events write into one log: a log in the order of the writes never contradicts
causality.
-/

namespace Causality

variable {P : Type} {h : History P} {log : List (EventId P)} {after : EventId P → Nat}

/--
Each entry of the log is the event that wrote it. `after e` is the length of the log after `e`.
-/
structure Logged (h : History P) (log : List (EventId P)) (after : EventId P → Nat) : Prop where
  bound : ∀ e, e ∈ h.events → after e ≤ log.length
  direct_le : ∀ d e, e ∈ h.events → h.Direct d e → after d ≤ after e
  entry : ∀ n e, log[n]? = some e → e ∈ h.events ∧ after e = n + 1

theorem Logged.empty : Logged (fun _ : P => []) [] (fun _ => 0) where
  bound := fun _ _ => Nat.le_refl 0
  direct_le := fun _ _ _ _ => Nat.le_refl 0
  entry := nofun

theorem Logged.le_of_happensBefore (hl : Logged h log after) (hc : h.Closed) {d e : EventId P}
    (he : e ∈ h.events) (hb : h.HappensBefore d e)
    : after d ≤ after e := by
  induction hb with
  | single hd => exact hl.direct_le _ _ he hd
  | tail _ hbc ih => exact Nat.le_trans (ih (hc _ _ hbc)) (hl.direct_le _ _ he hbc)

/--
What is caused is later in the log than what causes it.
-/
theorem Logged.lt_of_happensBefore (hl : Logged h log after) (hc : h.Closed) {n n' : Nat}
    {d e : EventId P} (hd : log[n]? = some d) (he : log[n']? = some e) (hne : n ≠ n')
    (hb : h.HappensBefore d e)
    : n < n' := by
  have hle := hl.le_of_happensBefore hc (hl.entry n' e he).1 hb
  rw [(hl.entry n d hd).2, (hl.entry n' e he).2] at hle
  omega

variable [DecidableEq P]

/--
A new event writes itself at most once.
-/
theorem Logged.snoc (hl : Logged h log after) (hc : h.Closed) {p : P} {src : Option (EventId P)}
    (hsrc : ∀ d, src = some d → d ∈ h.events) {new : List (EventId P)}
    (hnew : ∀ e, e ∈ new → e = h.next p) (hlen : new.length ≤ 1)
    : Logged (h.snoc p src) (log ++ new)
        (Function.update after (h.next p) (log.length + new.length)) := by
  have hold : ∀ e, e ∈ h.events →
      Function.update after (h.next p) (log.length + new.length) e = after e := by
    intro e he
    rw [Function.update_of_ne (History.ne_next_of_mem he p)]
  constructor
  . intro e he
    rw [List.length_append]
    rcases History.mem_events_snoc.mp he with he | rfl
    . rw [hold e he]
      exact Nat.le_add_right_of_le (hl.bound e he)
    . rw [Function.update_self]
  . intro d e he hd
    rcases History.mem_events_snoc.mp he with he | rfl
    . rw [History.direct_snoc_of_mem he] at hd
      rw [hold e he, hold d (hc d e hd)]
      exact hl.direct_le d e he hd
    . have hmem : d ∈ h.events := by
        rcases History.direct_snoc_next.mp hd with ⟨hp, hlast⟩ | hs
        . rw [History.mem_events, hp]
          omega
        . exact hsrc d hs
      rw [Function.update_self, hold d hmem]
      exact Nat.le_add_right_of_le (hl.bound d hmem)
  . intro n e hget
    rcases Nat.lt_or_ge n log.length with hlt | hge
    . rw [List.getElem?_append_left hlt] at hget
      obtain ⟨he, hafter⟩ := hl.entry n e hget
      rw [hold e he]
      exact ⟨History.mem_events_snoc_of_mem he, hafter⟩
    . rw [List.getElem?_append_right hge] at hget
      have hbound := (List.getElem?_eq_some_iff.mp hget).choose
      rw [hnew e (List.mem_of_getElem? hget), Function.update_self]
      exact ⟨History.mem_events_snoc.mpr (.inr rfl), by omega⟩

end Causality
