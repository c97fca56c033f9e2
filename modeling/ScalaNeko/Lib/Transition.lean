import Mathlib.Logic.Relation

/-!
Labelled transition systems, the states they reach through steps that all meet a given condition,
and the induction rules for invariants and for stable predicates.
-/

structure LTS (σ : Type u) (α : Type v) where
  init : σ → Prop
  step : σ → α → σ → Prop

namespace LTS

variable {σ : Type u} {α : Type v} (T : LTS σ α)

/--
The states of the runs of `T` in which every step meets `ok`.
-/
inductive Reach (ok : σ → α → σ → Prop) : σ → Prop where
  | init {s : σ} : T.init s → Reach ok s
  | step {s t : σ} {a : α} : Reach ok s → T.step s a t → ok s a t → Reach ok t

abbrev Reachable (s : σ) : Prop := T.Reach (fun _ _ _ => True) s

inductive Path (ok : σ → α → σ → Prop) (s : σ) : σ → Prop where
  | refl : Path ok s s
  | tail {t u : σ} {a : α} : Path ok s t → T.step t a u → ok t a u → Path ok s u

/--
However the steps with a label in `live` are chosen, there is a next one until one meets `goal`, which
is one of the next `n`.
-/
def Within (live : α → Prop) (goal : σ → α → σ → Prop) : Nat → σ → Prop
  | 0, _ => False
  | n + 1, s =>
    (∃ a t, T.step s a t ∧ live a)
      ∧ ∀ a t, T.step s a t → live a → goal s a t ∨ Within live goal n t

variable {T} {ok ok' : σ → α → σ → Prop}

theorem Reach.mono (hok : ∀ s a t, ok s a t → ok' s a t) {s : σ} (h : T.Reach ok s)
    : T.Reach ok' s := by
  induction h with
  | init h0 => exact .init h0
  | step _ hst hok' ih => exact .step ih hst (hok _ _ _ hok')

theorem Reach.next {s t : σ} (h : T.Reach ok s) (a : α) (hst : T.step s a t) (hok : ok s a t)
    : T.Reach ok t :=
  .step h hst hok

theorem Reach.invariant {I : σ → Prop} (hinit : ∀ s, T.init s → I s)
    (hstep : ∀ s a t, T.Reach ok s → I s → T.step s a t → ok s a t → I t) {s : σ}
    (h : T.Reach ok s)
    : I s := by
  induction h with
  | init h0 => exact hinit _ h0
  | step hr hst hok ih => exact hstep _ _ _ hr ih hst hok

/--
A state that meets `goal` is reached if, until then, some next step lowers a rank.
-/
theorem Reach.exists_of_rank {I goal : σ → Prop} (rank : σ → Nat)
    (hstep : ∀ s, T.Reach ok s → I s → ¬ goal s →
      ∃ a t, T.step s a t ∧ ok s a t ∧ I t ∧ rank t < rank s)
    {s : σ} (h : T.Reach ok s) (hs : I s)
    : ∃ t, T.Reach ok t ∧ I t ∧ goal t := by
  induction hn : rank s using Nat.strongRecOn generalizing s with
  | ind n ih =>
    by_cases hgoal : goal s
    . exact ⟨s, h, hs, hgoal⟩
    . obtain ⟨a, t, hst, hok, ht, hlt⟩ := hstep s h hs hgoal
      rw [hn] at hlt
      exact ih (rank t) hlt (.step h hst hok) ht rfl

theorem Path.next {s t u : σ} (h : T.Path ok s t) (a : α) (hst : T.step t a u) (hok : ok t a u)
    : T.Path ok s u :=
  .tail h hst hok

theorem Reach.start {s : σ} (_ : T.Reach ok s) (ok' : σ → α → σ → Prop) : T.Path ok' s s := .refl

theorem Path.reach {s t : σ} (hp : T.Path ok s t) (h : T.Reach ok s) : T.Reach ok t := by
  induction hp with
  | refl => exact h
  | tail _ hst hok ih => exact .step ih hst hok

theorem Path.stable {I : σ → Prop} (hstep : ∀ s a t, I s → T.step s a t → ok s a t → I t) {s t : σ}
    (hp : T.Path ok s t) (hs : I s)
    : I t := by
  induction hp with
  | refl => exact hs
  | tail _ hst hok ih => exact hstep _ _ _ ih hst hok

variable {live : α → Prop} {goal : σ → α → σ → Prop}

theorem Within.mono {n m : Nat} {s : σ} (h : T.Within live goal n s) (hle : n ≤ m)
    : T.Within live goal m s := by
  induction n generalizing m s with
  | zero => exact h.elim
  | succ n ih =>
    obtain ⟨m, rfl⟩ := Nat.exists_eq_add_of_le' (Nat.zero_lt_of_lt hle)
    refine ⟨h.1, ?_⟩
    intro a t hst ha
    rcases h.2 a t hst ha with hgoal | hlater
    . exact .inl hgoal
    . exact .inr (ih hlater (Nat.le_of_succ_le_succ hle))

/--
A rank that every step in `live` lowers bounds the number of steps.
-/
theorem Within.of_rank {I : Nat → σ → Prop}
    (hlive : ∀ n s, I n s → ∃ a t, T.step s a t ∧ live a)
    (hstep : ∀ n s a t, I n s → T.step s a t → live a → goal s a t ∨ ∃ m, m < n ∧ I m t)
    {n : Nat} {s : σ} (h : I n s)
    : T.Within live goal (n + 1) s := by
  induction n using Nat.strongRecOn generalizing s with
  | ind n ih =>
    refine ⟨hlive n s h, ?_⟩
    intro a t hst ha
    rcases hstep n s a t h hst ha with hgoal | ⟨m, hm, hI⟩
    . exact .inl hgoal
    . exact .inr ((ih m hm hI).mono hm)

end LTS
