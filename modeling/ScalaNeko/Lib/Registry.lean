import Mathlib.Data.List.Basic

/-!
Registrations of values under keys, and what is left of them after a sequence of calls. Two values are
the same one if they pass a given test.
-/

namespace Registry

variable {K V : Type}

inductive Call (K V : Type) where
  | register (k : K) (v : V)
  | unregister (k : K) (v : V)
  | unregisterAll (k : K)

def Call.key : Call K V → K
  | register k _ => k
  | unregister k _ => k
  | unregisterAll k => k

variable (same : V → V → Bool)

def Call.Removes (k : K) (v : V) : Call K V → Prop
  | register _ _ => False
  | unregister k' w => k' = k ∧ same v w = true
  | unregisterAll k' => k' = k

/--
The call with number `i` registers `v`, and no later one takes it back.
-/
def Stands (calls : List (Call K V)) (k : K) (i : Nat) (v : V) : Prop :=
  calls[i]? = some (.register k v)
    ∧ ∀ j c, i < j → calls[j]? = some c → ¬ c.Removes same k v

/--
What is registered under `k` after the calls, the last registration first.
-/
structure Lists (calls : List (Call K V)) (k : K) (values : List V) : Prop where
  dated : ∃ dates : List (Nat × V), values = dates.map Prod.snd
    ∧ dates.Pairwise (fun d d' => d'.1 < d.1) ∧ ∀ d, d ∈ dates → Stands same calls k d.1 d.2
  complete : Equivalence (fun u v => same u v = true) →
    ∀ i v, Stands same calls k i v → ∃ u, u ∈ values ∧ same u v = true
  distinct : values.Pairwise (fun later earlier => same earlier later = false)

variable {same} {calls : List (Call K V)} {c : Call K V} {k : K} {v w : V} {i : Nat} {values : List V}

theorem Stands.lt_length (h : Stands same calls k i v) : i < calls.length :=
  (List.getElem?_eq_some_iff.mp h.1).1

theorem Stands.snoc (h : Stands same calls k i v) (hc : ¬ c.Removes same k v)
    : Stands same (calls ++ [c]) k i v := by
  refine ⟨?_, ?_⟩
  . rw [List.getElem?_append_left h.lt_length]
    exact h.1
  . intro j c' hj hc'
    rcases Nat.lt_or_ge j calls.length with hlt | hge
    . rw [List.getElem?_append_left hlt] at hc'
      exact h.2 j c' hj hc'
    . rw [List.getElem?_append_right hge, List.getElem?_singleton] at hc'
      split at hc'
      . cases hc'
        exact hc
      . cases hc'

theorem Stands.of_snoc (h : Stands same (calls ++ [c]) k i v)
    : (Stands same calls k i v ∧ ¬ c.Removes same k v) ∨ c = .register k v := by
  rcases Nat.lt_or_ge i calls.length with hlt | hge
  . refine .inl ⟨⟨?_, ?_⟩, ?_⟩
    . rw [← List.getElem?_append_left hlt]
      exact h.1
    . intro j c' hj hc'
      apply h.2 j c' hj
      rw [List.getElem?_append_left (List.getElem?_eq_some_iff.mp hc').1]
      exact hc'
    . exact h.2 calls.length c hlt List.getElem?_concat_length
  . have hlast := h.1
    rw [List.getElem?_append_right hge, List.getElem?_singleton] at hlast
    split at hlast
    . cases hlast
      exact .inr rfl
    . cases hlast

theorem Lists.nil : Lists same ([] : List (Call K V)) k [] where
  dated := ⟨[], rfl, .nil, by simp⟩
  complete := by
    intro _ i v h
    cases h.1
  distinct := .nil

-- A call that removes nothing and registers nothing new.
theorem Lists.keep (h : Lists same calls k values) (hkeep : ∀ v, ¬ c.Removes same k v)
    (hpresent : ∀ v, c = .register k v → ∃ u, u ∈ values ∧ same u v = true)
    : Lists same (calls ++ [c]) k values where
  dated := by
    obtain ⟨dates, heq, hsorted, hstands⟩ := h.dated
    exact ⟨dates, heq, hsorted, fun d hd => (hstands d hd).snoc (hkeep d.2)⟩
  complete := by
    intro hsame i v hv
    rcases hv.of_snoc with ⟨hv, -⟩ | hlast
    . exact h.complete hsame i v hv
    . exact hpresent v hlast
  distinct := h.distinct

theorem Lists.other (h : Lists same calls k values) (hc : c.key ≠ k)
    : Lists same (calls ++ [c]) k values := by
  apply h.keep
  . intro v hv
    cases c with
    | register => exact hv
    | unregister => exact hc hv.1
    | unregisterAll => exact hc hv
  . rintro v rfl
    exact absurd rfl hc

theorem Lists.unregister (h : Lists same calls k values)
    : Lists same (calls ++ [.unregister k w]) k (values.filter (fun u => !same u w)) where
  dated := by
    obtain ⟨dates, rfl, hsorted, hstands⟩ := h.dated
    refine ⟨dates.filter (fun d => !same d.2 w), ?_, hsorted.filter _, ?_⟩
    . rw [List.filter_map]
      rfl
    . intro d hd
      rw [List.mem_filter] at hd
      apply (hstands d hd.1).snoc
      rintro ⟨-, hremoves⟩
      rw [hremoves] at hd
      cases hd.2
  complete := by
    intro hsame i v hv
    rcases hv.of_snoc with ⟨hv, hkept⟩ | hlast
    . obtain ⟨u, hu, heq⟩ := h.complete hsame i v hv
      refine ⟨u, ?_, heq⟩
      rw [List.mem_filter, Bool.not_eq_true']
      refine ⟨hu, ?_⟩
      by_contra hremoves
      rw [Bool.not_eq_false] at hremoves
      exact hkept ⟨rfl, hsame.trans (hsame.symm heq) hremoves⟩
    . cases hlast
  distinct := h.distinct.filter _

theorem Lists.unregisterAll (_ : Lists same calls k values)
    : Lists same (calls ++ [.unregisterAll k]) k [] where
  dated := ⟨[], rfl, .nil, by simp⟩
  complete := by
    intro _ i v hv
    rcases hv.of_snoc with ⟨-, hkept⟩ | hlast
    . exact absurd rfl hkept
    . cases hlast
  distinct := .nil

end Registry
