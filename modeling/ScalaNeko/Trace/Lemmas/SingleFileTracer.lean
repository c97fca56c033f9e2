import Mathlib.Data.Finset.Option
import Mathlib.Data.Finset.Union
import Mathlib.Data.Set.Finite.Basic
import ScalaNeko.Lib.Saturation
import ScalaNeko.Trace.Impl.SingleFileTracer

/-!
The entities that the tracer knows in the end.
-/

open Saturation (From Pass)
open Trace

namespace SingleFileTracer

variable {E : Type} [NamedEntity E]

def SendsTo (a b : E) : Prop := NamedEntity.senderOpt a = some b

variable [DecidableEq E] {scan : Scan E} {entity b : E}

theorem visit_cases (scan : Scan E) (entity : E)
    : (visit scan entity = scan ∧ ∀ b, SendsTo entity b → b ∈ scan.entities)
      ∨ ∃ sender, SendsTo entity sender ∧ sender ∉ scan.entities
        ∧ visit scan entity = { entities := insert sender scan.entities, hasChanged := true } := by
  unfold visit SendsTo
  cases NamedEntity.senderOpt entity with
  | none => exact .inl ⟨rfl, fun _ hb => absurd hb (by simp)⟩
  | some sender =>
    by_cases hmem : sender ∈ scan.entities
    . refine .inl ⟨if_pos hmem, ?_⟩
      intro b hb
      cases hb
      exact hmem
    . exact .inr ⟨sender, rfl, hmem, if_neg hmem⟩

/--
What the loop over `entities` has done to its variables.
-/
structure Scanned (entities : List E) (scan scan' : Scan E) : Prop where
  grows : scan.entities ⊆ scan'.entities
  sound : ∀ b, b ∈ scan'.entities → b ∈ scan.entities ∨ ∃ a, a ∈ entities ∧ SendsTo a b
  complete : ∀ a b, a ∈ entities → SendsTo a b → b ∈ scan'.entities
  hasChanged : scan'.hasChanged = true ↔ scan.hasChanged = true ∨ scan'.entities ≠ scan.entities

theorem scanned_visit (scan : Scan E) (entity : E) : Scanned [entity] scan (visit scan entity) := by
  rcases visit_cases scan entity with ⟨heq, hmem⟩ | ⟨sender, hsender, hnew, heq⟩
  . rw [heq]
    refine ⟨Finset.Subset.refl _, fun b hb => .inl hb, ?_, ?_⟩
    . intro a b ha hb
      obtain rfl := List.mem_singleton.mp ha
      exact hmem b hb
    . rw [or_iff_left (fun hne => hne rfl)]
  . rw [heq]
    refine ⟨Finset.subset_insert _ _, ?_, ?_, ?_⟩
    . intro b hb
      rcases Finset.mem_insert.mp hb with rfl | hb
      . exact .inr ⟨entity, List.mem_singleton_self _, hsender⟩
      . exact .inl hb
    . intro a b ha hb
      obtain rfl := List.mem_singleton.mp ha
      obtain rfl : sender = b := Option.some.inj (hsender.symm.trans hb)
      exact Finset.mem_insert_self _ _
    . refine iff_of_true rfl (.inr ?_)
      intro hsame
      exact hnew (hsame ▸ Finset.mem_insert_self sender scan.entities)

theorem Scanned.append {entities entities' : List E} {scan' scan'' : Scan E}
    (h : Scanned entities scan scan') (h' : Scanned entities' scan' scan'')
    : Scanned (entities ++ entities') scan scan'' where
  grows := h.grows.trans h'.grows
  sound := by
    intro b hb
    rcases h'.sound b hb with hb | ⟨a, ha, hab⟩
    . rcases h.sound b hb with hb | ⟨a, ha, hab⟩
      . exact .inl hb
      . exact .inr ⟨a, List.mem_append_left _ ha, hab⟩
    . exact .inr ⟨a, List.mem_append_right _ ha, hab⟩
  complete := by
    intro a b ha hab
    rcases List.mem_append.mp ha with ha | ha
    . exact h'.grows (h.complete a b ha hab)
    . exact h'.complete a b ha hab
  hasChanged := by
    rw [h'.hasChanged, h.hasChanged, or_assoc]
    apply or_congr_right
    constructor
    . rintro (hne | hne) heq
      . exact hne (Finset.Subset.antisymm (heq ▸ h'.grows) h.grows)
      . exact hne (Finset.Subset.antisymm (heq ▸ h.grows) h'.grows)
    . intro hne
      by_contra hsame
      rw [not_or, not_ne_iff, not_ne_iff] at hsame
      exact hne (hsame.2.trans hsame.1)

theorem scanned_foldl (entities : List E) (scan : Scan E)
    : Scanned entities scan (entities.foldl visit scan) := by
  induction entities generalizing scan with
  | nil =>
    refine ⟨Finset.Subset.refl _, fun b hb => .inl hb, ?_, ?_⟩
    . intro a b ha
      cases ha
    . rw [List.foldl_nil, or_iff_left (fun hne => hne rfl)]
  | cons entity entities ih => exact (scanned_visit scan entity).append (ih _)

variable {iteration : Iteration E} {entities : Finset E}

def pass (iteration : Iteration E) (entities : Finset E) : Finset E := (body iteration entities).entities

theorem pass_sendsTo (iteration : Iteration E) : Pass SendsTo (pass iteration) where
  grows := fun entities => (scanned_foldl _ ⟨entities, false⟩).grows
  sound := by
    intro entities b hb
    rcases (scanned_foldl _ ⟨entities, false⟩).sound b hb with hb | ⟨a, ha, hab⟩
    . exact .of_mem hb
    . exact ⟨a, (iteration.mem_toList entities a).mp ha, .single hab⟩
  closed := by
    intro entities hfixed a b ha hab
    have hb := (scanned_foldl (iteration.toList entities) ⟨entities, false⟩).complete a b
      ((iteration.mem_toList entities a).mpr ha) hab
    rwa [← body, ← pass, hfixed] at hb

theorem hasChanged_iff : (body iteration entities).hasChanged = true ↔ pass iteration entities ≠ entities :=
  (scanned_foldl (iteration.toList entities) ⟨entities, false⟩).hasChanged.trans (or_iff_right (by simp))

theorem connectEntities_of_fixed {k fuel : Nat} (hlt : k < fuel)
    (hfixed : pass iteration ((pass iteration)^[k] entities) = (pass iteration)^[k] entities)
    : connectEntities iteration fuel entities = some ((pass iteration)^[k] entities) := by
  induction k generalizing fuel entities with
  | zero =>
    obtain ⟨fuel, rfl⟩ := Nat.exists_eq_add_of_le' hlt
    have hsame : pass iteration entities = entities := hfixed
    rw [connectEntities, if_neg (fun hchanged => hasChanged_iff.mp hchanged hsame), ← pass, hsame]
    rfl
  | succ k ih =>
    obtain ⟨fuel, rfl⟩ := Nat.exists_eq_add_of_le' (Nat.zero_lt_of_lt hlt)
    rw [connectEntities]
    split
    . exact ih (by omega) hfixed
    . next hsame =>
      rw [hasChanged_iff, not_ne_iff] at hsame
      rw [Function.iterate_fixed hsame, ← pass, hsame]

/--
The loop ends, after at most as many turns as there are entities to add and one more.
-/
theorem connectEntities_eq_reachable (iteration : Iteration E) (entities : Finset E)
    (hfinite : {entity : E | (NamedEntity.senderOpt entity).isSome = true}.Finite)
    : ∃ connected : Finset E,
      (∀ fuel, (connected \ entities).card < fuel → connectEntities iteration fuel entities = some connected)
        ∧ ∀ b, b ∈ connected ↔ ∃ a, a ∈ entities ∧ Relation.ReflTransGen SendsTo a b := by
  have hpass := pass_sendsTo iteration
  let known := entities ∪ hfinite.toFinset.biUnion fun a => (NamedEntity.senderOpt a).toFinset
  have hclosed : ∀ a b, a ∈ known → SendsTo a b → b ∈ known := by
    intro a b _ hab
    apply Finset.mem_union_right
    rw [Finset.mem_biUnion]
    have hab : NamedEntity.senderOpt a = some b := hab
    refine ⟨a, ?_, ?_⟩
    . rw [Set.Finite.mem_toFinset, Set.mem_ofPred_eq, hab]
      rfl
    . rw [Option.mem_toFinset, hab]
      rfl
  obtain ⟨k, -, hfixed⟩ := hpass.exists_fixed Finset.subset_union_left hclosed
  refine ⟨_, ?_, hpass.mem_iff_of_fixed hfixed⟩
  intro fuel hfuel
  obtain ⟨n, hn, hfixed'⟩ := hpass.exists_fixed (hpass.grows_iterate k) (hpass.closed _ hfixed)
  rw [connectEntities_of_fixed (by omega) hfixed']
  congr 1
  ext b
  rw [hpass.mem_iff_of_fixed hfixed', hpass.mem_iff_of_fixed hfixed]

-- Two entities that are the senders of each other.
inductive Mutual where
  | one
  | other
  deriving DecidableEq

instance : NamedEntity Mutual where
  senderOpt
    | .one => some .other
    | .other => some .one

def Mutual.listed : Iteration Mutual where
  toList entities := [Mutual.one, .other].filter (fun e => e ∈ entities)
  mem_toList := by
    intro s e
    cases e with
    | one => simp
    | other => simp

theorem connectEntities_eq_reachable_mutual
    : ∃ connected : Finset Mutual,
      (∀ fuel, (connected \ {Mutual.one}).card < fuel →
          connectEntities Mutual.listed fuel {Mutual.one} = some connected)
        ∧ ∀ b, b ∈ connected ↔ ∃ a, a ∈ ({Mutual.one} : Finset Mutual) ∧ Relation.ReflTransGen SendsTo a b := by
  apply connectEntities_eq_reachable Mutual.listed {Mutual.one}
  apply (Set.finite_singleton Mutual.one |>.insert Mutual.other).subset
  rintro (_ | _) _
  . exact .inr rfl
  . exact .inl rfl

end SingleFileTracer
