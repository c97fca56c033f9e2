import Mathlib.Data.List.Sort
import Mathlib.Order.Bounds.Basic

/-!
In-order delivery of a stream whose elements are numbered and arrive in any order: a buffer sorted
by number, from which the elements are taken as long as the next one is there.
-/

namespace Reassembly

variable {β : Type}

def drain : List (Nat × β) → Nat → List β × List (Nat × β) × Nat
  | [], next => ([], [], next)
  | (i, b) :: buffer, next =>
    if i = next then
      let (delivered, rest) := drain buffer (next + 1)
      (b :: delivered, rest)
    else
      ([], (i, b) :: buffer, next)

def insert (e : Nat × β) (buffer : List (Nat × β)) : List (Nat × β) :=
  buffer.orderedInsert (fun a b => a.1 < b.1) e

/--
The elements of `stream` with the numbers in `R` have arrived, those below `next` have been taken
and the others are in the buffer.
-/
structure Holds (stream : List β) (R : Set Nat) (next : Nat) (buffer : List (Nat × β)) : Prop where
  bound : ∀ i, i ∈ R → i < stream.length
  below : ∀ i, i < next → i ∈ R
  fresh : next ∉ R
  sorted : buffer.Pairwise (fun a b => a.1 < b.1)
  mem_buffer : ∀ i b, (i, b) ∈ buffer ↔ i ∈ R ∧ next < i ∧ stream[i]? = some b

theorem Holds.empty : Holds ([] : List β) ∅ 0 [] where
  bound := by simp
  below := by simp
  fresh := by simp
  sorted := by simp
  mem_buffer := by simp

theorem Holds.isLeast {stream : List β} {R : Set Nat} {next : Nat} {buffer : List (Nat × β)}
    (h : Holds stream R next buffer)
    : IsLeast { i | i ∉ R } next := by
  constructor
  . exact h.fresh
  . intro i hi
    by_contra hlt
    exact hi (h.below i (by omega))

theorem Holds.next_le {stream : List β} {R : Set Nat} {next : Nat} {buffer : List (Nat × β)}
    (h : Holds stream R next buffer)
    : next ≤ stream.length := by
  by_contra hlt
  have := h.bound _ (h.below stream.length (by omega))
  omega

theorem Holds.append {stream : List β} {R : Set Nat} {next : Nat} {buffer : List (Nat × β)}
    (h : Holds stream R next buffer) (new : List β)
    : Holds (stream ++ new) R next buffer where
  bound := by
    intro i hi
    have := h.bound i hi
    rw [List.length_append]
    omega
  below := h.below
  fresh := h.fresh
  sorted := h.sorted
  mem_buffer := by
    intro i b
    rw [h.mem_buffer]
    constructor
    . rintro ⟨hi, hlt, hb⟩
      refine ⟨hi, hlt, ?_⟩
      rw [List.getElem?_append_left (h.bound i hi)]
      exact hb
    . rintro ⟨hi, hlt, hb⟩
      refine ⟨hi, hlt, ?_⟩
      rw [List.getElem?_append_left (h.bound i hi)] at hb
      exact hb

structure Pending (stream : List β) (R : Set Nat) (next : Nat) (buffer : List (Nat × β))
    : Prop where
  bound : ∀ i, i ∈ R → i < stream.length
  below : ∀ i, i < next → i ∈ R
  sorted : buffer.Pairwise (fun a b => a.1 < b.1)
  mem_buffer : ∀ i b, (i, b) ∈ buffer ↔ i ∈ R ∧ next ≤ i ∧ stream[i]? = some b

theorem pairwise_insert {i : Nat} {b : β} {buffer : List (Nat × β)}
    (h : buffer.Pairwise (fun a b => a.1 < b.1)) (hi : ∀ c, (i, c) ∉ buffer)
    : (Reassembly.insert (i, b) buffer).Pairwise (fun a b => a.1 < b.1) := by
  unfold Reassembly.insert
  induction buffer with
  | nil => simp
  | cons e buffer ih =>
    rw [List.pairwise_cons] at h
    have hne : e.1 ≠ i := by
      rintro rfl
      exact hi e.2 (by simp)
    rw [List.orderedInsert_cons]
    split
    . next hlt =>
      rw [List.pairwise_cons]
      refine ⟨?_, List.pairwise_cons.mpr h⟩
      intro a ha
      cases List.mem_cons.mp ha with
      | inl heq =>
        rw [heq]
        exact hlt
      | inr hmem => exact Nat.lt_trans hlt (h.1 a hmem)
    . next hlt =>
      rw [List.pairwise_cons]
      constructor
      . intro a ha
        rw [List.mem_orderedInsert] at ha
        cases ha with
        | inl heq =>
          rw [heq]
          omega
        | inr hmem => exact h.1 a hmem
      . apply ih h.2
        intro c hc
        exact hi c (List.mem_cons_of_mem _ hc)

theorem Holds.insert {stream : List β} {R : Set Nat} {next i : Nat} {b : β}
    {buffer : List (Nat × β)} (h : Holds stream R next buffer) (hi : i ∉ R)
    (hb : stream[i]? = some b)
    : Pending stream (Insert.insert i R) next (Reassembly.insert (i, b) buffer) where
  bound := by
    rintro j (rfl | hj)
    . exact (List.getElem?_eq_some_iff.mp hb).1
    . exact h.bound j hj
  below := fun j hj => .inr (h.below j hj)
  sorted := by
    apply pairwise_insert h.sorted
    intro c hc
    exact hi ((h.mem_buffer i c).mp hc).1
  mem_buffer := by
    intro j c
    have hnext : next ≤ i := by
      by_contra hlt
      exact hi (h.below i (by omega))
    rw [Reassembly.insert, List.mem_orderedInsert, h.mem_buffer, Prod.mk.injEq]
    constructor
    . rintro (⟨rfl, rfl⟩ | ⟨hj, hlt, hc⟩)
      . exact ⟨.inl rfl, hnext, hb⟩
      . exact ⟨.inr hj, by omega, hc⟩
    . rintro ⟨rfl | hj, hle, hc⟩
      . left
        rw [hb, Option.some.injEq] at hc
        exact ⟨rfl, hc.symm⟩
      . right
        refine ⟨hj, ?_, hc⟩
        have : next ≠ j := by
          rintro rfl
          exact h.fresh hj
        omega

theorem Pending.next_not_mem_of_lt {stream : List β} {R : Set Nat} {next : Nat}
    {buffer : List (Nat × β)} (h : Pending stream R next buffer) (hlt : ∀ a, a ∈ buffer → next < a.1)
    : next ∉ R := by
  intro hmem
  have hbound := h.bound next hmem
  have := hlt (next, stream[next]) ((h.mem_buffer _ _).mpr ⟨hmem, Nat.le_refl _, by simp [hbound]⟩)
  simp at this

theorem Pending.mem_buffer_of_lt {stream : List β} {R : Set Nat} {next : Nat}
    {buffer : List (Nat × β)} (h : Pending stream R next buffer) (hlt : ∀ a, a ∈ buffer → next < a.1)
    : ∀ i b, (i, b) ∈ buffer ↔ i ∈ R ∧ next < i ∧ stream[i]? = some b := by
  intro i b
  constructor
  . intro hmem
    obtain ⟨hi, -, hb⟩ := (h.mem_buffer i b).mp hmem
    exact ⟨hi, hlt _ hmem, hb⟩
  . rintro ⟨hi, hlt, hb⟩
    exact (h.mem_buffer i b).mpr ⟨hi, by omega, hb⟩

theorem Pending.tail {stream : List β} {R : Set Nat} {next : Nat} {b : β}
    {buffer : List (Nat × β)} (h : Pending stream R next ((next, b) :: buffer))
    : Pending stream R (next + 1) buffer := by
  have hsorted := List.pairwise_cons.mp h.sorted
  constructor
  . exact h.bound
  . intro i hi
    by_cases heq : i = next
    . subst heq
      exact ((h.mem_buffer i b).mp (by simp)).1
    . exact h.below i (by omega)
  . exact hsorted.2
  . intro i c
    constructor
    . intro hmem
      obtain ⟨hi, -, hc⟩ := (h.mem_buffer i c).mp (List.mem_cons_of_mem _ hmem)
      exact ⟨hi, hsorted.1 _ hmem, hc⟩
    . rintro ⟨hi, hle, hc⟩
      have hmem := (h.mem_buffer i c).mpr ⟨hi, by omega, hc⟩
      rw [List.mem_cons, Prod.mk.injEq] at hmem
      rcases hmem with ⟨rfl, -⟩ | hmem
      . omega
      . exact hmem

theorem Pending.drain {stream : List β} {R : Set Nat} {next : Nat} {buffer : List (Nat × β)}
    (h : Pending stream R next buffer)
    : Holds stream R (Reassembly.drain buffer next).2.2 (Reassembly.drain buffer next).2.1
      ∧ stream.take (Reassembly.drain buffer next).2.2
        = stream.take next ++ (Reassembly.drain buffer next).1 := by
  induction buffer generalizing next with
  | nil =>
    refine ⟨⟨h.bound, h.below, ?_, h.sorted, ?_⟩, by simp [Reassembly.drain]⟩
    . exact h.next_not_mem_of_lt (by simp)
    . exact h.mem_buffer_of_lt (by simp)
  | cons e buffer ih =>
    rcases e with ⟨i, b⟩
    have hle := ((h.mem_buffer i b).mp (by simp)).2.1
    have hsorted := List.pairwise_cons.mp h.sorted
    unfold Reassembly.drain
    split
    . next heq =>
      subst heq
      have hb := ((h.mem_buffer i b).mp (by simp)).2.2
      obtain ⟨hholds, htake⟩ := ih h.tail
      refine ⟨hholds, ?_⟩
      rw [htake, List.take_add_one, hb]
      simp
    . next hne =>
      have hlt : ∀ a, a ∈ (i, b) :: buffer → next < a.1 := by
        intro a ha
        cases List.mem_cons.mp ha with
        | inl heq =>
          rw [heq]
          dsimp only
          omega
        | inr hmem =>
          have := hsorted.1 a hmem
          dsimp only at this
          omega
      refine ⟨⟨h.bound, h.below, ?_, h.sorted, ?_⟩, by simp⟩
      . exact h.next_not_mem_of_lt hlt
      . exact h.mem_buffer_of_lt hlt

end Reassembly
