import Mathlib.Data.List.Basic

/-!
Texts that are written one after the other, each with its length in front of it.
-/

/--
A way to write numbers, with an element that ends a number since it is part of none.
-/
structure Numeral (α : Type) where
  write : Nat → List α
  read : List α → Nat
  stop : α
  read_write : ∀ n, read (write n) = n
  stop_not_mem : ∀ n, stop ∉ write n

namespace Framing

variable {α β : Type} {a : α} {s rest : List α}

section Split

variable [DecidableEq α]

theorem takeWhile_ne (h : a ∉ s) : (s ++ a :: rest).takeWhile (· ≠ a) = s := by
  have hall : ∀ x, x ∈ s → decide (x ≠ a) = true := by
    intro x hx
    exact decide_eq_true (ne_of_mem_of_not_mem hx h)
  rw [List.takeWhile_append_of_pos hall, List.takeWhile_cons_of_neg (by simp), List.append_nil]

theorem dropWhile_ne (h : a ∉ s) : (s ++ rest).dropWhile (· ≠ a) = rest.dropWhile (· ≠ a) := by
  have hall : ∀ x, x ∈ s → decide (x ≠ a) = true := by
    intro x hx
    exact decide_eq_true (ne_of_mem_of_not_mem hx h)
  rw [List.dropWhile_append_of_pos hall]

theorem dropWhile_ne_self : (a :: rest).dropWhile (· ≠ a) = a :: rest :=
  List.dropWhile_cons_of_neg (by simp)

end Split

def frame (numeral : Numeral α) (s : List α) : List α := numeral.write s.length ++ numeral.stop :: s

-- The text in the frame, and what comes after it.
def unframe [DecidableEq α] (numeral : Numeral α) (text : List α) : Option (List α × List α) :=
  match text.dropWhile (· ≠ numeral.stop) with
  | [] => none
  | _ :: rest =>
    let length := numeral.read (text.takeWhile (· ≠ numeral.stop))
    if length ≤ rest.length then some (rest.take length, rest.drop length) else none

theorem unframe_frame [DecidableEq α] (numeral : Numeral α)
    : unframe numeral (frame numeral s ++ rest) = some (s, rest) := by
  have hstop := numeral.stop_not_mem s.length
  unfold unframe frame
  rw [List.append_assoc, List.cons_append, dropWhile_ne hstop, takeWhile_ne hstop, dropWhile_ne_self,
    numeral.read_write]
  show (if s.length ≤ (s ++ rest).length then _ else _) = _
  rw [if_pos (List.length_append ▸ Nat.le_add_right _ _), List.take_left, List.drop_left]

/--
Reading back what has been written, whatever comes after it.
-/
def Reads (read : List α → Option (β × List α)) (write : β → List α) : Prop :=
  ∀ x rest, read (write x ++ rest) = some (x, rest)

def times (read : List α → Option (β × List α)) : Nat → List α → Option (List β × List α)
  | 0, text => some ([], text)
  | k + 1, text => do
    let (x, text) ← read text
    let (xs, text) ← times read k text
    return (x :: xs, text)

-- The fuel bounds how often something is read.
def many (read : List α → Option (β × List α)) : Nat → List α → Option (List β)
  | _, [] => some []
  | 0, _ :: _ => none
  | fuel + 1, text => do
    let (x, text) ← read text
    let xs ← many read fuel text
    return x :: xs

variable {read : List α → Option (β × List α)} {write : β → List α}

theorem Reads.times (h : Reads read write) (xs : List β)
    : times read xs.length (xs.flatMap write ++ rest) = some (xs, rest) := by
  induction xs with
  | nil => rfl
  | cons x xs ih =>
    rw [List.flatMap_cons, List.append_assoc, List.length_cons, Framing.times, h, Option.bind_eq_bind,
      Option.bind_some]
    dsimp only
    rw [ih]
    rfl

theorem Reads.many (h : Reads read write) (hwrite : ∀ x, write x ≠ []) (xs : List β) {fuel : Nat}
    (hfuel : xs.length ≤ fuel)
    : many read fuel (xs.flatMap write) = some xs := by
  induction xs generalizing fuel with
  | nil =>
    unfold Framing.many
    rfl
  | cons x xs ih =>
    obtain ⟨n, rfl⟩ : ∃ n, fuel = n + 1 := ⟨fuel - 1, by rw [List.length_cons] at hfuel; omega⟩
    obtain ⟨a, tail, htext⟩ := List.exists_cons_of_ne_nil
      (List.append_ne_nil_of_left_ne_nil (hwrite x) (xs.flatMap write))
    rw [List.flatMap_cons, htext, Framing.many, ← htext, h, Option.bind_eq_bind, Option.bind_some]
    dsimp only
    rw [ih (Nat.le_of_succ_le_succ hfuel)]
    rfl
    exact List.cons_ne_nil _ _

theorem length_le_flatMap (hwrite : ∀ x, write x ≠ []) (xs : List β) : xs.length ≤ (xs.flatMap write).length := by
  induction xs with
  | nil => exact Nat.le_refl _
  | cons x xs ih =>
    have hpos := List.length_pos_of_ne_nil (hwrite x)
    rw [List.flatMap_cons, List.length_cons, List.length_append]
    omega

end Framing
