import Mathlib.Data.List.Basic
import Mathlib.Data.List.Infix

/-!
Lines that end with a separator, and the longest part of the separator with which an unfinished line
ends.
-/

namespace Lines

variable {α : Type}

-- The only separator in a line is at its end.
def IsLine (sep line : List α) : Prop := sep <:+ line ∧ ∀ p, p <+: line → sep <:+ p → p = line

def Unfinished (sep line : List α) : Prop := ∀ p, p <+: line → ¬ sep <:+ p

structure Split (sep text : List α) (lines : List (List α)) (rest : List α) : Prop where
  eq : text = lines.flatten ++ rest
  isLine : ∀ line, line ∈ lines → IsLine sep line
  unfinished : Unfinished sep rest

variable {sep text line rest : List α} {lines : List (List α)} {a b : α} {c m : Nat}

theorem prefix_snoc {p : List α} (h : p <+: line ++ [b]) : p = line ++ [b] ∨ p <+: line := by
  rwa [List.prefix_concat_iff] at h

theorem Split.nil (hsep : sep ≠ []) : Split sep ([] : List α) [] [] where
  eq := rfl
  isLine := by
    intro line hline
    cases hline
  unfinished := by
    intro p hp hsuffix
    rw [List.prefix_nil.mp hp, List.suffix_nil] at hsuffix
    exact hsep hsuffix

theorem Split.grow (h : Split sep text lines rest) (hopen : ¬ sep <:+ rest ++ [b])
    : Split sep (text ++ [b]) lines (rest ++ [b]) where
  eq := by rw [h.eq, List.append_assoc]
  isLine := h.isLine
  unfinished := by
    intro p hp
    rcases prefix_snoc hp with rfl | hp
    . exact hopen
    . exact h.unfinished p hp

theorem Split.close (h : Split sep text lines rest) (hsep : sep ≠ []) (hclosed : sep <:+ rest ++ [b])
    : Split sep (text ++ [b]) (lines ++ [rest ++ [b]]) [] where
  eq := by
    rw [h.eq, List.flatten_append, List.flatten_singleton, List.append_nil, List.append_assoc]
  isLine := by
    intro line hline
    rcases List.mem_append.mp hline with hline | hline
    . exact h.isLine line hline
    . rw [List.mem_singleton.mp hline]
      refine ⟨hclosed, ?_⟩
      intro p hp hsuffix
      rcases prefix_snoc hp with rfl | hp
      . rfl
      . exact absurd hsuffix (h.unfinished p hp)
  unfinished := (Split.nil hsep).unfinished

/--
There is one way only to split a text.
-/
theorem Split.unique {lines' : List (List α)} {rest' : List α} (h : Split sep text lines rest)
    (h' : Split sep text lines' rest')
    : lines = lines' ∧ rest = rest' := by
  induction lines generalizing text lines' with
  | nil =>
    cases lines' with
    | nil => exact ⟨rfl, h.eq.symm.trans h'.eq⟩
    | cons line' lines' =>
      exfalso
      apply h.unfinished line' _ (h'.isLine line' List.mem_cons_self).1
      rw [← List.nil_append rest, ← List.flatten_nil, ← h.eq, h'.eq, List.flatten_cons, List.append_assoc]
      exact List.prefix_append _ _
  | cons line lines ih =>
    cases lines' with
    | nil =>
      exfalso
      apply h'.unfinished line _ (h.isLine line List.mem_cons_self).1
      rw [← List.nil_append rest', ← List.flatten_nil, ← h'.eq, h.eq, List.flatten_cons, List.append_assoc]
      exact List.prefix_append _ _
    | cons line' lines' =>
      obtain ⟨hsep, honly⟩ := h.isLine line List.mem_cons_self
      obtain ⟨hsep', honly'⟩ := h'.isLine line' List.mem_cons_self
      have heq := h.eq.symm.trans h'.eq
      rw [List.flatten_cons, List.flatten_cons, List.append_assoc, List.append_assoc] at heq
      have hsame : line = line' := by
        rcases List.prefix_or_prefix_of_prefix (heq ▸ List.prefix_append line _)
            (List.prefix_append line' _) with hp | hp
        . exact honly' line hp hsep
        . exact (honly line' hp hsep').symm
      subst hsame
      have htail := List.append_cancel_left heq
      obtain ⟨rfl, hrest⟩ := ih
        ⟨rfl, fun l hl => h.isLine l (List.mem_cons_of_mem _ hl), h.unfinished⟩
        ⟨htail, fun l hl => h'.isLine l (List.mem_cons_of_mem _ hl), h'.unfinished⟩
      exact ⟨rfl, hrest⟩

/--
The line ends with the first `c` elements of the separator, and with no more of them.
-/
structure Matched (sep line : List α) (c : Nat) : Prop where
  lt : c < sep.length
  suffix : sep.take c <:+ line
  longest : ∀ m, m ≤ sep.length → sep.take m <:+ line → m ≤ c

theorem take_succ (hm : sep[m]? = some a) : sep.take (m + 1) = sep.take m ++ [a] := by
  rw [List.take_add_one, hm]
  rfl

theorem take_succ_suffix (hm : sep[m]? = some a)
    : sep.take (m + 1) <:+ line ++ [b] ↔ a = b ∧ sep.take m <:+ line := by
  rw [take_succ hm]
  constructor
  . rintro ⟨t, ht⟩
    rw [← List.append_assoc] at ht
    obtain ⟨hline, hlast⟩ := List.append_inj' ht rfl
    exact ⟨(List.cons.inj hlast).1, t, hline⟩
  . rintro ⟨rfl, t, rfl⟩
    exact ⟨t, (List.append_assoc ..).symm⟩

namespace Matched

theorem nil (hsep : sep ≠ []) : Matched sep [] 0 where
  lt := List.length_pos_of_ne_nil hsep
  suffix := List.nil_suffix
  longest := by
    intro m hm hsuffix
    have hlength := hsuffix.length_le
    rw [List.length_take, List.length_nil] at hlength
    omega

-- What more of the separator is matched when another element has come.
theorem of_snoc (h : Matched sep line c) (hm : m ≤ sep.length) (hsuffix : sep.take m <:+ line ++ [b])
    : m = 0 ∨ ∃ k, m = k + 1 ∧ k ≤ c ∧ sep[k]? = some b := by
  cases m with
  | zero => exact .inl rfl
  | succ k =>
    have hk : sep[k]? = some sep[k] := List.getElem?_eq_getElem hm
    obtain ⟨hb, hline⟩ := (take_succ_suffix hk).mp hsuffix
    rw [hb] at hk
    exact .inr ⟨k, rfl, h.longest k (by omega) hline, hk⟩

theorem next (h : Matched sep line c) (hb : sep[c]? = some b) (hlt : c + 1 < sep.length)
    : Matched sep (line ++ [b]) (c + 1) where
  lt := hlt
  suffix := (take_succ_suffix hb).mpr ⟨rfl, h.suffix⟩
  longest := by
    intro m hm hsuffix
    rcases h.of_snoc hm hsuffix with rfl | ⟨k, rfl, hk, -⟩
    . exact Nat.zero_le _
    . exact Nat.succ_le_succ hk

theorem complete (h : Matched sep line c) (hb : sep[c]? = some b) (hlast : c + 1 = sep.length)
    : sep <:+ line ++ [b] := by
  have hall := (take_succ_suffix hb).mpr ⟨rfl, h.suffix⟩
  rwa [hlast, List.take_length] at hall

theorem le_of_mismatch (h : Matched sep line c) (hb : sep[c]? ≠ some b) (hm : m ≤ sep.length)
    (hsuffix : sep.take m <:+ line ++ [b])
    : m ≤ c := by
  rcases h.of_snoc hm hsuffix with rfl | ⟨k, rfl, hk, hkb⟩
  . exact Nat.zero_le _
  . have hne : k ≠ c := by
      rintro rfl
      exact hb hkb
    omega

theorem not_suffix_of_mismatch (h : Matched sep line c) (hb : sep[c]? ≠ some b) : ¬ sep <:+ line ++ [b] := by
  intro hsuffix
  have hlt := h.lt
  rw [← List.take_length (l := sep)] at hsuffix
  have := h.le_of_mismatch hb (Nat.le_refl _) hsuffix
  omega

theorem not_suffix_of_lt (h : Matched sep line c) (hlt : c + 1 < sep.length) : ¬ sep <:+ line ++ [b] := by
  intro hsuffix
  rw [← List.take_length (l := sep)] at hsuffix
  rcases h.of_snoc (Nat.le_refl _) hsuffix with hzero | ⟨k, hk, hle, -⟩
  . omega
  . omega

theorem snoc_comm_iff {same : List α} : same ++ [b] = b :: same ↔ ∀ a, a ∈ same → a = b := by
  constructor
  . intro h
    induction same with
    | nil =>
      intro a ha
      cases ha
    | cons x same ih =>
      obtain ⟨rfl, hrest⟩ := List.cons.inj h
      intro a ha
      rcases List.mem_cons.mp ha with rfl | ha
      . rfl
      . exact ih hrest a ha
  . intro h
    rw [List.eq_replicate_of_mem h, ← List.replicate_succ', List.replicate_succ]

-- As long as the matched part is made of the same element, it stays at the end of the line.
theorem stay (h : Matched sep line c) (hb : sep[c]? ≠ some b) (hsame : ∀ a, a ∈ sep.take c → a = b)
    : Matched sep (line ++ [b]) c where
  lt := h.lt
  suffix := by
    obtain ⟨t, rfl⟩ := h.suffix
    refine ⟨t ++ [b], ?_⟩
    rw [List.append_assoc, List.append_assoc, snoc_comm_iff.mpr hsame]
    rfl
  longest := fun _ hm => h.le_of_mismatch hb hm

end Matched

end Lines
