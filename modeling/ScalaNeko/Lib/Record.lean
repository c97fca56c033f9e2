/-!
Records of what has happened so far, lists that grow at the end.
-/

namespace Record

variable {α : Type u} {xs ys : List α} {x y : α} {i : Nat}

theorem getElem?_snoc (h : (xs ++ [x])[i]? = some y) : xs[i]? = some y ∨ (i = xs.length ∧ y = x) := by
  rw [List.getElem?_append] at h
  split at h
  . exact .inl h
  . next hi =>
    obtain ⟨hlt, -⟩ := List.getElem?_eq_some_iff.mp h
    rw [List.length_singleton] at hlt
    have heq : i = xs.length := by omega
    rw [heq, Nat.sub_self, List.getElem?_cons_zero, Option.some_inj] at h
    exact .inr ⟨heq, h.symm⟩

theorem getElem?_of_prefix (h : xs <+: ys) (hx : xs[i]? = some x) : ys[i]? = some x := by
  obtain ⟨zs, rfl⟩ := h
  obtain ⟨hlt, -⟩ := List.getElem?_eq_some_iff.mp hx
  rw [List.getElem?_append_left hlt, hx]

theorem snoc_prefix (h : xs <+: ys) (hx : ys[xs.length]? = some x) : xs ++ [x] <+: ys := by
  obtain ⟨zs, rfl⟩ := h
  rw [List.getElem?_append_right (Nat.le_refl _), Nat.sub_self] at hx
  cases zs with
  | nil => cases hx
  | cons z zs =>
    cases hx
    exact ⟨zs, by simp⟩

/--
A part of a record that is in the same order and lacks nothing before what it has.
-/
theorem prefix_of_closed (key : α → Nat) (hxs : xs.Pairwise (fun x y => key x < key y))
    (hys : ys.Pairwise (fun x y => key x < key y)) (hsub : ∀ x, x ∈ xs → x ∈ ys)
    (hclosed : ∀ x y, x ∈ xs → y ∈ ys → key y < key x → y ∈ xs)
    : xs <+: ys := by
  induction ys generalizing xs with
  | nil =>
    have hnil : xs = [] := List.eq_nil_iff_forall_not_mem.mpr (fun x hx => List.not_mem_nil (hsub x hx))
    subst hnil
    exact List.nil_prefix
  | cons y ys ih =>
    cases xs with
    | nil => exact List.nil_prefix
    | cons x xs =>
      obtain ⟨hxmin, hxtail⟩ := List.pairwise_cons.mp hxs
      obtain ⟨hymin, hytail⟩ := List.pairwise_cons.mp hys
      have hyx : x = y := by
        rcases List.mem_cons.mp (hsub x List.mem_cons_self) with heq | hx
        . exact heq
        . have hlt := hymin x hx
          rcases List.mem_cons.mp (hclosed x y List.mem_cons_self List.mem_cons_self hlt) with heq | hy
          . exact heq.symm
          . exact absurd (hxmin y hy) (Nat.lt_asymm hlt)
      subst hyx
      rw [List.prefix_cons_inj]
      apply ih hxtail hytail
      . intro z hz
        rcases List.mem_cons.mp (hsub z (List.mem_cons_of_mem _ hz)) with rfl | hz'
        . exact absurd (hxmin z hz) (Nat.lt_irrefl _)
        . exact hz'
      . intro z z' hz hz' hlt
        rcases List.mem_cons.mp (hclosed z z' (List.mem_cons_of_mem _ hz) (List.mem_cons_of_mem _ hz') hlt)
          with rfl | hmem
        . exact absurd (hymin z' hz') (Nat.lt_irrefl _)
        . exact hmem

end Record
