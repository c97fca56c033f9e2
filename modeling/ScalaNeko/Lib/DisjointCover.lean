import Mathlib.Algebra.GroupWithZero.Nat
import Mathlib.Data.Finset.Card
import Mathlib.Data.Fintype.Card

/-!
Lists of items that each own a set of elements: when these sets are disjoint, the items partition
the elements exactly if they own as many of them as there are.
-/

namespace DisjointCover

variable {ι α : Type}

def IsDisjoint (f : ι → Finset α) (l : List ι) : Prop := l.Pairwise (fun i j => Disjoint (f i) (f j))

def IsPartition (f : ι → Finset α) (l : List ι) : Prop :=
  IsDisjoint f l ∧ ∀ a, ∃ i, i ∈ l ∧ a ∈ f i

def size (f : ι → Finset α) (l : List ι) : Nat := (l.map (fun i => (f i).card)).sum

variable {f : ι → Finset α} {l l' : List ι} {i : ι} {a : α}

@[simp]
theorem size_nil : size f [] = 0 := rfl

@[simp]
theorem size_cons : size f (i :: l) = (f i).card + size f l := by
  simp [size]

@[simp]
theorem size_append : size f (l ++ l') = size f l + size f l' := by
  simp [size]

theorem size_flatten {ls : List (List ι)} {n : Nat} (h : ∀ l, l ∈ ls → size f l = n)
    : size f ls.flatten = ls.length * n := by
  induction ls with
  | nil => rw [List.flatten_nil, size_nil, List.length_nil, Nat.zero_mul]
  | cons l ls ih =>
    rw [List.flatten_cons, size_append, h l List.mem_cons_self,
      ih (fun l hl => h l (List.mem_cons_of_mem _ hl)), List.length_cons, Nat.succ_mul, Nat.add_comm]

theorem size_perm (h : l.Perm l') : size f l = size f l' :=
  (h.map _).sum_nat

theorem size_filter_nonempty : size f (l.filter (fun i => (f i).Nonempty)) = size f l := by
  induction l with
  | nil => rfl
  | cons i l ih =>
    rw [List.filter_cons]
    split
    . rw [size_cons, size_cons, ih]
    . next h =>
      have hempty : f i = ∅ := by simpa using h
      rw [size_cons, ih, hempty, Finset.card_empty, Nat.zero_add]

theorem eq_nil_of_size_eq_zero (hne : ∀ i, i ∈ l → (f i).Nonempty) (h : size f l = 0) : l = [] := by
  cases l with
  | nil => rfl
  | cons i l =>
    have hpos := Finset.card_pos.mpr (hne i List.mem_cons_self)
    rw [size_cons] at h
    omega

theorem size_eq_zero_iff : size f l = 0 ↔ ∀ i, i ∈ l → f i = ∅ := by
  induction l with
  | nil => simp
  | cons i l ih => rw [size_cons, Nat.add_eq_zero_iff, ih, Finset.card_eq_zero, List.forall_mem_cons]

theorem IsPartition.perm (h : IsPartition f l) (hperm : l.Perm l') : IsPartition f l' := by
  refine ⟨(hperm.pairwise_iff (fun hij => hij.symm)).mp h.1, ?_⟩
  intro a
  obtain ⟨i, hi, ha⟩ := h.2 a
  exact ⟨i, hperm.subset hi, ha⟩

theorem IsPartition.append_of_empty (h : IsPartition f l') (hempty : ∀ i, i ∈ l → f i = ∅)
    : IsPartition f (l ++ l') := by
  constructor
  . rw [IsDisjoint, List.pairwise_append]
    refine ⟨?_, h.1, ?_⟩
    . apply List.pairwise_of_forall_mem_list
      intro i hi j _
      rw [hempty i hi]
      exact Finset.disjoint_empty_left _
    . intro i hi j _
      rw [hempty i hi]
      exact Finset.disjoint_empty_left _
  . intro a
    obtain ⟨i, hi, ha⟩ := h.2 a
    exact ⟨i, List.mem_append_right _ hi, ha⟩

theorem exists_eq_append_cons {k later rest : List ι} (heq : k ++ later = l ++ i :: rest)
    (hlt : size f l < size f k)
    : ∃ c, k = l ++ i :: c ∧ rest = c ++ later := by
  rw [List.append_eq_append_iff] at heq
  rcases heq with ⟨c, rfl, -⟩ | ⟨c, rfl, hc⟩
  . rw [size_append] at hlt
    omega
  . cases c with
    | nil =>
      rw [List.append_nil] at hlt
      omega
    | cons j c =>
      rw [List.cons_append, List.cons.injEq] at hc
      obtain ⟨rfl, rfl⟩ := hc
      exact ⟨c, rfl, rfl⟩

section Insert

variable [DecidableEq ι]

theorem insert_cases (hnew : ∀ j, j ∈ l → Disjoint (f j) (f i))
    : l.insert i = i :: l ∨ f i = ∅ ∧ l.insert i = l := by
  by_cases hmem : i ∈ l
  . have hself := hnew i hmem
    rw [disjoint_self] at hself
    exact .inr ⟨hself, List.insert_of_mem hmem⟩
  . exact .inl (List.insert_of_not_mem hmem)

theorem IsDisjoint.insert (h : IsDisjoint f l) (hnew : ∀ j, j ∈ l → Disjoint (f j) (f i))
    : IsDisjoint f (l.insert i) := by
  rcases insert_cases hnew with heq | ⟨-, heq⟩
  . rw [heq]
    exact List.pairwise_cons.mpr ⟨fun j hj => (hnew j hj).symm, h⟩
  . rw [heq]
    exact h

theorem size_insert (hnew : ∀ j, j ∈ l → Disjoint (f j) (f i))
    : size f (l.insert i) = (f i).card + size f l := by
  rcases insert_cases hnew with heq | ⟨hempty, heq⟩
  . rw [heq, size_cons]
  . rw [heq, hempty, Finset.card_empty, Nat.zero_add]

theorem IsPartition.insert (h : IsPartition f (l ++ i :: l'))
    : (∀ j, j ∈ l → Disjoint (f j) (f i)) ∧ IsPartition f (l.insert i ++ l') := by
  have hnew : ∀ j, j ∈ l → Disjoint (f j) (f i) :=
    fun j hj => (List.pairwise_append.mp h.1).2.2 j hj i List.mem_cons_self
  refine ⟨hnew, ?_⟩
  rcases insert_cases hnew with heq | ⟨hempty, heq⟩
  . rw [heq]
    exact h.perm List.perm_middle
  . rw [heq]
    constructor
    . exact h.1.sublist ((List.Sublist.refl l).append (List.sublist_cons_self i l'))
    . intro a
      obtain ⟨j, hj, ha⟩ := h.2 a
      rw [List.mem_append, List.mem_cons] at hj
      rcases hj with hj | rfl | hj
      . exact ⟨j, List.mem_append_left _ hj, ha⟩
      . rw [hempty] at ha
        exact absurd ha (Finset.notMem_empty a)
      . exact ⟨j, List.mem_append_right _ hj, ha⟩

end Insert

variable [DecidableEq α]

def owned (f : ι → Finset α) : List ι → Finset α
  | [] => ∅
  | i :: l => f i ∪ owned f l

@[simp]
theorem mem_owned : a ∈ owned f l ↔ ∃ i, i ∈ l ∧ a ∈ f i := by
  induction l with
  | nil => simp [owned]
  | cons i l ih => simp [owned, ih]

theorem IsDisjoint.size_eq (h : IsDisjoint f l) : size f l = (owned f l).card := by
  induction l with
  | nil => rfl
  | cons i l ih =>
    obtain ⟨hi, hl⟩ := List.pairwise_cons.mp h
    have hdisjoint : Disjoint (f i) (owned f l) := by
      rw [Finset.disjoint_left]
      intro a ha hmem
      obtain ⟨j, hj, haj⟩ := mem_owned.mp hmem
      exact Finset.disjoint_left.mp (hi j hj) ha haj
    rw [size_cons, owned, Finset.card_union_of_disjoint hdisjoint, ih hl]

instance [Fintype α] : Decidable (IsPartition f l) :=
  inferInstanceAs (Decidable (l.Pairwise (fun i j => Disjoint (f i) (f j)) ∧ _))

theorem IsDisjoint.size_le [Fintype α] (h : IsDisjoint f l) : size f l ≤ Fintype.card α := by
  rw [h.size_eq]
  exact Finset.card_le_univ _

theorem isPartition_iff [Fintype α]
    : IsPartition f l ↔ IsDisjoint f l ∧ size f l = Fintype.card α := by
  unfold IsPartition
  apply and_congr_right
  intro h
  rw [h.size_eq, Finset.card_eq_iff_eq_univ, Finset.eq_univ_iff_forall]
  simp

theorem IsPartition.exists_filter_eq (h : IsPartition f l) (a : α)
    : ∃ i, a ∈ f i ∧ l.filter (fun i => a ∈ f i) = [i] := by
  obtain ⟨hdisjoint, hcover⟩ := h
  obtain ⟨i, hi, ha⟩ := hcover a
  clear hcover
  refine ⟨i, ha, ?_⟩
  induction l with
  | nil => cases hi
  | cons j l ih =>
    obtain ⟨hj, hl⟩ := List.pairwise_cons.mp hdisjoint
    rw [List.mem_cons] at hi
    by_cases haj : a ∈ f j
    . have hrest : l.filter (fun i => a ∈ f i) = [] := by
        rw [List.filter_eq_nil_iff]
        intro k hk hak
        exact Finset.disjoint_left.mp (hj k hk) haj (of_decide_eq_true hak)
      rw [List.filter_cons_of_pos (by simpa using haj), hrest]
      rcases hi with rfl | hi
      . rfl
      . exact absurd ha (Finset.disjoint_left.mp (hj i hi) haj)
    . rw [List.filter_cons_of_neg (by simpa using haj)]
      rcases hi with rfl | hi
      . exact absurd ha haj
      . exact ih hl hi

end DisjointCover
