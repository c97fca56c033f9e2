import Mathlib.Data.Int.Interval
import Mathlib.Data.Finset.Prod

/-!
The cells of a rectangle of integers, numbered row by row.
-/

namespace Cells

def Inside (w h : Int) (c : Int × Int) : Prop := (0 ≤ c.1 ∧ c.1 < w) ∧ 0 ≤ c.2 ∧ c.2 < h

def index (w : Int) (c : Int × Int) : Int := c.1 + c.2 * w

def cellOf (w n : Int) : Int × Int := (n % w, n / w)

variable {w h n : Int} {c d : Int × Int}

theorem Inside.index_nonneg (hc : Inside w h c) : 0 ≤ index w c := by
  obtain ⟨⟨hx, hw⟩, hy, -⟩ := hc
  have hrows : 0 ≤ c.2 * w := Int.mul_nonneg hy (by omega)
  unfold index
  omega

theorem Inside.index_lt (hc : Inside w h c) : index w c < w * h := by
  obtain ⟨⟨hx, hw⟩, hy, hh⟩ := hc
  have hrows : c.2 * w ≤ (h - 1) * w := Int.mul_le_mul_of_nonneg_right (by omega) (by omega)
  rw [Int.sub_mul, Int.one_mul, Int.mul_comm h w] at hrows
  unfold index
  omega

theorem Inside.cellOf_index (hc : Inside w h c) : cellOf w (index w c) = c := by
  obtain ⟨⟨hx, hw⟩, -⟩ := hc
  unfold cellOf index
  rw [Int.add_mul_emod_self_right, Int.add_mul_ediv_right _ _ (by omega), Int.emod_eq_of_lt hx hw,
    Int.ediv_eq_zero_of_lt hx hw, Int.zero_add]

theorem Inside.index_inj (hc : Inside w h c) (hd : Inside w h d) (heq : index w c = index w d) : c = d := by
  rw [← hc.cellOf_index, ← hd.cellOf_index, heq]

theorem index_cellOf (w n : Int) : index w (cellOf w n) = n := by
  unfold index cellOf
  rw [Int.mul_comm]
  exact Int.emod_add_mul_ediv n w

theorem inside_cellOf (hw : 0 < w) (hn : 0 ≤ n) (hlt : n < w * h) : Inside w h (cellOf w n) := by
  refine ⟨⟨Int.emod_nonneg _ (by omega), Int.emod_lt_of_pos _ hw⟩, Int.ediv_nonneg hn (by omega), ?_⟩
  apply Int.ediv_lt_of_lt_mul hw
  rwa [Int.mul_comm]

-- The number of cells that stay inside when they are moved.
theorem card_moved {dx dy : Int} {cells : Finset (Int × Int)} (hdx : -1 ≤ dx ∧ dx ≤ 1) (hdy : 0 ≤ dy)
    (hcells : ∀ c, c ∈ cells ↔ Inside w h c ∧ (0 ≤ c.1 + dx ∧ c.1 + dx < w) ∧ c.2 + dy < h)
    : cells.card = (w - dx.natAbs).toNat * (h - dy).toNat := by
  have hproduct : cells = Finset.Ico (-min dx 0) (w - max dx 0) ×ˢ Finset.Ico 0 (h - dy) := by
    ext ⟨x, y⟩
    rw [hcells, Finset.mem_product, Finset.mem_Ico, Finset.mem_Ico]
    unfold Inside
    dsimp only
    omega
  rw [hproduct, Finset.card_product, Int.card_Ico, Int.card_Ico]
  congr 2
  . omega
  . omega

end Cells
