import Mathlib.Data.List.FinRange
import ScalaNeko.Topology.Impl

/-!
The topologies of `neko.topology.Ladder`.
-/

namespace Ladder

theorem three_le_three : 3 ≤ 3 := Nat.le_refl 3

theorem one_le_three : 1 ≤ 3 := by decide

theorem three_lt : (3 : Nat) < 2 ^ 31 := by decide

theorem min_le {n : Int} (k : Fin (n - 2).toNat) : -2 ^ 31 ≤ (k.val : Int) := by omega

theorem last_lt {n : Int} (hn : n < 2 ^ 31) (k : Fin (n - 2).toNat) : (k.val : Int) + (3 : Nat) ≤ 2 ^ 31 := by
  have := k.isLt
  omega

-- The ranges `i-2 to i` for `i` in `2 until n`, from that for `i = 2` on.
def ranges (n : Int) (hn : n < 2 ^ 31) : List Range :=
  (List.finRange (n - 2).toNat).map fun k : Fin (n - 2).toNat =>
    { min := k.val
      size := 3
      one_le := one_le_three
      size_lt := three_lt
      min_le := min_le k
      last_lt := last_lt hn k
      three_le := three_le_three }

-- There is no topology if the assumption is violated.
def apply (n : Int) (hn : n < 2 ^ 31) : Option Topology :=
  if n > 2 then
    match ranges n hn with
    | [] => none
    | range :: ranges =>
      some (ranges.foldl (fun t range => t.unionWith (.clique range)) (.clique range))
  else
    none

end Ladder
