import Mathlib.Algebra.Order.Ring.Int
import Mathlib.Data.Int.Order.Basic

/-!
Arithmetic of 32-bit and 64-bit integers where it does not overflow.
-/

namespace Int64

theorem toInt_add_of_range {a b : Int64} (hlo : -2 ^ 63 ≤ a.toInt + b.toInt)
    (hhi : a.toInt + b.toInt < 2 ^ 63)
    : (a + b).toInt = a.toInt + b.toInt := by
  rw [toInt_add]
  apply Int.bmod_eq_of_le
  . omega
  . omega

theorem toInt_max (a b : Int64) : (max a b).toInt = max a.toInt b.toInt := by
  have hmax : max a b = if a ≤ b then b else a := rfl
  rw [hmax]
  split
  . next h =>
    rw [le_iff_toInt_le] at h
    omega
  . next h =>
    rw [le_iff_toInt_le] at h
    omega

end Int64

namespace Int32

theorem ofNat_inj_of_lt {a b : Nat} (ha : a < 2 ^ 31) (hb : b < 2 ^ 31)
    : ofNat a = ofNat b ↔ a = b := by
  constructor
  . intro h
    have htoInt := congrArg toInt h
    rw [toInt_ofNat_of_lt ha, toInt_ofNat_of_lt hb] at htoInt
    omega
  . rintro rfl
    rfl

theorem ofNat_le_ofNat_of_lt {a b : Nat} (ha : a < 2 ^ 31) (hb : b < 2 ^ 31)
    : ofNat a ≤ ofNat b ↔ a ≤ b := by
  rw [le_iff_toInt_le, toInt_ofNat_of_lt ha, toInt_ofNat_of_lt hb]
  omega

theorem ofNat_lt_ofNat_of_lt {a b : Nat} (ha : a < 2 ^ 31) (hb : b < 2 ^ 31)
    : ofNat a < ofNat b ↔ a < b := by
  rw [lt_iff_toInt_lt, toInt_ofNat_of_lt ha, toInt_ofNat_of_lt hb]
  omega

end Int32
