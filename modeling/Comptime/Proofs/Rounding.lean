import Comptime.Ty.Basic
import Mathlib.Data.Int.Cast.Lemmas
import Mathlib.Order.Bounds.Basic

/-!
# Rounding

Sizes and offsets are words that wrap. Sums, products and roundings of them are those of the exact numbers as long as these
are below `2 ^ 63`.
-/

namespace Comptime

/-- The least multiple of `a` not below `n`. -/
def ceil (n a : Nat) : Nat := (n + a - 1) / a * a

theorem ceil_one (n : Nat) : ceil n 1 = n := by simp [ceil]

theorem bmod_of_lt {n : Nat} (h : n < 2 ^ 63) : (n : Int).bmod (2 ^ 64) = n := by
  rw [Int.bmod_eq_of_le] <;> omega

theorem toInt_int64_ofNat {n : Nat} (h : n < 2 ^ 63) : (Int64.ofNat n).toInt = n := by
  rw [Int64.toInt_ofNat']
  exact bmod_of_lt h

theorem toInt_add {x y : Int64} {n k : Nat} (hx : x.toInt = n) (hy : y.toInt = k) (h : n + k < 2 ^ 63) :
    (x + y).toInt = (n + k : Nat) := by
  rw [Int64.toInt_add, hx, hy, ← Int.natCast_add, bmod_of_lt h]

theorem toInt_mul {x y : Int64} {n k : Nat} (hx : x.toInt = n) (hy : y.toInt = k) (h : n * k < 2 ^ 63) :
    (x * y).toInt = (n * k : Nat) := by
  rw [Int64.toInt_mul, hx, hy, ← Int.natCast_mul, bmod_of_lt h]

/-- Rounding up is exact unless the sum that it divides wraps. -/
theorem toInt_alignUp {x y : Int64} {n a : Nat} (hx : x.toInt = n) (hy : y.toInt = a) (ha : 0 < a) (h : n + a ≤ 2 ^ 63) :
    (alignUp x y).toInt = ceil n a := by
  rw [alignUp]
  split
  · next hLe =>
    rw [Int64.le_iff_toInt_le, hy, show (1 : Int64).toInt = 1 from rfl] at hLe
    obtain rfl : a = 1 := by omega
    rw [hx, ceil_one]
  · have hPred : (y - 1).toInt = (a - 1 : Nat) := by
      rw [Int64.toInt_sub, hy, show (1 : Int64).toInt = 1 from rfl, ← Nat.cast_pred ha, bmod_of_lt (by omega)]
    have hSum : (x + y - 1).toInt = (n + a - 1 : Nat) := by
      rw [Int64.sub_eq_add_neg, Int64.add_assoc, ← Int64.sub_eq_add_neg, toInt_add hx hPred (by omega),
        Nat.add_sub_assoc ha]
    have hDiv : ((x + y - 1) / y).toInt = ((n + a - 1) / a : Nat) := by
      have hLt : (n + a - 1) / a < 2 ^ 63 := (Nat.div_le_self ..).trans_lt (by omega)
      rw [Int64.toInt_div, hSum, hy, ← Int.ofNat_tdiv, bmod_of_lt hLt]
    exact toInt_mul hDiv hy ((Nat.div_mul_le_self ..).trans_lt (by omega))

end Comptime
