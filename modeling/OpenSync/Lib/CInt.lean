import Mathlib.Algebra.Order.Ring.Int

/-!
# Integers of C

The conversions between integer types that drop bits: to a 32-bit `int`, which is taken to
wrap, and to a 64-bit `size_t`.
-/

namespace OpenSync.Lib

/-- The conversion of an integer to `int`. -/
def toInt (x : Int) : Int := Int.bmod x (2 ^ 32)

/-- The conversion of an integer to `size_t`. -/
def toSize (x : Int) : Nat := (x % 2 ^ 64).toNat

theorem toInt_of_lt {n : Nat} (h : n < 2 ^ 31) : toInt n = n :=
  Int.bmod_eq_of_le (by omega) (by omega)

theorem toSize_of_lt {n : Nat} (h : n < 2 ^ 64) : toSize n = n := by
  rw [toSize, Int.emod_eq_of_lt (Int.natCast_nonneg n) (by exact_mod_cast h), Int.toNat_natCast]

end OpenSync.Lib
