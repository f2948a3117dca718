import Mathlib.Algebra.Order.Ring.Int
import Mathlib.Data.Nat.Size

/-!
# Rounding up to a power of two

The usual trick copies the highest set bit of a number to all lower places, by shifts of
1, 2, 4 and so on, and adds one.  Each shift doubles the number of places that a bit has
been copied to.
-/

namespace OpenSync.Lib

/-- Every bit of `n` is copied `s` places down. -/
def smear (s n : Nat) : Nat := n ||| n >>> s

/-- The bits of `m` are copied up to `k - 1` places down in `n`. -/
def Smeared (k m n : Nat) : Prop :=
  ∀ i, n.testBit i = true ↔ ∃ j < k, m.testBit (i + j) = true

theorem Smeared.one (m : Nat) : Smeared 1 m m := by
  intro i
  simp

theorem Smeared.smear {k m n : Nat} (h : Smeared k m n) : Smeared (k + k) m (smear k n) := by
  intro i
  simp only [Lib.smear, Nat.testBit_or, Nat.testBit_shiftRight, Bool.or_eq_true, h i, h (k + i)]
  constructor
  · rintro (⟨j, hj, hb⟩ | ⟨j, hj, hb⟩)
    · exact ⟨j, by omega, hb⟩
    · exact ⟨k + j, by omega, by rwa [← Nat.add_assoc, Nat.add_comm i k]⟩
  · rintro ⟨j, hj, hb⟩
    by_cases hjk : j < k
    · exact .inl ⟨j, hjk, hb⟩
    · refine .inr ⟨j - k, by omega, ?_⟩
      rwa [show k + i + (j - k) = i + j by omega]

/-- When the bits reach every lower place, the number is one less than a power of two. -/
theorem Smeared.eq {k m n : Nat} (h : Smeared k m n) (hm : m < 2 ^ k) : n = 2 ^ m.size - 1 := by
  refine Nat.eq_of_testBit_eq fun i => ?_
  rw [Bool.eq_iff_iff, h i, Nat.testBit_two_pow_sub_one, decide_eq_true_iff, Nat.lt_size]
  constructor
  · rintro ⟨j, -, hb⟩
    exact Nat.le_trans (Nat.pow_le_pow_right (by omega) (Nat.le_add_right i j))
      (Nat.ge_two_pow_of_testBit hb)
  intro hi
  obtain ⟨j, hij, hb⟩ := Nat.exists_ge_and_testBit_of_ge_two_pow hi
  have hjk : j < k := Nat.lt_of_not_le fun hk => by
    have hlt := hm.trans_le (Nat.pow_le_pow_right (by omega) hk)
    rw [Nat.testBit_lt_two_pow hlt] at hb
    cases hb
  exact ⟨j - i, by omega, by rwa [Nat.add_sub_cancel' hij]⟩

end OpenSync.Lib
