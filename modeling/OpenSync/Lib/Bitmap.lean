import Mathlib.Algebra.BigOperators.Group.List.Basic
import Mathlib.Algebra.Order.Ring.Int

/-!
# Bitmaps

A bitmap is an array of `w`-bit words that stands for a set of numbers: the number `i` is
the bit `i % w` of the word `i / w`.  The operations are those of a C program, a word with
a mask at a time, and each has one lemma that says which numbers are in the result.
-/

namespace OpenSync.Lib

open Function BitVec List

abbrev Bitmap (w : Nat) := Nat → BitVec w

namespace Bitmap

variable {w : Nat}

def empty : Bitmap w := fun _ => 0#w

/-- `1 << (i % w)`. -/
def mask (w i : Nat) : BitVec w := BitVec.twoPow w (i % w)

section

variable (b : Bitmap w) (i : Nat)

/-- `(b[i / w] & mask) != 0`. -/
def test : Bool := b (i / w) &&& mask w i != 0#w

/-- `b[i / w] |= mask`. -/
def set : Bitmap w :=
  update b (i / w) (b (i / w) ||| mask w i)

/-- `b[i / w] &= ~mask`. -/
def clear : Bitmap w :=
  update b (i / w) (b (i / w) &&& ~~~(mask w i))

end

/-- `b[k] &= ~c[k]` for the first `n` words. -/
def diff (n : Nat) (b c : Bitmap w) : Bitmap w := fun k => if k < n then b k &&& ~~~(c k) else b k

/-- The number of bits of a word that are set. -/
def popcount (x : BitVec w) : Nat := (range w).countP (fun i => x.getLsbD i)

/-- The number of bits that are set in the first `n` words. -/
def count (n : Nat) (b : Bitmap w) : Nat := ((range n).map (fun k => popcount (b k))).sum

variable [NeZero w]

theorem test_eq (b : Bitmap w) (i : Nat) : b.test i = (b (i / w)).getLsbD (i % w) := by
  have hlt : i % w < w := Nat.mod_lt _ (Nat.pos_of_neZero w)
  have hne : twoPow w (i % w) ≠ 0#w := by
    intro hz
    have hbit := congrArg (fun x => x.getLsbD (i % w)) hz
    simp [hlt] at hbit
  rw [test, mask, and_twoPow]
  split_ifs with h
  · rw [h]
    simpa using hne
  · simpa using h

theorem getLsbD_mask {i j : Nat} (h : j / w = i / w) :
    (mask w i).getLsbD (j % w) = decide (j = i) := by
  have hlt : i % w < w := Nat.mod_lt _ (Nat.pos_of_neZero w)
  have hiff : i % w = j % w ↔ j = i := by
    constructor
    · intro hmod
      rw [← Nat.div_add_mod j w, ← Nat.div_add_mod i w, h, hmod]
    · rintro rfl
      rfl
  rw [mask]
  simp [hlt, hiff]

@[simp] theorem test_empty (i : Nat) : (empty : Bitmap w).test i = false := by
  simp [test_eq, empty]

theorem test_set (b : Bitmap w) (i j : Nat) : (b.set i).test j = (b.test j || decide (j = i)) := by
  rw [test_eq, test_eq, set]
  by_cases h : j / w = i / w
  · rw [h, update_self, getLsbD_or, getLsbD_mask h]
  · have hne : j ≠ i := fun heq => h (by rw [heq])
    simp [h, hne]

theorem test_clear (b : Bitmap w) (i j : Nat) :
    (b.clear i).test j = (b.test j && !decide (j = i)) := by
  have hlt : j % w < w := Nat.mod_lt _ (Nat.pos_of_neZero w)
  rw [test_eq, test_eq, clear]
  by_cases h : j / w = i / w
  · rw [h, update_self, getLsbD_and, getLsbD_not, getLsbD_mask h]
    simp [hlt]
  · have hne : j ≠ i := fun heq => h (by rw [heq])
    simp [h, hne]

theorem test_diff {n i : Nat} (b c : Bitmap w) (h : i / w < n) :
    (diff n b c).test i = (b.test i && !c.test i) := by
  have hlt : i % w < w := Nat.mod_lt _ (Nat.pos_of_neZero w)
  rw [test_eq, test_eq, test_eq, diff, if_pos h, getLsbD_and]
  simp [hlt]

theorem count_eq_zero {b : Bitmap w} (n : Nat) (h : ∀ i, b.test i = false) : count n b = 0 := by
  rw [count, sum_eq_zero]
  intro x hx
  obtain ⟨k, -, rfl⟩ := mem_map.mp hx
  rw [popcount, countP_eq_zero]
  intro i hi
  have hlt : i < w := mem_range.mp hi
  have hbit := h (w * k + i)
  rw [test_eq, Nat.mul_add_div (Nat.pos_of_neZero w), Nat.div_eq_of_lt hlt, Nat.add_zero,
    Nat.mul_add_mod, Nat.mod_eq_of_lt hlt] at hbit
  simp [hbit]

end Bitmap

end OpenSync.Lib
