import Mathlib.Algebra.Order.Ring.Int
import Mathlib.Data.List.Basic

/-!
# Byte strings

* `seg`, the bytes that a read of `n` bytes at a position returns.  A read at the end of the data
  is short, as `read(2)` on an ordinary file is;
* `be32` and `ofBe32`, the big-endian ("network order") image of a 32-bit word, and `le32` and
  `ofLe32`, the little-endian one;
* `padLen`, the distance to the next multiple of four.
-/

namespace OpenSync.Lib

open List

/-! ## Segments -/

/-- The result of a read of `n` bytes at position `pos`. -/
def seg (l : List UInt8) (pos n : Nat) : List UInt8 := (l.drop pos).take n

theorem length_seg (l : List UInt8) (pos n : Nat) :
    (seg l pos n).length = min n (l.length - pos) := by
  simp [seg]

/-- A read that ends inside the data is complete. -/
theorem length_seg_of_le {l : List UInt8} {pos n : Nat} (h : pos + n ≤ l.length) :
    (seg l pos n).length = n := by
  rw [length_seg]
  omega

/-- A position past a prefix reads the rest only. -/
theorem seg_append_right (pre post : List UInt8) (pos n : Nat) :
    seg (pre ++ post) (pre.length + pos) n = seg post pos n := by
  rw [seg, seg, drop_append, drop_eq_nil_of_le (by omega)]
  simp

/-- A read that ends inside a prefix does not see what follows it. -/
theorem seg_append_left (pre post : List UInt8) {pos n : Nat}
    (h : pos + n ≤ pre.length) : seg (pre ++ post) pos n = seg pre pos n := by
  rw [seg, seg, drop_append_of_le_length (by omega), take_append_of_le_length]
  simp only [length_drop]
  omega

theorem seg_append_middle (pre mid post : List UInt8) :
    seg (pre ++ (mid ++ post)) pre.length mid.length = mid := by
  have h := seg_append_right pre (mid ++ post) 0 mid.length
  rw [Nat.add_zero] at h
  rw [h, seg]
  simp

/-! ## Big-endian words -/

/-- `htonl`: the four bytes of the low 32 bits of `n`, most significant
first. -/
def be32 (n : Nat) : List UInt8 :=
  [UInt8.ofNat (n / 2 ^ 24), UInt8.ofNat (n / 2 ^ 16), UInt8.ofNat (n / 2 ^ 8), UInt8.ofNat n]

/-- `ntohl` on four bytes. -/
def ofBe32 : List UInt8 → Nat
  | [a, b, c, d] => a.toNat * 2 ^ 24 + b.toNat * 2 ^ 16 + c.toNat * 2 ^ 8 + d.toNat
  | _ => 0

@[simp] theorem length_be32 (n : Nat) : (be32 n).length = 4 := rfl

theorem ofBe32_be32_of_lt {n : Nat} (h : n < 2 ^ 32) : ofBe32 (be32 n) = n := by
  simp only [be32, ofBe32, UInt8.toNat_ofNat']
  omega

/-! ## Little-endian words -/

/-- The four bytes of the low 32 bits of `n`, least significant first. -/
def le32 (n : Nat) : List UInt8 :=
  [UInt8.ofNat n, UInt8.ofNat (n / 2 ^ 8), UInt8.ofNat (n / 2 ^ 16), UInt8.ofNat (n / 2 ^ 24)]

/-- The word in four bytes, least significant first. -/
def ofLe32 : List UInt8 → Nat
  | [a, b, c, d] => a.toNat + b.toNat * 2 ^ 8 + c.toNat * 2 ^ 16 + d.toNat * 2 ^ 24
  | _ => 0

@[simp] theorem length_le32 (n : Nat) : (le32 n).length = 4 := rfl

theorem ofLe32_le32_of_lt {n : Nat} (h : n < 2 ^ 32) : ofLe32 (le32 n) = n := by
  simp only [le32, ofLe32, UInt8.toNat_ofNat']
  omega

/-! ## Alignment to four bytes -/

/-- The number of bytes from `x` to the next multiple of four. -/
def padLen (x : Nat) : Nat := (4 - x % 4) % 4

theorem padLen_lt (x : Nat) : padLen x < 4 := Nat.mod_lt _ (by decide)

theorem padLen_of_aligned {x : Nat} (h : x % 4 = 0) : padLen x = 0 := by
  rw [padLen, h]

theorem add_padLen_mod (x : Nat) : (x + padLen x) % 4 = 0 := by
  unfold padLen
  omega

theorem padLen_add_aligned {a : Nat} (h : a % 4 = 0) (x : Nat) :
    padLen (a + x) = padLen x := by
  unfold padLen
  omega

/-! ## Comparison -/

/-- `memcmp` on as many bytes as the shorter list has. -/
def memcmp : List UInt8 → List UInt8 → Int
  | a :: as, b :: bs => if a = b then memcmp as bs else (a.toNat : Int) - b.toNat
  | _, _ => 0

theorem memcmp_eq_zero_iff {a b : List UInt8} (h : a.length = b.length) :
    memcmp a b = 0 ↔ a = b := by
  induction a generalizing b with
  | nil =>
    cases b with
    | nil => simp [memcmp]
    | cons y ys => simp at h
  | cons x xs ih =>
    cases b with
    | nil => simp at h
    | cons y ys =>
      rw [memcmp]
      split_ifs with hxy
      · rw [ih (by simpa using h), hxy, cons.injEq, eq_self_iff_true, true_and]
      · have hne : x.toNat ≠ y.toNat := fun e => hxy (UInt8.toNat_inj.mp e)
        simp only [cons.injEq, hxy, false_and, iff_false]
        omega

end OpenSync.Lib
