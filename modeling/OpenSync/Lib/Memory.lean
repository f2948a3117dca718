import Mathlib.Algebra.BigOperators.Group.List.Basic
import Mathlib.Algebra.Order.Ring.Int
import Mathlib.Data.List.Nodup

/-!
# Byte memory

A memory is a function from addresses to bytes.  `load64` and `store64` access eight bytes, the
lowest first; `copy` is `memcpy` between areas that do not overlap.  The lemmas say what is read
back at the place of a store, and that a store changes nothing outside its area.  The last one
bounds the total length of areas that do not overlap.
-/

namespace OpenSync.Lib

open List Function

/-- The bytes of a program. -/
abbrev Mem := Nat → UInt8

namespace Mem

/-- The number in the `n` bytes at `a`, the lowest byte first. -/
def loadLe (m : Mem) : Nat → Nat → Nat
  | _, 0 => 0
  | a, n + 1 => (m a).toNat + 256 * loadLe m (a + 1) n

/-- The lowest `n` bytes of `v` put at `a`. -/
def storeLe (m : Mem) : Nat → Nat → Nat → Mem
  | _, 0, _ => m
  | a, n + 1, v => update (storeLe m (a + 1) n (v / 256)) a (UInt8.ofNat v)

def load64 (m : Mem) (a : Nat) : UInt64 := UInt64.ofNat (loadLe m a 8)

def store64 (m : Mem) (a : Nat) (v : UInt64) : Mem := storeLe m a 8 v.toNat

/-- `memcpy(dst, src, n)`. -/
def copy (m : Mem) (dst src n : Nat) : Mem :=
  fun x => if dst ≤ x ∧ x < dst + n then m (src + (x - dst)) else m x

variable {a : Nat} (m : Mem)

variable {n x : Nat}

theorem loadLe_congr {m m' : Mem} (h : ∀ x, a ≤ x → x < a + n → m' x = m x) :
    loadLe m' a n = loadLe m a n := by
  induction n generalizing a with
  | zero => rfl
  | succ n ih =>
    rw [loadLe, loadLe, h a (by omega) (by omega), ih (fun x hx hx' => h x (by omega) (by omega))]

theorem storeLe_of_outside (v : Nat) (h : x < a ∨ a + n ≤ x) : storeLe m a n v x = m x := by
  induction n generalizing a v with
  | zero => rfl
  | succ n ih =>
    rw [storeLe, update_of_ne (by omega)]
    exact ih (v / 256) (by omega)

theorem loadLe_storeLe (a n v : Nat) : loadLe (storeLe m a n v) a n = v % 256 ^ n := by
  induction n generalizing a v with
  | zero => simp [loadLe, Nat.mod_one]
  | succ n ih =>
    have hrest : loadLe (storeLe m a (n + 1) v) (a + 1) n =
        loadLe (storeLe m (a + 1) n (v / 256)) (a + 1) n := by
      refine loadLe_congr (fun x hx _ => ?_)
      rw [storeLe, update_of_ne (by omega)]
    have hpow : 256 ^ (n + 1) = 256 * 256 ^ n := Nat.pow_succ'
    rw [loadLe, hrest, ih, storeLe, update_self, UInt8.toNat_ofNat', hpow, Nat.mod_mul]

theorem load64_congr {m m' : Mem} (h : ∀ x, a ≤ x → x < a + 8 → m' x = m x) :
    load64 m' a = load64 m a := by
  rw [load64, load64, loadLe_congr h]

@[simp] theorem load64_store64 (a : Nat) (v : UInt64) : load64 (store64 m a v) a = v := by
  rw [load64, store64, loadLe_storeLe, Nat.mod_eq_of_lt (by simpa using v.toNat_lt)]
  exact UInt64.ofNat_toNat

theorem store64_of_outside (v : UInt64) (h : x < a ∨ a + 8 ≤ x) :
    store64 m a v x = m x := storeLe_of_outside m v.toNat h

/-- A load does not see a store next to it. -/
theorem load64_store64_of_disjoint {b : Nat} (v : UInt64) (h : a + 8 ≤ b ∨ b + 8 ≤ a) :
    load64 (store64 m b v) a = load64 m a :=
  load64_congr (fun x _ _ => store64_of_outside m v (by omega))

theorem copy_of_outside {dst src : Nat} (h : x < dst ∨ dst + n ≤ x) :
    copy m dst src n x = m x := if_neg (by omega)

end Mem

/-- Areas below `N` that do not overlap have together at most `N` bytes. -/
theorem sum_le_of_disjoint {α : Type*} {lo len : α → Nat} {N : Nat} {l : List α}
    (hdis : l.Pairwise (fun a b => lo a + len a ≤ lo b ∨ lo b + len b ≤ lo a))
    (hend : ∀ a ∈ l, lo a + len a ≤ N) : (l.map len).sum ≤ N := by
  -- the list of all the addresses has no duplicate and is a part of `range N`
  have hnodup : (l.flatMap (fun a => range' (lo a) (len a))).Nodup := by
    refine nodup_flatMap.mpr ⟨fun a _ => nodup_range', hdis.imp (fun {a b} hab => ?_)⟩
    intro x hxa hxb
    rw [mem_range'_1] at hxa hxb
    omega
  have hsub : l.flatMap (fun a => range' (lo a) (len a)) ⊆ range N := by
    intro x hx
    obtain ⟨a, ha, hxa⟩ := mem_flatMap.mp hx
    rw [mem_range'_1] at hxa
    have hlt := hend a ha
    exact mem_range.mpr (by omega)
  have hle := (subperm_of_subset hnodup hsub).length_le
  simpa using hle

end OpenSync.Lib
