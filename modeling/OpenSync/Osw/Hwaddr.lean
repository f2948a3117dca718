import OpenSync.Lib.Bytes

/-!
# Hardware addresses

`struct osw_hwaddr` of `osw_types.h` with its comparisons.
-/

namespace OpenSync.Osw

open OpenSync.Lib

/-- `struct osw_hwaddr`. -/
structure Hwaddr where
  octet : List UInt8
  length_octet : octet.length = 6
deriving DecidableEq

namespace Hwaddr

/-- `osw_hwaddr_cmp`. -/
def cmp (a b : Hwaddr) : Int := memcmp a.octet b.octet

/-- `osw_hwaddr_is_equal`. -/
def isEqual (a b : Hwaddr) : Bool := cmp a b = 0

/-- `osw_hwaddr_zero`. -/
def zero : Hwaddr := ⟨List.replicate 6 0, rfl⟩

/-- `osw_hwaddr_is_zero`. -/
def isZero (a : Hwaddr) : Bool := isEqual a zero

/-- The address with only the last octet set. -/
def ofLast (b : UInt8) : Hwaddr := ⟨[0, 0, 0, 0, 0, b], rfl⟩

theorem cmp_eq_zero_iff (a b : Hwaddr) : cmp a b = 0 ↔ a = b := by
  rw [cmp, memcmp_eq_zero_iff (a.length_octet.trans b.length_octet.symm), Hwaddr.mk.injEq]

@[simp] theorem isEqual_iff (a b : Hwaddr) : isEqual a b = true ↔ a = b := by
  rw [isEqual, decide_eq_true_eq, cmp_eq_zero_iff]

@[simp] theorem isZero_iff (a : Hwaddr) : isZero a = true ↔ a = zero := isEqual_iff a zero

@[simp] theorem isZero_eq_false_iff (a : Hwaddr) : isZero a = false ↔ a ≠ zero := by
  rw [← Bool.not_eq_true, isZero_iff]

theorem exists_other (a : Hwaddr) : ∃ b : Hwaddr, b ≠ a := by
  by_cases h : a = zero
  · exact ⟨ofLast 1, h ▸ by decide⟩
  · exact ⟨zero, fun he => h he.symm⟩

end Hwaddr

end OpenSync.Osw
