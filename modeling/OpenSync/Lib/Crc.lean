import Mathlib.Data.Nat.Bitwise

/-!
# Reflected cyclic redundancy checks

A reflected CRC keeps a register of `w` bits.  One step shifts the register right by one bit and
adds the polynomial when the bit that leaves is set.  A byte is added to the low end of the
register and shifted out by eight steps.

The register is linear in exclusive or (`steps_xor`), and a register whose low bits are clear
only moves down (`steps_of_low_clear`), so a little-endian word is one exclusive or followed by
all the shifts (`foldl_update_leBytes`).  A message that is followed by the complement of its
own register ends in a register that does not depend on it (`foldl_update_complement`).  No
step loses a bit, so any other word ends in another register (`foldl_update_inj`).
-/

namespace OpenSync.Lib.Crc

variable {w : Nat}

/-- One shift of the register. -/
def step (poly x : BitVec w) : BitVec w :=
  if x.getLsbD 0 then (x >>> 1) ^^^ poly else x >>> 1

/-- `n` shifts of the register. -/
def steps (poly : BitVec w) : Nat → BitVec w → BitVec w
  | 0, x => x
  | n + 1, x => steps poly n (step poly x)

/-- One byte of the message. -/
def update (poly x : BitVec w) (b : UInt8) : BitVec w :=
  steps poly 8 (x ^^^ b.toBitVec.setWidth w)

/-! ## Linearity -/

theorem xor_cancel_right (a b p : BitVec w) : a ^^^ p ^^^ (b ^^^ p) = a ^^^ b := by
  rw [BitVec.xor_assoc a p, BitVec.xor_comm b p, ← BitVec.xor_assoc p p,
    BitVec.xor_self, BitVec.zero_xor]

variable (poly x : BitVec w)

theorem step_xor (x y : BitVec w) : step poly (x ^^^ y) = step poly x ^^^ step poly y := by
  unfold step
  rw [BitVec.getLsbD_xor, BitVec.ushiftRight_xor_distrib]
  cases x.getLsbD 0 <;> cases y.getLsbD 0
  · simp
  · simp [BitVec.xor_assoc]
  · simp only [Bool.true_xor, Bool.not_false, if_true, Bool.false_eq_true, if_false]
    rw [BitVec.xor_assoc, BitVec.xor_comm (y >>> 1), ← BitVec.xor_assoc]
  · exact (xor_cancel_right _ _ _).symm

theorem steps_xor (n : Nat) (x y : BitVec w) :
    steps poly n (x ^^^ y) = steps poly n x ^^^ steps poly n y := by
  induction n generalizing x y with
  | zero => rfl
  | succ n ih => rw [steps, steps, steps, step_xor, ih]

theorem steps_add (m n : Nat) (x : BitVec w) :
    steps poly (m + n) x = steps poly n (steps poly m x) := by
  induction m generalizing x with
  | zero => rw [Nat.zero_add, steps]
  | succ m ih => rw [Nat.succ_add, steps, steps, ih]

/-- A register whose low `n` bits are clear only moves down. -/
theorem steps_of_low_clear (n : Nat) (x : BitVec w) (h : ∀ i, i < n → x.getLsbD i = false) :
    steps poly n x = x >>> n := by
  induction n generalizing x with
  | zero => rw [steps, BitVec.ushiftRight_zero]
  | succ n ih =>
    have hstep : step poly x = x >>> 1 := by
      rw [step, h 0 (by omega)]
      simp
    rw [steps, hstep, ih (x >>> 1), ← BitVec.shiftRight_add, Nat.add_comm]
    intro i hi
    rw [BitVec.getLsbD_ushiftRight]
    exact h (1 + i) (by omega)

/-- With the top bit of the polynomial set, no step loses a bit. -/
theorem step_injective (hp : poly.getLsbD (w - 1)) : (step poly).Injective := by
  intro x y h
  have hz : step poly (x ^^^ y) = 0#w := by rw [step_xor, h, BitVec.xor_self]
  rw [← BitVec.xor_eq_zero_iff]
  set z := x ^^^ y
  unfold step at hz
  split at hz
  · -- the top bit of the polynomial would have to come from the shift
    have top := congrArg (BitVec.getLsbD · (w - 1)) (BitVec.xor_eq_zero_iff.mp hz)
    simp [hp, BitVec.getLsbD_of_ge z (1 + (w - 1)) (by omega)] at top
  · apply BitVec.eq_of_getLsbD_eq
    intro i hi
    cases i with
    | zero => simp_all
    | succ i => simpa [Nat.add_comm] using congrArg (BitVec.getLsbD · i) hz

theorem steps_injective (hp : poly.getLsbD (w - 1)) (n : Nat) : (steps poly n).Injective := by
  induction n with
  | zero => exact fun _ _ h => h
  | succ n ih => exact ih.comp (step_injective poly hp)

/-! ## A little-endian word at the end of the message -/

/-- The low `n` bytes of a register, least significant first. -/
def leBytes : Nat → BitVec w → List UInt8
  | 0, _ => []
  | n + 1, x => UInt8.ofBitVec (x.setWidth 8) :: leBytes n (x >>> 8)

@[simp] theorem length_leBytes (n : Nat) (x : BitVec w) : (leBytes n x).length = n := by
  induction n generalizing x with
  | zero => rfl
  | succ n ih => rw [leBytes, List.length_cons, ih]

theorem eq_low_xor_high : x = (x.setWidth 8).setWidth w ^^^ (x >>> 8) <<< 8 := by
  apply BitVec.eq_of_getLsbD_eq
  intro i hi
  by_cases h8 : i < 8
  · simp [h8, hi]
  · simp [h8, hi, show 8 + (i - 8) = i by omega]

theorem shiftLeft_shiftRight_high : (x >>> 8) <<< 8 >>> 8 = x >>> 8 := by
  apply BitVec.eq_of_getLsbD_eq
  intro i _
  by_cases h : 8 + i < w
  · simp [h]
  · simp [BitVec.getLsbD_of_ge x (8 + i) (by omega)]

/-- Eight shifts of `r ^^^ x` are one byte of message, the low byte of `x`,
and the rest of `x` moved down. -/
theorem steps_eight_xor (r x : BitVec w) :
    steps poly 8 (r ^^^ x) = update poly r (UInt8.ofBitVec (x.setWidth 8)) ^^^ (x >>> 8) := by
  have hx := eq_low_xor_high x
  have hhigh : steps poly 8 ((x >>> 8) <<< 8) = x >>> 8 := by
    rw [steps_of_low_clear poly 8 _ (fun i hi => by simp [hi]), shiftLeft_shiftRight_high]
  calc steps poly 8 (r ^^^ x)
      = steps poly 8 (r ^^^ (x.setWidth 8).setWidth w ^^^ (x >>> 8) <<< 8) := by
        rw [BitVec.xor_assoc, ← hx]
    _ = update poly r (UInt8.ofBitVec (x.setWidth 8)) ^^^ (x >>> 8) := by
        rw [steps_xor, hhigh, update]

/-- The `n` low bytes of `x`, fed least significant first, are one exclusive
or and `8 * n` shifts. -/
theorem foldl_update_leBytes (n : Nat) (r x : BitVec w) (hx : x >>> (8 * n) = 0#w) :
    (leBytes n x).foldl (update poly) r = steps poly (8 * n) (r ^^^ x) := by
  induction n generalizing r x with
  | zero =>
    have hzero : x = 0#w := by simpa using hx
    simp [leBytes, steps, hzero]
  | succ n ih =>
    have hhigh : x >>> 8 >>> (8 * n) = 0#w := by
      rw [← BitVec.shiftRight_add, show 8 + 8 * n = 8 * (n + 1) by omega, hx]
    rw [leBytes, List.foldl_cons, ih _ _ hhigh, ← steps_eight_xor,
      show 8 * (n + 1) = 8 + 8 * n by omega, steps_add]

/-- A message followed by the complement of its own register ends in a fixed
register. -/
theorem foldl_update_complement (n : Nat) (hw : w ≤ 8 * n) (r : BitVec w) :
    (leBytes n (~~~r)).foldl (update poly) r = steps poly (8 * n) (BitVec.allOnes w) := by
  have hshift : ~~~r >>> (8 * n) = 0#w := BitVec.ushiftRight_eq_zero hw
  have hones : r ^^^ ~~~r = BitVec.allOnes w := by
    apply BitVec.eq_of_getLsbD_eq
    intro i hi
    simp [hi]
  rw [foldl_update_leBytes poly n r _ hshift, hones]

theorem exists_leBytes (l : List UInt8) (h : 8 * l.length ≤ w) :
    ∃ x : BitVec w, leBytes l.length x = l ∧ x >>> (8 * l.length) = 0#w := by
  induction l with
  | nil => exact ⟨0#w, rfl, by simp⟩
  | cons b l ih =>
    rw [List.length_cons] at h
    obtain ⟨x, hl, hx⟩ := ih (by omega)
    have low : (b.toBitVec.setWidth w ^^^ x <<< 8).setWidth 8 = b.toBitVec := by
      apply BitVec.eq_of_getLsbD_eq
      intro i hi
      simp [hi, show i < w by omega]
    have high : (b.toBitVec.setWidth w ^^^ x <<< 8) >>> 8 = x := by
      apply BitVec.eq_of_getLsbD_eq
      intro i hi
      by_cases hw : 8 + i < w
      · simp [hw, show ¬8 + i < 8 by omega, BitVec.getLsbD_eq_getElem hi]
      · have := congrArg (BitVec.getLsbD · (i - 8 * l.length)) hx
        have clear : x.getLsbD i = false := by simpa [show 8 * l.length ≤ i by omega] using this
        simp [hw, clear]
    refine ⟨b.toBitVec.setWidth w ^^^ x <<< 8, ?_, ?_⟩
    · rw [List.length_cons, leBytes, low, high, hl]
    · rw [List.length_cons, show 8 * (l.length + 1) = 8 + 8 * l.length by omega,
        BitVec.shiftRight_add, high, hx]

/-- Different words at the end of a message leave different registers. -/
theorem foldl_update_inj (hp : poly.getLsbD (w - 1)) (r : BitVec w) {l l' : List UInt8}
    (hl : 8 * l.length ≤ w) (len : l'.length = l.length)
    (h : l.foldl (update poly) r = l'.foldl (update poly) r) : l = l' := by
  obtain ⟨x, hx, zero⟩ := exists_leBytes l hl
  obtain ⟨y, hy, zero'⟩ := exists_leBytes l' (len ▸ hl)
  rw [len] at hy zero'
  rw [← hx, ← hy, foldl_update_leBytes _ _ _ _ zero, foldl_update_leBytes _ _ _ _ zero'] at h
  rw [← hx, ← hy, (BitVec.xor_right_inj r).mp (steps_injective poly hp _ h)]

end OpenSync.Lib.Crc
