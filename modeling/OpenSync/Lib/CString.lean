import Mathlib.Data.List.SplitOn
import Mathlib.Data.List.TakeWhile

/-!
# C strings

A C string is the list of its bytes up to the terminating NUL, so no byte of it is zero.  `strcmp`
compares byte by byte, as unsigned characters, and only its sign may be used.  `strtok_r` takes a
string apart at a delimiter; the parts are the non-empty ones between two delimiters.
-/

namespace OpenSync.Lib

open List

/-- The bytes of a C string before its NUL. -/
abbrev CStr := { s : List UInt8 // (0 : UInt8) ∉ s }

/-- `strcmp` on the bytes before the NUL.  The NUL itself compares as zero. -/
def strcmpBytes : List UInt8 → List UInt8 → Int
  | [], [] => 0
  | [], b :: _ => -b.toNat
  | a :: _, [] => a.toNat
  | a :: as, b :: bs => if a = b then strcmpBytes as bs else (a.toNat : Int) - b.toNat

def strcmp (a b : CStr) : Int := strcmpBytes a.1 b.1

theorem toNat_ne_zero {b : UInt8} (h : b ≠ 0) : (b.toNat : Int) ≠ 0 := by
  intro hz
  apply h
  apply UInt8.toNat_inj.mp
  simpa using hz

theorem strcmpBytes_eq_zero {a b : List UInt8} (ha : (0 : UInt8) ∉ a) (hb : (0 : UInt8) ∉ b)
    (h : strcmpBytes a b = 0) : a = b := by
  induction a generalizing b with
  | nil =>
    cases b with
    | nil => rfl
    | cons y ys =>
      have hy : y ≠ 0 := fun he => hb (by simp [he])
      rw [strcmpBytes] at h
      exact absurd (by omega) (toNat_ne_zero hy)
  | cons x xs ih =>
    cases b with
    | nil =>
      have hx : x ≠ 0 := fun he => ha (by simp [he])
      exact absurd h (toNat_ne_zero hx)
    | cons y ys =>
      rw [strcmpBytes] at h
      split_ifs at h with hxy
      · rw [hxy, ih (fun hm => ha (by simp [hm])) (fun hm => hb (by simp [hm])) h]
      · exact absurd (UInt8.toNat_inj.mp (by omega)) hxy

theorem strcmpBytes_self (a : List UInt8) : strcmpBytes a a = 0 := by
  induction a with
  | nil => rfl
  | cons x xs ih => rw [strcmpBytes, if_pos rfl, ih]

/-- `strcmp` answers zero exactly on equal strings. -/
theorem strcmp_eq_zero_iff (a b : CStr) : strcmp a b = 0 ↔ a = b := by
  constructor
  · intro h
    exact Subtype.ext (strcmpBytes_eq_zero a.2 b.2 h)
  · rintro rfl
    exact strcmpBytes_self _

theorem strcmpBytes_flip (a b : List UInt8) : strcmpBytes a b = -strcmpBytes b a := by
  induction a generalizing b with
  | nil => cases b <;> simp [strcmpBytes]
  | cons x xs ih =>
    cases b with
    | nil => simp [strcmpBytes]
    | cons y ys =>
      simp only [strcmpBytes, eq_comm (a := y)]
      split_ifs
      · exact ih ys
      · omega

theorem strcmpBytes_trans {a b c : List UInt8} (hb : (0 : UInt8) ∉ b) (hc : (0 : UInt8) ∉ c)
    (hab : strcmpBytes a b < 0) (hbc : strcmpBytes b c < 0) : strcmpBytes a c < 0 := by
  induction b generalizing a c with
  | nil => cases a <;> simp only [strcmpBytes] at hab <;> omega
  | cons y ys ih =>
    cases c with
    | nil => simp only [strcmpBytes] at hbc; omega
    | cons z zs =>
      have hz := toNat_ne_zero fun he : z = 0 => hc (by simp [he])
      cases a with
      | nil => simp only [strcmpBytes]; omega
      | cons x xs =>
        have hys : (0 : UInt8) ∉ ys := fun hm => hb (mem_cons_of_mem _ hm)
        have hzs : (0 : UInt8) ∉ zs := fun hm => hc (mem_cons_of_mem _ hm)
        simp only [strcmpBytes] at hab hbc ⊢
        split_ifs at hab hbc ⊢ with hxy hyz hxz <;> subst_vars
        all_goals first | exact ih hys hzs hab hbc | contradiction | omega

/-- `strcmp` is the order of strings: of two different ones, one is below the other. -/
theorem strcmp_neg_of_not {a b : CStr} (hne : a ≠ b) (h : ¬ strcmp a b < 0) : strcmp b a < 0 := by
  have hflip := strcmpBytes_flip a.1 b.1
  have hzero := mt (strcmp_eq_zero_iff a b).mp hne
  simp only [strcmp] at *
  omega

/-- `strnlen`: the number of bytes before the first NUL of a buffer. -/
def strnlen (buf : List UInt8) : Nat := (buf.takeWhile (· ≠ 0)).length

/-- The C string that starts a buffer. -/
def cstrOf (buf : List UInt8) : CStr :=
  ⟨buf.takeWhile (· ≠ 0), fun h => by simpa using List.mem_takeWhile_imp h⟩

section

variable (s : CStr) (rest : List UInt8)

/-- In a buffer with a string, its NUL and more, the string comes first. -/
theorem takeWhile_cstr : (s.1 ++ 0 :: rest).takeWhile (· ≠ 0) = s.1 := by
  rw [takeWhile_append_of_pos]
  · simp
  · intro x hx
    have hne : x ≠ 0 := fun he => s.2 (he ▸ hx)
    simpa using hne

theorem cstrOf_append : cstrOf (s.1 ++ 0 :: rest) = s :=
  Subtype.ext (takeWhile_cstr s rest)

end

/-! ## Comparison of a part -/

/-- `strncmp` on the bytes before the NUL. -/
def strncmpBytes (a b : List UInt8) (n : Nat) : Int := strcmpBytes (a.take n) (b.take n)

theorem strncmpBytes_eq_zero_iff {a b : List UInt8} (ha : (0 : UInt8) ∉ a) (hb : (0 : UInt8) ∉ b)
    (n : Nat) : strncmpBytes a b n = 0 ↔ a.take n = b.take n := by
  constructor
  · intro h
    exact strcmpBytes_eq_zero (fun hm => ha (mem_of_mem_take hm))
      (fun hm => hb (mem_of_mem_take hm)) h
  · intro h
    rw [strncmpBytes, h]
    exact strcmpBytes_self _

/-! ## Copies and literals -/

/-- `strscpy` into a buffer of `size` bytes. -/
def strscpy (s : CStr) (size : Nat) : CStr :=
  ⟨s.1.take (size - 1), fun h => s.2 (List.mem_of_mem_take h)⟩

theorem strscpy_of_lt {s : CStr} {size : Nat} (h : s.1.length < size) : strscpy s size = s :=
  Subtype.ext (take_of_length_le (Nat.le_sub_one_of_lt h))

/-- The bytes of a string literal. -/
def lit (s : String) : List UInt8 := s.toList.map fun c => UInt8.ofNat c.toNat

/-! ## Parts between delimiters -/

/-- `strtok_r`: the next part and what is left behind its delimiter. -/
def strtok (delim : UInt8) (s : List UInt8) : Option (List UInt8 × List UInt8) :=
  let s := s.dropWhile (· == delim)
  if s = [] then none
  else some (s.takeWhile (· != delim), (s.dropWhile (· != delim)).drop 1)

/-- The non-empty parts between two delimiters. -/
def tokens (delim : UInt8) (s : List UInt8) : List (List UInt8) :=
  (s.splitOn delim).filter (· ≠ [])

section

variable (delim : UInt8) (s : List UInt8)

theorem tokens_cons_delim : tokens delim (delim :: s) = tokens delim s := by
  have hsplit : ([] ++ delim :: s).splitOnP (· == delim) = [] :: s.splitOnP (· == delim) :=
    splitOnP_append_cons_of_forall_mem (p := (· == delim)) (by simp) delim (by simp) s
  rw [nil_append] at hsplit
  rw [tokens, splitOn, hsplit]
  rfl

theorem tokens_dropWhile : tokens delim (s.dropWhile (· == delim)) = tokens delim s := by
  induction s with
  | nil => rfl
  | cons x s ih =>
    rw [dropWhile_cons]
    split_ifs with h
    · rw [ih, eq_of_beq h, tokens_cons_delim]
    · rfl

/-- The parts of a string are what repeated calls of `strtok_r` give. -/
theorem tokens_eq : tokens delim s = match strtok delim s with
      | none => []
      | some (t, rest) => t :: tokens delim rest := by
  rw [← tokens_dropWhile, strtok]
  cases hr : s.dropWhile (· == delim) with
  | nil => rfl
  | cons x xs =>
    -- `x` is a byte of the next part
    have hx : (x == delim) = false := by
      have hhead := head_dropWhile_not (· == delim) (l := s) (by simp [hr])
      simpa [hr] using hhead
    have hne : (x :: xs).takeWhile (· != delim) ≠ [] := by
      rw [takeWhile_cons, if_pos (by simpa using hx)]
      exact cons_ne_nil _ _
    have hfree : ∀ y ∈ (x :: xs).takeWhile (· != delim), (y == delim) = false := by
      intro y hy
      simpa using mem_takeWhile_imp hy
    have hsplit := takeWhile_append_dropWhile (p := (· != delim)) (l := x :: xs)
    cases hrest : (x :: xs).dropWhile (· != delim) with
    | nil =>
      rw [hrest, append_nil] at hsplit
      have hone := splitOnP_eq_singleton hfree
      rw [hsplit] at hone
      simp only [hsplit]
      rw [tokens, splitOn, hone]
      simp [tokens]
    | cons y rest =>
      have hy : y = delim := by
        have hhead := head_dropWhile_not (· != delim) (l := x :: xs) (by simp [hrest])
        simpa [hrest] using hhead
      have hfirst := splitOnP_append_cons_of_forall_mem hfree y (by simpa using hy) rest
      rw [← hrest, hsplit] at hfirst
      rw [tokens, splitOn, hfirst, filter_cons_of_pos (by simpa using hne)]
      rfl

end

end OpenSync.Lib
