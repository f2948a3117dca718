import Mathlib.Algebra.Order.Ring.Int
import Mathlib.Data.List.Basic

/-!
# The arguments of a script

`execsh_fn_v` collects the arguments in an array that doubles, and `execsh_async_start_a` puts
the words of the shell and the arguments into a second one with `mem_append`, which computes the
allocated size again from the length (`memAppend_spec`).  The first array has no place for the
terminating `NULL` when the arguments fill it.  A pointer has eight bytes, and a store outside of
allocated memory is `none`.
-/

namespace OpenSync.Execsh

open List

variable {α : Type} {a b : Nat}

/-- The loop of `mem_optimized_size`.  The size grows in each turn, so `req` turns are enough. -/
def growLoop (req : Nat) : Nat → Nat → Nat → Nat
  | 0, nsz, _ => nsz
  | fuel + 1, nsz, m => if nsz < req then growLoop req fuel (nsz + m) nsz else nsz

/-- `mem_optimized_size`. -/
def memOptimizedSize (req : Nat) : Nat := growLoop req req 16 16

/-- The loop reaches the size asked for, and stops there for all larger sizes up to it. -/
theorem growLoop_spec {fuel nsz m : Nat} (hn : 0 < nsz) (hm : 0 < m) (ha : a ≤ nsz + fuel) :
    a ≤ growLoop a fuel nsz m ∧ ∀ fuel', a ≤ b → b ≤ nsz + fuel' → b ≤ growLoop a fuel nsz m →
      growLoop b fuel' nsz m = growLoop a fuel nsz m := by
  induction fuel generalizing nsz m with
  | zero =>
    refine ⟨ha, fun fuel' _ _ (hb : b ≤ nsz) => ?_⟩
    cases fuel' <;> simp [growLoop, hb.not_gt]
  | succ fuel ih =>
    rw [growLoop]
    by_cases go : nsz < a
    · obtain ⟨le, eq⟩ := @ih (nsz + m) nsz (by omega) hn (by omega)
      rw [if_pos go]
      refine ⟨le, fun fuel' hab hb => ?_⟩
      cases fuel' with
      | zero => omega
      | succ fuel' =>
        rw [growLoop, if_pos (by omega)]
        exact eq fuel' hab (by omega)
    · rw [if_neg go]
      refine ⟨by omega, fun fuel' _ _ hb => ?_⟩
      cases fuel' <;> simp [growLoop, hb.not_gt]

theorem memOptimizedSize_spec (a b : Nat) : a ≤ memOptimizedSize a ∧
    (a ≤ b → b ≤ memOptimizedSize a → memOptimizedSize b = memOptimizedSize a) := by
  obtain ⟨le, eq⟩ := @growLoop_spec a b a 16 16 (by decide) (by decide) (by omega)
  exact ⟨le, fun hab => eq b hab (by omega)⟩

/-- An array of pointers in `size` allocated bytes. -/
structure Region (α : Type) where
  size : Nat
  elems : List α

/-- `mem_append` of a pointer, and the store of the pointer. -/
def memAppend (r : Region α) (x : α) : Option (Region α) :=
  let csz := 8 * r.elems.length
  let nsz := memOptimizedSize csz
  let size := if nsz < csz + 8 ∨ csz = 0 then memOptimizedSize (csz + 8) else r.size
  if csz + 8 ≤ size then some ⟨size, r.elems ++ [x]⟩ else none

theorem memAppend_spec {r : Region α} (x : α)
    (h : r.elems ≠ [] → r.size = memOptimizedSize (8 * r.elems.length)) :
    memAppend r x = some ⟨memOptimizedSize (8 * r.elems.length + 8), r.elems ++ [x]⟩ := by
  set csz := 8 * r.elems.length with hcsz
  have size : (if memOptimizedSize csz < csz + 8 ∨ csz = 0 then memOptimizedSize (csz + 8)
      else r.size) = memOptimizedSize (csz + 8) := by
    split
    · rfl
    · rename_i keep
      rw [not_or] at keep
      rw [h (by rintro nil; simp [hcsz, nil] at keep)]
      exact ((memOptimizedSize_spec csz _).2 (by omega) (by omega)).symm
  simp only [memAppend, ← hcsz, size, if_pos (memOptimizedSize_spec (csz + 8) 0).1]

theorem foldlM_memAppend (l : List α) {r : Region α}
    (h : r.elems ≠ [] → r.size = memOptimizedSize (8 * r.elems.length)) :
    ∃ size, l.foldlM memAppend r = some ⟨size, r.elems ++ l⟩ := by
  induction l generalizing r with
  | nil => exact ⟨r.size, by simp⟩
  | cons x l ih =>
    rw [foldlM_cons, memAppend_spec x h]
    obtain ⟨size, run⟩ := @ih ⟨memOptimizedSize (8 * r.elems.length + 8), r.elems ++ [x]⟩
      fun _ => by simp [Nat.mul_add]
    exact ⟨size, by simpa using run⟩

/-- The loop of `execsh_fn_v`, where the array `argv` has room for `argm` pointers. -/
def fnVLoop : List α → Nat → List α → Option (Nat × List α)
  | [], argm, argv => some (argm, argv)
  | parg :: rest, argm, argv =>
    let argm := if argm < argv.length + 1 then argm <<< 1 else argm
    if argv.length < argm then fnVLoop rest argm (argv ++ [parg]) else none

/-- The array that `execsh_fn_v` passes on. -/
def execshFnV (args : List α) : Option (List (Option α)) :=
  (fnVLoop args 16 []).bind fun r =>
    if r.2.length < r.1 then some (r.2.map some ++ [none]) else none

/-- What `execsh_async_start_a` passes to the child.  Both arrays are read up to their `NULL`. -/
def execshAsyncStartA (shell argv : List (Option α)) : Option (List (Option α)) :=
  let words := shell.takeWhile Option.isSome ++ argv.takeWhile Option.isSome ++ [none]
  (words.foldlM memAppend ⟨0, []⟩).map Region.elems

/-- The capacity is the least one for `n` pointers. -/
def Capacity (argm n : Nat) : Prop :=
  ∃ k, argm = 16 * 2 ^ k ∧ n ≤ argm ∧ ∀ j < k, 16 * 2 ^ j < n

theorem fnVLoop_spec (args : List α) {argm : Nat} {argv : List α}
    (h : Capacity argm argv.length) : ∃ argm', fnVLoop args argm argv = some (argm', argv ++ args) ∧
      Capacity argm' (argv ++ args).length := by
  induction args generalizing argm argv with
  | nil => exact ⟨argm, by simp [fnVLoop], by simpa using h⟩
  | cons parg rest ih =>
    obtain ⟨k, rfl, hle, least⟩ := h
    have next : Capacity (if 16 * 2 ^ k < argv.length + 1 then (16 * 2 ^ k) <<< 1 else 16 * 2 ^ k)
        (argv ++ [parg]).length := by
      rw [length_append, length_singleton]
      split
      · rw [Nat.shiftLeft_eq, pow_one]
        have pos := Nat.two_pow_pos k
        refine ⟨k + 1, by rw [pow_succ, mul_assoc], ?_, fun j hj => ?_⟩
        · omega
        · have := Nat.pow_le_pow_right (n := 2) (by decide) (Nat.le_of_lt_succ hj)
          omega
      · exact ⟨k, rfl, by omega, fun j hj => (least j hj).trans (Nat.lt_succ_self _)⟩
    obtain ⟨argm', run, cap⟩ := ih next
    obtain ⟨-, -, fits, -⟩ := id next
    rw [length_append, length_singleton] at fits
    rw [fnVLoop, if_pos (Nat.lt_of_succ_le fits), run]
    exact ⟨argm', by simp, by simpa using cap⟩

/-- The child gets the words of the shell, the arguments and a `NULL`, and every store is inside of
allocated memory. -/
def Passes (shell args : List α) : Prop :=
  (execshFnV args).bind (execshAsyncStartA (shell.map some ++ [none])) =
    some (shell.map some ++ args.map some ++ [none])

/-- The arguments are passed on unless they fill the array of `execsh_fn_v`. -/
theorem passes_iff (shell args : List α) :
    Passes shell args ↔ ∀ k, args.length ≠ 16 * 2 ^ k := by
  obtain ⟨argm, run, k, rfl, hle, least⟩ := @fnVLoop_spec α args 16 []
    ⟨0, rfl, by simp, fun j hj => absurd hj (Nat.not_lt_zero j)⟩
  rw [nil_append] at run hle least
  rw [Passes, execshFnV, run, Option.bind_some]
  constructor
  · intro passes j hj
    have full : ¬args.length < 16 * 2 ^ k := by
      intro lt
      rcases Nat.lt_or_ge j k with less | ge
      · exact (least j less).ne' hj
      · have := Nat.pow_le_pow_right (n := 2) (by decide) ge
        omega
    simp [full] at passes
  · intro ne
    have room : args.length < 16 * 2 ^ k := lt_of_le_of_ne hle (ne k)
    have words : ∀ l : List α, (l.map some ++ [none]).takeWhile Option.isSome = l.map some :=
      fun l => by rw [takeWhile_append_of_pos (by simp)]; simp
    obtain ⟨size, start⟩ := foldlM_memAppend (shell.map some ++ args.map some ++ [none])
      (r := ⟨0, []⟩) (absurd rfl)
    simp only [room, if_true, Option.bind_some, execshAsyncStartA, words, start]
    rfl

/-- With sixteen arguments the `NULL` is stored behind the array. -/
theorem not_passes_sixteen : ¬Passes [0] (replicate 16 1) := by
  unfold Passes
  decide

end OpenSync.Execsh
