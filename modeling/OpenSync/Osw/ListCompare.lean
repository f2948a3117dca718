import OpenSync.Lib.CString
import OpenSync.Osw.Hwaddr
import Mathlib.Algebra.Order.BigOperators.Group.List
import Mathlib.Algebra.Order.Group.Nat
import Mathlib.Data.List.Duplicate

/-!
# Comparisons of unordered lists

Whether the configuration of a vif has to be applied again is decided by comparisons that ignore
the order of a list.  `osw_hwaddr_list_is_equal` compares the lengths and looks every address of
the first list up in the second one.  `osw_wps_cred_list_is_same` compares the lengths and the
number of pairs of equal credentials.

A repeated element misleads both: the first takes `x, x` for `x, y`, and the second tells a list
with a repeated element from itself.
-/

namespace OpenSync.Osw

open OpenSync.Lib List

/-- `osw_hwaddr_list_contains`. -/
def hwaddrListContains (array : List Hwaddr) (addr : Hwaddr) : Bool :=
  array.any fun a => a.isEqual addr

/-- `osw_hwaddr_list_is_equal`. -/
def hwaddrListIsEqual (a b : List Hwaddr) : Bool :=
  if a.length ≠ b.length then false else a.all fun addr => hwaddrListContains b addr

/-- `osw_wps_cred_list_count_matches` on the strings of the credentials.  The count is a `size_t`,
which lists that fit in memory do not exceed. -/
def wpsCredListCountMatches (a b : List CStr) : Nat :=
  a.foldl (fun nMatches p =>
    b.foldl (fun nMatches q => if strcmp p q = 0 then nMatches + 1 else nMatches) nMatches) 0

/-- `osw_wps_cred_list_is_same`. -/
def wpsCredListIsSame (a b : List CStr) : Bool :=
  a.length = b.length ∧ a.length = wpsCredListCountMatches a b

variable {a b : List Hwaddr}

theorem hwaddrListIsEqual_iff : hwaddrListIsEqual a b = true ↔ a.length = b.length ∧ a ⊆ b := by
  have hmem : ∀ addr, hwaddrListContains b addr = true ↔ addr ∈ b := by
    intro addr
    rw [hwaddrListContains, any_eq_true]
    simp
  rw [hwaddrListIsEqual]
  by_cases hlen : a.length = b.length
  · rw [if_neg (not_not_intro hlen), all_eq_true]
    simp only [hmem, hlen, true_and]
    rfl
  · simp [hlen]

/-- A repeated address can be exchanged for another one without the comparison noticing. -/
theorem exists_equal_of_duplicate (h : ¬ a.Nodup) :
    ∃ b, hwaddrListIsEqual a b = true ∧ ¬ a.Perm b := by
  obtain ⟨x, hx⟩ := exists_duplicate_iff_not_nodup.mpr h
  have hcount := duplicate_iff_two_le_count.mp hx
  obtain ⟨y, hy⟩ := x.exists_other
  have hstill : x ∈ a.erase x := by
    rw [← count_pos_iff, count_erase_self]
    omega
  refine ⟨y :: a.erase x, hwaddrListIsEqual_iff.mpr ⟨?_, fun z hz => ?_⟩, fun hperm => ?_⟩
  · rw [length_cons, length_erase_of_mem hx.mem]
    have := length_pos_of_mem hx.mem
    omega
  · by_cases hzx : z = x
    · exact mem_cons_of_mem y (hzx ▸ hstill)
    · exact mem_cons_of_mem y ((mem_erase_of_ne hzx).mpr hz)
  · have := hperm.count_eq x
    rw [count_cons_of_ne hy, count_erase_self] at this
    omega

/-! ## Credentials -/

theorem wpsCredListCountMatches_eq (a b : List CStr) :
    wpsCredListCountMatches a b = (a.map fun p => b.count p).sum := by
  have inner : ∀ (p : CStr) (b : List CStr) (n : Nat),
      b.foldl (fun n q => if strcmp p q = 0 then n + 1 else n) n = n + b.count p := by
    intro p b
    induction b with
    | nil => simp
    | cons q b ih =>
      intro n
      rw [foldl_cons, ih, count_cons]
      simp only [strcmp_eq_zero_iff, beq_iff_eq, eq_comm (a := p)]
      split_ifs <;> omega
  have outer : ∀ (a : List CStr) (n : Nat),
      a.foldl (fun n p => b.foldl (fun n q => if strcmp p q = 0 then n + 1 else n) n) n =
        n + (a.map fun p => b.count p).sum := by
    intro a
    induction a with
    | nil => simp
    | cons p a ih =>
      intro n
      rw [foldl_cons, ih, inner, map_cons, sum_cons, Nat.add_assoc]
  rw [wpsCredListCountMatches, outer, Nat.zero_add]

theorem wpsCredListIsSame_iff {a b : List CStr} :
    wpsCredListIsSame a b = true ↔
      a.length = b.length ∧ a.length = (a.map fun p => b.count p).sum := by
  rw [wpsCredListIsSame, decide_eq_true_eq, wpsCredListCountMatches_eq]

/-- A list of positive numbers adds up to its length only if all of them are one. -/
theorem all_one_of_sum_eq_length {l : List Nat} (hpos : ∀ n ∈ l, 1 ≤ n) (h : l.sum = l.length) :
    ∀ n ∈ l, n = 1 := by
  induction l with
  | nil => simp
  | cons n l ih =>
    have hl : l.length ≤ l.sum := by
      simpa using card_nsmul_le_sum l 1 fun m hm => hpos m (mem_cons_of_mem n hm)
    have hn := hpos n mem_cons_self
    rw [sum_cons, length_cons] at h
    refine forall_mem_cons.mpr ⟨by omega, ?_⟩
    exact ih (fun m hm => hpos m (mem_cons_of_mem n hm)) (by omega)

/-- The comparison of a list with itself succeeds only without repeated credentials. -/
theorem nodup_of_isSame_self {a : List CStr} (h : wpsCredListIsSame a a = true) : a.Nodup := by
  rw [nodup_iff_count_eq_one]
  intro p hp
  refine all_one_of_sum_eq_length (l := a.map fun p => a.count p) ?_ ?_ _
    (mem_map_of_mem hp)
  · intro n hn
    obtain ⟨q, hq, rfl⟩ := mem_map.mp hn
    exact count_pos_iff.mpr hq
  · rw [length_map]
    exact (wpsCredListIsSame_iff.mp h).2.symm

theorem isSame_of_perm {a b : List CStr} (hnodup : a.Nodup) (h : a.Perm b) :
    wpsCredListIsSame a b = true := by
  refine wpsCredListIsSame_iff.mpr ⟨h.length_eq, ?_⟩
  have hone : (a.map fun p => b.count p) = a.map fun _ => 1 := by
    refine map_congr_left fun p hp => ?_
    rw [← h.count_eq, count_eq_one_of_mem hnodup hp]
  rw [hone]
  simp

theorem perm_of_isSame {a b : List CStr} (ha : a.Nodup) (hb : b.Nodup)
    (h : wpsCredListIsSame a b = true) : a.Perm b := by
  obtain ⟨hlen, hsum⟩ := wpsCredListIsSame_iff.mp h
  refine (subperm_of_subset ha fun p hp => ?_).perm_of_length_le hlen.ge
  by_contra hno
  have hlt : (a.map fun p => b.count p).sum < (a.map fun _ => 1).sum := by
    refine sum_lt_sum _ _ (fun q _ => nodup_iff_count_le_one.mp hb q) ⟨p, hp, ?_⟩
    rw [count_eq_zero.mpr hno]
    exact Nat.one_pos
  simp at hlt
  omega

/-! ## The comparisons -/

/-- The comparison of addresses decides permutation for the lists without repetition and for no
others.  The comparison of credentials does so among the lists without repetition, and those are
the lists that it finds the same as themselves. -/
theorem comparisons_decide_perm (a : List Hwaddr) (c : List CStr) :
    (a.Nodup ↔ ∀ b, hwaddrListIsEqual a b = true ↔ a.Perm b) ∧
      (c.Nodup ↔ wpsCredListIsSame c c = true ∧
        ∀ d, d.Nodup → (wpsCredListIsSame c d = true ↔ c.Perm d)) := by
  refine ⟨⟨fun h b => ⟨fun heq =>
    have ⟨hlen, hsub⟩ := hwaddrListIsEqual_iff.mp heq
    (subperm_of_subset h hsub).perm_of_length_le hlen.ge,
    fun h => hwaddrListIsEqual_iff.mpr ⟨h.length_eq, h.subset⟩⟩, fun h => ?_⟩,
    ⟨fun h => ⟨isSame_of_perm h (.refl c), fun d hd => ⟨perm_of_isSame h hd, isSame_of_perm h⟩⟩,
      fun h => nodup_of_isSame_self h.1⟩⟩
  by_contra hno
  obtain ⟨b, hequal, hperm⟩ := exists_equal_of_duplicate hno
  exact hperm ((h b).mp hequal)

/-- A credential for the examples. -/
def credOf (b : UInt8) (h : b ≠ 0) : CStr := ⟨[b], by simpa using h.symm⟩

/-- Repeated addresses make the comparison succeed on different lists, and in one direction only.
A repeated credential makes a list differ from itself, and makes different lists the same. -/
theorem repeated_elements_mislead :
    (hwaddrListIsEqual [.ofLast 1, .ofLast 1] [.ofLast 1, .ofLast 2] = true ∧
      hwaddrListIsEqual [.ofLast 1, .ofLast 2] [.ofLast 1, .ofLast 1] = false ∧
      ¬ [Hwaddr.ofLast 1, .ofLast 1].Perm [.ofLast 1, .ofLast 2]) ∧
    (wpsCredListIsSame [credOf 1 (by decide), credOf 1 (by decide)]
        [credOf 1 (by decide), credOf 1 (by decide)] = false ∧
      wpsCredListIsSame [credOf 1 (by decide), credOf 2 (by decide)]
        [credOf 1 (by decide), credOf 1 (by decide)] = true ∧
      ¬ [credOf 1 (by decide), credOf 2 (by decide)].Perm
        [credOf 1 (by decide), credOf 1 (by decide)]) := by
  decide +kernel

end OpenSync.Osw
