import Mathlib.Data.List.TakeWhile
import OpenSync.Lib.Keyed

/-!
# What a `ds_tree` is for

Seen from outside a `ds_tree` is the list of its elements in the order of a comparator, and this
module has the operations of the container on that list.  Only the sign of `ot_cmp_fn(a, b)` is
looked at.  An element goes in front of the first element that does not compare below it.

`OpenSync.Ds.TreeRefine` proves that the red-black tree of `ds_tree.c` does what is said here.
The components that keep a `ds_tree` are modelled over these lists.
-/

namespace OpenSync.Ds.Ordered

open List

variable {α κ : Type} (key : α → κ) (cmp : κ → κ → Int)

/-- `ds_tree_find`. -/
def find (l : List α) (k : κ) : Option α := l.find? (fun x => cmp (key x) k = 0)

/-- `ds_tree_insert`. -/
def insert (l : List α) (x : α) : List α :=
  l.takeWhile (fun y => cmp (key y) (key x) < 0) ++
    x :: l.dropWhile (fun y => cmp (key y) (key x) < 0)

/-- `ds_tree_remove`. -/
def remove [DecidableEq α] (l : List α) (x : α) : List α := l.erase x

/-- `ds_tree_next`: the element after `x`. -/
def next [DecidableEq α] : List α → α → Option α
  | [], _ => none
  | y :: ys, x => if y = x then ys.head? else next ys x

theorem insert_perm (l : List α) (x : α) : (insert key cmp l x).Perm (x :: l) := by
  refine perm_middle.trans ?_
  rw [takeWhile_append_dropWhile]

variable {x : α} {l1 l2 : List α}

theorem mem_insert {l : List α} {y : α} : y ∈ insert key cmp l x ↔ y = x ∨ y ∈ l := by
  rw [(insert_perm key cmp l x).mem_iff, mem_cons]

/-- A new key goes between the keys below it and those above it. -/
theorem insert_pairwise (htrans : ∀ {a b c}, cmp a b < 0 → cmp b c < 0 → cmp a c < 0) {l : List α}
    (hl : l.Pairwise fun y z => cmp (key y) (key z) < 0)
    (hnew : ∀ y ∈ l, ¬ cmp (key y) (key x) < 0 → cmp (key x) (key y) < 0) :
    (insert key cmp l x).Pairwise fun y z => cmp (key y) (key z) < 0 := by
  induction l with
  | nil => simp [insert]
  | cons y ys ih =>
    obtain ⟨hy, hys⟩ := pairwise_cons.mp hl
    by_cases hlt : cmp (key y) (key x) < 0
    · have heq : insert key cmp (y :: ys) x = y :: insert key cmp ys x := by simp [insert, hlt]
      rw [heq]
      refine pairwise_cons.mpr ⟨fun z hz => ?_, ih hys fun z hz => hnew z (mem_cons_of_mem _ hz)⟩
      rcases (mem_insert key cmp).mp hz with rfl | hz
      · exact hlt
      · exact hy z hz
    · have heq : insert key cmp (y :: ys) x = x :: y :: ys := by simp [insert, hlt]
      have hxy := hnew y mem_cons_self hlt
      rw [heq]
      refine pairwise_cons.mpr ⟨fun z hz => ?_, hl⟩
      rcases mem_cons.mp hz with rfl | hz
      · exact hxy
      · exact htrans hxy (hy z hz)

theorem remove_middle [DecidableEq α] (h : x ∉ l1) : remove (l1 ++ x :: l2) x = l1 ++ l2 := by
  rw [remove, erase_append_right _ h, erase_cons_head]

theorem next_middle [DecidableEq α] (h : x ∉ l1) : next (l1 ++ x :: l2) x = l2.head? := by
  induction l1 with
  | nil => simp [next]
  | cons y l1 ih =>
    obtain ⟨hyx, hx⟩ := not_or.mp (mt mem_cons.mpr h)
    rw [cons_append, next, if_neg (Ne.symm hyx), ih hx]

/-! ## Sorted lists -/

/-- On the keys in `S` the sign of the comparator is that of a total preorder. -/
structure PreorderOn (S : κ → Prop) : Prop where
  flip : ∀ a b, S a → S b → (0 < cmp a b ↔ cmp b a < 0)
  trans : ∀ a b c, S a → S b → S c → cmp a b ≤ 0 → cmp b c ≤ 0 → cmp a c ≤ 0

/-- The elements are in the order of the comparator. -/
def Sorted (l : List α) : Prop := l.Pairwise (fun x y => cmp (key x) (key y) ≤ 0)

section

variable {key} {cmp} {S S' : κ → Prop}

section

variable (h : PreorderOn cmp S)

include h

theorem PreorderOn.mono (hsub : ∀ k, S' k → S k) : PreorderOn cmp S' where
  flip := fun a b ha hb => h.flip a b (hsub a ha) (hsub b hb)
  trans := fun a b c ha hb hc => h.trans a b c (hsub a ha) (hsub b hb) (hsub c hc)

theorem PreorderOn.lt_of_le_of_lt {a b c : κ} (ha : S a) (hb : S b) (hc : S c) (hab : cmp a b ≤ 0)
    (hbc : cmp b c < 0) : cmp a c < 0 := by
  by_contra hac
  have hca : cmp c a ≤ 0 := Int.not_lt.mp fun hpos => hac ((h.flip c a hc ha).mp hpos)
  have hcb := h.trans c a b hc ha hb hca hab
  have hpos := (h.flip c b hc hb).mpr hbc
  omega

theorem PreorderOn.lt_of_lt_of_le {a b c : κ} (ha : S a) (hb : S b) (hc : S c) (hab : cmp a b < 0)
    (hbc : cmp b c ≤ 0) : cmp a c < 0 := by
  by_contra hac
  have hca : cmp c a ≤ 0 := Int.not_lt.mp fun hpos => hac ((h.flip c a hc ha).mp hpos)
  have hba := h.trans b c a hb hc ha hbc hca
  have hpos := (h.flip b a hb ha).mpr hab
  omega

section

variable {l : List α} {k : κ} (hl : Sorted key cmp l) (hS : ∀ y ∈ l, S (key y)) (hk : S k)

include hl hS hk

/-- Everything up to an element below the key is below the key. -/
theorem Sorted.lt_of_getLast (hlast : ∀ y, l.getLast? = some y → cmp (key y) k < 0)
    : ∀ y ∈ l, cmp (key y) k < 0 := by
  intro y hy
  cases hget : l.getLast? with
  | none =>
    rw [getLast?_eq_none_iff.mp hget] at hy
    simp at hy
  | some z =>
    have hz := hlast z hget
    obtain ⟨init, rfl⟩ := getLast?_eq_some_iff.mp hget
    rcases mem_append.mp hy with hinit | hmem
    · have hyz := (pairwise_append.mp hl).2.2 y hinit z (by simp)
      exact h.lt_of_le_of_lt (hS y hy) (hS z (by simp)) hk hyz hz
    · rwa [mem_singleton.mp hmem]

/-- Everything from an element on that is not below the key is not below the key. -/
theorem Sorted.le_of_head (hhead : ∀ y, l.head? = some y → ¬ cmp (key y) k < 0)
    : ∀ y ∈ l, cmp k (key y) ≤ 0 := by
  intro y hy
  cases l with
  | nil => simp at hy
  | cons z l =>
    have hzS := hS z mem_cons_self
    have hkz : cmp k (key z) ≤ 0 :=
      Int.not_lt.mp fun hpos => hhead z rfl ((h.flip k (key z) hk hzS).mp hpos)
    rcases mem_cons.mp hy with rfl | hmem
    · exact hkz
    · exact h.trans k (key z) (key y) hk hzS (hS y hy) hkz ((pairwise_cons.mp hl).1 y hmem)

end

end

variable {l1 l2 : List α} {x : α}

/-- An element between two parts of a sorted list that it lies between. -/
theorem Sorted.middle (hl : Sorted key cmp (l1 ++ l2)) (hleft : ∀ y ∈ l1, cmp (key y) (key x) < 0)
    (hright : ∀ y ∈ l2, cmp (key x) (key y) ≤ 0) : Sorted key cmp (l1 ++ x :: l2) := by
  obtain ⟨h1, h2, h12⟩ := pairwise_append.mp hl
  refine pairwise_append.mpr ⟨h1, pairwise_cons.mpr ⟨hright, h2⟩, ?_⟩
  intro y hy z hz
  rcases mem_cons.mp hz with rfl | hz
  · exact Int.le_of_lt (hleft y hy)
  · exact h12 y hy z hz

/-- The place of a new element is the only one that keeps the order. -/
theorem insert_eq (hleft : ∀ y ∈ l1, cmp (key y) (key x) < 0)
    (hright : ∀ y, l2.head? = some y → ¬ cmp (key y) (key x) < 0) :
    insert key cmp (l1 ++ l2) x = l1 ++ x :: l2 := by
  have hleft' : ∀ y ∈ l1, (decide (cmp (key y) (key x) < 0)) = true :=
    fun y hy => decide_eq_true (hleft y hy)
  rw [insert, takeWhile_append_of_pos hleft', dropWhile_append_of_pos hleft']
  cases l2 with
  | nil => simp
  | cons z l2 => simp [hright z rfl]

/-- With distinct keys a lookup finds the element with the key. -/
theorem find_eq_some_iff {l : List α} {k : κ}
    (huniq : ∀ x ∈ l, ∀ y ∈ l, cmp (key x) k = 0 → cmp (key y) k = 0 → x = y) :
    find key cmp l k = some x ↔ x ∈ l ∧ cmp (key x) k = 0 := by
  rw [find, Lib.find?_eq_some_iff_mem (by simpa using huniq), decide_eq_true_eq]

end

end OpenSync.Ds.Ordered
