import Mathlib.Data.List.Nodup
import Mathlib.Data.List.Perm.Basic

/-!
# Lists with distinct keys

A list whose elements have distinct keys is a finite map, and a lookup is a search for the key.
-/

namespace OpenSync.Lib

open List

/-- Where only one element meets the condition, a search is membership. -/
theorem find?_eq_some_iff_mem {α : Type*} {p : α → Bool} {l : List α} {a : α}
    (huniq : ∀ a ∈ l, ∀ b ∈ l, p a → p b → a = b) : l.find? p = some a ↔ a ∈ l ∧ p a := by
  refine ⟨fun h => ⟨mem_of_find?_eq_some h, find?_some h⟩, fun ⟨ha, hp⟩ => ?_⟩
  obtain ⟨b, hb⟩ := Option.isSome_iff_exists.mp (find?_isSome.mpr ⟨a, ha, hp⟩)
  rw [hb, huniq b (mem_of_find?_eq_some hb) a ha (find?_some hb) hp]

variable {α κ : Type*} [DecidableEq κ] (key : α → κ)

/-- The first element with the key. -/
def findKey (l : List α) (k : κ) : Option α := l.find? fun a => key a = k

variable {key} {l l' : List α} {k : κ} {a : α}

theorem mem_of_findKey (h : findKey key l k = some a) : a ∈ l := List.mem_of_find?_eq_some h

theorem key_of_findKey (h : findKey key l k = some a) : key a = k := by
  simpa using find?_some h

theorem findKey_eq_none_iff : findKey key l k = none ↔ k ∉ l.map key := by
  rw [findKey, find?_eq_none, mem_map]
  constructor
  · rintro h ⟨a, ha, hk⟩
    exact h a ha (by simpa using hk)
  · intro h a ha hk
    exact h ⟨a, ha, by simpa using hk⟩

section

variable (nodup : (l.map key).Nodup)

include nodup

theorem findKey_eq_some_iff : findKey key l k = some a ↔ a ∈ l ∧ key a = k := by
  rw [findKey, find?_eq_some_iff_mem, decide_eq_true_eq]
  intro a ha b hb hak hbk
  rw [decide_eq_true_eq] at hak hbk
  exact inj_on_of_nodup_map nodup ha hb (hak.trans hbk.symm)

/-- The order of a list with distinct keys does not matter. -/
theorem findKey_perm (perm : l.Perm l') (k : κ) : findKey key l k = findKey key l' k := by
  apply Option.ext
  intro a
  rw [findKey_eq_some_iff nodup, findKey_eq_some_iff ((perm.map key).nodup_iff.mp nodup),
    perm.mem_iff]

omit nodup in
theorem findKey_cons : findKey key (a :: l) k = if key a = k then some a else findKey key l k := by
  rw [findKey, find?_cons]
  by_cases hk : key a = k
  · simp [hk]
  · simp only [hk]
    rfl

omit nodup in
/-- A change of the elements that keeps their keys. -/
theorem findKey_map {f : α → α} (hf : ∀ a, key (f a) = key a) :
    findKey key (l.map f) k = (findKey key l k).map f := by
  induction l with
  | nil => rfl
  | cons a l ih =>
    rw [map_cons, findKey_cons, findKey_cons, hf, ih]
    split_ifs <;> rfl

theorem findKey_erase [DecidableEq α] (ha : a ∈ l) :
    findKey key (l.erase a) k = if key a = k then none else findKey key l k := by
  have perm := perm_cons_erase ha
  have hcons : findKey key l k = findKey key (a :: l.erase a) k := findKey_perm nodup perm k
  have hnot : key a ∉ (l.erase a).map key :=
    (nodup_cons.mp ((perm.map key).nodup_iff.mp nodup)).1
  rw [hcons, findKey_cons]
  split_ifs with hk
  · rw [← hk]
    exact findKey_eq_none_iff.mpr hnot
  · rfl

theorem perm_cons_of_findKey (h : findKey key l k = some a) :
    l.Perm (a :: l.filter fun x => key x ≠ k) := by
  induction l with
  | nil => cases h
  | cons x l ih =>
    rw [map_cons, nodup_cons] at nodup
    rw [findKey, find?_cons] at h
    by_cases hx : key x = k
    · simp only [hx] at h
      cases h
      have hl : l.filter (fun x => key x ≠ k) = l := by
        rw [filter_eq_self]
        intro y hy
        have hne : key y ≠ k := fun e => nodup.1 (hx ▸ e ▸ mem_map_of_mem hy)
        simpa using hne
      rw [filter_cons_of_neg (by simpa using hx), hl]
    · simp only [hx] at h
      rw [filter_cons_of_pos (by simpa using hx)]
      exact ((ih nodup.2 h).cons x).trans (List.Perm.swap _ _ _)

end

end OpenSync.Lib
