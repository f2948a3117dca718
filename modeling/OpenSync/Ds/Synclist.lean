import Mathlib.Logic.Function.Basic
import Mathlib.Tactic.SplitIfs

/-!
# Synchronised lists

`synclist.c` keeps a tree in step with a source of items: `synclist_begin` marks everything as old,
`synclist_add` marks what the source still has, and `synclist_end` takes the rest away.  What
becomes of an item is up to a callback.  Its answers are part of the items here, so that a property
of all items is one of all callbacks.
-/

namespace OpenSync.Ds

open Function Option

/-- `synclist_t`: the object of each key with its mark, the trees before each removal and insertion
(the last first), and how often the callback was called for an object with no new one. -/
structure Synclist (α κ : Type) where
  tree : κ → Option (α × Bool)
  past : List (κ → Option (α × Bool))
  told : α → Nat

namespace Synclist

/-- An item of the source: the callback answers `result`, and `replaced` when it is asked again for
an object that takes the place of another. -/
structure Item (α : Type) where
  new : α
  result : Option α
  replaced : Option α

variable {α κ : Type} [DecidableEq α] [DecidableEq κ] (key : α → κ)

section

variable (s : Synclist α κ) (o : α)

/-- `ds_tree_insert`. -/
def insert : Synclist α κ :=
  { s with tree := update s.tree (key o) (some (o, false)), past := s.tree :: s.past }

/-- `ds_tree_remove`. -/
def remove : Synclist α κ :=
  { s with tree := update s.tree (key o) none, past := s.tree :: s.past }

/-- The mark of an object that is in the tree. -/
def activate : Synclist α κ := { s with tree := update s.tree (key o) (some (o, true)) }

/-- The callback is called with the object and `NULL`. -/
def tell : Synclist α κ := { s with told := update s.told o (s.told o + 1) }

end

/-- `synclist_add`, with the pointer that it returns; `none` is a mark of the object `NULL`. -/
def add (s : Synclist α κ) (x : Item α) : Option (Synclist α κ × Option α) :=
  match x.result, s.tree (key x.new) with
  | some cur, none => some ((s.insert key cur).activate key cur, some cur)
  | some cur, some (old, _) =>
    if cur = old then some (s.activate key cur, some cur)
    else
      -- here the callback comes before the removal, and is asked about `cur` after it
      x.replaced.map fun cur =>
        ((((s.tell old).remove key old).insert key cur).activate key cur, some cur)
  | none, some (old, _) => some ((s.remove key old).tell old, none)
  | none, none => some (s, none)

/-- `synclist_begin`. -/
def begin (s : Synclist α κ) : Synclist α κ :=
  { s with tree := fun k => (s.tree k).map fun p => (p.1, false) }

/-- `synclist_end`: each object without a mark is taken out, and the callback is called for it. -/
def finish (s : Synclist α κ) : Synclist α κ where
  tree := fun k => (s.tree k).filter Prod.snd
  past := s.tree :: s.past
  told := fun o => s.told o + if s.tree (key o) = some (o, false) then 1 else 0

/-- The calls of `synclist_add`, with the keys and what was returned, the last first. -/
def addAll : List (Item α) → Synclist α κ → List (κ × Option α) →
    Option (Synclist α κ × List (κ × Option α))
  | [], s, rets => some (s, rets)
  | x :: xs, s, rets => (s.add key x).bind fun r => addAll xs r.1 ((key x.new, r.2) :: rets)

def sync (s : Synclist α κ) (xs : List (Item α)) : Option (Synclist α κ × List (κ × Option α)) :=
  (addAll key xs s.begin []).map fun r => (r.1.finish key, r.2)

/-- What the last call for a key returned. -/
def latest (rets : List (κ × Option α)) (k : κ) : Option α :=
  (rets.find? fun r => r.1 = k).bind Prod.snd

/-- The objects in the tree are found by their keys. -/
def Keyed (s : Synclist α κ) : Prop := ∀ k p, s.tree k = some p → key p.1 = k

/-- The objects that the callback returns have the key of the item. -/
def Item.KeepsKey (x : Item α) : Prop :=
  ∀ o, x.result = some o ∨ x.replaced = some o → key o = key x.new

/-- The callback replaces an object and then refuses the other one. -/
def Refuses (s : Synclist α κ) (x : Item α) : Prop :=
  ∃ old cur, s.tree (key x.new) = some old ∧ x.result = some cur ∧ cur ≠ old.1 ∧ x.replaced = none

def NeverRefuses : List (Item α) → Synclist α κ → Prop
  | [], _ => True
  | x :: xs, s => ¬ Refuses key s x ∧ ∀ r, s.add key x = some r → NeverRefuses xs r.1

/-- The object is in the tree. -/
def Holds (tree : κ → Option (α × Bool)) (o : α) : Prop := (tree (key o)).map Prod.fst = some o

instance (tree : κ → Option (α × Bool)) (o : α) : Decidable (Holds key tree o) :=
  inferInstanceAs (Decidable (_ = _))

/-- How often the object was in the tree and then was not, over all the trees up to this one. -/
def departures (o : α) : (κ → Option (α × Bool)) → List (κ → Option (α × Bool)) → Nat
  | _, [] => 0
  | tree, before :: past =>
    (if Holds key before o ∧ ¬ Holds key tree o then 1 else 0) + departures o before past

/-- Each time that an object left the tree it had its call, and there were no other calls. -/
def Told (s s' : Synclist α κ) : Prop :=
  ∀ o, ∃ n, departures key o s'.tree s'.past = departures key o s.tree s.past + n ∧
    s'.told o = s.told o + n

/-- What is marked in the tree is what the last call for its key returned. -/
structure Marked (rets : List (κ × Option α)) (s₀ s : Synclist α κ) : Prop where
  keyed : Keyed key s
  marked : ∀ k, (s.tree k).filter Prod.snd = (latest rets k).map (·, true)
  told : Told key s₀ s

section

variable {key} {s s' s₀ : Synclist α κ} {x : Item α} {ret : Option α} {rets : List (κ × Option α)}

omit [DecidableEq κ]

theorem Told.refl (s : Synclist α κ) : Told key s s := fun _ => ⟨0, rfl, rfl⟩

theorem Told.trans (h : Told key s₀ s) (h' : Told key s s') : Told key s₀ s' := by
  intro o
  obtain ⟨n, hleft, htold⟩ := h o
  obtain ⟨n', hleft', htold'⟩ := h' o
  exact ⟨n + n', by omega, by omega⟩

/-- Marks do not matter. -/
theorem departures_congr {tree tree' : κ → Option (α × Bool)} {o : α}
    (h : Holds key tree' o ↔ Holds key tree o) (past : List (κ → Option (α × Bool))) :
    departures key o tree' past = departures key o tree past := by
  cases past with
  | nil => rfl
  | cons before past => simp only [departures, h]

theorem told_begin (s : Synclist α κ) : Told key s s.begin := by
  refine fun o => ⟨0, departures_congr ?_ _, rfl⟩
  simp [Holds, begin, Function.comp_def]

theorem told_finish (s : Synclist α κ) : Told key s (s.finish key) := by
  intro o
  have hleft : Holds key s.tree o ∧ ¬ Holds key (s.finish key).tree o ↔
      s.tree (key o) = some (o, false) := by
    simp only [Holds, finish]
    cases s.tree (key o) with
    | none => simp
    | some p => cases hp : p.2 <;> simp [Prod.ext_iff, hp]
  refine ⟨_, Nat.add_comm .., ?_⟩
  simp only [hleft]
  rfl

variable [DecidableEq κ]

theorem told_activate {cur : α} (h : Holds key s.tree cur) : Told key s (s.activate key cur) := by
  refine fun o => ⟨0, departures_congr ?_ _, rfl⟩
  by_cases hk : key o = key cur
  · rw [Holds] at h
    simp [Holds, activate, hk, h]
  · simp [Holds, activate, hk]

theorem told_insert {cur : α} (h : s.tree (key cur) = none) : Told key s (s.insert key cur) := by
  refine fun o => ⟨0, ?_, rfl⟩
  by_cases hk : key o = key cur
  · simp [departures, insert, Holds, hk, h]
  · have hsame : Holds key (s.insert key cur).tree o ↔ Holds key s.tree o := by
      simp [Holds, insert, hk]
    rw [insert] at hsame ⊢
    simp [departures, hsame]

/-- What leaves the tree and nothing else is told about, in either order. -/
theorem departures_remove {old : α} (h : Holds key s.tree old) (o : α) :
    departures key o (s.remove key old).tree (s.remove key old).past =
      departures key o s.tree s.past + if o = old then 1 else 0 := by
  have hleft : Holds key s.tree o ∧ ¬ Holds key (s.remove key old).tree o ↔ o = old := by
    by_cases hk : key o = key old
    · rw [Holds] at h
      simp [Holds, remove, hk, h, eq_comm]
    · have hne : o ≠ old := fun e => hk (e ▸ rfl)
      have hsame : Holds key (s.remove key old).tree o ↔ Holds key s.tree o := by
        simp [Holds, remove, hk]
      simp [hsame, hne]
  rw [remove, departures, Nat.add_comm]
  simp only [remove] at hleft
  simp only [hleft]

theorem told_remove_tell {old : α} (h : Holds key s.tree old) :
    Told key s ((s.remove key old).tell old) := by
  refine fun o => ⟨_, departures_remove h o, ?_⟩
  by_cases ho : o = old <;> simp [tell, remove, ho]

theorem told_tell_remove {old : α} (h : Holds key s.tree old) :
    Told key s ((s.tell old).remove key old) := told_remove_tell h

/-- A call decides about the key of its item. -/
theorem add_spec (hs : Keyed key s) (hx : x.KeepsKey key) (h : s.add key x = some (s', ret)) :
    s'.tree = update s.tree (key x.new) (ret.map (·, true)) ∧
      (∀ o ∈ ret, key o = key x.new) ∧ Told key s s' := by
  unfold add at h
  split at h
  · next cur hresult hnone =>
    cases h
    have hkey := hx cur (.inl hresult)
    rw [← hkey] at hnone ⊢
    refine ⟨by simp [activate, insert], by simp, (told_insert hnone).trans (told_activate ?_)⟩
    simp [Holds, insert]
  · next cur old b hresult hold =>
    have hkey : key old = key x.new := hs _ _ hold
    have hin : Holds key s.tree old := by simp [Holds, hkey, hold]
    split_ifs at h with heq
    · cases h
      subst heq
      exact ⟨by simp [activate, hkey], by simpa using hkey, told_activate hin⟩
    obtain ⟨cur', hreplaced, heq'⟩ := map_eq_some_iff.mp h
    cases heq'
    have hkey' := hx cur' (.inr hreplaced)
    refine ⟨by simp [activate, insert, remove, tell, hkey, hkey'], by simpa using hkey',
      (told_tell_remove hin).trans ((told_insert ?_).trans (told_activate ?_))⟩
    · simp [remove, hkey, hkey']
    · simp [Holds, insert]
  · next old b hresult hold =>
    cases h
    have hkey : key old = key x.new := hs _ _ hold
    have hin : Holds key s.tree old := by simp [Holds, hkey, hold]
    exact ⟨by simp [remove, tell, hkey], by simp, told_remove_tell hin⟩
  · next hresult hnone =>
    cases h
    exact ⟨(update_eq_self_iff.mpr hnone.symm).symm, by simp, .refl s⟩

theorem add_eq_none_iff : s.add key x = none ↔ Refuses key s x := by
  unfold add Refuses
  split
  · simp_all
  · next cur old b hresult hold =>
    by_cases heq : cur = old <;> simp [hresult, hold, heq]
  · simp_all
  · simp_all

theorem Marked.add (h : Marked key rets s₀ s) (hx : x.KeepsKey key)
    (hadd : s.add key x = some (s', ret)) : Marked key ((key x.new, ret) :: rets) s₀ s' := by
  obtain ⟨htree, hret, htold⟩ := add_spec h.keyed hx hadd
  refine ⟨fun k p hp => ?_, fun k => ?_, h.told.trans htold⟩
  · rw [htree] at hp
    by_cases hk : k = key x.new
    · subst hk
      rw [update_self] at hp
      obtain ⟨o, ho, rfl⟩ := map_eq_some_iff.mp hp
      exact hret o ho
    · exact h.keyed k p (by rwa [update_of_ne hk] at hp)
  · rw [htree]
    by_cases hk : k = key x.new
    · subst hk
      cases ret <;> simp [latest]
    · rw [update_of_ne hk, h.marked k]
      simp [latest, Ne.symm hk]

/-- The calls go through exactly if no replacement is refused, with the right marks. -/
theorem Marked.addAll {xs : List (Item α)} (hxs : ∀ x ∈ xs, x.KeepsKey key)
    (h : Marked key rets s₀ s) :
    (NeverRefuses key xs s → ∃ s' rets', s.addAll key xs rets = some (s', rets') ∧
      Marked key rets' s₀ s') ∧
    (¬ NeverRefuses key xs s → s.addAll key xs rets = none) := by
  induction xs generalizing s rets with
  | nil => exact ⟨fun _ => ⟨s, rets, rfl, h⟩, fun hn => absurd trivial hn⟩
  | cons x xs ih =>
    obtain ⟨hx, hxs⟩ := List.forall_mem_cons.mp hxs
    rw [NeverRefuses, addAll, ← add_eq_none_iff]
    cases hadd : s.add key x with
    | none => exact ⟨fun hn => absurd rfl hn.1, fun _ => rfl⟩
    | some r =>
      obtain ⟨hgood, hbad⟩ := ih hxs (h.add hx hadd)
      refine ⟨fun hn => hgood (hn.2 r rfl), fun hn => hbad fun hr => hn ⟨by simp, ?_⟩⟩
      rintro _ ⟨⟩
      exact hr

end

/-- After a synchronisation the list holds what the last call for each key returned, all marked, and
the callback was called once each time that an object left the tree. -/
def Synced (s : Synclist α κ) (r : Synclist α κ × List (κ × Option α)) : Prop :=
  (∀ k, r.1.tree k = (latest r.2 k).map (·, true)) ∧ Told key s r.1

/-- A synchronisation with objects that keep their keys does what it should, without a mark of the
object `NULL`, exactly if the callback refuses no replacement. -/
theorem sync_iff {key : α → κ} {s : Synclist α κ} (hs : Keyed key s) {xs : List (Item α)}
    (hxs : ∀ x ∈ xs, x.KeepsKey key) :
    (∃ r, s.sync key xs = some r ∧ Synced key s r) ↔ NeverRefuses key xs s.begin := by
  have hbegin : Marked key [] s s.begin := by
    refine ⟨fun k p hp => ?_, fun k => ?_, told_begin s⟩
    · obtain ⟨q, hq, rfl⟩ := map_eq_some_iff.mp hp
      exact hs k q hq
    · cases htree : s.tree k <;> simp [begin, latest]
  obtain ⟨hgood, hbad⟩ := hbegin.addAll hxs
  refine ⟨fun ⟨r, hr, _⟩ => ?_, fun hn => ?_⟩
  · by_contra hn
    simp [sync, hbad hn] at hr
  · obtain ⟨s', rets, hall, -, hmarked, htold⟩ := hgood hn
    exact ⟨(s'.finish key, rets), by simp [sync, hall], hmarked,
      htold.trans (told_finish s')⟩

/-- Objects are numbers with their tens as keys.  The list holds 10, 20 and 30; the source has an
update of the first and another object for the second, and the third is swept. -/
theorem sync_iff_update :
    let s : Synclist Nat Nat :=
      ⟨fun k => if k = 1 ∨ k = 2 ∨ k = 3 then some (10 * k, true) else none, [], fun _ => 0⟩
    ∃ r, s.sync (· / 10) [⟨11, some 10, none⟩, ⟨21, some 22, some 22⟩] = some r ∧
      Synced (· / 10) s r ∧ (r.1.told 10, r.1.told 20, r.1.told 30) = (0, 1, 1) := by
  intro s
  have hkeyed : Keyed (· / 10) s := by
    intro k p hp
    simp only [s] at hp
    split_ifs at hp
    cases hp
    exact Nat.mul_div_cancel_left k (by decide)
  have hitems : ∀ x ∈ [(⟨11, some 10, none⟩ : Item Nat), ⟨21, some 22, some 22⟩],
      x.KeepsKey (· / 10) := by
    simp [Item.KeepsKey]
  have hnever : NeverRefuses (· / 10) [(⟨11, some 10, none⟩ : Item Nat), ⟨21, some 22, some 22⟩]
      s.begin := by
    refine ⟨?_, fun r hr => ⟨?_, fun _ _ => trivial⟩⟩
    · rintro ⟨old, cur, hold, ⟨⟩, hne, -⟩
      cases hold
      exact hne rfl
    · rintro ⟨old, cur, -, -, -, ⟨⟩⟩
  obtain ⟨r, hr, hsynced⟩ := (sync_iff hkeyed hitems).mpr hnever
  refine ⟨r, hr, hsynced, ?_⟩
  cases hr
  decide

/-- The callback answers with another object for a key that is there, and refuses that one. -/
theorem sync_marks_null :
    let s : Synclist Nat Nat :=
      ⟨fun k => if k = 1 then some (10, true) else none, [], fun _ => 0⟩
    s.sync (· / 10) [⟨11, some 12, none⟩] = none := by
  rfl

end Synclist

end OpenSync.Ds
