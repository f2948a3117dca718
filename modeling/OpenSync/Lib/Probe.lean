import Mathlib.Logic.Equiv.Basic

/-!
# Linear probing

A key is stored in its home slot or in one of the next slots, around the end, and a search goes from
the home on until an empty slot.  A deleted slot does not end a search.  The table is `Valid` when
every stored key is found in this way and no key is stored twice.

The lemmas say which stores keep a table valid: a key in a slot that its search gets to, the
deletion of any slot, and the exchange of a key with the content of its home.
-/

namespace OpenSync.Lib

open Function

/-- A slot of the table. -/
inductive Slot (K : Type) where
  | empty
  | deleted
  | used (k : K)
deriving DecidableEq

namespace Probe

variable {K : Type} {n : Nat} {slots slots' : Nat → Slot K} {home : K → Nat}

/-- A search from `h` gets to the slot `p`. -/
def Reach (n : Nat) (slots : Nat → Slot K) (h p : Nat) : Prop :=
  ∃ d < n, p = (h + d) % n ∧ ∀ i < d, slots ((h + i) % n) ≠ .empty

/-- Every key is found, and none is stored twice. -/
structure Valid (n : Nat) (slots : Nat → Slot K) (home : K → Nat) : Prop where
  reach : ∀ p < n, ∀ k, slots p = .used k → Reach n slots (home k) p
  unique : ∀ p < n, ∀ q < n, ∀ k, slots p = .used k → slots q = .used k → p = q

variable {h p : Nat}

/-- A search is back at its home after `n` steps. -/
theorem mod_eq_home_iff {d : Nat} (hh : h < n) (hd : d < n) : (h + d + 1) % n = h ↔ d + 1 = n := by
  by_cases hlt : h + d + 1 < n
  · rw [Nat.mod_eq_of_lt hlt]
    omega
  · rw [Nat.mod_eq_sub_mod (Nat.le_of_not_lt hlt), Nat.mod_eq_of_lt (by omega)]
    omega

theorem exists_offset {q : Nat} (hh : h < n) (hq : q < n) : ∃ i < n, q = (h + i) % n := by
  by_cases hle : h ≤ q
  · exact ⟨q - h, by omega, by rw [Nat.add_sub_cancel' hle, Nat.mod_eq_of_lt hq]⟩
  · refine ⟨q + n - h, by omega, ?_⟩
    rw [show h + (q + n - h) = q + n by omega, Nat.add_mod_right, Nat.mod_eq_of_lt hq]

theorem Reach.lt (hp : Reach n slots h p) : p < n := by
  obtain ⟨d, hd, rfl, -⟩ := hp
  exact Nat.mod_lt _ (by omega)

theorem Reach.self (hh : h < n) : Reach n slots h h :=
  ⟨0, by omega, by rw [Nat.add_zero, Nat.mod_eq_of_lt hh], by simp⟩

theorem Reach.mono (hp : Reach n slots h p) (hs : ∀ i < n, slots i ≠ .empty → slots' i ≠ .empty) :
    Reach n slots' h p := by
  obtain ⟨d, hd, rfl, hi⟩ := hp
  exact ⟨d, hd, rfl, fun i hid => hs _ (Nat.mod_lt _ (by omega)) (hi i hid)⟩

/-- A search that gets to `q` and goes on gets to what a search from `q` gets to. -/
theorem Reach.trans {q : Nat} (hq : Reach n slots h q) (hne : slots q ≠ .empty)
    (hp : Reach n slots q p) : Reach n slots h p := by
  obtain ⟨d, hd, rfl, hi⟩ := hq
  obtain ⟨c, hc, rfl, hj⟩ := hp
  by_cases hlt : d + c < n
  · refine ⟨d + c, hlt, by rw [Nat.mod_add_mod, Nat.add_assoc], fun i hidc => ?_⟩
    by_cases hid : i < d
    · exact hi i hid
    · have := hj (i - d) (by omega)
      rwa [Nat.mod_add_mod, show h + d + (i - d) = h + i by omega] at this
  · -- once around: the slot is one of those before `q`
    refine ⟨d + c - n, by omega, ?_, fun i hidc => hi i (by omega)⟩
    rw [Nat.mod_add_mod, show h + d + c = h + (d + c - n) + n by omega, Nat.add_mod_right]

/-- The home of a key that is stored somewhere else is not empty. -/
theorem Reach.ne_empty (hp : Reach n slots h p) (hh : h < n) (hne : p ≠ h) : slots h ≠ .empty := by
  obtain ⟨d, hd, rfl, hi⟩ := hp
  have hd0 : 0 < d := by
    refine Nat.pos_of_ne_zero fun hd0 => hne ?_
    rw [hd0, Nat.add_zero, Nat.mod_eq_of_lt hh]
  simpa [Nat.mod_eq_of_lt hh] using hi 0 hd0

namespace Valid

section

variable (hv : Valid n slots home)

include hv

variable {k : K}

/-- A search that ends at an empty slot, or after all slots, has seen every slot that could
hold the key. -/
theorem absent {d : Nat} (hseen : ∀ i < d, slots ((home k + i) % n) ≠ .used k)
    (hend : n ≤ d ∨ slots ((home k + d) % n) = .empty) : ∀ p < n, slots p ≠ .used k := by
  intro p hp hk
  obtain ⟨c, hc, rfl, hi⟩ := hv.reach p hp k hk
  rcases Nat.lt_trichotomy c d with hcd | rfl | hcd
  · exact hseen c hcd hk
  · rcases hend with hend | hend
    · omega
    · simp [hend] at hk
  · rcases hend with hend | hend
    · omega
    · exact hi d hcd hend

/-- A key is stored in a slot that its search gets to. -/
theorem store {p : Nat} (hp : Reach n slots (home k) p)
    (hother : ∀ q < n, slots q = .used k → q = p) :
    Valid n (update slots p (.used k)) home := by
  have hmono : ∀ i < n, slots i ≠ .empty → update slots p (.used k) i ≠ .empty := by
    intro i _ hi
    by_cases hip : i = p
    · subst hip
      simp
    · rwa [update_of_ne hip]
  constructor
  · intro q hq k' hk'
    by_cases hqp : q = p
    · subst hqp
      obtain rfl : k = k' := by simpa using hk'
      exact hp.mono hmono
    · rw [update_of_ne hqp] at hk'
      exact (hv.reach q hq k' hk').mono hmono
  intro a ha b hb k' hka hkb
  by_cases hap : a = p <;> by_cases hbp : b = p
  · rw [hap, hbp]
  · subst hap
    rw [update_of_ne hbp] at hkb
    obtain rfl : k = k' := by simpa using hka
    exact (hother b hb hkb).symm
  · subst hbp
    rw [update_of_ne hap] at hka
    obtain rfl : k = k' := by simpa using hkb
    exact hother a ha hka
  · rw [update_of_ne hap] at hka
    rw [update_of_ne hbp] at hkb
    exact hv.unique a ha b hb k' hka hkb

theorem delete (p : Nat) : Valid n (update slots p .deleted) home := by
  have hmono : ∀ i < n, slots i ≠ .empty → update slots p .deleted i ≠ .empty := by
    intro i _ hi
    by_cases hip : i = p
    · subst hip
      simp
    · rwa [update_of_ne hip]
  have hold : ∀ {q : Nat} {k : K}, update slots p .deleted q = .used k →
      slots q = .used k := by
    intro q k hq
    by_cases hqp : q = p
    · subst hqp
      simp at hq
    · rwa [update_of_ne hqp] at hq
  exact ⟨fun q hq k hk => (hv.reach q hq k (hold hk)).mono hmono,
    fun a ha b hb k hka hkb => hv.unique a ha b hb k (hold hka) (hold hkb)⟩

/-- A key changes places with the content of its home.  What was there is found behind it,
in the slot of the key. -/
theorem swap {p : Nat} (hp : p < n) (hk : slots p = .used k) (hh : home k < n) :
    Valid n (slots ∘ Equiv.swap (home k) p) home := by
  have hreach := hv.reach p hp k hk
  by_cases hph : p = home k
  · subst hph
    simpa using hv
  have hne := hreach.ne_empty hh hph
  have hlt : ∀ {q}, q < n → Equiv.swap (home k) p q < n := by
    intro q hq
    rw [Equiv.swap_apply_def]
    split_ifs <;> omega
  have hmono : ∀ i < n, slots i ≠ .empty → (slots ∘ Equiv.swap (home k) p) i ≠ .empty := by
    intro i _ hi
    rw [comp_apply, Equiv.swap_apply_def]
    split_ifs with h1 h2
    · simp [hk]
    · exact hne
    · exact hi
  constructor
  · intro q hq k' hk'
    rw [comp_apply, Equiv.swap_apply_def] at hk'
    refine .mono ?_ hmono
    split_ifs at hk' with h1 h2
    · obtain rfl : k = k' := by simpa [hk] using hk'
      rw [h1]
      exact .self hh
    · rw [h2]
      exact (hv.reach _ hh k' hk').trans hne hreach
    · exact hv.reach q hq k' hk'
  · intro a ha b hb k' hka hkb
    exact (Equiv.swap (home k) p).injective
      (hv.unique _ (hlt ha) _ (hlt hb) k' hka hkb)

end

end Valid

end Probe

end OpenSync.Lib
