import Mathlib.Data.List.Nodup

/-!
# Order of last use

A history is a list of events, the newest first, and an event is a use of some key or of none.
`lastUse h a` is the time of the last use of `a`, and `Recent h l` says that a list of keys is
in the order of last use, the newest first.
-/

namespace OpenSync.Lib

variable {K : Type} [DecidableEq K]

/-- The time of the last use of a key, counted from one; zero without any. -/
def lastUse : List (Option K) → K → Nat
  | [], _ => 0
  | e :: h, a => if e = some a then h.length + 1 else lastUse h a

theorem lastUse_le (h : List (Option K)) (a : K) : lastUse h a ≤ h.length := by
  induction h with
  | nil => exact Nat.le_refl 0
  | cons e h ih =>
    rw [lastUse]
    split
    · exact Nat.le_refl _
    · exact Nat.le_succ_of_le ih

/-- The keys are in the order of last use. -/
def Recent (h : List (Option K)) (l : List K) : Prop :=
  l.Pairwise fun a b => lastUse h b < lastUse h a

namespace Recent

variable {h : List (Option K)} {l l' : List K} {a : K}

theorem nil (h : List (Option K)) : Recent h [] := List.Pairwise.nil

theorem sublist (hl : Recent h l) (hs : l'.Sublist l) : Recent h l' := List.Pairwise.sublist hs hl

theorem idle (hl : Recent h l) : Recent (none :: h) l := by
  refine hl.imp fun {a b} hab => ?_
  simpa [lastUse] using hab

theorem cons (hl : Recent h l) (ha : a ∉ l) : Recent (some a :: h) (a :: l) := by
  have hne : ∀ b ∈ l, lastUse (some a :: h) b = lastUse h b := by
    intro b hb
    have : a ≠ b := fun he => ha (he ▸ hb)
    simp [lastUse, this]
  refine List.pairwise_cons.mpr ⟨fun b hb => ?_, ?_⟩
  · rw [hne b hb]
    have := lastUse_le h b
    simp only [lastUse, if_true]
    omega
  · refine List.Pairwise.imp_of_mem (fun {b c} hb hc hbc => ?_) hl
    rwa [hne b hb, hne c hc]

end Recent

end OpenSync.Lib
