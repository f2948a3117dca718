import Mathlib.Algebra.Order.Ring.Int
import Mathlib.Data.List.Nodup

/-!
# Circular doubly linked lists

A list is a ring of nodes with a root that is no element.  `Ring prev next root xs` says
that the links lead from the root through the elements `xs` and back, in both directions.
The lemmas are about the usual two operations, which write four links and two links.
-/

namespace OpenSync.Lib

open Function List

variable {α : Type}

/-- `b` comes right after `a` in the list. -/
def Adj : List α → α → α → Prop
  | x :: y :: r, a, b => (x = a ∧ y = b) ∨ Adj (y :: r) a b
  | _, _, _ => False

variable {xs : List α} {a b : α}

theorem Adj.mem (h : Adj xs a b) : a ∈ xs ∧ b ∈ xs := by
  induction xs with
  | nil => exact h.elim
  | cons x r ih =>
    cases r with
    | nil => exact h.elim
    | cons y r =>
      rcases h with ⟨rfl, rfl⟩ | h
      · simp
      · exact ⟨mem_cons_of_mem _ (ih h).1, mem_cons_of_mem _ (ih h).2⟩

theorem adj_append {ys : List α} :
    Adj (xs ++ ys) a b ↔ Adj xs a b ∨ Adj ys a b ∨ xs.getLast? = some a ∧ ys.head? = some b := by
  induction xs with
  | nil => simp [Adj]
  | cons x r ih =>
    cases r with
    | nil =>
      cases ys with
      | nil => simp [Adj]
      | cons y ys =>
        simp only [Adj, false_or, getLast?_singleton,
          Option.some.injEq, head?_cons]
        exact or_comm
    | cons y r =>
      simp only [cons_append, Adj] at ih ⊢
      rw [ih, getLast?_cons_cons, or_assoc]

theorem Adj.ne_last (hxs : xs.Nodup) (h : Adj xs a b) : xs.getLast? ≠ some a := by
  induction xs with
  | nil => exact h.elim
  | cons x r ih =>
    cases r with
    | nil => exact h.elim
    | cons y r =>
      rcases h with ⟨rfl, rfl⟩ | h
      · intro hl
        exact (nodup_cons.mp hxs).1 (mem_of_getLast? hl)
      · exact ih (nodup_cons.mp hxs).2 h

theorem Adj.ne_head (hxs : xs.Nodup) (h : Adj xs a b) : xs.head? ≠ some b := by
  cases xs with
  | nil => exact h.elim
  | cons x r =>
    cases r with
    | nil => exact h.elim
    | cons y r =>
      rw [head?_cons, ne_eq, Option.some_inj]
      rintro rfl
      rcases h with ⟨-, rfl⟩ | h
      · exact (nodup_cons.mp hxs).1 mem_cons_self
      · exact (nodup_cons.mp hxs).1 h.mem.2

/-- The links lead from the root through `xs` and back to the root. -/
structure Ring (prev next : α → α) (root : α) (xs : List α) : Prop where
  nodup : (root :: xs).Nodup
  links : ∀ {a b}, Adj (root :: xs ++ [root]) a b → next a = b ∧ prev b = a

namespace Ring

variable {prev next prev' next' : α → α} {root : α} {xs : List α}

/-- Only the links of the nodes of the ring matter. -/
theorem congr (h : Ring prev next root xs)
    (hn : ∀ a ∈ root :: xs, next' a = next a ∧ prev' a = prev a) : Ring prev' next' root xs := by
  refine ⟨h.nodup, fun {a b} hab => ?_⟩
  have hmem : ∀ {c}, c ∈ root :: xs ++ [root] → c ∈ root :: xs := by
    intro c hc
    simp only [mem_append, mem_cons] at hc ⊢
    tauto
  obtain ⟨ha, hb⟩ := hab.mem
  rw [(hn a (hmem ha)).1, (hn b (hmem hb)).2]
  exact h.links hab

theorem nil (hn : next root = root) (hp : prev root = root) : Ring prev next root [] := by
  refine ⟨by simp, fun {a b} hab => ?_⟩
  obtain ⟨rfl, rfl⟩ : root = a ∧ root = b := by simpa [Adj] using hab
  exact ⟨hn, hp⟩

theorem next_root (h : Ring prev next root xs) : next root = xs.headD root := by
  cases xs with
  | nil | cons x r => exact (h.links (.inl ⟨rfl, rfl⟩)).1

variable {l r : List α}

theorem next_eq {a : α} (h : Ring prev next root (l ++ a :: r)) : next a = r.headD root := by
  refine (h.links (b := r.headD root) ?_).1
  rw [show root :: (l ++ a :: r) ++ [root] = (root :: l ++ [a]) ++ (r ++ [root]) by simp,
    adj_append]
  refine .inr (.inr ⟨getLast?_concat, ?_⟩)
  cases r <;> simp

theorem prev_eq {a : α} (h : Ring prev next root (l ++ a :: r)) :
    (root :: l).getLast? = some (prev a) := by
  cases hl : (root :: l).getLast? with
  | none => simp at hl
  | some b =>
    refine congrArg some (h.links (a := b) (b := a) ?_).2.symm
    rw [show root :: (l ++ a :: r) ++ [root] = (root :: l) ++ (a :: r ++ [root]) by simp,
      adj_append]
    exact .inr (.inr ⟨hl, rfl⟩)

theorem prev_root (h : Ring prev next root xs) : (root :: xs).getLast? = some (prev root) := by
  cases hl : (root :: xs).getLast? with
  | none => simp at hl
  | some b =>
    refine congrArg some (h.links (a := b) (b := root) ?_).2.symm
    rw [adj_append]
    exact .inr (.inr ⟨hl, rfl⟩)

variable [DecidableEq α]

theorem insert (h : Ring prev next root xs) {z : α} (hz : z ∉ root :: xs) :
    Ring (update (update prev z (prev root)) root z)
      (update (update next z root) (prev root) z) root (xs ++ [z]) := by
  have hlast := h.prev_root
  have hzr : z ≠ root := fun he => hz (he ▸ mem_cons_self)
  have hpz : prev root ≠ z := fun he => hz (he ▸ mem_of_getLast? hlast)
  have hnodup : (root :: xs ++ [z]).Nodup := by
    rw [nodup_append]
    refine ⟨h.nodup, by simp, ?_⟩
    rintro a ha b hb rfl
    exact hz (mem_singleton.mp hb ▸ ha)
  refine ⟨hnodup, fun {a b} hab => ?_⟩
  rw [show root :: (xs ++ [z]) ++ [root] = (root :: xs) ++ ([z] ++ [root]) by simp,
    adj_append] at hab
  rcases hab with hab | hab | ⟨ha, hb⟩
  · -- an old link
    have hold := h.links (adj_append.mpr (.inl hab))
    have ha : a ≠ prev root := fun he => hab.ne_last h.nodup (he ▸ hlast)
    have hb : b ≠ root := fun he => hab.ne_head h.nodup (he ▸ rfl)
    have haz : a ≠ z := fun he => hz (he ▸ hab.mem.1)
    have hbz : b ≠ z := fun he => hz (he ▸ hab.mem.2)
    rw [update_of_ne ha, update_of_ne haz, update_of_ne hb, update_of_ne hbz]
    exact hold
  · obtain ⟨rfl, rfl⟩ : z = a ∧ root = b := by simpa [Adj] using hab
    rw [update_of_ne hpz.symm, update_self, update_self]
    exact ⟨rfl, rfl⟩
  · obtain rfl : prev root = a := Option.some.inj (hlast.symm.trans ha)
    obtain rfl : z = b := by simpa using hb
    rw [update_self, update_of_ne hzr, update_self]
    exact ⟨rfl, rfl⟩

theorem remove {z : α} (h : Ring prev next root (l ++ z :: r)) :
    Ring (update prev (next z) (prev z)) (update next (prev z) (next z)) root
      (l ++ r) := by
  have hprev := h.prev_eq
  have hnext := h.next_eq
  have hhead : (r ++ [root]).head? = some (next z) := by
    rw [hnext]
    cases r <;> simp
  have hnodup : (root :: (l ++ z :: r)).Nodup := h.nodup
  have hl : (root :: l).Nodup := by
    rw [← cons_append, nodup_append] at hnodup
    exact hnodup.1
  have hr : (r ++ [root]).Nodup := by
    have : (root :: r).Nodup := by
      refine hnodup.sublist (List.Sublist.cons_cons root ?_)
      exact (sublist_cons_self z r).trans (sublist_append_right l (z :: r))
    exact (perm_append_singleton root r).nodup_iff.mpr this
  have hdisj : ∀ {c}, c ∈ root :: l → c ∉ r := by
    intro c hc hcr
    rw [← cons_append, nodup_append] at hnodup
    exact hnodup.2.2 c hc c (mem_cons_of_mem z hcr) rfl
  refine ⟨?_, fun {a b} hab => ?_⟩
  · refine hnodup.sublist (List.Sublist.cons_cons root ?_)
    exact List.Sublist.append_left (sublist_cons_self z r) l
  rw [show root :: (l ++ r) ++ [root] = (root :: l) ++ (r ++ [root]) by simp, adj_append] at hab
  have hall : ∀ {c d}, Adj (root :: l) c d ∨ Adj (r ++ [root]) c d → next c = d ∧ prev d = c := by
    intro c d hcd
    refine h.links ?_
    rw [show root :: (l ++ z :: r) ++ [root] = (root :: l ++ [z]) ++ (r ++ [root]) by simp,
      adj_append, adj_append]
    tauto
  rcases hab with hab | hab | ⟨ha, hb⟩
  · have ha : a ≠ prev z := fun he => hab.ne_last hl (he ▸ hprev)
    have hb : b ≠ next z := by
      rintro rfl
      rcases mem_append.mp (mem_of_mem_head? hhead) with hmem | hmem
      · exact hdisj hab.mem.2 hmem
      · exact hab.ne_head hl (by rw [mem_singleton.mp hmem]; rfl)
    rw [update_of_ne ha, update_of_ne hb]
    exact hall (.inl hab)
  · have hb : b ≠ next z := fun he => hab.ne_head hr (he ▸ hhead)
    have ha : a ≠ prev z := by
      rintro rfl
      have hmem : prev z ∈ root :: l := mem_of_getLast? hprev
      rcases mem_append.mp hab.mem.1 with hmem' | hmem'
      · exact hdisj hmem hmem'
      · refine hab.ne_last hr ?_
        rw [mem_singleton.mp hmem']
        simp
    rw [update_of_ne ha, update_of_ne hb]
    exact hall (.inr hab)
  · obtain rfl : prev z = a := Option.some.inj (hprev.symm.trans ha)
    obtain rfl : next z = b := Option.some.inj (hhead.symm.trans hb)
    rw [update_self, update_self]
    exact ⟨rfl, rfl⟩

end Ring

end OpenSync.Lib
