import Mathlib.Data.List.Nodup

/-!
# Arbitration between steering policies

The policies stand in the list of a stack of `ow_steer_policy_stack.c`, the most important one
first.  A policy asks the mediator of `ow_steer_bm.c` to trigger the executor, which is granted
unless the active policy is more important.  A `NULL` pointer that the source follows is `none`.
-/

namespace OpenSync.Ow.PolicyStack

open List Function

variable {P S : Type} [DecidableEq P] [DecidableEq S]

/-- The stack that each policy points to and the list of each stack. -/
structure Stacks (P S : Type) where
  stack : P → Option S
  list : S → List P
  mem_list : ∀ p s, p ∈ list s ↔ stack p = some s
  nodup : ∀ s, (list s).Nodup

namespace Stacks

variable (w : Stacks P S) (s : S) (p : P) (a b : Option P)

def empty : Stacks P S := ⟨fun _ => none, fun _ => [], by simp, by simp⟩

/-- `ow_steer_policy_stack_add`, with its assertion. -/
def add : Option (Stacks P S) :=
  if h : w.stack p = none then
    some {
      stack := update w.stack p (some s)
      list := update w.list s ((w.list s).concat p)
      mem_list := by
        intro q t
        rcases eq_or_ne t s with rfl | ht <;> rcases eq_or_ne q p with rfl | hq <;>
          simp [*, w.mem_list, Ne.symm]
      nodup := (forall_update_iff w.list fun _ => Nodup).mpr
        ⟨(w.nodup s).concat (by simp [w.mem_list, h]), fun t _ => w.nodup t⟩ }
  else none

/-- `ow_steer_policy_stack_remove` of a policy of the stack. -/
def remove : Option (Stacks P S) :=
  if h : w.stack p = some s then
    some {
      stack := update w.stack p none
      list := update w.list s ((w.list s).erase p)
      mem_list := by
        intro q t
        rcases eq_or_ne t s with rfl | ht <;> rcases eq_or_ne q p with rfl | hq <;>
          simp [*, (w.nodup _).mem_erase_iff, w.mem_list, Ne.symm]
      nodup := (forall_update_iff w.list fun _ => Nodup).mpr
        ⟨(w.nodup s).erase p, fun t _ => w.nodup t⟩ }
  else none

/-- The policy if it is in a stack. -/
def inStack : Option P := a.filter fun p => (w.stack p).isSome

/-- `ow_steer_policy_get_more_important`. -/
def getMoreImportant : Option (Option P) :=
  let a := w.inStack a
  let b := w.inStack b
  if a.isSome ∧ b.isSome ∧ a.bind w.stack ≠ b.bind w.stack then some none
  else if (if a.isSome then a.bind w.stack else b.bind w.stack).isNone then some none
  else (a.bind w.stack).map fun s => (w.list s).find? fun i => some i = a ∨ some i = b

/-- Which of two policies counts more: the first in the list of their stack, or the only one in a
stack. -/
def moreImportant : Option P :=
  match w.inStack a, w.inStack b with
  | none, b => b
  | some p, none => some p
  | some p, some q =>
    if w.stack p ≠ w.stack q then none
    else
      let l := (w.stack p).elim [] w.list
      some (if l.idxOf p ≤ l.idxOf q then p else q)

omit [DecidableEq S] in
theorem find?_eq_idxOf {l : List P} {p : P} (q : P) (h : p ∈ l) :
    l.find? (fun i => i = p ∨ i = q) = some (if l.idxOf p ≤ l.idxOf q then p else q) := by
  induction l with
  | nil => simp at h
  | cons i l ih =>
    by_cases hp : i = p
    · simp [hp]
    have hmem : p ∈ l := (mem_cons.mp h).resolve_left (Ne.symm hp)
    by_cases hq : i = q
    · subst hq
      simp [hp]
    · simpa [hp, hq] using ih hmem

/-- The source finds the policy unless it has to look for the second one in the stack of the
first, which has none. -/
theorem getMoreImportant_eq : w.getMoreImportant a b =
    if w.inStack a = none → w.inStack b = none then some (w.moreImportant a b) else none := by
  have hstack : ∀ a p, w.inStack a = some p → ∃ s, w.stack p = some s ∧ p ∈ w.list s := by
    intro a p h
    obtain ⟨s, hs⟩ := Option.isSome_iff_exists.mp (Option.filter_eq_some_iff.mp h).2
    exact ⟨s, hs, (w.mem_list p s).mpr hs⟩
  simp only [getMoreImportant, moreImportant]
  cases ha : w.inStack a with
  | none =>
    cases hb : w.inStack b with
    | none => simp
    | some q =>
      obtain ⟨t, ht, -⟩ := hstack b q hb
      simp [ht]
  | some p =>
    obtain ⟨s, hs, hmem⟩ := hstack a p ha
    cases hb : w.inStack b with
    | none => simpa [hs] using find?_eq_idxOf p hmem
    | some q =>
      obtain ⟨t, ht, -⟩ := hstack b q hb
      by_cases hst : s = t
      · simpa [hs, ht, hst] using find?_eq_idxOf q (hst ▸ hmem)
      · simp [hs, ht, hst]

end Stacks

/-! ## The mediator -/

/-- `struct ow_steer_bm_sta`: the policies with an action and the active one.  The actions work on
the kick state and are left out. -/
structure Sta (P : Type) where
  hwm2g : P
  lwmXing : P
  bottomLwm2gXing : P
  forceKick : P
  active : Option P

namespace Sta

variable (w : Stacks P S) (sta : Sta P) (p : P)

/-- The mediator has an action for the policy. -/
def handles : Bool :=
  p = sta.hwm2g ∨ p = sta.lwmXing ∨ p = sta.bottomLwm2gXing ∨ p = sta.forceKick

/-- The end of the trigger, where the policy has become the active one. -/
def activate : Bool × Sta P := (sta.handles p, { sta with active := p })

/-- `ow_steer_bm_policy_mediator_trigger_executor_cb`. -/
def trigger : Option (Bool × Sta P) :=
  match sta.active with
  | none => some (sta.activate p)
  | some q => (w.getMoreImportant p q).map fun important =>
    if important ≠ some p then (false, sta) else sta.activate p

/-- `ow_steer_bm_policy_mediator_dismiss_executor_cb`. -/
def dismiss : Sta P := if sta.active ≠ some p then sta else { sta with active := none }

/-- A trigger that is granted is not below the active policy, and one that is not granted leaves
the active policy. -/
def TriggerOk : Prop :=
  ∃ ok sta', sta.trigger w p = some (ok, sta') ∧
    (ok = true → ∀ q, sta.active = some q → q ≠ p → w.moreImportant p q ≠ some q) ∧
    (ok = false → sta'.active = sta.active)

/-- The policy is in the stack if the active one is, and it has an action unless the active one
stays. -/
def Proper : Prop :=
  (∀ q, sta.active = some q → w.inStack p = none → w.inStack q = none) ∧
    (sta.handles p = false → ∃ q, sta.active = some q ∧ (q = p ∨ w.moreImportant p q ≠ some p))

theorem triggerOk_iff : sta.TriggerOk w p ↔ sta.Proper w p := by
  rw [TriggerOk, Proper, trigger]
  cases hactive : sta.active with
  | none => cases hhandles : sta.handles p <;> simp [activate, hhandles]
  | some q =>
    simp only [w.getMoreImportant_eq p q]
    by_cases hin : w.inStack p = none → w.inStack q = none
    · by_cases himp : w.moreImportant p q = some p
      · cases hhandles : sta.handles p <;> simp [himp, activate, hhandles, eq_comm]
      · simp [himp, hactive]
    · simp [hin]

end Sta

/-! ## Runs -/

inductive Op (P S : Type)
  | add (s : S) (p : P)
  | remove (s : S) (p : P)
  | trigger (p : P)
  | dismiss (p : P)

def step (w : Stacks P S) (sta : Sta P) : Op P S → Option (Stacks P S × Sta P)
  | .add s p => (w.add s p).map (·, sta)
  | .remove s p => (w.remove s p).map (·, sta)
  | .trigger p => (sta.trigger w p).map (w, ·.2)
  | .dismiss p => some (w, sta.dismiss p)

/-- The property holds at every trigger of a run. -/
def AtTriggers (Q : Stacks P S → Sta P → P → Prop) :
    List (Op P S) → Stacks P S → Sta P → Prop
  | [], _, _ => True
  | op :: ops, w, sta => (∀ p, op = .trigger p → Q w sta p) ∧
    ∀ w' sta', step w sta op = some (w', sta') → AtTriggers Q ops w' sta'

/-- The source finds the more important policy, and arbitrates by it, exactly where no pointer is
missing and no policy without an action gets its turn. -/
theorem arbitration_iff (w : Stacks P S) (sta : Sta P) (ops : List (Op P S)) :
    (∀ (w : Stacks P S) a b, w.getMoreImportant a b = some (w.moreImportant a b) ↔
      (w.inStack a = none → w.inStack b = none)) ∧
      (AtTriggers (fun w sta p => sta.TriggerOk w p) ops w sta ↔
        AtTriggers (fun w sta p => sta.Proper w p) ops w sta) := by
  refine ⟨fun w a b => ?_, by simp only [Sta.triggerOk_iff]⟩
  rw [w.getMoreImportant_eq]
  split_ifs with h
  · exact iff_of_true rfl h
  · exact iff_of_false (by simp) h

/-- A trigger by a policy that has left the stack reads from no stack, and one by a policy without
an action is refused and takes the place of the active policy. -/
theorem trigger_defects :
    (Stacks.empty.add () 1).map (fun w : Stacks Nat Unit => w.getMoreImportant (some 0) (some 1)) =
        some none ∧
      (Sta.trigger (Stacks.empty : Stacks Nat Unit) ⟨1, 2, 3, 4, none⟩ 5).map
        (fun r => (r.1, r.2.active)) = some (false, some 5) := by
  decide

end OpenSync.Ow.PolicyStack
