import Mathlib.Algebra.Order.Ring.Int
import OpenSync.Ds.TreeRefine

/-!
# Trees with `int` keys

`ds_int_cmp` subtracts.  On a 32-bit machine its sign is that of the order of the integers as long
as the two keys are less than `2 ^ 31` apart, and it is not transitive beyond that.

`find_run_dsIntCmp` says that a lookup finds exactly the nodes of the tree, as long as every new
key is that close to the keys in the tree.  `find_run_dsIntCmp_lost` is a tree without this: the
key of a node that is in the tree is not found.
-/

namespace OpenSync.Ds.Tree

open List

variable {α : Type} [DecidableEq α] {fuel : Nat}

/-- `ds_int_cmp`, with the subtraction wrapping. -/
def dsIntCmp (a b : Int32) : Int := (a - b).toInt

/-- Two keys whose difference is an `int`, whichever is subtracted from the other. -/
def Near (a b : Int32) : Prop := a.toInt - b.toInt < 2 ^ 31 ∧ b.toInt - a.toInt < 2 ^ 31

theorem Near.symm {a b : Int32} (h : Near a b) : Near b a := ⟨h.2, h.1⟩

theorem dsIntCmp_eq {a b : Int32} (h : Near a b) : dsIntCmp a b = a.toInt - b.toInt := by
  obtain ⟨h1, h2⟩ := h
  rw [dsIntCmp, Int32.toInt_sub, Int.bmod_eq_of_le] <;> omega

/-- Only equal keys compare equal, at any distance. -/
theorem dsIntCmp_eq_zero {a b : Int32} : dsIntCmp a b = 0 ↔ a = b := by
  rw [dsIntCmp, ← Int32.toInt_zero, Int32.toInt_inj]
  constructor
  · intro h
    exact Int32.sub_eq_iff_eq_add.mp h |>.trans (Int32.zero_add b)
  · rintro rfl
    exact Int32.sub_self a

/-- On keys that are close to each other the comparator is an order. -/
theorem preorderOn_dsIntCmp {S : Int32 → Prop} (h : ∀ a b, S a → S b → Near a b) :
    Ordered.PreorderOn dsIntCmp S where
  flip := by
    intro a b ha hb
    rw [dsIntCmp_eq (h a b ha hb), dsIntCmp_eq (h b a hb ha)]
    omega
  trans := by
    intro a b c ha hb hc
    rw [dsIntCmp_eq (h a b ha hb), dsIntCmp_eq (h b c hb hc), dsIntCmp_eq (h a c ha hc)]
    omega

/-! ## Runs -/

/-- The key of a new node is not the key of a node of the tree. -/
def Op.NewKey (m : List (α × Int32)) : Op α Int32 → Prop
  | .insert _ key => ∀ x ∈ m, x.2 ≠ key
  | .remove _ => True

/-- The key of a new node is close to all keys of the tree. -/
def Op.NearKeys (m : List (α × Int32)) : Op α Int32 → Prop
  | .insert _ key => ∀ x ∈ m, Near x.2 key
  | .remove _ => True

/-- A tree whose keys are distinct and close to each other. -/
structure CloseKeys (m : List (α × Int32)) : Prop where
  distinct : ∀ x ∈ m, ∀ y ∈ m, x.2 = y.2 → x = y
  near : ∀ x ∈ m, ∀ y ∈ m, Near x.2 y.2

variable {m : List (α × Int32)}

theorem CloseKeys.apply {op : Op α Int32} (h : CloseKeys m) (hnew : op.NewKey m)
    (hnear : op.NearKeys m) : CloseKeys (op.apply m) := by
  cases op with
  | insert node key =>
    constructor
    · intro x hx y hy hxy
      rcases mem_cons.mp hx with rfl | hx <;> rcases mem_cons.mp hy with rfl | hy
      · rfl
      · exact absurd hxy.symm (hnew y hy)
      · exact absurd hxy (hnew x hx)
      · exact h.distinct x hx y hy hxy
    · intro x hx y hy
      rcases mem_cons.mp hx with rfl | hx <;> rcases mem_cons.mp hy with rfl | hy
      · constructor <;> simp
      · exact (hnear y hy).symm
      · exact hnear x hx
      · exact h.near x hx y hy
  | remove node =>
    exact ⟨fun x hx y hy => h.distinct x (mem_of_mem_filter hx) y (mem_of_mem_filter hy),
      fun x hx y hy => h.near x (mem_of_mem_filter hx) y (mem_of_mem_filter hy)⟩

omit [DecidableEq α] in
/-- The comparator orders the keys of a tree with close keys. -/
theorem CloseKeys.preorderOn (h : CloseKeys m) : Ordered.PreorderOn dsIntCmp (KeyIn m) := by
  refine preorderOn_dsIntCmp ?_
  rintro _ _ ⟨x, hx, rfl⟩ ⟨y, hy, rfl⟩
  exact h.near x hx y hy

/-- Along a run with close keys the comparator is always an order. -/
theorem CloseKeys.along {ops : List (Op α Int32)} (h : CloseKeys m)
    (hops : Along (fun m op => op.Ok m ∧ op.NewKey m ∧ op.NearKeys m) m ops) :
    Along (fun m op => op.Ok m ∧ op.Orders dsIntCmp m) m ops ∧ CloseKeys (members m ops) := by
  induction ops generalizing m with
  | nil => exact ⟨trivial, h⟩
  | cons op ops ih =>
    obtain ⟨⟨hok, hnew, hnear⟩, hrest⟩ := hops
    have h' := h.apply hnew hnear
    refine ⟨⟨⟨hok, ?_⟩, (ih h' hrest).1⟩, (ih h' hrest).2⟩
    cases op with
    | insert node key => exact h'.preorderOn
    | remove node => trivial

omit [DecidableEq α] in
/-- A lookup in a tree that holds nodes with close keys finds exactly those. -/
theorem Holds.find_dsIntCmp {t : Tree α Int32} (h : Holds dsIntCmp t m) (hkeys : CloseKeys m)
    (hfuel : m.length ≤ fuel) (key : Int32) :
    ∃ r, t.find dsIntCmp fuel key = some r ∧ ∀ node, r = some node ↔ (node, key) ∈ m := by
  obtain ⟨l, hrb, hsorted, hperm⟩ := h
  rw [← hperm.length_eq] at hfuel
  by_cases hin : KeyIn m key
  · -- the key is among the keys that the comparator orders
    obtain ⟨r, hrun, hr⟩ := find_mem hrb hsorted hkeys.preorderOn
      (fun y hy => ⟨y, hperm.mem_iff.mp hy, rfl⟩) hin hfuel
    refine ⟨r, hrun, fun node => ?_⟩
    rcases hr with ⟨⟨node', key'⟩, hx, hzero, rfl⟩ | ⟨rfl, hnone⟩
    · obtain rfl : key' = key := dsIntCmp_eq_zero.mp hzero
      have hx' := hperm.mem_iff.mp hx
      constructor
      · intro he
        exact Option.some.inj he ▸ hx'
      · intro hmem
        exact congrArg (fun x => some x.1) (hkeys.distinct _ hx' _ hmem rfl)
    · obtain ⟨x, hx, hxkey⟩ := hin
      exact absurd (dsIntCmp_eq_zero.mpr hxkey) (hnone x (hperm.mem_iff.mpr hx))
  · have hne : ∀ x ∈ l, dsIntCmp x.2 key ≠ 0 :=
      fun x hx hzero => hin ⟨x, hperm.mem_iff.mp hx, dsIntCmp_eq_zero.mp hzero⟩
    obtain ⟨r, hrun, ⟨x, hx, hzero, -⟩ | ⟨rfl, -⟩⟩ := hrb.find dsIntCmp key hfuel
    · exact absurd hzero (hne x hx)
    · refine ⟨none, hrun, fun node => ⟨by simp, fun hmem => absurd ⟨_, hmem, rfl⟩ hin⟩⟩

/-- After any sequence of calls in which every new key is new and close to the keys in
the tree, `ds_tree_find` returns the node of every key that is in the tree and
`NULL` for every other key. -/
theorem find_run_dsIntCmp (heap : α → TreeNode α Int32) (ops : List (Op α Int32))
    (hops : Along (fun m op => op.Ok m ∧ op.NewKey m ∧ op.NearKeys m) [] ops)
    (hfuel : 2 * ops.length + 2 ≤ fuel) :
    ∃ t, (empty heap).run dsIntCmp fuel ops = some t ∧
      ∀ key, ∃ r, t.find dsIntCmp fuel key = some r ∧
        ∀ node, r = some node ↔ (node, key) ∈ members [] ops := by
  have hempty : CloseKeys ([] : List (α × Int32)) := ⟨by simp, by simp⟩
  obtain ⟨horders, hclose⟩ := hempty.along hops
  have hlen := length_members_le ([] : List (α × Int32)) ops
  rw [length_nil] at hlen
  obtain ⟨t, hrun, ht⟩ := (holds_empty heap).run horders
    (by rwa [length_nil, Nat.zero_add] : 2 * (([] : List (α × Int32)).length + _) + 2 ≤ fuel)
  exact ⟨t, hrun, ht.find_dsIntCmp hclose (by omega)⟩

/-- Three keys around zero, one of them removed. -/
theorem find_run_dsIntCmp_near :
    Along (fun m op => op.Ok m ∧ op.NewKey m ∧ op.NearKeys m) []
        [.insert 0 (-5), .insert 1 7, .insert 2 0, .remove 1] ∧
      ∃ t, (empty (fun _ : Nat => freshNode (0 : Int32))).run dsIntCmp 10
          [.insert 0 (-5), .insert 1 7, .insert 2 0, .remove 1] = some t ∧
        ∀ key, ∃ r, t.find dsIntCmp 10 key = some r ∧ ∀ node, r = some node ↔
            (node, key) ∈ members [] [.insert 0 (-5), .insert 1 7, .insert 2 0, .remove 1] := by
  have hops : Along (fun m op => op.Ok m ∧ op.NewKey m ∧ op.NearKeys m) []
      [.insert 0 (-5), .insert 1 7, .insert 2 0, .remove 1] := by
    simp [Along, Op.Ok, Op.NewKey, Op.NearKeys, Op.apply, Near]
  exact ⟨hops, find_run_dsIntCmp _ _ hops (by decide)⟩

/-- Five calls after which a node of the tree is not found: the keys lie all around the
circle of the 32-bit integers. -/
def lostOps : List (Op Nat Int32) :=
  [.insert 0 1879048192, .insert 1 (-805306368), .insert 2 0, .insert 3 536870912, .remove 0]

theorem find_run_dsIntCmp_lost :
    Along (fun m op => op.Ok m ∧ op.NewKey m) [] lostOps ∧ (1, -805306368) ∈ members [] lostOps ∧
      ∃ t, (empty (fun _ : Nat => freshNode (0 : Int32))).run dsIntCmp 12 lostOps = some t ∧
        t.find dsIntCmp 12 (-805306368) = some none := by
  have hfind : ((empty (fun _ : Nat => freshNode (0 : Int32))).run dsIntCmp 12 lostOps).bind
      (fun t => t.find dsIntCmp 12 (-805306368)) = some none := by
    decide +kernel
  refine ⟨?_, by decide +kernel, Option.bind_eq_some_iff.mp hfind⟩
  simp only [lostOps, Along, Op.Ok, Op.NewKey]
  decide +kernel

end OpenSync.Ds.Tree
