import OpenSync.Ds.Ordered
import OpenSync.Ds.TreeInsert
import OpenSync.Ds.TreeWalk

/-!
# The tree is an ordered container

A red-black tree whose elements are `l` in order does what `OpenSync.Ds.Ordered` says of `l`.

The second half is about whole runs.  An operation inserts a fresh node or removes a node of the
tree, `members` is the bookkeeping of what is in the tree, and `Holds.run` carries the invariant
through any sequence of operations.  The comparator need only be a preorder on the keys that are
in the tree together; `Orders` says so for one operation.
-/

namespace OpenSync.Ds.Tree

open OpenSync.Lib List Ordered

variable {α κ : Type} [DecidableEq α] {cmp : κ → κ → Int} {t : Tree α κ} {l : List (α × κ)}
  {fuel : Nat}

omit [DecidableEq α] in
theorem RedBlack.nodup (h : RedBlack t l) : (l.map Prod.fst).Nodup := by
  obtain ⟨s, -, hs, -, -⟩ := h
  exact hs.nodup

/-! ## One operation -/

/-- The keys of a list of elements. -/
def KeyIn (l : List (α × κ)) (k : κ) : Prop := ∃ x ∈ l, x.2 = k

omit [DecidableEq α] in
/-- The place that the descent finds keeps a sorted list sorted. -/
theorem Place.sorted {l1 l2 : List (α × κ)} {node : α} {key : κ}
    (hplace : Place cmp key l1 l2) (hsorted : Ordered.Sorted Prod.snd cmp (l1 ++ l2))
    (hcmp : Ordered.PreorderOn cmp (KeyIn ((node, key) :: (l1 ++ l2)))) :
    Ordered.Sorted Prod.snd cmp (l1 ++ (node, key) :: l2) ∧
      Ordered.insert Prod.snd cmp (l1 ++ l2) (node, key) = l1 ++ (node, key) :: l2 := by
  have hkey : KeyIn ((node, key) :: (l1 ++ l2)) key := ⟨_, mem_cons_self, rfl⟩
  have hin : ∀ y ∈ l1 ++ l2, KeyIn ((node, key) :: (l1 ++ l2)) y.2 :=
    fun y hy => ⟨y, mem_cons_of_mem _ hy, rfl⟩
  obtain ⟨h1, h2, -⟩ := pairwise_append.mp hsorted
  have hleft : ∀ y ∈ l1, cmp y.2 key < 0 :=
    Ordered.Sorted.lt_of_getLast hcmp h1 (fun y hy => hin y (mem_append_left _ hy)) hkey
      hplace.left
  have hright : ∀ y ∈ l2, cmp key y.2 ≤ 0 :=
    Ordered.Sorted.le_of_head hcmp h2 (fun y hy => hin y (mem_append_right _ hy)) hkey
      hplace.right
  exact ⟨Ordered.Sorted.middle hsorted hleft hright, insert_eq hleft hplace.right⟩

/-- `ds_tree_insert` is the insertion into the sorted list. -/
theorem insert_refines {node : α} {key : κ} (h : RedBlack t l)
    (hsorted : Ordered.Sorted Prod.snd cmp l)
    (hcmp : Ordered.PreorderOn cmp (KeyIn ((node, key) :: l))) (hnot : node ∉ l.map Prod.fst)
    (hfuel : 2 * l.length + 2 ≤ fuel) :
    ∃ t', t.insert cmp fuel node key = some t' ∧
      RedBlack t' (Ordered.insert Prod.snd cmp l (node, key)) ∧
      Ordered.Sorted Prod.snd cmp (Ordered.insert Prod.snd cmp l (node, key)) := by
  obtain ⟨t', l1, l2, hrun, rfl, hplace, hrb, -⟩ := insert_spec cmp key h hnot hfuel
  obtain ⟨hsorted', heq⟩ := hplace.sorted hsorted hcmp
  rw [heq]
  exact ⟨t', hrun, hrb, hsorted'⟩

/-- `ds_tree_remove` is the removal from the list. -/
theorem remove_refines [DecidableEq κ] {x : α × κ} (h : RedBlack t l) (hx : x ∈ l)
    (hfuel : l.length ≤ fuel) :
    ∃ t', t.remove fuel x.1 = some t' ∧ RedBlack t' (Ordered.remove l x) := by
  have hnodup := h.nodup
  obtain ⟨t', l1, l2, hrun, hsplit, hrb, -⟩ := remove_spec h hx hfuel
  refine ⟨t', hrun, ?_⟩
  have hl1 : x ∉ l1 := by
    have := List.Nodup.of_map _ hnodup
    rw [hsplit, nodup_middle, nodup_cons, mem_append, not_or] at this
    exact this.1.1
  rw [hsplit, remove_middle hl1]
  exact hrb

/-- A black root with two black children, the right one with a red child. -/
def fourNodes : Tree Nat Int where
  root := some 4
  ndel := 0
  heap
    | 2 => ⟨20, .black, some 4, sides false none none⟩
    | 4 => ⟨40, .black, none, sides false (some 2) (some 6)⟩
    | 6 => ⟨60, .black, some 4, sides false none (some 7)⟩
    | _ => ⟨70, .red, some 6, sides false none none⟩

theorem redBlack_fourNodes : RedBlack fourNodes [(2, 20), (4, 40), (6, 60), (7, 70)] := by
  refine ⟨.node false (.node false .leaf (2, 20) .leaf) (4, 40)
    (.node false .leaf (6, 60) (.node true .leaf (7, 70) .leaf)), 2, ⟨rfl, ?_, rfl, by decide⟩,
    rfl, ?_⟩
  · exact ⟨rfl, ⟨rfl, trivial, trivial⟩, rfl, trivial, rfl, trivial, trivial⟩
  · exact ⟨1, rfl, ⟨0, rfl, rfl, rfl⟩, 0, rfl, rfl, rfl, rfl, rfl, rfl⟩

/-- The root goes.  A black leaf takes its place, and the tree is balanced again. -/
theorem remove_refines_root :
    ∃ t', fourNodes.remove 4 4 = some t' ∧ RedBlack t' [(2, 20), (6, 60), (7, 70)] := by
  obtain ⟨t', hrun, hrb⟩ :=
    remove_refines redBlack_fourNodes (x := (4, 40)) (by decide) (le_refl 4)
  have hlist : Ordered.remove [(2, 20), (4, 40), (6, 60), (7, 70)] (4, 40) =
      [(2, 20), (6, 60), ((7 : Nat), (70 : Int))] := by decide
  exact ⟨t', hrun, hlist ▸ hrb⟩

omit [DecidableEq α] in
/-- A lookup that ends in a gap of a sorted list has missed nothing. -/
theorem Gap.cmp_ne {key : κ} {l1 l2 : List (α × κ)} (hgap : Gap cmp key l1 l2)
    (hsorted : Ordered.Sorted Prod.snd cmp (l1 ++ l2)) {S : κ → Prop}
    (hcmp : Ordered.PreorderOn cmp S) (hS : ∀ y ∈ l1 ++ l2, S y.2) (hkey : S key) :
    ∀ y ∈ l1 ++ l2, cmp y.2 key ≠ 0 := by
  intro y hy
  obtain ⟨h1, h2, -⟩ := pairwise_append.mp hsorted
  rcases mem_append.mp hy with hy | hy
  · have hlt := Ordered.Sorted.lt_of_getLast hcmp h1
      (fun z hz => hS z (mem_append_left _ hz)) hkey hgap.left y hy
    omega
  -- from the first element above the key on, everything is above the key
  cases l2 with
  | nil => simp at hy
  | cons z l2 =>
    have hzS : S z.2 := hS z (by simp)
    have hzkey : cmp key z.2 < 0 := (hcmp.flip z.2 key hzS hkey).mp (hgap.right z rfl)
    have hyS : S y.2 := hS y (mem_append_right _ hy)
    have hpos : 0 < cmp y.2 key := by
      refine (hcmp.flip y.2 key hyS hkey).mpr ?_
      rcases mem_cons.mp hy with rfl | hmem
      · exact hzkey
      · exact hcmp.lt_of_lt_of_le hkey hzS hyS hzkey ((pairwise_cons.mp h2).1 y hmem)
    omega

section

variable {S : κ → Prop}
  (h : RedBlack t l) (hsorted : Ordered.Sorted Prod.snd cmp l) (hcmp : Ordered.PreorderOn cmp S)

include h hsorted hcmp

omit [DecidableEq α]

/-- `ds_tree_find` finds an element with the key if there is one. -/
theorem find_mem {key : κ} (hS : ∀ y ∈ l, S y.2) (hkey : S key) (hfuel : l.length ≤ fuel) :
    ∃ r, t.find cmp fuel key = some r ∧
      ((∃ x ∈ l, cmp x.2 key = 0 ∧ r = some x.1) ∨ (r = none ∧ ∀ y ∈ l, cmp y.2 key ≠ 0)) := by
  obtain ⟨r, hrun, hfound | ⟨rfl, l1, l2, rfl, hgap⟩⟩ := h.find cmp key hfuel
  · exact ⟨r, hrun, .inl hfound⟩
  · exact ⟨none, hrun, .inr ⟨rfl, hgap.cmp_ne hsorted hcmp hS hkey⟩⟩

/-- With distinct keys `ds_tree_find` is the lookup in the list. -/
theorem find_refines {key : κ} (hS : ∀ y ∈ l, S y.2) (hkey : S key)
    (huniq : ∀ x ∈ l, ∀ y ∈ l, cmp x.2 key = 0 → cmp y.2 key = 0 → x = y)
    (hfuel : l.length ≤ fuel) :
    t.find cmp fuel key = some ((Ordered.find Prod.snd cmp l key).map Prod.fst) := by
  obtain ⟨r, hrun, ⟨x, hx, hzero, rfl⟩ | ⟨rfl, hnone⟩⟩ := find_mem h hsorted hcmp hS hkey hfuel
  · rw [hrun, (find_eq_some_iff huniq).mpr ⟨hx, hzero⟩]
    rfl
  have hfind : Ordered.find Prod.snd cmp l key = none :=
    find?_eq_none.mpr (fun y hy => by simpa using hnone y hy)
  rw [hrun, hfind]
  rfl

end

theorem find_refines_fourNodes :
    fourNodes.find (· - ·) 4 70 = some (some 7) ∧ fourNodes.find (· - ·) 4 65 = some none := by
  have hcmp : Ordered.PreorderOn (fun x y : Int => x - y) (fun _ => True) := ⟨by omega, by omega⟩
  exact ⟨find_refines redBlack_fourNodes (by simp [Ordered.Sorted]) hcmp (by simp) trivial
      (by decide) (le_refl 4),
    find_refines redBlack_fourNodes (by simp [Ordered.Sorted]) hcmp (by simp) trivial
      (by decide) (le_refl 4)⟩

/-! ## Runs -/

/-- A call of `ds_tree_insert` or `ds_tree_remove`. -/
inductive Op (α κ : Type) where
  | insert (node : α) (key : κ)
  | remove (node : α)

def step (cmp : κ → κ → Int) (fuel : Nat) (t : Tree α κ) : Op α κ → Option (Tree α κ)
  | .insert node key => t.insert cmp fuel node key
  | .remove node => t.remove fuel node

def run (cmp : κ → κ → Int) (fuel : Nat) (t : Tree α κ) (ops : List (Op α κ)) : Option (Tree α κ) :=
  ops.foldlM (step cmp fuel) t

/-- What is in the tree after a call, if `m` was in it before. -/
def Op.apply (m : List (α × κ)) : Op α κ → List (α × κ)
  | .insert node key => (node, key) :: m
  | .remove node => m.filter (fun x => x.1 ≠ node)

/-- What is in the tree after some calls: the inserted nodes without the removed ones. -/
def members (m : List (α × κ)) (ops : List (Op α κ)) : List (α × κ) := ops.foldl Op.apply m

/-- A call is used as intended: a new node is not in the tree, and only nodes of the
tree are removed. -/
def Op.Ok (m : List (α × κ)) : Op α κ → Prop
  | .insert node _ => node ∉ m.map Prod.fst
  | .remove node => node ∈ m.map Prod.fst

/-- A new key can be compared with the keys that are in the tree. -/
def Op.Orders (cmp : κ → κ → Int) (m : List (α × κ)) : Op α κ → Prop
  | .insert node key => Ordered.PreorderOn cmp (KeyIn ((node, key) :: m))
  | .remove _ => True

/-- Every call of the sequence meets the condition `P` on what is in the tree. -/
def Along (P : List (α × κ) → Op α κ → Prop) : List (α × κ) → List (Op α κ) → Prop
  | _, [] => True
  | m, op :: ops => P m op ∧ Along P (op.apply m) ops

/-- `ds_tree_init`. -/
def empty (heap : α → TreeNode α κ) : Tree α κ := ⟨none, 0, heap⟩

omit [DecidableEq α] in
theorem redBlack_empty (heap : α → TreeNode α κ) : RedBlack (empty heap) [] :=
  ⟨.leaf, 0, ⟨rfl, trivial, rfl, nodup_nil⟩, rfl, rfl⟩

/-- The tree is a red-black tree with the elements `m` in the order of the
comparator. -/
def Holds (cmp : κ → κ → Int) (t : Tree α κ) (m : List (α × κ)) : Prop :=
  ∃ l, RedBlack t l ∧ Ordered.Sorted Prod.snd cmp l ∧ l.Perm m

variable {m : List (α × κ)} {ops : List (Op α κ)}

theorem RedBlack.remove {node : α} (h : RedBlack t l) (hperm : l.Perm m)
    (hmem : node ∈ m.map Prod.fst) (hfuel : l.length ≤ fuel) :
    ∃ t' l', t.remove fuel node = some t' ∧ RedBlack t' l' ∧ l'.Sublist l ∧
      l'.Perm (m.filter fun y => y.1 ≠ node) := by
  obtain ⟨x, hx, rfl⟩ := mem_map.mp hmem
  have hnodup := h.nodup
  obtain ⟨t', l1, l2, hrun, rfl, h', -⟩ := remove_spec h (hperm.mem_iff.mpr hx) hfuel
  refine ⟨t', l1 ++ l2, hrun, h', (sublist_cons_self x l2).append_left l1, ?_⟩
  rw [map_append, map_cons, nodup_middle, nodup_cons, ← map_append] at hnodup
  have hfilter := hperm.filter fun y => y.1 ≠ x.1
  rw [filter_append, filter_cons_of_neg (by simp), ← filter_append, filter_eq_self.mpr] at hfilter
  · exact hfilter
  · exact fun y hy => decide_eq_true fun he => hnodup.1 (he ▸ mem_map_of_mem hy)

theorem Holds.step {op : Op α κ} (h : Holds cmp t m) (hok : op.Ok m)
    (horders : op.Orders cmp m) (hfuel : 2 * m.length + 2 ≤ fuel) :
    ∃ t', t.step cmp fuel op = some t' ∧ Holds cmp t' (op.apply m) := by
  obtain ⟨l, hrb, hsorted, hperm⟩ := h
  rw [← hperm.length_eq] at hfuel
  cases op with
  | insert node key =>
    have hcmp : Ordered.PreorderOn cmp (KeyIn ((node, key) :: l)) :=
      horders.mono fun k hk => by simpa [KeyIn, (hperm.cons _).mem_iff] using hk
    have hnot : node ∉ l.map Prod.fst := by
      rw [(hperm.map Prod.fst).mem_iff]
      exact hok
    obtain ⟨t', hrun, hrb', hsorted'⟩ := insert_refines hrb hsorted hcmp hnot hfuel
    exact ⟨t', hrun, _, hrb', hsorted', (insert_perm ..).trans (hperm.cons _)⟩
  | remove node =>
    obtain ⟨t', l', hrun, hrb', hsub, hperm'⟩ := hrb.remove hperm hok (by omega : l.length ≤ fuel)
    exact ⟨t', hrun, l', hrb', hsorted.sublist hsub, hperm'⟩

theorem length_apply_le (m : List (α × κ)) (op : Op α κ) : (op.apply m).length ≤ m.length + 1 := by
  cases op with
  | insert node key => exact le_rfl
  | remove node => exact (length_filter_le _ m).trans (Nat.le_succ _)

/-- What every call keeps, any sequence of calls keeps. -/
theorem run_of_step {P : Tree α κ → List (α × κ) → Prop} {Q : List (α × κ) → Op α κ → Prop}
    (hstep : ∀ {t m op}, P t m → Q m op → 2 * m.length + 2 ≤ fuel →
      ∃ t', t.step cmp fuel op = some t' ∧ P t' (op.apply m))
    (h : P t m) (hops : Along Q m ops)
    (hfuel : 2 * (m.length + ops.length) + 2 ≤ fuel) :
    ∃ t', t.run cmp fuel ops = some t' ∧ P t' (members m ops) := by
  induction ops generalizing t m with
  | nil => exact ⟨t, rfl, h⟩
  | cons op ops ih =>
    rw [length_cons] at hfuel
    have hlen := length_apply_le m op
    obtain ⟨t1, hstep1, h1⟩ := hstep h hops.1 (by omega)
    obtain ⟨t', hrun, h'⟩ := ih h1 hops.2 (by omega)
    refine ⟨t', ?_, h'⟩
    rw [Tree.run, foldlM_cons, hstep1]
    exact hrun

theorem Holds.run (h : Holds cmp t m)
    (hops : Along (fun m op => op.Ok m ∧ op.Orders cmp m) m ops)
    (hfuel : 2 * (m.length + ops.length) + 2 ≤ fuel) :
    ∃ t', t.run cmp fuel ops = some t' ∧ Holds cmp t' (members m ops) :=
  run_of_step (fun h hop => h.step hop.1 hop.2) h hops hfuel

/-- A condition that holds at every call of a sequence. -/
theorem Along.mono {P Q : List (α × κ) → Op α κ → Prop}
    (h : Along P m ops) (hPQ : ∀ m op, P m op → Q m op) :
    Along Q m ops := by
  induction ops generalizing m with
  | nil => trivial
  | cons op ops ih => exact ⟨hPQ m op h.1, ih h.2⟩

theorem Along.take {P : List (α × κ) → Op α κ → Prop}
    (h : Along P m ops) (k : Nat) : Along P m (ops.take k) := by
  induction ops generalizing m k with
  | nil => rwa [take_nil]
  | cons op ops ih =>
    cases k with
    | zero => trivial
    | succ k => exact ⟨h.1, ih h.2 k⟩

theorem length_members_le (m : List (α × κ)) (ops : List (Op α κ)) :
    (members m ops).length ≤ m.length + ops.length := by
  induction ops generalizing m with
  | nil => exact le_rfl
  | cons op ops ih =>
    have hrest := ih (op.apply m)
    have hlen := length_apply_le m op
    rw [members] at hrest ⊢
    rw [foldl_cons, length_cons]
    omega

omit [DecidableEq α] in
theorem holds_empty (heap : α → TreeNode α κ) : Holds cmp (empty heap) [] :=
  ⟨[], redBlack_empty heap, .nil, .refl _⟩

/-- After every call of any sequence from an empty tree, with a comparator that is a
total preorder, the tree is red-black and passes `ds_tree_check`, and the traversal visits exactly
the nodes that were inserted and not removed, in the order of the comparator. -/
theorem run_empty_checked (hcmp : Ordered.PreorderOn cmp (fun _ => True))
    (heap : α → TreeNode α κ) (ops : List (Op α κ)) (hops : Along Op.Ok [] ops)
    (hfuel : 2 * ops.length + 2 ≤ fuel) (k : Nat) :
    ∃ t, (empty heap).run cmp fuel (ops.take k) = some t ∧
      ∃ (l : List (α × κ)) (n : Nat), RedBlack t l ∧ t.check fuel = some (n : Int) ∧
        t.walk fuel = some (l.map Prod.fst) ∧ l.Pairwise (fun x y => cmp x.2 y.2 ≤ 0) ∧
        l.Perm (members [] (ops.take k)) := by
  have horders : ∀ (m : List (α × κ)) (op : Op α κ), op.Ok m → op.Ok m ∧ op.Orders cmp m := by
    intro m op hok
    refine ⟨hok, ?_⟩
    cases op with
    | insert node key => exact hcmp.mono (fun _ _ => trivial)
    | remove node => trivial
  have hlen : (ops.take k).length ≤ ops.length := by
    rw [length_take]
    exact Nat.min_le_right ..
  have hmembers := length_members_le ([] : List (α × κ)) (ops.take k)
  rw [length_nil] at hmembers
  obtain ⟨t, hrun, l, hrb, hsorted, hperm⟩ := (holds_empty heap).run ((hops.take k).mono horders)
    (by rw [length_nil]; omega : 2 * (([] : List (α × κ)).length + _) + 2 ≤ fuel)
  have hlen := hperm.length_eq
  obtain ⟨n, hn⟩ := hrb.check (show l.length ≤ fuel by omega)
  exact ⟨t, hrun, l, n, hrb, hn, hrb.walk (by omega), hsorted, hperm⟩

/-- Four calls with keys that are compared by their difference. -/
theorem run_empty_checked_four :
    Along Op.Ok [] [.insert 0 5, .insert 1 3, .insert 2 3, .remove 0] ∧
      ∃ t, (empty (fun _ : Nat => freshNode (0 : Int))).run (· - ·) 10
          (List.take 4 [.insert 0 5, .insert 1 3, .insert 2 3, .remove 0]) = some t ∧
        ∃ (l : List (Nat × Int)) (n : Nat), RedBlack t l ∧ t.check 10 = some (n : Int) ∧
          t.walk 10 = some (l.map Prod.fst) ∧ l.Pairwise (fun x y => x.2 - y.2 ≤ 0) ∧
          l.Perm (members [] (List.take 4 [.insert 0 5, .insert 1 3, .insert 2 3, .remove 0])) := by
  have hops : Along Op.Ok [] [.insert 0 (5 : Int), .insert 1 3, .insert 2 3, .remove 0] := by
    simp [Along, Op.Ok, Op.apply]
  refine ⟨hops, run_empty_checked ⟨?_, ?_⟩ _ _ hops (by decide) 4⟩
  · intro a b _ _
    omega
  · intro a b c _ _ _ hab hbc
    omega

end OpenSync.Ds.Tree
