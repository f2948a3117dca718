import OpenSync.Ds.Tree
import OpenSync.Lib.RbTree
import Mathlib.Data.List.Nodup

/-!
# A tree in the heap

`Zip t p s` says that the heap of `t` holds the tree `s` below the path `p`: every node has the
fields that its place asks for, parent pointers included, and no node is used twice.  This module
gives each of the pointer operations its meaning there:

* `Zip.up` and `Zip.down` move the focus, without a change to the heap;
* `Zip.setProp` paints the node in the focus;
* `Zip.bstRotate`, `Zip.rbtRotate` and `Zip.rbtRotateDouble` rotate it.

An element of the tree is an address with its key.
-/

namespace OpenSync.Ds

open OpenSync.Lib List Option Function

/-- The colour of a node of the pure tree. -/
def Color.ofRed (red : Bool) : Color := if red then .red else .black

@[simp] theorem Color.ofRed_beq (red : Bool) : (Color.ofRed red == .red) = red := by
  cases red <;> rfl

namespace Tree

variable {α κ : Type}

/-! ## Pointers and child arrays -/

def ptr : Rb.Tree (α × κ) → Option α
  | .leaf => none
  | .node _ _ e _ => some e.1

@[simp] theorem ptr_leaf : ptr (.leaf : Rb.Tree (α × κ)) = none := rfl

variable (d : Bool) {h : α → TreeNode α κ}

@[simp] theorem ptr_join (red : Bool) (a : Rb.Tree (α × κ)) (e : α × κ) (b : Rb.Tree (α × κ)) :
    ptr (.join d red a e b) = some e.1 := by
  cases d <;> rfl

/-- The pointer to the node above a hole. -/
def above : Rb.Path (α × κ) → Option α
  | [] => none
  | f :: _ => some f.elt.1

/-- A child array with `p` on side `d` and `q` on the other. -/
def sides (d : Bool) (p q : Option α) : Bool → Option α := fun e => if e = d then p else q

@[simp] theorem sides_self (p q : Option α) : sides d p q d = p := if_pos rfl

@[simp] theorem sides_not (p q : Option α) : sides d p q (!d) = q := by
  cases d <;> rfl

@[simp] theorem sides_same (p : Option α) : sides d p p = fun _ => p := by
  funext e
  exact ite_self p

@[simp] theorem update_sides_self (p q p' : Option α) :
    update (sides d p q) d p' = sides d p' q := by
  funext e
  cases d <;> cases e <;> rfl

@[simp] theorem update_sides_not (p q q' : Option α) :
    update (sides d p q) (!d) q' = sides d p q' := by
  funext e
  cases d <;> cases e <;> rfl

/-! ## Representation -/

/-- The heap holds a tree whose root has the parent `par`. -/
def Rep (h : α → TreeNode α κ) : Option α → Rb.Tree (α × κ) → Prop
  | _, .leaf => True
  | par, .node red l e r =>
    h e.1 = ⟨e.2, .ofRed red, par, sides false (ptr l) (ptr r)⟩ ∧
      Rep h (some e.1) l ∧ Rep h (some e.1) r

/-- The heap holds a path whose hole is filled with the pointer `p`. -/
def RepPath (h : α → TreeNode α κ) (root : Option α) : Rb.Path (α × κ) → Option α → Prop
  | [], p => root = p
  | f :: fs, p =>
    h f.elt.1 = ⟨f.elt.2, .ofRed f.red, above fs, sides f.dir p (ptr f.sib)⟩ ∧
      Rep h (some f.elt.1) f.sib ∧ RepPath h root fs (some f.elt.1)

def addrs (s : Rb.Tree (α × κ)) : List α := s.toList.map Prod.fst

def pathAddrs : Rb.Path (α × κ) → List α
  | [] => []
  | f :: fs => f.elt.1 :: (addrs f.sib ++ pathAddrs fs)

theorem addrs_join_perm (red : Bool) (a : Rb.Tree (α × κ)) (e : α × κ) (b : Rb.Tree (α × κ)) :
    (addrs (.join d red a e b)).Perm (e.1 :: (addrs a ++ addrs b)) := by
  have h := (Rb.Tree.toList_join_perm d red a e b).map Prod.fst
  rwa [map_cons, map_append] at h

variable {a b : Rb.Tree (α × κ)} {par : Option α} {h' : α → TreeNode α κ} {s : Rb.Tree (α × κ)}

@[simp] theorem mem_addrs_join {d red : Bool} {e : α × κ} {x : α} :
    x ∈ addrs (.join d red a e b) ↔ x = e.1 ∨ x ∈ addrs a ∨ x ∈ addrs b := by
  rw [(addrs_join_perm d red a e b).mem_iff, mem_cons, mem_append]

attribute [local simp] pathAddrs

theorem pathAddrs_append (q p : Rb.Path (α × κ)) :
    pathAddrs (q ++ p) = pathAddrs q ++ pathAddrs p := by
  induction q with
  | nil => rfl
  | cons f q ih => simp [ih]

variable {p : Rb.Path (α × κ)} {l : List (α × κ)} {t t' : Tree α κ}

theorem elt_mem_pathAddrs {f : Rb.Frame (α × κ)} (h : f ∈ p) : f.elt.1 ∈ pathAddrs p := by
  obtain ⟨q, q', rfl⟩ := append_of_mem h
  rw [pathAddrs_append]
  exact mem_append_right _ mem_cons_self

theorem rep_join {d red : Bool} {e : α × κ} :
    Rep h par (.join d red a e b) ↔ h e.1 = ⟨e.2, .ofRed red, par, sides d (ptr a) (ptr b)⟩ ∧
        Rep h (some e.1) a ∧ Rep h (some e.1) b := by
  cases d with
  | false => exact .rfl
  | true =>
    rw [show sides true (ptr a) (ptr b) = sides false (ptr b) (ptr a) by
      funext e; cases e <;> rfl]
    exact and_congr_right fun _ => and_comm

/-- The addresses of a path and of the tree in its hole are those of the whole. -/
theorem pathAddrs_append_addrs_perm (p : Rb.Path (α × κ)) (s : Rb.Tree (α × κ)) :
    (pathAddrs p ++ addrs s).Perm ((Rb.plug p s).toList.map Prod.fst) := by
  induction p generalizing s with
  | nil => exact .refl _
  | cons f p ih =>
    refine .trans ?_ (ih (f.fill s))
    have hjoin := addrs_join_perm f.dir f.red s f.elt f.sib
    refine .trans ?_ (hjoin.symm.append_left (pathAddrs p))
    rw [pathAddrs, cons_append]
    refine .trans ?_ perm_middle.symm
    refine .cons _ ?_
    -- what is left is to bring the sibling to the end
    rw [append_assoc]
    refine perm_append_comm.trans ?_
    rw [append_assoc]

/-- The heap of `t` holds the tree `s` below the path `p`, and `l` is the list of
all elements in order. -/
structure Zip (t : Tree α κ) (l : List (α × κ)) (p : Rb.Path (α × κ))
    (s : Rb.Tree (α × κ)) : Prop where
  path : RepPath t.heap t.root p (ptr s)
  tree : Rep t.heap (above p) s
  order : (Rb.plug p s).toList = l
  nodup : (l.map Prod.fst).Nodup

/-- The heap of `t` holds a red-black tree with a black root, and `l` is the list
of its elements in order. -/
def RedBlack (t : Tree α κ) (l : List (α × κ)) : Prop :=
  ∃ s n, Zip t l [] s ∧ s.isRed = false ∧ s.Bal n

/-- Only nodes of `l` differ between `t` and `t'`. -/
structure Within (l : List (α × κ)) (t t' : Tree α κ) : Prop where
  heap : ∀ x, x ∉ l.map Prod.fst → t'.heap x = t.heap x
  ndel : t'.ndel = t.ndel

theorem Within.refl (l : List (α × κ)) (t : Tree α κ) : Within l t t := ⟨fun _ _ => rfl, rfl⟩

theorem Within.trans {t'' : Tree α κ} (h : Within l t t') (h' : Within l t' t'') : Within l t t'' :=
  ⟨fun x hx => (h'.heap x hx).trans (h.heap x hx), h'.ndel.trans h.ndel⟩

theorem Within.mono {l' : List (α × κ)} (h : Within l t t') (hsub : l ⊆ l') : Within l' t t' :=
  ⟨fun x hx => h.heap x (fun hmem => hx (map_subset _ hsub hmem)), h.ndel⟩

section

variable {t : Tree α κ} {l : List (α × κ)} {p : Rb.Path (α × κ)} {s : Rb.Tree (α × κ)}

theorem Zip.up {f : Rb.Frame (α × κ)} (h : Zip t l (f :: p) s) : Zip t l p (f.fill s) where
  path := by
    rw [Rb.Frame.fill, ptr_join]
    exact h.path.2.2
  tree := rep_join.mpr ⟨h.path.1, h.tree, h.path.2.1⟩
  order := h.order
  nodup := h.nodup

variable {a b : Rb.Tree (α × κ)} {q : Rb.Path (α × κ)} {x : α}

theorem Zip.down {d red : Bool} {e : α × κ} (h : Zip t l p (.join d red a e b)) :
    Zip t l (⟨d, red, e, b⟩ :: p) a where
  path := by
    obtain ⟨hnode, -, hb⟩ := rep_join.mp h.tree
    have hp := h.path
    rw [ptr_join] at hp
    exact ⟨hnode, hb, hp⟩
  tree := (rep_join.mp h.tree).2.1
  order := h.order
  nodup := h.nodup

theorem Zip.descend (h : Zip t l p (Rb.plug q s)) : Zip t l (q ++ p) s := by
  induction q generalizing s with
  | nil => exact h
  | cons f q ih => exact (ih (s := f.fill s) h).down

theorem Zip.ascend (h : Zip t l (q ++ p) s) : Zip t l p (Rb.plug q s) := by
  induction q generalizing s with
  | nil => exact h
  | cons f q ih => exact ih h.up

theorem Zip.top (h : Zip t l p s) : Zip t l [] (Rb.plug p s) :=
  Zip.ascend (p := []) ((append_nil p).symm ▸ h)

theorem Zip.exists_root (h : Zip t l p s) (hl : l ≠ []) : ∃ r, t.root = some r := by
  have htop := h.top
  rw [show t.root = ptr (Rb.plug p s) from htop.path]
  cases hs : Rb.plug p s with
  | leaf =>
    rw [hs] at htop
    exact absurd htop.order.symm hl
  | node red a e b => exact ⟨e.1, rfl⟩

theorem Zip.order_leaf (h : Zip t l p .leaf) : l = Rb.before p ++ Rb.after p := by
  rw [← h.order, Rb.toList_plug]
  simp

theorem Zip.heap_eq {d red : Bool} {e : α × κ} (h : Zip t l p (.join d red a e b)) :
    t.heap e.1 = ⟨e.2, .ofRed red, above p, sides d (ptr a) (ptr b)⟩ :=
  (rep_join.mp h.tree).1

theorem Zip.parent_eq (h : Zip t l p s) (hx : ptr s = some x) : (t.heap x).parent = above p := by
  cases s with
  | leaf => simp at hx
  | node red a e b =>
    obtain rfl : e.1 = x := some.inj hx
    rw [h.tree.1]

theorem Zip.nodup_zip (h : Zip t l p s) : (pathAddrs p ++ addrs s).Nodup := by
  rw [(pathAddrs_append_addrs_perm p s).nodup_iff, h.order]
  exact h.nodup

theorem Zip.mem_iff (h : Zip t l p s) : x ∈ l.map Prod.fst ↔ x ∈ pathAddrs p ∨ x ∈ addrs s := by
  rw [← h.order, ← (pathAddrs_append_addrs_perm p s).mem_iff, mem_append]

theorem Zip.nodup_path (h : Zip t l p s) : (pathAddrs p).Nodup :=
  (nodup_append'.mp h.nodup_zip).1

theorem Zip.nodup_tree (h : Zip t l p s) : (addrs s).Nodup :=
  (nodup_append'.mp h.nodup_zip).2.1

theorem Zip.disjoint (h : Zip t l p s) (hs : x ∈ addrs s) : x ∉ pathAddrs p :=
  fun hp => (nodup_append'.mp h.nodup_zip).2.2 hp hs

end

/-! ## Stores away from a tree -/

theorem Rep.congr (hrep : Rep h par s) (heq : ∀ x ∈ addrs s, h' x = h x) : Rep h' par s := by
  induction s generalizing par with
  | leaf => trivial
  | node red l e r ihl ihr =>
    obtain ⟨hnode, hl, hr⟩ := hrep
    have hmem : ∀ x, x = e.1 ∨ x ∈ addrs l ∨ x ∈ addrs r → h' x = h x :=
      fun x hx => heq x ((mem_addrs_join (d := false)).mpr hx)
    exact ⟨(hmem _ (.inl rfl)).trans hnode, ihl hl (fun x hx => hmem x (.inr (.inl hx))),
      ihr hr (fun x hx => hmem x (.inr (.inr hx)))⟩

theorem RepPath.congr {root : Option α} {q : Option α} (hrep : RepPath h root p q)
    (heq : ∀ x ∈ pathAddrs p, h' x = h x) : RepPath h' root p q := by
  induction p generalizing q with
  | nil => exact hrep
  | cons f p ih =>
    obtain ⟨hnode, hsib, hp⟩ := hrep
    refine ⟨(heq _ (by simp)).trans hnode, hsib.congr (fun x hx => heq x (by simp [hx])),
      ih hp (fun x hx => heq x (by simp [hx]))⟩

theorem Zip.congr (h : Zip t l p s) (hroot : t'.root = t.root)
    (heq : ∀ x ∈ l.map Prod.fst, t'.heap x = t.heap x) : Zip t' l p s where
  path := by
    rw [hroot]
    exact h.path.congr (fun x hx => heq x (h.mem_iff.mpr (.inl hx)))
  tree := h.tree.congr (fun x hx => heq x (h.mem_iff.mpr (.inr hx)))
  order := h.order
  nodup := h.nodup

section

variable [DecidableEq α]

variable (t : Tree α κ) {x y : α} {par : Option α} {s : Rb.Tree (α × κ)} {p : Rb.Path (α × κ)}
  {d red : Bool} {a b : Rb.Tree (α × κ)} {l : List (α × κ)}

@[simp] theorem heap_modify_self (x : α) (f : TreeNode α κ → TreeNode α κ) :
    (t.modify x f).heap x = f (t.heap x) := by
  simp [modify]

theorem heap_modify_of_ne (h : y ≠ x) (f : TreeNode α κ → TreeNode α κ) :
    (t.modify x f).heap y = t.heap y := by
  simp [modify, h]

@[simp] theorem root_modify (x : α) (f : TreeNode α κ → TreeNode α κ) :
    (t.modify x f).root = t.root := rfl

@[simp] theorem heap_setProp_self (x : α) (c : Color) :
    (t.setProp x c).heap x = { t.heap x with prop := c } := heap_modify_self t x _

theorem heap_setProp_of_ne (h : y ≠ x) (c : Color) :
    (t.setProp x c).heap y = t.heap y := heap_modify_of_ne t h _

@[simp] theorem child_setProp (x y : α) (c : Color) :
    ((t.setProp x c).heap y).child = (t.heap y).child := by
  by_cases h : y = x
  · rw [h, heap_setProp_self]
  · rw [heap_setProp_of_ne t h]

@[simp] theorem heap_setParent_self (x : α) (p : Option α) :
    (t.setParent x p).heap x = { t.heap x with parent := p } := heap_modify_self t x _

theorem heap_setParent_of_ne (h : y ≠ x) (p : Option α) :
    (t.setParent x p).heap y = t.heap y := heap_modify_of_ne t h _

@[simp] theorem root_setParent (x : α) (p : Option α) : (t.setParent x p).root = t.root := rfl

@[simp] theorem heap_setChild_self (x : α) (d : Bool) (p : Option α) :
    (t.setChild x d p).heap x =
      { t.heap x with child := update (t.heap x).child d p } := heap_modify_self t x _

theorem heap_setChild_of_ne (h : y ≠ x) (d : Bool) (p : Option α) :
    (t.setChild x d p).heap y = t.heap y := heap_modify_of_ne t h _

@[simp] theorem root_setChild (x : α) (d : Bool) (p : Option α) :
    (t.setChild x d p).root = t.root := rfl

@[simp] theorem ndel_setParent (x : α) (p : Option α) : (t.setParent x p).ndel = t.ndel := rfl

@[simp] theorem ndel_setChild (x : α) (d : Bool) (p : Option α) :
    (t.setChild x d p).ndel = t.ndel := rfl

@[simp] theorem ndel_adopt (p par : Option α) : (t.adopt p par).ndel = t.ndel := by
  cases p <;> rfl

@[simp] theorem ndel_relink (par : Option α) (old : α) (new : Option α) :
    (t.relink par old new).ndel = t.ndel := by
  cases par <;> rfl

theorem heap_adopt_of_ne {p : Option α} (h : p ≠ some y) : (t.adopt p par).heap y = t.heap y := by
  cases p with
  | none => rfl
  | some x => exact t.heap_setParent_of_ne (fun he => h (congrArg some he.symm)) par

@[simp] theorem root_adopt (p par : Option α) : (t.adopt p par).root = t.root := by
  cases p <;> rfl

theorem heap_relink_of_ne {old : α} {new : Option α} (h : par ≠ some y) :
    (t.relink par old new).heap y = t.heap y := by
  cases par with
  | none => rfl
  | some x => exact t.heap_setChild_of_ne (fun he => h (congrArg some he.symm)) _ new

variable {t}

theorem rep_adopt {par' : Option α} (hrep : Rep t.heap par s)
    (hnodup : (addrs s).Nodup) : Rep (t.adopt (ptr s) par').heap par' s := by
  cases s with
  | leaf => trivial
  | node red l e r =>
    obtain ⟨hnode, hl, hr⟩ := hrep
    have hperm := addrs_join_perm false red l e r
    obtain ⟨hnot, -⟩ := nodup_cons.mp (hperm.nodup_iff.mp hnodup)
    rw [mem_append, not_or] at hnot
    have hother : ∀ x, x ≠ e.1 → (t.adopt (ptr (.node red l e r)) par').heap x = t.heap x :=
      fun x hx => t.heap_setParent_of_ne hx par'
    refine ⟨?_, hl.congr ?_, hr.congr ?_⟩
    · exact (t.heap_setParent_self e.1 par').trans (by rw [hnode])
    · intro x hx
      exact hother x (fun he => hnot.1 (he ▸ hx))
    · intro x hx
      exact hother x (fun he => hnot.2 (he ▸ hx))

variable {f : Rb.Frame (α × κ)} {red' : Bool}

/-- The index that the source computes for the node in a hole is the side of the
hole. -/
theorem dirOf_eq (hrep : RepPath t.heap t.root (f :: p) (some x))
    (hx : x ∉ addrs f.sib) : t.dirOf f.elt.1 x = f.dir := by
  rw [dirOf, hrep.1]
  cases hd : f.dir with
  | true => simp
  | false =>
    have hne : ptr f.sib ≠ some x := by
      cases hs : f.sib with
      | leaf => simp
      | node red l e r =>
        rw [hs] at hx
        intro he
        exact hx ((mem_addrs_join (d := false)).mpr (.inl (some.inj he).symm))
    simpa [sides] using hne

/-- A path whose hole is filled with another pointer. -/
theorem repPath_relink {q : Option α} (hrep : RepPath t.heap t.root p (some x))
    (hnodup : (pathAddrs p).Nodup) (hx : x ∉ pathAddrs p) :
    RepPath (t.relink (above p) x q).heap (t.relink (above p) x q).root p q := by
  cases p with
  | nil => rfl
  | cons f p =>
    have hdir := dirOf_eq hrep (fun h => hx (by simp [h]))
    obtain ⟨hnode, hsib, hp⟩ := hrep
    obtain ⟨hnot, -⟩ := nodup_cons.mp hnodup
    rw [mem_append, not_or] at hnot
    have hother : ∀ y, y ≠ f.elt.1 → (t.relink (above (f :: p)) x q).heap y = t.heap y :=
      fun y hy => t.heap_setChild_of_ne hy _ q
    refine ⟨?_, hsib.congr ?_, hp.congr ?_⟩
    · refine (t.heap_setChild_self f.elt.1 _ q).trans ?_
      rw [hdir, hnode, update_sides_self]
    · intro y hy
      exact hother y (fun he => hnot.1 (he ▸ hy))
    · intro y hy
      exact hother y (fun he => hnot.2 (he ▸ hy))

/-! ## Addresses of the parts -/

omit [DecidableEq α] in
theorem exists_ptr (h : s ≠ .leaf) : ∃ x, ptr s = some x := by
  cases s with
  | leaf => exact absurd rfl h
  | node red l e r => exact ⟨e.1, rfl⟩

omit [DecidableEq α] in
theorem ptr_mem (h : ptr s = some x) : x ∈ addrs s := by
  cases s with
  | leaf => simp at h
  | node red l e r =>
    exact (mem_addrs_join (d := false)).mpr (.inl (some.inj h).symm)

omit [DecidableEq α] in
theorem above_mem (h : above p = some x) : x ∈ pathAddrs p := by
  cases p with
  | nil => simp [above] at h
  | cons f p =>
    obtain rfl : f.elt.1 = x := some.inj h
    simp

variable {e : α × κ} {c : Rb.Tree (α × κ)}

omit [DecidableEq α] in
theorem nodup_addrs_join :
    (addrs (.join d red a e b)).Nodup ↔
      e.1 ∉ addrs a ∧ e.1 ∉ addrs b ∧ (addrs a).Nodup ∧ (addrs b).Nodup ∧
        (addrs a).Disjoint (addrs b) := by
  rw [(addrs_join_perm d red a e b).nodup_iff, nodup_cons, mem_append, not_or,
    nodup_append', and_assoc]

omit [DecidableEq α] in
theorem ptr_ne (h : x ∉ addrs s) : ptr s ≠ some x :=
  fun he => h (ptr_mem he)

omit [DecidableEq α] in
theorem above_ne (h : x ∉ pathAddrs p) : above p ≠ some x :=
  fun he => h (above_mem he)

/-! ## Painting -/

theorem Zip.setProp (h : Zip t l p (.join d red a e b)) (red' : Bool) :
    Zip (t.setProp e.1 (.ofRed red')) l p (.join d red' a e b) ∧
      Within l t (t.setProp e.1 (.ofRed red')) := by
  obtain ⟨ha, hb, -⟩ := nodup_addrs_join.mp h.nodup_tree
  have hmem : e.1 ∈ addrs (.join d red a e b) := mem_addrs_join.mpr (.inl rfl)
  have hp := h.disjoint hmem
  have hother : ∀ x, x ≠ e.1 → (t.setProp e.1 (.ofRed red')).heap x = t.heap x :=
    fun x hx => t.heap_setProp_of_ne hx _
  obtain ⟨hnode, hra, hrb⟩ := rep_join.mp h.tree
  refine ⟨⟨?_, rep_join.mpr ⟨?_, hra.congr ?_, hrb.congr ?_⟩, ?_, h.nodup⟩, ?_, rfl⟩
  · have hpath := h.path
    rw [ptr_join] at hpath ⊢
    exact hpath.congr (fun x hx => hother x (fun he => hp (he ▸ hx)))
  · rw [heap_setProp_self, hnode]
  · exact fun x hx => hother x (fun he => ha (he ▸ hx))
  · exact fun x hx => hother x (fun he => hb (he ▸ hx))
  · rw [← h.order]
    exact Rb.toList_plug_congr p (by rw [Rb.Tree.toList_join, Rb.Tree.toList_join])
  · exact fun x hx => hother x (fun he => hx (h.mem_iff.mpr (.inr (he ▸ hmem))))

/-- Painting the tree in the focus through a pointer to it. -/
theorem Zip.paint (h : Zip t l p s) (hx : ptr s = some x) (red : Bool) :
    Zip (t.setProp x (.ofRed red)) l p (s.paint red) ∧ Within l t (t.setProp x (.ofRed red)) := by
  cases s with
  | leaf => simp at hx
  | node red' a e b =>
    obtain rfl : e.1 = x := some.inj hx
    exact Zip.setProp (d := false) h red

/-- Painting the node in the focus, and both of its children black. -/
theorem Zip.paintChildren (h : Zip t l p (.join d red a e b)) (ha : a ≠ .leaf)
    (hb : b ≠ .leaf) (red' : Bool) :
    ∃ x y, (t.heap e.1).child false = some x ∧ (t.heap e.1).child true = some y ∧
      Zip (((t.setProp e.1 (.ofRed red')).setProp x .black).setProp y .black) l p
        (.join d red' (a.paint false) e (b.paint false)) ∧
      Within l t (((t.setProp e.1 (.ofRed red')).setProp x .black).setProp y .black) := by
  -- the source takes the left child first
  have key : ∀ a b : Rb.Tree (α × κ), Zip t l p (.join false red a e b) → a ≠ .leaf → b ≠ .leaf →
      ∃ x y, (t.heap e.1).child false = some x ∧ (t.heap e.1).child true = some y ∧
        Zip (((t.setProp e.1 (.ofRed red')).setProp x .black).setProp y .black) l p
          (.join false red' (a.paint false) e (b.paint false)) ∧
        Within l t (((t.setProp e.1 (.ofRed red')).setProp x .black).setProp y .black) := by
    intro a b h ha hb
    obtain ⟨x, hx⟩ := exists_ptr ha
    obtain ⟨y, hy⟩ := exists_ptr hb
    obtain ⟨h1, hw1⟩ := h.setProp red'
    obtain ⟨h2, hw2⟩ := h1.down.paint hx false
    have h2' := h2.up
    rw [Rb.Frame.fill, ← Rb.Tree.join_not] at h2'
    obtain ⟨h3, hw3⟩ := h2'.down.paint hy false
    have h3' := h3.up
    refine ⟨x, y, ?_, ?_, h3', (hw1.trans hw2).trans hw3⟩
    · rw [h.heap_eq, ← hx]
      rfl
    · rw [h.heap_eq, ← hy]
      rfl
  cases d with
  | false => exact key a b h ha hb
  | true => exact key b a h hb ha

/-- Both functions paint the root black at the end. -/
theorem Zip.paint_root {n : Nat} (h : Zip t l p s) (hbal : Rb.BalZip p s n) {r : α}
    (hr : t.root = some r) : RedBlack (t.setProp r .black) l ∧ Within l t (t.setProp r .black) := by
  have htop := h.top
  have hptr : ptr (Rb.plug p s) = some r := htop.path.symm.trans hr
  obtain ⟨h', hw⟩ := htop.paint hptr false
  obtain ⟨m, hm⟩ := (Rb.bal_plug p s).mpr ⟨n, hbal⟩
  obtain ⟨m', hm'⟩ := hm.paint_black
  exact ⟨⟨_, m', h', Rb.Tree.isRed_paint_false _, hm'⟩, hw⟩

omit [DecidableEq α] in
/-- `OTN_IS_RED` in the heap is the colour of the tree. -/
theorem Rep.isRed_eq (h : Rep t.heap par s) : t.isRed (ptr s) = s.isRed := by
  cases s with
  | leaf => rfl
  | node red l e r =>
    rw [ptr, isRed, h.1]
    exact Color.ofRed_beq red

omit [DecidableEq α] in
/-- What the source asks about the colours of both children of the node in the
focus. -/
theorem Zip.isRed_children (h : Zip t l p (.join d red a e b))
    (f : Bool → Bool → Bool) (hf : ∀ c c', f c c' = f c' c) :
    f (t.isRed ((t.heap e.1).child false)) (t.isRed ((t.heap e.1).child true)) =
      f a.isRed b.isRed := by
  obtain ⟨hnode, ha, hb⟩ := rep_join.mp h.tree
  rw [hnode, ← ha.isRed_eq, ← hb.isRed_eq]
  cases d with
  | false => rfl
  | true => exact hf ..

omit [DecidableEq α] in
theorem Zip.isRed_above (h : Zip t l p s) : t.isRed (above p) = Rb.headRed p := by
  cases p with
  | nil => rfl
  | cons f p =>
    rw [above, isRed, h.path.1]
    exact Color.ofRed_beq f.red

/-- The index that the source computes for the node in the focus. -/
theorem Zip.dirOf_eq (h : Zip t l (f :: p) s) (hx : ptr s = some x) :
    t.dirOf f.elt.1 x = f.dir := by
  refine Tree.dirOf_eq (p := p) ?_ ?_
  · rw [← hx]
    exact h.path
  · intro hsib
    refine h.disjoint (ptr_mem hx) ?_
    simp [hsib]

/-! ## Rotations -/

/-- `ds_bst_rotate` brings the child on side `d` up. -/
theorem Zip.bstRotate {x y : α × κ}
    (h : Zip t l p (.join d red (.join d red' a y b) x c)) :
    ∃ t', t.bstRotate x.1 d = some (t', y.1) ∧
      Zip t' l p (.join d red' a y (.join d red b x c)) ∧ Within l t t' := by
  obtain ⟨hx, hrep, hc⟩ := rep_join.mp h.tree
  obtain ⟨hy, ha, hb⟩ := rep_join.mp hrep
  obtain ⟨hxy, hxc, hnodup, -, hdisj⟩ := nodup_addrs_join.mp h.nodup_tree
  obtain ⟨hya, hyb, -, hbnodup, hab⟩ := nodup_addrs_join.mp hnodup
  simp only [mem_addrs_join, not_or] at hxy
  have hyc : y.1 ∉ addrs c := hdisj (mem_addrs_join.mpr (.inl rfl))
  have hxp : x.1 ∉ pathAddrs p := h.disjoint (mem_addrs_join.mpr (.inl rfl))
  have hyp : y.1 ∉ pathAddrs p := h.disjoint (by simp)
  have hbp : ∀ z ∈ addrs b, z ∉ pathAddrs p := fun z hz => h.disjoint (by simp [hz])
  have hpath := h.path
  rw [ptr_join] at hx hpath
  -- the stores of the source, one after another
  set t1 := t.setParent y.1 (above p) with ht1
  set t2 := t1.setChild x.1 d (ptr b) with ht2
  set t3 := t2.adopt (ptr b) (some x.1) with ht3
  set t4 := t3.setChild y.1 (!d) (some x.1) with ht4
  set t5 := t4.setParent x.1 (some y.1) with ht5
  set t6 := t5.relink (above p) x.1 (some y.1) with ht6
  have hother : ∀ z, z ≠ x.1 → z ≠ y.1 → ptr b ≠ some z → t5.heap z = t.heap z := by
    intro z hzx hzy hzb
    rw [ht5, heap_setParent_of_ne _ hzx, ht4, heap_setChild_of_ne _ hzy, ht3,
      heap_adopt_of_ne _ hzb, ht2, heap_setChild_of_ne _ hzx, ht1, heap_setParent_of_ne _ hzy]
  have hx1 : t1.heap x.1 = t.heap x.1 := by rw [ht1, heap_setParent_of_ne _ hxy.1]
  have hx3 : t3.heap x.1 = ⟨x.2, .ofRed red, above p, sides d (ptr b) (ptr c)⟩ := by
    rw [ht3, heap_adopt_of_ne _ (ptr_ne hxy.2.2), ht2, heap_setChild_self, hx1, hx,
      update_sides_self]
  have hy3 : t3.heap y.1 = ⟨y.2, .ofRed red', above p, sides d (ptr a) (ptr b)⟩ := by
    rw [ht3, heap_adopt_of_ne _ (ptr_ne hyb), ht2, heap_setChild_of_ne _ (Ne.symm hxy.1), ht1,
      heap_setParent_self, hy]
  have hx5 : t5.heap x.1 = ⟨x.2, .ofRed red, some y.1, sides d (ptr b) (ptr c)⟩ := by
    rw [ht5, heap_setParent_self, ht4, heap_setChild_of_ne _ hxy.1, hx3]
  have hy5 : t5.heap y.1 = ⟨y.2, .ofRed red', above p, sides d (ptr a) (some x.1)⟩ := by
    rw [ht5, heap_setParent_of_ne _ (Ne.symm hxy.1), ht4, heap_setChild_self, hy3, update_sides_not]
  have h6 : ∀ z, z ∉ pathAddrs p → t6.heap z = t5.heap z := by
    intro z hz
    rw [ht6, heap_relink_of_ne _ (above_ne hz)]
  have hroot5 : t5.root = t.root := by
    rw [ht5, root_setParent, ht4, root_setChild, ht3, root_adopt, ht2, root_setChild, ht1,
      root_setParent]
  have hsub : ∀ z, (z ∈ addrs a ∨ z ∈ addrs c) → t6.heap z = t.heap z := by
    intro z hz
    have hzp : z ∉ pathAddrs p := h.disjoint (by
      rcases hz with hz | hz
      · simp [hz]
      · simp [hz])
    rw [h6 z hzp]
    refine hother z ?_ ?_ (ptr_ne ?_)
    · rintro rfl
      rcases hz with hz | hz
      · exact hxy.2.1 hz
      · exact hxc hz
    · rintro rfl
      rcases hz with hz | hz
      · exact hya hz
      · exact hyc hz
    · intro hzb
      rcases hz with hz | hz
      · exact hab hz hzb
      · exact hdisj (mem_addrs_join.mpr (.inr (.inr hzb))) hz
  refine ⟨t6, ?_, ⟨?_, ?_, ?_, h.nodup⟩, ?_, ?_⟩
  · have hsave : (t.heap x.1).child d = some y.1 := by
      rw [hx]
      exact sides_self d _ _
    have hpar : (t.heap x.1).parent = above p := by rw [hx]
    have hchild1 : (t1.heap y.1).child (!d) = ptr b := by
      rw [ht1, heap_setParent_self, hy]
      exact sides_not d _ _
    have hchild2 : (t2.heap x.1).child d = ptr b := by
      rw [ht2, heap_setChild_self]
      exact update_self ..
    have hpar5 : (t5.heap y.1).parent = above p := by rw [hy5]
    simp only [Tree.bstRotate, hsave, hpar, ← ht1, hchild1, ← ht2, hchild2, ← ht3, ← ht4, ← ht5,
      hpar5, ← ht6, Option.bind_eq_bind, Option.bind_some, Option.pure_def]
  · rw [ptr_join]
    refine repPath_relink ?_ h.nodup_path hxp
    rw [hroot5]
    refine hpath.congr ?_
    intro z hz
    refine hother z ?_ ?_ (ptr_ne ?_)
    · rintro rfl
      exact hxp hz
    · rintro rfl
      exact hyp hz
    · exact fun hzb => hbp z hzb hz
  · refine rep_join.mpr ⟨?_, ha.congr (fun z hz => hsub z (.inl hz)), rep_join.mpr
      ⟨?_, ?_, hc.congr (fun z hz => hsub z (.inr hz))⟩⟩
    · rw [h6 _ hyp, hy5, ptr_join]
    · rw [h6 _ hxp, hx5]
    -- `b` has changed its parent, and nothing touches it after that
    have hbx : ∀ z ∈ addrs b, z ≠ x.1 := fun z hz he => hxy.2.2 (he ▸ hz)
    have hby : ∀ z ∈ addrs b, z ≠ y.1 := fun z hz he => hyb (he ▸ hz)
    have hb2 : Rep t2.heap (some y.1) b := by
      refine hb.congr ?_
      intro z hz
      rw [ht2, heap_setChild_of_ne _ (hbx z hz), ht1, heap_setParent_of_ne _ (hby z hz)]
    have hb3 : Rep t3.heap (some x.1) b := rep_adopt hb2 hbnodup
    refine hb3.congr ?_
    intro z hz
    rw [h6 z (hbp z hz), ht5, heap_setParent_of_ne _ (hbx z hz), ht4,
      heap_setChild_of_ne _ (hby z hz)]
  · rw [← h.order]
    exact Rb.toList_plug_congr p (by
      simp only [Rb.Tree.toList_join]
      cases d <;> simp)
  · intro z hz
    rw [h.mem_iff, not_or] at hz
    simp only [mem_addrs_join, not_or] at hz
    rw [h6 z hz.1, hother z hz.2.1 hz.2.2.1.1 (ptr_ne hz.2.2.1.2.2)]
  · rw [ht6, ndel_relink, ht5, ndel_setParent, ht4, ndel_setChild, ht3, ndel_adopt, ht2,
      ndel_setChild, ht1, ndel_setParent]

/-- `ds_rbt_rotate` also leaves the new root black above a red node. -/
theorem Zip.rbtRotate {x y : α × κ}
    (h : Zip t l p (.join d red (.join d red' a y b) x c)) :
    ∃ t', t.rbtRotate x.1 d = some (t', y.1) ∧
      Zip t' l p (.join d false a y (.join d true b x c)) ∧ Within l t t' := by
  obtain ⟨t1, hrot, h1, hw1⟩ := h.bstRotate
  rw [← Rb.Tree.join_not] at h1
  obtain ⟨h2, hw2⟩ := h1.down.setProp true
  obtain ⟨h3, hw3⟩ := Zip.setProp h2.up false
  rw [Rb.Tree.join_not] at h3
  refine ⟨_, ?_, h3, (hw1.trans hw2).trans hw3⟩
  rw [Tree.rbtRotate, hrot]
  rfl

/-- `ds_rbt_rotate_double` brings the inner grandchild up. -/
theorem Zip.rbtRotateDouble {red1 red2 : Bool} {b' : Rb.Tree (α × κ)} {x y z : α × κ}
    (h : Zip t l p (.join d red (.join (!d) red1 (.join (!d) red2 b z b') y a) x c)) :
    ∃ t', t.rbtRotateDouble x.1 d = some (t', z.1) ∧
      Zip t' l p (.join d false (.join (!d) true b' y a) z (.join d true b x c)) ∧
        Within l t t' := by
  have hchild : (t.heap x.1).child d = some y.1 := by
    rw [h.heap_eq, ptr_join]
    exact sides_self d _ _
  obtain ⟨t1, hrot1, h1, hw1⟩ := h.down.rbtRotate
  rw [Rb.Tree.join_not] at h1
  obtain ⟨t2, hrot2, h2, hw2⟩ := Zip.rbtRotate h1.up
  refine ⟨t2, ?_, h2, hw1.trans hw2⟩
  rw [Tree.rbtRotateDouble, hchild]
  simp [hrot1, hrot2]

end

end Tree

end OpenSync.Ds
