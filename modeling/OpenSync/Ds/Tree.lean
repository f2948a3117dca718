import Mathlib.Logic.Function.Basic

/-!
# The red-black tree of `ds_tree.c`

`ds_tree` is an intrusive red-black tree with parent pointers.  Insertion is a single pass from
the root to a leaf that flips colours and rotates on the way; removal takes the node out at the
bottom and repairs the tree on the way up.

A node is an address of type `α`, a pointer is an `Option α`, and the heap gives the fields of
each node.  Binding a pointer dereferences it, so `none` is a NULL dereference or a loop that
ran out of fuel.  A child index `0` or `1` is a `Bool`.  The comparator is a parameter; only
the sign of its result is looked at.
-/

namespace OpenSync.Ds

/-- `OTN_PROP_RED` and `OTN_PROP_BLACK`. -/
inductive Color where
  | red
  | black
deriving DecidableEq

/-- `struct ds_tree_node`. -/
structure TreeNode (α κ : Type) where
  key : κ
  prop : Color
  parent : Option α
  child : Bool → Option α

/-- `struct ds_tree`, with the nodes it reaches. -/
structure Tree (α κ : Type) where
  root : Option α
  ndel : UInt32
  heap : α → TreeNode α κ

namespace Tree

variable {α κ : Type} [DecidableEq α]

/-! ## Stores -/

def modify (t : Tree α κ) (x : α) (f : TreeNode α κ → TreeNode α κ) : Tree α κ :=
  { t with heap := Function.update t.heap x (f (t.heap x)) }

/-- `x->otn_prop = prop`. -/
def setProp (t : Tree α κ) (x : α) (prop : Color) : Tree α κ :=
  t.modify x (fun n => { n with prop := prop })

/-- `x->otn_parent = p`. -/
def setParent (t : Tree α κ) (x : α) (p : Option α) : Tree α κ :=
  t.modify x (fun n => { n with parent := p })

/-- `x->otn_child[dir] = p`. -/
def setChild (t : Tree α κ) (x : α) (dir : Bool) (p : Option α) : Tree α κ :=
  t.modify x (fun n => { n with child := Function.update n.child dir p })

/-- `OTN_IS_RED`. -/
def isRed (t : Tree α κ) : Option α → Bool
  | none => false
  | some x => (t.heap x).prop == .red

/-- The index under which `x` hangs below `p`, as the source computes it:
`x == p->otn_child[1]`. -/
def dirOf (t : Tree α κ) (p x : α) : Bool := (t.heap p).child true == some x

/-! ## Rotations -/

/-- The end of `ds_bst_rotate` and of the functions that unlink a node: what pointed to `old`, whose
parent is `parent`, points to `new`. -/
def relink (t : Tree α κ) (parent : Option α) (old : α) (new : Option α) : Tree α κ :=
  match parent with
  | none => { t with root := new }
  | some p => t.setChild p (t.dirOf p old) new

/-- `if (p != NULL) p->otn_parent = parent`. -/
def adopt (t : Tree α κ) (p : Option α) (parent : Option α) : Tree α κ :=
  match p with
  | none => t
  | some x => t.setParent x parent

/-- `ds_bst_rotate`. -/
def bstRotate (t : Tree α κ) (node : α) (dir : Bool) : Option (Tree α κ × α) := do
  let save ← (t.heap node).child dir
  let t := t.setParent save (t.heap node).parent
  let t := t.setChild node dir ((t.heap save).child (!dir))
  let t := t.adopt ((t.heap node).child dir) (some node)
  let t := t.setChild save (!dir) (some node)
  let t := t.setParent node (some save)
  return (t.relink (t.heap save).parent node (some save), save)

/-- `ds_rbt_rotate`. -/
def rbtRotate (t : Tree α κ) (node : α) (dir : Bool) : Option (Tree α κ × α) := do
  let (t, save) ← t.bstRotate node dir
  return ((t.setProp node .red).setProp save .black, save)

/-- `ds_rbt_rotate_double`. -/
def rbtRotateDouble (t : Tree α κ) (node : α) (dir : Bool) : Option (Tree α κ × α) := do
  let c ← (t.heap node).child dir
  let (t, _) ← t.rbtRotate c (!dir)
  t.rbtRotate node dir

/-! ## Insertion -/

/-- `ds_tree_insert_rebalance`. -/
def insertRebalance (t : Tree α κ) (base : α) : Option (Tree α κ) := do
  if t.isRed (some base) && t.isRed (t.heap base).parent then
    let p ← (t.heap base).parent
    let gbase ← (t.heap p).parent
    let gdir := t.dirOf gbase p
    let pdir := t.dirOf p base
    if gdir == pdir then
      let (t, _) ← t.rbtRotate gbase gdir
      return t
    else
      let (t, _) ← t.rbtRotateDouble gbase gdir
      return t
  else return t

/-- The colour flip of the insertion loop. -/
def flip (t : Tree α κ) (base : α) : Tree α κ :=
  match (t.heap base).child false, (t.heap base).child true with
  | some l, some r =>
    if t.isRed (some l) && t.isRed (some r) then
      ((t.setProp base .red).setProp l .black).setProp r .black
    else t
  | _, _ => t

/-- The loop of `ds_tree_node_insert`: the tree, the node to insert below and the
index to insert at. -/
def insertLoop (cmp : κ → κ → Int) (key : κ) :
    Nat → Tree α κ → α → Bool → Option (Tree α κ × α × Bool)
  | 0, _, _, _ => none
  | fuel + 1, t, base, dir =>
    match (t.heap base).child dir with
    | none => some (t, base, dir)
    | some _ => do
      let t := t.flip base
      let t ← t.insertRebalance base
      -- the direction was chosen before the rotation
      let base ← (t.heap base).child dir
      insertLoop cmp key fuel t base (cmp (t.heap base).key key < 0)

/-- A node after the initialisation in `ds_tree_node_insert`. -/
def freshNode (key : κ) : TreeNode α κ := ⟨key, .red, none, fun _ => none⟩

/-- `ds_tree_node_insert`. -/
def insert (cmp : κ → κ → Int) (fuel : Nat) (t : Tree α κ) (node : α) (key : κ) :
    Option (Tree α κ) := do
  let t := t.modify node (fun _ => freshNode key)
  match t.root with
  | none => return { t with root := some node }.setProp node .black
  | some base =>
    let (t, base, dir) ← t.insertLoop cmp key fuel base (cmp (t.heap base).key key < 0)
    let t := t.setChild base dir (some node)
    let t := t.setParent node (some base)
    let t ← t.insertRebalance node
    let r ← t.root
    return t.setProp r .black

/-! ## Removal -/

/-- The side of the child that `ds_tree_remove_leaf` keeps: `node->otn_child[0] == NULL`. -/
def keptSide (t : Tree α κ) (node : α) : Bool := ((t.heap node).child false).isNone

/-- The second half of `ds_tree_remove_leaf`: the child on side `dir` takes the place
of `node`. -/
def unlink (t : Tree α κ) (node : α) (dir : Bool) : Tree α κ :=
  let t := t.relink (t.heap node).parent node ((t.heap node).child dir)
  t.adopt ((t.heap node).child dir) (t.heap node).parent

/-- `ds_tree_remove_leaf`: the tree and the node to repair from, if any. -/
def removeLeaf (t : Tree α κ) (node : α) : Tree α κ × Option α :=
  let dir := t.keptSide node
  if t.isRed (some node) then (t.unlink node dir, none)
  else
    match (t.heap node).child dir with
    | some c =>
      if t.isRed (some c) then ((t.setProp c .black).unlink node dir, none)
      else (t.unlink node dir, (t.heap node).parent)
    | none => (t.unlink node dir, (t.heap node).parent)

/-- `ds_tree_node_replace`. -/
def nodeReplace (t : Tree α κ) (pold pnew : α) : Tree α κ :=
  let t := t.modify pnew (fun n => { t.heap pold with key := n.key })
  let t := t.adopt ((t.heap pold).child false) (some pnew)
  let t := t.adopt ((t.heap pold).child true) (some pnew)
  t.relink (t.heap pold).parent pold (some pnew)

/-- `ds_tree_remove_rebalance` from where the sibling is black. -/
def rebalanceBlack (t : Tree α κ) (node : α) (dir : Bool) : Option (Tree α κ × Bool) := do
  match (t.heap node).child (!dir) with
  | none => return (t, true)
  | some s =>
    if !t.isRed ((t.heap s).child false) && !t.isRed ((t.heap s).child true) then
      let t := t.setProp s .red
      if t.isRed (some node) then return (t.setProp node .black, false)
      else return (t, true)
    else
      let prop := (t.heap node).prop
      let (t, node) ← if t.isRed ((t.heap s).child (!dir)) then t.rbtRotate node (!dir)
        else t.rbtRotateDouble node (!dir)
      let t := t.setProp node prop
      let l ← (t.heap node).child false
      let t := t.setProp l .black
      let r ← (t.heap node).child true
      return (t.setProp r .black, false)

/-- `ds_tree_remove_rebalance`: whether the climb goes on. -/
def removeRebalance (t : Tree α κ) (node : α) (dir : Bool) : Option (Tree α κ × Bool) := do
  if t.isRed ((t.heap node).child (!dir)) then
    let (t, _) ← t.rbtRotate node (!dir)
    t.rebalanceBlack node dir
  else t.rebalanceBlack node dir

/-- The climb of `ds_tree_node_remove`. -/
def removeLoop : Nat → Tree α κ → Option α → Bool → Option (Tree α κ)
  | _, t, none, _ => some t
  | 0, _, some _, _ => none
  | fuel + 1, t, some base, dir => do
    let (t, again) ← t.removeRebalance base dir
    if again then
      match (t.heap base).parent with
      | none => return t
      | some p => removeLoop fuel t (some p) (t.dirOf p base)
    else return t

/-- The lowest or highest node below `x`: follow one index to the end. -/
def follow (dir : Bool) : Nat → Tree α κ → α → Option α
  | 0, _, _ => none
  | fuel + 1, t, x =>
    match (t.heap x).child dir with
    | none => some x
    | some y => follow dir fuel t y

section

variable (fuel : Nat)

/-- The first half of `ds_tree_node_remove`: the tree without `node`, the node to repair from, and
the index under which a black node is missing.  Without a parent the source has `-1`, unused. -/
def takeOut (t : Tree α κ) (node : α) : Option (Tree α κ × Option α × Bool) := do
  match (t.heap node).child false, (t.heap node).child true with
  | some l, some _ =>
    let rnode ← follow true fuel t l
    let p ← (t.heap rnode).parent
    let dir := t.dirOf p rnode
    let (t, base) := t.removeLeaf rnode
    let t := t.nodeReplace node rnode
    return (t, if base = some node then some rnode else base, dir)
  | _, _ =>
    let dir := match (t.heap node).parent with
      | some p => t.dirOf p node
      | none => false
    let (t, base) := t.removeLeaf node
    return (t, base, dir)

/-- `if (root->ot_root != NULL) root->ot_root->otn_prop = OTN_PROP_BLACK`. -/
def blackRoot (t : Tree α κ) : Tree α κ :=
  match t.root with
  | some r => t.setProp r .black
  | none => t

/-- `ds_tree_node_remove`. -/
def remove (t : Tree α κ) (node : α) : Option (Tree α κ) := do
  let (t, base, dir) ← t.takeOut fuel node
  let t ← removeLoop fuel t base dir
  let t := t.blackRoot.modify node (fun n => { n with child := fun _ => none })
  return { t with ndel := t.ndel + 1 }

/-! ## Lookup and traversal -/

/-- `ds_tree_find`. -/
def findFrom (cmp : κ → κ → Int) (key : κ) :
    Nat → Tree α κ → Option α → Option (Option α)
  | _, _, none => some none
  | 0, _, some _ => none
  | fuel + 1, t, some x =>
    let c := cmp (t.heap x).key key
    if c = 0 then some (some x)
    else findFrom cmp key fuel t ((t.heap x).child (c < 0))

def find (cmp : κ → κ → Int) (fuel : Nat) (t : Tree α κ) (key : κ) : Option (Option α) :=
  t.findFrom cmp key fuel t.root

/-- `ds_tree_node_min`. -/
def nodeMin (t : Tree α κ) : Option α → Option (Option α)
  | none => some none
  | some x => (follow false fuel t x).map some

/-- The climb of `ds_tree_node_next` (`up` is `1`) and `ds_tree_node_prev` (`0`). -/
def climb (up : Bool) : Nat → Tree α κ → α → Option (Option α)
  | 0, _, _ => none
  | fuel + 1, t, x =>
    match (t.heap x).parent with
    | none => some none
    | some p => if (t.heap p).child up == some x then climb up fuel t p else some (some p)

/-- `ds_tree_node_next`. -/
def nodeNext (t : Tree α κ) (x : α) : Option (Option α) :=
  match (t.heap x).child true with
  | some r => t.nodeMin fuel (some r)
  | none => climb true fuel t x

/-- `ds_tree_foreach`: the nodes from `p` on. -/
def walkFrom (steps : Nat) : Nat → Tree α κ → Option α → Option (List α)
  | _, _, none => some []
  | 0, _, some _ => none
  | fuel + 1, t, some x => do
    let next ← t.nodeNext steps x
    let rest ← walkFrom steps fuel t next
    return x :: rest

/-- `ds_tree_foreach` over the whole tree. -/
def walk (t : Tree α κ) : Option (List α) := do
  let head ← t.nodeMin fuel t.root
  t.walkFrom fuel fuel head

/-! ## The health check -/

/-- What `ds_tree_check_r` gets for the child on side `c` of `x`. -/
def checkSide (checkR : α → Option Int) (t : Tree α κ) (x : α) (c : Bool) : Option Int :=
  match (t.heap x).child c with
  | none => some 0
  | some y => if (t.heap y).parent ≠ some x then some (-1) else checkR y

/-- `ds_tree_check_r`: `some (-1)` is a violation, `none` only lack of fuel. -/
def checkFrom : Nat → Tree α κ → α → Option Int
  | 0, _, _ => none
  | fuel + 1, t, x => do
    let l ← checkSide (checkFrom fuel t) t x false
    if l < 0 then return -1
    let r ← checkSide (checkFrom fuel t) t x true
    if r < 0 then return -1
    if l ≠ r then return -1
    if !t.isRed (some x) then return l + 1
    if t.isRed ((t.heap x).child false) then return -1
    if t.isRed ((t.heap x).child true) then return -1
    return l

/-- `ds_tree_check`. -/
def check (t : Tree α κ) : Option Int :=
  match t.root with
  | none => some 0
  | some r => if t.isRed (some r) then some (-1) else t.checkFrom fuel r

end

end Tree

end OpenSync.Ds
