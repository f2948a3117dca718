import OpenSync.Ds.Ordered
import OpenSync.Lib.CString
import OpenSync.Lib.ForestEdit

/-!
# Bus messages

`osbus_msg.c` keeps a message as a tree of nodes.  An object or an array owns its children: the
array `val.list` points to them in their order.  An object also has a search tree over their
names, and a child has its position in the field `idx`.

A node with the nodes that it owns is a `Msg`, and a node that has been freed is in no message.
The search tree holds pairs of a name and the identity of a node.  `Doc` is the same without
search tree and position, and its operations say what a message is for: an object is an ordered
map, an array a list.

The field `num` is the length of the list, an `int`; an item is not added where it overflows.
-/

namespace OpenSync.Osbus

open OpenSync.Lib List Function

/-- `osbus_msg_type`. -/
inductive MsgType where
  | null
  | object
  | array
  | bool
  | int
  | int64
  | double
  | string
  | binary
deriving DecidableEq

/-- The type of a node with its `val`, but for a list.  A `double` is its bits. -/
inductive Val where
  | null
  | object
  | array
  | bool (v : Bool)
  | int (v : Int)
  | int64 (v : Int)
  | double (bits : UInt64)
  | string (v : Option CStr)
  | binary (buf : List UInt8)
deriving DecidableEq

/-- The value of a type with all bytes zero. -/
def Val.zero : MsgType → Val
  | .null => .null
  | .object => .object
  | .array => .array
  | .bool => .bool false
  | .int => .int 0
  | .int64 => .int64 0
  | .double => .double 0
  | .string => .string none
  | .binary => .binary []

/-- `osbus_msg_is_container`. -/
def Val.isContainer : Val → Bool
  | .object | .array => true
  | _ => false

/-- `struct osbus_msg`, with an identity for its address. -/
structure Node where
  id : Nat
  name : Option CStr
  idx : Nat
  tree : List (CStr × Nat)
  val : Val

/-- A node and what is below it. -/
abbrev Msg := Node × Forest Node

/-- The nodes in `val.list`. -/
def Msg.items (d : Msg) : List Msg := d.2.trees

/-- `INT_MAX`. -/
def intMax : Nat := 2147483647

/-! ## The operations on a node -/

/-- `osbus_msg_new_type` and the constructors with a value. -/
def newMsg (id : Nat) (val : Val) : Msg :=
  ({ id := id, name := none, idx := 0, tree := [], val := val }, .nil)

/-- `osbus_msg_free_value`. -/
def freeValue (d : Msg) : Msg :=
  ({ d.1 with val := .null, tree := if d.1.val.isContainer then [] else d.1.tree }, .nil)

/-- `osbus_msg_get_prop`, the identity of the node that it returns. -/
def getProp (n : Node) (name : CStr) : Option Nat :=
  if n.val = .object then (Ds.Ordered.find Prod.fst strcmp n.tree name).map Prod.snd else none

def Node.setName (n : Node) (name : Option CStr) : Node := { n with name := name }

def Node.setIdx (n : Node) (idx : Nat) : Node := { n with idx := idx }

/-- The search tree with a new node, under its name. -/
def treeInsert (tree : List (CStr × Nat)) (n : Node) : List (CStr × Nat) :=
  match n.name with
  | some name => Ds.Ordered.insert Prod.fst strcmp tree (name, n.id)
  | none => tree

/-- `_osbus_msg_append_item`. -/
def appendItem (d e : Msg) : Option Msg :=
  if d.items.length < intMax then
    some ({ d.1 with tree := if d.1.val = .object then treeInsert d.1.tree e.1 else d.1.tree },
      .ofTrees (d.items ++ [(e.1.setIdx d.items.length, e.2)]))
  else none

/-- `osbus_msg_add_item`.  On error `e` is freed, and the container stays as it is. -/
def addItem (d e : Msg) : Option Msg :=
  if d.1.val = .array then appendItem d (e.1.setName none, e.2) else some d

/-- The node `x` under the name makes room for `e`.  Its position is read from the node, which must
not have been freed, and asserted to be right. -/
def overwriteItem (d e : Msg) (x : Nat) : Option Msg :=
  match findKey (fun m : Msg => m.1.id) d.items x with
  | none => none
  | some m =>
    if (d.items[m.1.idx]?.map fun m => m.1.id) = some x then
      some (d.1, .ofTrees (d.items.set m.1.idx e))
    else none

/-- `osbus_msg_set_prop`. -/
def setProp (d : Msg) (name : Option CStr) (e : Msg) : Option Msg :=
  match d.1.val, name with
  | .array, none => addItem d e
  | .object, some name =>
    match getProp d.1 name with
    | some x => overwriteItem d (e.1.setName (some name), e.2) x
    | none => appendItem d (e.1.setName (some name), e.2)
  | _, _ => some d

/-- `osbus_msg_array_resize`, where new nodes have the identities from `fresh` on. -/
def arrayResize (d : Msg) (num : Int) (fresh : Nat) : Option Msg :=
  if d.1.val ≠ .array then some d
  else if num = d.items.length then some d
  else if d.items.length < num then
    some (d.1, .ofTrees (d.items ++
      (range (num.toNat - d.items.length)).map fun i => newMsg (fresh + i) .null))
  else if num < 0 then none
  else some (d.1, .ofTrees (d.items.take num.toNat))

/-- `osbus_msg_set_type`. -/
def setType (d : Msg) (type : MsgType) : Msg :=
  ({ (freeValue d).1 with val := Val.zero type }, (freeValue d).2)

/-- `osbus_msg_assign`: the value of `src`, but not its search tree. -/
def assign (d : Msg) : Option Msg → Msg
  | none => freeValue d
  | some src => ({ (freeValue d).1 with val := src.1.val }, src.2)

/-! ## Ordered maps and lists -/

/-- A node of a document. -/
structure Item where
  id : Nat
  name : Option CStr
  val : Val

/-- An object is the ordered map, an array the list, of its items. -/
abbrev Doc := Item × Forest Item

def Item.setName (n : Item) (name : Option CStr) : Item := { n with name := name }

section

variable (d : Doc)

def Doc.items : List Doc := d.2.trees

/-- The item with a name. -/
def Doc.get (name : CStr) : Option Doc :=
  findKey (fun m : Doc => m.1.name) d.items (some name)

/-- Add at the end. -/
def Doc.append (d e : Doc) : Doc := (d.1, .ofTrees (d.items ++ [e]))

def Doc.addItem (d e : Doc) : Doc :=
  if d.1.val = .array then d.append (e.1.setName none, e.2) else d

/-- In the place of the item with the name, or at the end. -/
def Doc.setProp (name : Option CStr) (e : Doc) : Doc :=
  match d.1.val, name with
  | .array, none => d.addItem e
  | .object, some name =>
    if (d.get name).isSome then
      (d.1, .ofTrees (d.items.map fun m =>
        if m.1.name = some name then (e.1.setName (some name), e.2) else m))
    else d.append (e.1.setName (some name), e.2)
  | _, _ => d

/-- The first `num` items, with null items if there are fewer. -/
def Doc.arrayResize (num : Int) (fresh : Nat) : Doc :=
  if d.1.val = .array then
    (d.1, .ofTrees (d.items.take num.toNat ++ (range (num.toNat - d.items.length)).map fun i =>
        ({ id := fresh + i, name := none, val := .null }, .nil)))
  else d

def Doc.setType (type : MsgType) : Doc := ({ d.1 with val := Val.zero type }, .nil)

def Doc.assign : Option Doc → Doc
  | none => ({ d.1 with val := .null }, .nil)
  | some src => ({ d.1 with val := src.1.val }, src.2)

end

/-- What a node says about the document. -/
def Node.item (n : Node) : Item := { id := n.id, name := n.name, val := n.val }

/-- The document of a message. -/
def Msg.doc (d : Msg) : Doc := Forest.mapTree Node.item d

/-! ## Well-formed nodes -/

/-- The search tree has the items of the object under their names, which are distinct, and the
items know their positions. -/
structure ObjectOk (tree : List (CStr × Nat)) (heads : List Node) : Prop where
  entries : (tree.map fun x => (some x.1, x.2)).Perm (heads.map fun h => (h.name, h.id))
  names : (heads.map Node.name).Nodup
  idx : ∀ (i : Nat) (h : Node), heads[i]? = some h → h.idx = i

/-- Only an object has a search tree, and only a container has items. -/
structure NodeOk (n : Node) (below : Forest Node) : Prop where
  object : n.val = .object → ObjectOk n.tree below.heads
  tree : n.val ≠ .object → n.tree = []
  leaf : n.val.isContainer = false → below = .nil

/-- A lookup gives the item with the name, or nothing if there is none. -/
def Agree (n : Node) (below : Forest Node) : Prop :=
  n.val = .object → ∀ name, getProp n name = (findKey Node.name below.heads (some name)).map Node.id

variable {d d' e : Msg} {n : Node} {below : Forest Node} {name : CStr} {heads : List Node}
  {tree : List (CStr × Nat)}

theorem find_tree (tree : List (CStr × Nat)) (name : CStr) :
    Ds.Ordered.find Prod.fst strcmp tree name = findKey Prod.fst tree name := by
  simp [Ds.Ordered.find, findKey, strcmp_eq_zero_iff]

theorem ObjectOk.tree_names (ok : ObjectOk tree heads) : (tree.map Prod.fst).Nodup := by
  have perm := ok.entries.map Prod.fst
  simp only [map_map] at perm
  have nodup := perm.nodup_iff.mpr ok.names
  exact List.Nodup.of_map some (by simpa [comp_def] using nodup)

theorem ObjectOk.find (ok : ObjectOk tree heads) (name : CStr) :
    (Ds.Ordered.find Prod.fst strcmp tree name).map Prod.snd =
      (findKey Node.name heads (some name)).map Node.id := by
  apply Option.ext
  intro x
  rw [find_tree]
  simp only [Option.map_eq_some_iff, findKey_eq_some_iff ok.tree_names,
    findKey_eq_some_iff ok.names]
  have mem := ok.entries.mem_iff (a := (some name, x))
  simp only [mem_map, Prod.mk.injEq, Option.some.injEq] at mem
  constructor
  · rintro ⟨a, ⟨ha, rfl⟩, rfl⟩
    obtain ⟨h, hh, hn, hi⟩ := mem.mp ⟨a, ha, rfl, rfl⟩
    exact ⟨h, ⟨hh, hn⟩, hi⟩
  · rintro ⟨h, ⟨hh, hn⟩, hi⟩
    obtain ⟨a, ha, hn, hi⟩ := mem.mpr ⟨h, hh, hn, hi⟩
    exact ⟨a, ⟨ha, hn⟩, hi⟩

theorem NodeOk.agree (ok : NodeOk n below) : Agree n below := by
  intro hval name
  rw [getProp, if_pos hval]
  exact (ok.object hval).find name

/-- The label of a child that its parent looks at. -/
def Node.label (n : Node) : Nat × Option CStr × Nat := (n.id, n.name, n.idx)

theorem NodeOk.congr {below' : Forest Node}
    (h : below'.heads.map Node.label = below.heads.map Node.label) (ok : NodeOk n below) :
    NodeOk n below' := by
  constructor
  · intro hval
    obtain ⟨entries, names, idx⟩ := ok.object hval
    have hentries := congrArg (map fun l : Nat × Option CStr × Nat => (l.2.1, l.1)) h
    have hnames := congrArg (map fun l : Nat × Option CStr × Nat => l.2.1) h
    simp only [map_map] at hentries hnames
    refine ⟨hentries ▸ entries, hnames ▸ names, ?_⟩
    intro i x hx
    have hget := congrArg (fun l => l[i]?) h
    simp only [getElem?_map, hx] at hget
    obtain ⟨y, hy, hxy⟩ := Option.map_eq_some_iff.mp hget.symm
    have hidx := idx i y hy
    simp only [Node.label, Prod.mk.injEq] at hxy
    rw [← hxy.2.2, hidx]
  · exact ok.tree
  · intro hval
    have hnil := ok.leaf hval
    rw [hnil] at h
    have hheads : below'.heads = [] := by simpa [Forest.heads, Forest.trees] using h
    have htrees : below'.trees = [] := by simpa [Forest.heads] using hheads
    rw [← Forest.ofTrees_trees below', htrees]
    rfl

/-! ## What the operations do

`Refines d' d doc ids`: the node `d` has become `d'`, whose document is `doc`, without a change
that its parent sees, and the identities below it are among `ids`. -/

def ids (f : Forest Node) : List Nat := f.vals.map Node.id

/-- The identities of a node and of those below it. -/
def Msg.ids (d : Msg) : List Nat := d.1.id :: Osbus.ids d.2

structure Refines (d' d : Msg) (doc : Doc) (among : List Nat) : Prop where
  doc : d'.doc = doc
  ok : NodeOk d'.1 d'.2
  below : d'.2.All NodeOk
  label : d'.1.label = d.1.label
  ids : (ids d'.2).Subperm among

/-- Every node of a message is well-formed. -/
structure Msg.Ok (d : Msg) : Prop where
  top : NodeOk d.1 d.2
  below : d.2.All NodeOk

theorem Msg.Ok.setName (ok : e.Ok) (name : Option CStr) : Msg.Ok (e.1.setName name, e.2) :=
  ⟨⟨ok.top.object, ok.top.tree, ok.top.leaf⟩, ok.below⟩

theorem Msg.Ok.setIdx (ok : e.Ok) (idx : Nat) : Msg.Ok (e.1.setIdx idx, e.2) :=
  ⟨⟨ok.top.object, ok.top.tree, ok.top.leaf⟩, ok.below⟩

theorem newMsg_ok (id : Nat) (val : Val) : (newMsg id val).Ok := by
  refine ⟨⟨fun _ => ⟨.refl _, nodup_nil, ?_⟩, fun _ => rfl, fun _ => rfl⟩, trivial⟩
  intro i h hh
  simp [newMsg, Forest.heads, Forest.trees] at hh

theorem ids_ofTrees (l : List Msg) : ids (.ofTrees l) = l.flatMap Msg.ids := by
  simp [ids, Forest.vals_ofTrees, map_flatMap]
  rfl

theorem ids_eq (f : Forest Node) : ids f = f.trees.flatMap Msg.ids := by
  rw [← ids_ofTrees, Forest.ofTrees_trees]

/-- The search tree of an object with one more item at the end. -/
theorem ObjectOk.append (ok : ObjectOk tree heads) (hname : n.name = some name)
    (absent : some name ∉ heads.map Node.name) :
    ObjectOk (treeInsert tree n) (heads ++ [n.setIdx heads.length]) := by
  constructor
  · have perm := (Ds.Ordered.insert_perm Prod.fst strcmp tree (name, n.id)).map
      fun x => (some x.1, x.2)
    rw [treeInsert, hname, map_append]
    refine perm.trans ?_
    refine (ok.entries.cons _).trans ?_
    simp only [Node.setIdx, hname]
    exact (perm_append_singleton _ _).symm
  · rw [map_append, nodup_append]
    refine ⟨ok.names, nodup_singleton _, ?_⟩
    intro a ha b hb hab
    simp only [map_cons, map_nil, Node.setIdx, hname, mem_singleton] at hb
    exact absent (hb ▸ hab ▸ ha)
  · intro i h hh
    rw [getElem?_append] at hh
    split_ifs at hh with hi
    · exact ok.idx i h hh
    have hzero : i - heads.length = 0 := by
      by_contra hne
      obtain ⟨j, hj⟩ := Nat.exists_eq_succ_of_ne_zero hne
      simp [hj] at hh
    rw [hzero] at hh
    simp only [getElem?_cons_zero, Option.some.injEq] at hh
    rw [← hh]
    simp only [Node.setIdx]
    omega

theorem doc_append (d e : Msg) (n : Node) (hn : n.item = d.1.item) :
    Msg.doc (n, .ofTrees (d.items ++ [e])) = d.doc.append e.doc := by
  simp [Msg.doc, Forest.mapTree, Forest.map_ofTrees, Doc.append, Doc.items, Msg.items,
    Forest.trees_map, hn]

theorem appendItem_refines (hd : d.Ok) (he : e.Ok) (hval : d.1.val.isContainer = true)
    (hobj : d.1.val = .object → ∃ name, e.1.name = some name ∧ some name ∉ d.2.heads.map Node.name)
    (bound : d.items.length < intMax) :
    ∃ d', appendItem d e = some d' ∧ Refines d' d (d.doc.append e.doc) (ids d.2 ++ e.ids) := by
  refine ⟨_, by rw [appendItem, if_pos bound], ?_⟩
  have hidx := he.setIdx d.items.length
  have hheads : (Forest.ofTrees (d.items ++ [(e.1.setIdx d.items.length, e.2)])).heads =
      d.2.heads ++ [e.1.setIdx d.2.heads.length] := by
    simp [Forest.heads, Msg.items]
  constructor
  · exact doc_append d (e.1.setIdx d.items.length, e.2) _ rfl
  · constructor
    · intro h
      obtain ⟨name, hname, absent⟩ := hobj h
      rw [hheads]
      simp only [if_pos (show d.1.val = .object from h)]
      exact (hd.top.object h).append hname absent
    · intro h
      simp only [if_neg h]
      exact hd.top.tree h
    · intro h
      rw [show d.1.val.isContainer = false from h] at hval
      cases hval
  · rw [Forest.all_ofTrees]
    intro t ht
    rcases mem_append.mp ht with ht | ht
    · exact Forest.all_iff.mp hd.below t ht
    · rw [mem_singleton.mp ht]
      exact ⟨hidx.top, hidx.below⟩
  · rfl
  · rw [ids_ofTrees, flatMap_append, ids_eq d.2]
    simp only [flatMap_cons, flatMap_nil, append_nil]
    exact List.Subperm.refl _

theorem addItem_refines (hd : d.Ok) (he : e.Ok)
    (bound : d.1.val = .array → d.items.length < intMax) :
    ∃ d', addItem d e = some d' ∧ Refines d' d (d.doc.addItem e.doc) (ids d.2 ++ e.ids) := by
  by_cases hval : d.1.val = .array
  · rw [addItem, if_pos hval, Doc.addItem, if_pos (show d.doc.1.val = .array from hval)]
    refine appendItem_refines hd (he.setName none) (by rw [hval]; rfl) ?_ (bound hval)
    intro h
    rw [hval] at h
    cases h
  · rw [addItem, if_neg hval, Doc.addItem, if_neg (show d.doc.1.val ≠ .array from hval)]
    exact ⟨d, rfl, rfl, hd.top, hd.below, rfl, (sublist_append_left _ _).subperm⟩

/-- `osbus_msg_set_prop` with a name new to the object, or without a name on an array, and room for
an item. -/
structure FineProp (d : Msg) (name : Option CStr) : Prop where
  fresh : d.1.val = .object → ∀ n, name = some n → some n ∉ d.2.heads.map Node.name
  room : d.1.val = .object → name.isSome → d.items.length < intMax
  roomArray : d.1.val = .array → name = none → d.items.length < intMax

theorem get_isSome_iff (d : Msg) (name : CStr) :
    (d.doc.get name).isSome ↔ some name ∈ d.2.heads.map Node.name := by
  rw [← not_iff_not, Bool.not_eq_true, Option.isSome_eq_false_iff, Option.isNone_iff_eq_none,
    Doc.get, findKey_eq_none_iff]
  simp [Doc.items, Msg.doc, Forest.mapTree, Forest.trees_map, Forest.heads, Node.item]

theorem setProp_refines (hd : d.Ok) (he : e.Ok) {name : Option CStr} (fine : FineProp d name) :
    ∃ d', setProp d name e = some d' ∧
      Refines d' d (d.doc.setProp name e.doc) (ids d.2 ++ e.ids) := by
  have hval : d.doc.1.val = d.1.val := rfl
  have same : Refines d d d.doc (ids d.2 ++ e.ids) :=
    ⟨rfl, hd.top, hd.below, rfl, (sublist_append_left _ _).subperm⟩
  cases hv : d.1.val with
  | array =>
    cases name with
    | none =>
      simp only [setProp, Doc.setProp, hval, hv]
      exact addItem_refines hd he fun h => fine.roomArray h rfl
    | some name =>
      simp only [setProp, Doc.setProp, hval, hv]
      exact ⟨d, rfl, same⟩
  | object =>
    cases name with
    | none =>
      simp only [setProp, Doc.setProp, hval, hv]
      exact ⟨d, rfl, same⟩
    | some name =>
      have absent := fine.fresh hv name rfl
      have hget : getProp d.1 name = none := by
        rw [hd.top.agree hv, findKey_eq_none_iff.mpr absent]
        rfl
      have hdoc : (d.doc.get name).isSome = false := by
        rw [← Bool.not_eq_true, get_isSome_iff]
        exact absent
      simp only [setProp, Doc.setProp, hval, hv, hget, hdoc]
      refine appendItem_refines hd (he.setName (some name)) (by rw [hv]; rfl) ?_ (fine.room hv rfl)
      exact fun _ => ⟨name, rfl, absent⟩
  | null | bool | int | int64 | double | string | binary =>
    simp only [setProp, Doc.setProp, hval, hv]
    exact ⟨d, rfl, same⟩

/-- The null items that a resize adds. -/
def newItems (fresh count : Nat) : List Msg :=
  (range count).map fun i => newMsg (fresh + i) .null

section

variable (hd : d.Ok)

include hd

theorem Msg.Ok.items {t : Msg} (ht : t ∈ d.items) : t.Ok :=
  ⟨(Forest.all_iff.mp hd.below t ht).1, (Forest.all_iff.mp hd.below t ht).2⟩

theorem arrayResize_refines {num : Int} {fresh : Nat} (nonneg : d.1.val = .array → 0 ≤ num) :
    ∃ d', arrayResize d num fresh = some d' ∧
      Refines d' d (d.doc.arrayResize num fresh) (ids d.2 ++ range' fresh num.toNat) := by
  have hval : d.doc.1.val = d.1.val := rfl
  by_cases harr : d.1.val = .array
  swap
  · rw [arrayResize, if_pos harr, Doc.arrayResize, if_neg (by rwa [hval])]
    exact ⟨d, rfl, rfl, hd.top, hd.below, rfl, (sublist_append_left _ _).subperm⟩
  -- the items after a resize, whether it shortens the array or not
  have take : Refines (d.1, .ofTrees (d.items.take num.toNat ++
      newItems fresh (num.toNat - d.items.length))) d (d.doc.arrayResize num fresh)
      (ids d.2 ++ range' fresh num.toNat) := by
    have hne : d.1.val ≠ .object := by rw [harr]; decide
    refine ⟨?_, ⟨fun h => absurd h hne, fun _ => hd.top.tree hne, fun h => ?_⟩, ?_, rfl, ?_⟩
    · rw [Doc.arrayResize, if_pos (by rw [hval, harr])]
      simp [Msg.doc, Forest.mapTree, Forest.map_ofTrees, Doc.items, Msg.items, Forest.trees_map,
        newItems, newMsg, comp_def, Node.item, Forest.map]
    · rw [show d.1.val = .array from harr] at h
      cases h
    · rw [Forest.all_ofTrees]
      intro t ht
      have ok : Msg.Ok t := by
        rcases mem_append.mp ht with ht | ht
        · exact hd.items (mem_of_mem_take ht)
        · obtain ⟨i, -, rfl⟩ := mem_map.mp ht
          exact newMsg_ok _ _
      exact ⟨ok.top, ok.below⟩
    · rw [ids_ofTrees, flatMap_append, newItems, flatMap_map, ids_eq d.2,
        show (range _).flatMap _ = range' fresh _ by rw [range'_eq_map_range, map_eq_flatMap]; rfl]
      have left : ((d.items.take num.toNat).flatMap Msg.ids).Sublist
          (d.items.flatMap Msg.ids) := by
        conv_rhs => rw [← take_append_drop num.toNat d.items, flatMap_append]
        exact sublist_append_left _ _
      have right : (range' fresh (num.toNat - d.items.length)).Sublist
          (range' fresh num.toNat) := range'_sublist_right.mpr (Nat.sub_le _ _)
      exact (left.append right).subperm
  rw [arrayResize, if_neg (not_not.mpr harr)]
  split_ifs with heq hlt hneg
  · refine ⟨d, rfl, ?_⟩
    have hnum : num.toNat = d.items.length := by omega
    have hself : (d.1, Forest.ofTrees (d.items.take num.toNat ++
        newItems fresh (num.toNat - d.items.length))) = d := by
      simp [hnum, newItems, Msg.items]
    rwa [hself] at take
  · refine ⟨_, rfl, ?_⟩
    have htake : d.items.take num.toNat = d.items := take_of_length_le (by omega)
    rwa [htake] at take
  · exact absurd (nonneg harr) (by omega)
  · refine ⟨_, rfl, ?_⟩
    have hzero : num.toNat - d.items.length = 0 := by omega
    simpa [hzero, newItems] using take

theorem freeValue_tree : (freeValue d).1.tree = [] := by
  rw [freeValue]
  split_ifs with h
  · rfl
  refine hd.top.tree ?_
  intro hobj
  rw [hobj] at h
  exact h rfl

theorem setType_refines (type : MsgType) : Refines (setType d type) d (d.doc.setType type) [] := by
  have htree : (setType d type).1.tree = [] := freeValue_tree hd
  refine ⟨rfl, ⟨?_, fun _ => htree, fun _ => rfl⟩, trivial, rfl, List.Subperm.refl _⟩
  intro _
  rw [htree]
  refine ⟨.refl _, nodup_nil, ?_⟩
  intro i h hh
  simp [setType, freeValue, Forest.heads, Forest.trees] at hh

/-- `osbus_msg_assign` with a source that is not an object with items. -/
def NoProps (src : Msg) : Prop := src.1.val = .object → src.2 = .nil

theorem assign_refines {src : Option Msg} (hsrc : ∀ s ∈ src, s.Ok ∧ NoProps s) :
    Refines (assign d src) d (d.doc.assign (src.map Msg.doc)) (src.elim [] fun s => ids s.2) := by
  have htree := freeValue_tree hd
  cases src with
  | none =>
    refine ⟨rfl, ⟨fun h => ?_, fun _ => htree, fun _ => rfl⟩, trivial, rfl, List.Subperm.refl _⟩
    cases h
  | some s =>
    obtain ⟨hs, noProps⟩ := hsrc s rfl
    refine ⟨rfl, ⟨?_, fun _ => htree, hs.top.leaf⟩, hs.below, rfl, List.Subperm.refl _⟩
    intro h
    have hnil := noProps h
    simp only [assign, htree, hnil]
    refine ⟨.refl _, nodup_nil, ?_⟩
    intro i h hh
    simp [Forest.heads, Forest.trees] at hh

/-! ## Where the search tree and the items part -/

/-- After a name has been set again, a lookup gives the node that was freed. -/
theorem not_agree_overwrite (hval : d.1.val = .object)
    (hname : some name ∈ d.2.heads.map Node.name) (hids : (d.2.heads.map Node.id).Nodup)
    (he : e.1.id ∉ d.2.heads.map Node.id) (h : setProp d (some name) e = some d') :
    ¬Agree d'.1 d'.2 := by
  obtain ⟨x, hx⟩ : ∃ x, getProp d.1 name = some x := by
    rw [hd.top.agree hval]
    cases hfind : findKey Node.name d.2.heads (some name) with
    | none => exact absurd hname (findKey_eq_none_iff.mp hfind)
    | some h => exact ⟨h.id, rfl⟩
  simp only [setProp, hval, hx, overwriteItem] at h
  cases hm : findKey (fun m : Msg => m.1.id) d.items x with
  | none =>
    rw [hm] at h
    cases h
  | some m =>
    simp only [hm] at h
    split_ifs at h with hassert
    cases h
    intro agree
    have found := agree hval name
    rw [hx] at found
    obtain ⟨y, hy, hyx⟩ := Option.map_eq_some_iff.mp found.symm
    have heads : (Forest.ofTrees (d.items.set m.1.idx (e.1.setName (some name), e.2))).heads =
        d.2.heads.set m.1.idx (e.1.setName (some name)) := by
      simp [Forest.heads, Msg.items]
    have hmem := mem_of_findKey hy
    rw [heads, mem_iff_getElem?] at hmem
    obtain ⟨j, hj⟩ := hmem
    have hat : (d.2.heads.map Node.id)[m.1.idx]? = some x := by
      simpa [Forest.heads, Msg.items] using hassert
    rw [getElem?_set] at hj
    split_ifs at hj with hij hlt
    · cases hj
      -- the new node is not the one that was freed
      exact he (hyx ▸ mem_of_getElem? hat)
    · -- no other item has the identity of the freed one
      have hjx : (d.2.heads.map Node.id)[j]? = some x := by simp [hj, hyx]
      have hlt := (List.getElem?_eq_some_iff.mp hat).1
      exact hij ((List.getElem?_inj hlt hids).mp (hat.trans hjx.symm))

/-- After an assign of an object with items, a lookup does not find them. -/
theorem not_agree_assign {src : Msg} (hs : src.Ok) (hval : src.1.val = .object)
    (hne : src.2 ≠ .nil) : ¬Agree (assign d (some src)).1 (assign d (some src)).2 := by
  intro agree
  have htree : (assign d (some src)).1.tree = [] := freeValue_tree hd
  cases htrees : src.2.trees with
  | nil =>
    apply hne
    rw [← Forest.ofTrees_trees src.2, htrees]
    rfl
  | cons t ts =>
    have hhead : t.1 ∈ src.2.heads := by simp [Forest.heads, htrees]
    have hentry := (hs.top.object hval).entries.mem_iff.mpr (mem_map_of_mem hhead)
    obtain ⟨x, -, hx⟩ := mem_map.mp hentry
    have found := agree hval x.1
    rw [getProp, if_pos (show (assign d (some src)).1.val = .object from hval), htree] at found
    cases hfind : findKey Node.name src.2.heads (some x.1) with
    | none =>
      refine findKey_eq_none_iff.mp hfind (mem_map.mpr ⟨t.1, hhead, ?_⟩)
      exact (congrArg Prod.fst hx).symm
    | some y =>
      have hbelow : (assign d (some src)).2 = src.2 := rfl
      rw [hbelow, hfind] at found
      cases found

end

end OpenSync.Osbus
