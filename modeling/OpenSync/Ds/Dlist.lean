import Mathlib.Data.List.Basic

/-!
# Doubly linked lists of `ds_dlist.c.h`

An element and its node have the same address, so that the offset `od_cof` is not needed.  The
nodes are in a heap, which several lists share.

`Chain h l xs` says that the list `l` has exactly the elements `xs` in this order.  It is built from
`Seg`, the same for a part of a list, because the operations take a list apart at one place.
-/

namespace OpenSync.Ds

open List Function

/-- `struct ds_dlist`. -/
structure Dlist (α : Type) where
  head : Option α
  tail : Option α
  ndel : UInt32

namespace Dlist

variable {α : Type}

/-! ## The functions -/

/-- `struct ds_dlist_node`. -/
structure Node (α : Type) where
  prev : Option α
  next : Option α

abbrev Heap (α : Type) := α → Node α

/-- `DS_DLIST_INIT`. -/
def init : Dlist α := ⟨none, none, 0⟩

section

variable [DecidableEq α]

def setPrev (h : Heap α) (x : α) (p : Option α) : Heap α :=
  update h x { h x with prev := p }

def setNext (h : Heap α) (x : α) (n : Option α) : Heap α :=
  update h x { h x with next := n }

/-- A pointer to a node pointer: `od_head` of the list or `odn_next` of a node. -/
inductive Slot (α : Type) where
  | head
  | next (x : α)

def Slot.get (l : Dlist α) (h : Heap α) : Slot α → Option α
  | .head => l.head
  | .next x => (h x).next

def Slot.set (l : Dlist α) (h : Heap α) (v : α) : Slot α → Dlist α × Heap α
  | .head => ({ l with head := some v }, h)
  | .next x => (l, setNext h x (some v))

/-- `ds_dlist_insert_into`. -/
def insertInto (l : Dlist α) (h : Heap α) (into : Slot α) (x : α) : Dlist α × Heap α :=
  let h := setNext h x (into.get l h)
  let (l, h) := into.set l h x
  match (h x).next with
  | none => ({ l with tail := some x }, setPrev h x l.tail)
  | some n => (l, setPrev (setPrev h x (h n).prev) n (some x))

/-- `ds_dlist_insert_head`. -/
def insertHead (l : Dlist α) (h : Heap α) (x : α) : Dlist α × Heap α := insertInto l h .head x

/-- `ds_dlist_insert_before`. -/
def insertBefore (l : Dlist α) (h : Heap α) (before x : α) : Dlist α × Heap α :=
  match (h before).prev with
  | none => insertHead l h x
  | some p => insertInto l h (.next p) x

/-- `ds_dlist_insert_tail`. -/
def insertTail (l : Dlist α) (h : Heap α) (x : α) : Dlist α × Heap α :=
  match l.tail with
  | none => insertHead l h x
  | some t => insertInto l h (.next t) x

/-- The first half of `ds_dlist_node_remove`: the next pointer that leads to the node. -/
def unlinkNext (l : Dlist α) (h : Heap α) (x : α) : Dlist α × Heap α :=
  match (h x).prev with
  | none => ({ l with head := (h x).next }, h)
  | some p => (l, setNext h p (h x).next)

/-- The second half of `ds_dlist_node_remove`: the previous pointer that leads to the
node. -/
def unlinkPrev (l : Dlist α) (h : Heap α) (x : α) : Dlist α × Heap α :=
  match (h x).next with
  | none => ({ l with tail := (h x).prev }, h)
  | some n => (l, setPrev h n (h x).prev)

/-- `ds_dlist_node_remove`. -/
def nodeRemove (l : Dlist α) (h : Heap α) (x : α) : Dlist α × Heap α :=
  let (l, h) := unlinkNext l h x
  let (l, h) := unlinkPrev l h x
  ({ l with ndel := l.ndel + 1 }, update h x ⟨none, none⟩)

end

/-! ## Parts of a list -/

/-- The nodes `xs` are linked to each other, to `p` before them and to `n` behind
them. -/
def Seg (h : Heap α) : Option α → List α → Option α → Prop
  | _, [], _ => True
  | p, x :: xs, n => h x = ⟨p, xs.head?.or n⟩ ∧ Seg h (some x) xs n

variable {h h' : Heap α} {l l' : Dlist α} {p p' n n' : Option α} {x : α} {xs ys pre post : List α}

theorem Seg.congr (hs : Seg h p xs n) (hh : ∀ y ∈ xs, h' y = h y) : Seg h' p xs n := by
  induction xs generalizing p with
  | nil => trivial
  | cons x xs ih =>
    exact ⟨(hh x mem_cons_self).trans hs.1, ih hs.2 (fun y hy => hh y (mem_cons_of_mem x hy))⟩

theorem seg_append :
    Seg h p (xs ++ ys) n ↔ Seg h p xs (ys.head?.or n) ∧ Seg h (xs.getLast?.or p) ys n := by
  induction xs generalizing p with
  | nil => simp [Seg]
  | cons x xs ih =>
    have hlast : ((x :: xs).getLast?.or p) = xs.getLast?.or (some x) := by
      rw [getLast?_cons]
      cases xs.getLast? <;> rfl
    rw [cons_append, Seg, Seg, ih, hlast, head?_append, Option.or_assoc, and_assoc]

theorem Seg.relinkLast (hs : Seg h p xs n) (hnd : xs.Nodup)
    (hlast : ∀ z ∈ xs.getLast?, h' z = { h z with next := n' })
    (hrest : ∀ y ∈ xs, y ∉ xs.getLast? → h' y = h y) : Seg h' p xs n' := by
  induction xs generalizing p with
  | nil => trivial
  | cons x xs ih =>
    obtain ⟨hx, hs⟩ := hs
    obtain ⟨hxs, hnd⟩ := nodup_cons.mp hnd
    cases xs with
    | nil => exact ⟨by simp [hlast x rfl, hx], trivial⟩
    | cons y ys =>
      have hx' : x ∉ (y :: ys).getLast? := fun hmem => hxs (mem_of_mem_getLast? hmem)
      refine ⟨by simpa using (hrest x mem_cons_self hx').trans hx, ih hs hnd hlast ?_⟩
      exact fun w hw hw' => hrest w (mem_cons_of_mem x hw) hw'

theorem Seg.relinkFirst (hs : Seg h p xs n) (hnd : xs.Nodup)
    (hfirst : ∀ w ∈ xs.head?, h' w = { h w with prev := p' })
    (hrest : ∀ y ∈ xs, y ∉ xs.head? → h' y = h y) : Seg h' p' xs n := by
  cases xs with
  | nil => trivial
  | cons x xs =>
    obtain ⟨hxs, -⟩ := nodup_cons.mp hnd
    refine ⟨by simp [hfirst x rfl, hs.1], hs.2.congr (fun y hy => ?_)⟩
    refine hrest y (mem_cons_of_mem x hy) ?_
    rintro hyx
    cases hyx
    exact hxs hy

/-! ## Whole lists -/

/-- The list has the elements `xs`. -/
structure Chain (h : Heap α) (l : Dlist α) (xs : List α) : Prop where
  head : l.head = xs.head?
  tail : l.tail = xs.getLast?
  nodup : xs.Nodup
  seg : Seg h none xs none

theorem chain_init : Chain h init [] := ⟨rfl, rfl, .nil, trivial⟩

theorem Chain.congr (hc : Chain h l xs) (hh : ∀ y ∈ xs, h' y = h y) : Chain h' l xs :=
  { hc with seg := hc.seg.congr hh }

theorem Chain.node (hc : Chain h l (pre ++ x :: post)) : h x = ⟨pre.getLast?, post.head?⟩ := by
  have hx := (seg_append.mp hc.seg).2.1
  simpa using hx

/-- A node without a predecessor is the first one of the list or not in it. -/
theorem Chain.not_mem (hc : Chain h l xs) (hprev : (h x).prev = none) (hhead : l.head ≠ some x) :
    x ∉ xs := by
  intro hx
  obtain ⟨pre, post, rfl⟩ := append_of_mem hx
  rw [hc.node, getLast?_eq_none_iff] at hprev
  subst hprev
  exact hhead hc.head

theorem Chain.link (hc : Chain h l (pre ++ post)) (hx : x ∉ pre ++ post)
    (hhead : l'.head = (pre ++ x :: post).head?) (htail : l'.tail = (pre ++ x :: post).getLast?)
    (hself : h' x = ⟨pre.getLast?, post.head?⟩)
    (hlast : ∀ z ∈ pre.getLast?, h' z = { h z with next := some x })
    (hfirst : ∀ w ∈ post.head?, h' w = { h w with prev := some x })
    (hrest : ∀ y, y ≠ x → y ∉ pre.getLast? → y ∉ post.head? → h' y = h y) :
    Chain h' l' (pre ++ x :: post) := by
  obtain ⟨hpre, hpost⟩ := seg_append.mp hc.seg
  obtain ⟨hnd1, hnd2, hdis⟩ := nodup_append.mp hc.nodup
  have hnd : (pre ++ x :: post).Nodup := by
    rw [perm_middle.nodup_iff, nodup_cons]
    exact ⟨hx, hc.nodup⟩
  refine ⟨hhead, htail, hnd, seg_append.mpr ⟨?_, by simpa using hself, ?_⟩⟩
  · refine hpre.relinkLast hnd1 (fun z hz => by simpa using hlast z hz) (fun y hy hy' => ?_)
    refine hrest y ?_ hy' (fun hy'' => hdis y hy y (mem_of_mem_head? hy'') rfl)
    rintro rfl
    exact hx (mem_append_left _ hy)
  · refine hpost.relinkFirst hnd2 hfirst (fun y hy hy' => ?_)
    refine hrest y ?_ (fun hy'' => hdis y (mem_of_mem_getLast? hy'') y hy rfl) hy'
    rintro rfl
    exact hx (mem_append_right _ hy)

theorem Chain.unlink (hc : Chain h l (pre ++ x :: post))
    (hhead : l'.head = (pre ++ post).head?) (htail : l'.tail = (pre ++ post).getLast?)
    (hlast : ∀ z ∈ pre.getLast?, h' z = { h z with next := post.head? })
    (hfirst : ∀ w ∈ post.head?, h' w = { h w with prev := pre.getLast? })
    (hrest : ∀ y, y ≠ x → y ∉ pre.getLast? → y ∉ post.head? → h' y = h y) :
    Chain h' l' (pre ++ post) := by
  obtain ⟨hpre, -, hpost⟩ := seg_append.mp hc.seg
  obtain ⟨hx, hnd⟩ := nodup_cons.mp (perm_middle.nodup_iff.mp hc.nodup)
  obtain ⟨hnd1, hnd2, hdis⟩ := nodup_append.mp hnd
  refine ⟨hhead, htail, hnd, seg_append.mpr ⟨?_, ?_⟩⟩
  · refine hpre.relinkLast hnd1 (fun z hz => by simpa using hlast z hz) (fun y hy hy' => ?_)
    refine hrest y ?_ hy' (fun hy'' => hdis y hy y (mem_of_mem_head? hy'') rfl)
    rintro rfl
    exact hx (mem_append_left _ hy)
  · refine hpost.relinkFirst hnd2 (fun w hw => by simpa using hfirst w hw) (fun y hy hy' => ?_)
    refine hrest y ?_ (fun hy'' => hdis y (mem_of_mem_getLast? hy'') y hy rfl) hy'
    rintro rfl
    exact hx (mem_append_right _ hy)

/-! ## What the functions do -/

variable [DecidableEq α]

/-- The next pointer of a node that may be `NULL`. -/
def relinkNext (h : Heap α) (o n : Option α) : Heap α :=
  fun y => if o = some y then { h y with next := n } else h y

/-- The previous pointer of a node that may be `NULL`. -/
def relinkPrev (h : Heap α) (o p : Option α) : Heap α :=
  fun y => if o = some y then { h y with prev := p } else h y

theorem setNext_eq (h : Heap α) (z : α) (n : Option α) :
    setNext h z n = relinkNext h (some z) n := by
  funext y
  simp only [setNext, relinkNext, update_apply, Option.some.injEq, eq_comm]
  split_ifs with hy
  · rw [hy]
  · rfl

theorem setPrev_eq (h : Heap α) (w : α) (p : Option α) :
    setPrev h w p = relinkPrev h (some w) p := by
  funext y
  simp only [setPrev, relinkPrev, update_apply, Option.some.injEq, eq_comm]
  split_ifs with hy
  · rw [hy]
  · rfl

@[simp] theorem relinkNext_none (h : Heap α) (n : Option α) : relinkNext h none n = h := rfl

@[simp] theorem relinkPrev_none (h : Heap α) (p : Option α) : relinkPrev h none p = h := rfl

/-- The place behind the elements `pre`. -/
def slotAfter (pre : List α) : Slot α :=
  match pre.getLast? with
  | none => .head
  | some z => .next z

/-- The heap with the node `x` linked in between two nodes. -/
def linkIn (h : Heap α) (p : Option α) (x : α) (n : Option α) : Heap α :=
  relinkPrev (relinkPrev (relinkNext (relinkNext h (some x) n) p (some x)) (some x) p) n (some x)

attribute [local simp] relinkNext setPrev_eq setNext_eq linkIn

/-- `ds_dlist_insert_into`, by the elements before and behind the place. -/
theorem insertInto_eq (hc : Chain h l (pre ++ post)) (hx : x ∉ pre ++ post) :
    (insertInto l h (slotAfter pre) x).2 = linkIn h pre.getLast? x post.head? ∧
      (insertInto l h (slotAfter pre) x).1.head = (pre ++ x :: post).head? ∧
      (insertInto l h (slotAfter pre) x).1.tail = (pre ++ x :: post).getLast? := by
  have hhead := hc.head
  have htail := hc.tail
  rcases eq_nil_or_concat pre with rfl | ⟨pre, z, rfl⟩
  · cases post with
    | nil =>
      have h1 : l.head = none := hhead
      have h2 : l.tail = none := htail
      simp [insertInto, slotAfter, Slot.get, Slot.set, h1, h2]
    | cons w post =>
      have h1 : l.head = some w := hhead
      have hc' : Chain h l ([] ++ w :: post) := hc
      have hw : h w = ⟨none, post.head?⟩ := hc'.node
      have hxw : x ≠ w := by
        rintro rfl
        simp at hx
      simp [insertInto, slotAfter, Slot.get, Slot.set, h1, hw, hxw, htail]
  · have hzx : z ≠ x := by
      rintro rfl
      simp at hx
    rw [concat_eq_append, append_assoc] at hc hhead htail
    have hz := hc.node
    cases post with
    | nil =>
      simp [insertInto, slotAfter, Slot.get, Slot.set, hz, hzx, hhead, htail]
    | cons w post =>
      have hw : h w = ⟨some z, post.head?⟩ := by
        have hc' : Chain h l ((pre ++ [z]) ++ w :: post) := by simpa using hc
        simpa using hc'.node
      have hxw : x ≠ w := by
        rintro rfl
        simp at hx
      have hzw : z ≠ w := by
        rintro rfl
        simpa using (nodup_append.mp hc.nodup).2.1
      simp [insertInto, slotAfter, Slot.get, Slot.set, hz, hzx, hw, hxw, hzw, hhead, htail]

/-- The list `r` has the elements `xs`, and only nodes of `old` have changed. -/
structure Result (h : Heap α) (old : List α) (r : Dlist α × Heap α) (xs : List α) : Prop where
  chain : Chain r.2 r.1 xs
  frame : ∀ y, y ∉ old → r.2 y = h y

attribute [local simp] relinkPrev

/-- `ds_dlist_insert_into` puts the element between `pre` and `post`. -/
theorem insertInto_spec (hc : Chain h l (pre ++ post)) (hx : x ∉ pre ++ post) :
    Result h (x :: (pre ++ post)) (insertInto l h (slotAfter pre) x) (pre ++ x :: post) := by
  obtain ⟨hheap, hhead, htail⟩ := insertInto_eq hc hx
  obtain ⟨hpre, hpost⟩ : x ∉ pre ∧ x ∉ post := by simpa using hx
  have hdis := (nodup_append.mp hc.nodup).2.2
  have hprex : pre.getLast? ≠ some x := fun he => hpre (mem_of_mem_getLast? he)
  have hpostx : post.head? ≠ some x := fun he => hpost (mem_of_mem_head? he)
  have hrest : ∀ y, y ≠ x → y ∉ pre.getLast? → y ∉ post.head? →
      (insertInto l h (slotAfter pre) x).2 y = h y := by
    intro y hy (hlast : pre.getLast? ≠ some y) (hfirst : post.head? ≠ some y)
    simp [hheap, Ne.symm hy, hlast, hfirst]
  refine ⟨hc.link hx hhead htail ?_ ?_ ?_ hrest, ?_⟩
  · simp [hheap, hprex, hpostx]
  · intro z (hz : pre.getLast? = some z)
    have hzx : x ≠ z := fun he => hprex (he ▸ hz)
    have hzw : post.head? ≠ some z := fun he =>
      hdis z (mem_of_mem_getLast? hz) z (mem_of_mem_head? he) rfl
    simp [hheap, hz, hzx, hzw]
  · intro w (hw : post.head? = some w)
    have hxw : x ≠ w := fun he => hpostx (he ▸ hw)
    have hzw : pre.getLast? ≠ some w := fun he =>
      hdis w (mem_of_mem_getLast? he) w (mem_of_mem_head? hw) rfl
    simp [hheap, hw, hxw, hzw]
  · intro y hy
    simp only [mem_cons, mem_append, not_or] at hy
    exact hrest y hy.1 (fun hm => hy.2.1 (mem_of_mem_getLast? hm))
      (fun hm => hy.2.2 (mem_of_mem_head? hm))

theorem insertBefore_spec {w : α} (hc : Chain h l (pre ++ w :: post)) (hx : x ∉ pre ++ w :: post) :
    Result h (x :: (pre ++ w :: post)) (insertBefore l h w x) (pre ++ x :: w :: post) := by
  have hins : insertBefore l h w x = insertInto l h (slotAfter pre) x := by
    rw [insertBefore, hc.node, slotAfter]
    cases pre.getLast? <;> rfl
  rw [hins]
  exact insertInto_spec hc hx

theorem insertTail_spec (hc : Chain h l xs) (hx : x ∉ xs) :
    Result h (x :: xs) (insertTail l h x) (xs ++ [x]) := by
  have hins : insertTail l h x = insertInto l h (slotAfter xs) x := by
    rw [insertTail, hc.tail, slotAfter]
    cases xs.getLast? <;> rfl
  rw [hins]
  have hc' : Chain h l (xs ++ []) := by simpa using hc
  simpa using insertInto_spec hc' (by simpa using hx)

/-- `ds_dlist_node_remove`, by the elements before and behind the node. -/
theorem nodeRemove_eq (hc : Chain h l (pre ++ x :: post)) :
    (nodeRemove l h x).2 = update
          (relinkPrev (relinkNext h pre.getLast? post.head?) post.head? pre.getLast?) x
          ⟨none, none⟩ ∧
      (nodeRemove l h x).1.head = (pre ++ post).head? ∧
      (nodeRemove l h x).1.tail = (pre ++ post).getLast? := by
  have hhead := hc.head
  have htail := hc.tail
  have hx := hc.node
  obtain ⟨hxmem, -⟩ := nodup_cons.mp (perm_middle.nodup_iff.mp hc.nodup)
  rcases eq_nil_or_concat pre with rfl | ⟨pre, z, rfl⟩
  · cases post with
    | nil => simp [nodeRemove, unlinkNext, unlinkPrev, hx]
    | cons w post =>
      have ht : l.tail = (w :: post).getLast? := by simpa using htail
      simp [nodeRemove, unlinkNext, unlinkPrev, hx, ht]
  · have hzx : z ≠ x := by
      rintro rfl
      simp at hxmem
    have hh : l.head = (pre ++ [z]).head? := by simpa using hhead
    cases post with
    | nil =>
      simp [nodeRemove, unlinkNext, unlinkPrev, hx, hh]
    | cons w post =>
      simp [nodeRemove, unlinkNext, unlinkPrev, hx, hh, htail]

theorem nodeRemove_spec (hc : Chain h l (pre ++ x :: post)) :
    Result h (pre ++ x :: post) (nodeRemove l h x) (pre ++ post) := by
  obtain ⟨hheap, hhead, htail⟩ := nodeRemove_eq hc
  obtain ⟨hx, hnd⟩ := nodup_cons.mp (perm_middle.nodup_iff.mp hc.nodup)
  obtain ⟨hpre, hpost⟩ : x ∉ pre ∧ x ∉ post := by simpa using hx
  have hdis := (nodup_append.mp hnd).2.2
  have hrest : ∀ y, y ≠ x → y ∉ pre.getLast? → y ∉ post.head? → (nodeRemove l h x).2 y = h y := by
    intro y hy (hlast : pre.getLast? ≠ some y) (hfirst : post.head? ≠ some y)
    simp [hheap, hy, hlast, hfirst]
  refine ⟨hc.unlink hhead htail ?_ ?_ hrest, ?_⟩
  · intro z (hz : pre.getLast? = some z)
    have hzx : z ≠ x := fun he => hpre (he ▸ mem_of_mem_getLast? hz)
    have hzw : post.head? ≠ some z := fun he =>
      hdis z (mem_of_mem_getLast? hz) z (mem_of_mem_head? he) rfl
    simp [hheap, hz, hzx, hzw]
  · intro w (hw : post.head? = some w)
    have hwx : w ≠ x := fun he => hpost (he ▸ mem_of_mem_head? hw)
    have hzw : pre.getLast? ≠ some w := fun he =>
      hdis w (mem_of_mem_getLast? he) w (mem_of_mem_head? hw) rfl
    simp [hheap, hw, hwx, hzw]
  · intro y hy
    simp only [mem_append, mem_cons, not_or] at hy
    exact hrest y hy.2.1 (fun hm => hy.1 (mem_of_mem_getLast? hm))
      (fun hm => hy.2.2 (mem_of_mem_head? hm))

end Dlist

end OpenSync.Ds
