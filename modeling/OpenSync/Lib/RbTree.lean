import Mathlib.Algebra.Order.Ring.Int

/-!
# Coloured binary trees with a hole

A path is the list of the nodes above a hole, the innermost first, and `plug` puts a tree into
it.  Algorithms that walk a tree with parent pointers are statements about a path and the tree
below it.  A node is written `join d c a x b`: the child on side `d` is `a` and the other one is
`b`, so that every lemma is about both directions at once.

`Bal t n` says that `t` is a red-black tree of black height `n`, possibly with a red root, and
`BalPath p n` that the path `p` is one with a hole for such a tree (`bal_plug`).
-/

namespace OpenSync.Lib.Rb

variable {β : Type}

/-- A binary tree with coloured nodes; the colour is `true` for red. -/
inductive Tree (β : Type) where
  | leaf
  | node (red : Bool) (l : Tree β) (x : β) (r : Tree β)

namespace Tree

/-- A node with the child `a` on side `d` and the child `b` on the other. -/
def join (d : Bool) (red : Bool) (a : Tree β) (x : β) (b : Tree β) : Tree β :=
  if d then .node red b x a else .node red a x b

variable (d : Bool) {t : Tree β} {n : Nat}

section

variable (red : Bool)

/-- Every node can be read from either side. -/
theorem exists_join (l : Tree β) (x : β) (r : Tree β) :
    ∃ a b, Tree.node red l x r = join d red a x b := by
  cases d with
  | false => exact ⟨l, r, rfl⟩
  | true => exact ⟨r, l, rfl⟩

theorem join_not (a : Tree β) (x : β) (b : Tree β) : join (!d) red a x b = join d red b x a := by
  cases d <;> rfl

theorem join_ne_leaf {d red : Bool} {a : Tree β} {x : β} {b : Tree β} :
    join d red a x b ≠ .leaf := by
  cases d <;> simp [join]

/-- Whether the root is red.  An empty tree is black. -/
def isRed : Tree β → Bool
  | .leaf => false
  | .node red _ _ _ => red

@[simp] theorem isRed_leaf : (leaf : Tree β).isRed = false := rfl

@[simp] theorem isRed_join (a : Tree β) (x : β) (b : Tree β) : (join d red a x b).isRed = red := by
  cases d <;> rfl

/-- The elements in order. -/
def toList : Tree β → List β
  | .leaf => []
  | .node _ l x r => l.toList ++ x :: r.toList

@[simp] theorem toList_leaf : (leaf : Tree β).toList = [] := rfl

theorem toList_join (a : Tree β) (x : β) (b : Tree β) : (join d red a x b).toList =
      if d then b.toList ++ x :: a.toList else a.toList ++ x :: b.toList := by
  cases d <;> rfl

theorem toList_join_perm (a : Tree β) (x : β) (b : Tree β) :
    (join d red a x b).toList.Perm (x :: (a.toList ++ b.toList)) := by
  rw [toList_join]
  split
  · exact List.perm_middle.trans (List.perm_append_comm.cons x)
  · exact List.perm_middle

/-- The root with another colour. -/
def paint : Tree β → Tree β
  | .leaf => .leaf
  | .node _ l x r => .node red l x r

@[simp] theorem paint_join (red red' : Bool) (a : Tree β) (x : β) (b : Tree β) :
    (join d red a x b).paint red' = join d red' a x b := by
  cases d <;> rfl

@[simp] theorem toList_paint (t : Tree β) : (t.paint red).toList = t.toList := by
  cases t <;> rfl

end

theorem isRed_paint_false (t : Tree β) : (t.paint false).isRed = false := by
  cases t <;> rfl

/-! ## Balance -/

/-- A red-black tree of black height `n`, with a root of either colour. -/
def Bal : Tree β → Nat → Prop
  | .leaf, n => n = 0
  | .node true l _ r, n => l.isRed = false ∧ r.isRed = false ∧ l.Bal n ∧ r.Bal n
  | .node false l _ r, n => ∃ m, n = m + 1 ∧ l.Bal m ∧ r.Bal m

@[simp] theorem bal_leaf (n : Nat) : (leaf : Tree β).Bal n ↔ n = 0 := Iff.rfl

section

variable (a : Tree β) (x : β) (b : Tree β) (n : Nat)

include a b

theorem bal_join_red : (join d true a x b).Bal n ↔
      a.isRed = false ∧ b.isRed = false ∧ a.Bal n ∧ b.Bal n := by
  cases d
  · exact Iff.rfl
  constructor
  · rintro ⟨h1, h2, h3, h4⟩
    exact ⟨h2, h1, h4, h3⟩
  · rintro ⟨h1, h2, h3, h4⟩
    exact ⟨h2, h1, h4, h3⟩

theorem bal_join_black : (join d false a x b).Bal n ↔ ∃ m, n = m + 1 ∧ a.Bal m ∧ b.Bal m := by
  cases d
  · exact Iff.rfl
  constructor
  · rintro ⟨m, h1, h2, h3⟩
    exact ⟨m, h1, h3, h2⟩
  · rintro ⟨m, h1, h2, h3⟩
    exact ⟨m, h1, h3, h2⟩

@[simp] theorem bal_join_black_succ : (join d false a x b).Bal (n + 1) ↔ a.Bal n ∧ b.Bal n := by
  rw [bal_join_black]
  constructor
  · rintro ⟨m, hm, h⟩
    obtain rfl : n = m := by omega
    exact h
  · intro h
    exact ⟨n, rfl, h⟩

end

/-- Only an empty tree or a red node has no black node. -/
theorem Bal.eq_leaf (h : t.Bal 0) (hblack : t.isRed = false) : t = .leaf := by
  cases t with
  | leaf => rfl
  | node red l x r =>
    cases red with
    | true => simp [isRed] at hblack
    | false =>
      obtain ⟨m, hm, -⟩ := h
      omega

/-- A tree with a black node is not empty, and it can be read from either side. -/
theorem Bal.exists_join_succ (h : t.Bal (n + 1)) (d : Bool) :
    ∃ red a x b, t = join d red a x b := by
  cases t with
  | leaf => simp at h
  | node red l x r =>
    obtain ⟨a, b, hab⟩ := exists_join d red l x r
    exact ⟨red, a, x, b, hab⟩

theorem Bal.exists_join_black (h : t.Bal (n + 1)) (hblack : t.isRed = false) (d : Bool) :
    ∃ a x b, t = join d false a x b ∧ a.Bal n ∧ b.Bal n := by
  obtain ⟨red, a, x, b, rfl⟩ := h.exists_join_succ d
  rw [isRed_join] at hblack
  subst hblack
  exact ⟨a, x, b, rfl, (bal_join_black_succ d a x b n).mp h⟩

/-- The number of nodes on the longest way down. -/
def height : Tree β → Nat
  | .leaf => 0
  | .node _ l _ r => max l.height r.height + 1

theorem height_le_length (t : Tree β) : t.height ≤ t.toList.length := by
  induction t with
  | leaf => exact Nat.zero_le _
  | node red l x r ihl ihr =>
    simp only [height, toList, List.length_append, List.length_cons]
    omega

theorem Bal.height_le (h : t.Bal n) : t.height ≤ 2 * n + t.isRed.toNat := by
  induction t generalizing n with
  | leaf => exact Nat.zero_le _
  | node red l x r ihl ihr =>
    cases red with
    | true =>
      obtain ⟨hl, hr, hbl, hbr⟩ := h
      have hl := hl ▸ ihl hbl
      have hr := hr ▸ ihr hbr
      simp only [height, isRed, Bool.toNat_true, Bool.toNat_false] at *
      omega
    | false =>
      obtain ⟨m, rfl, hbl, hbr⟩ := h
      have hl := ihl hbl
      have hr := ihr hbr
      have hredl := l.isRed.toNat_le
      have hredr := r.isRed.toNat_le
      simp only [height]
      omega

theorem Bal.two_pow_le (h : t.Bal n) : 2 ^ n ≤ t.toList.length + 1 := by
  induction t generalizing n with
  | leaf => simp [show n = 0 from h]
  | node red l x r ihl ihr =>
    simp only [toList, List.length_append, List.length_cons]
    cases red with
    | true =>
      have hl := ihl h.2.2.1
      omega
    | false =>
      obtain ⟨m, rfl, hbl, hbr⟩ := h
      have hl := ihl hbl
      have hr := ihr hbr
      omega

/-- A red root that becomes black adds to the black height. -/
theorem Bal.blacken (h : t.Bal n) (hred : t.isRed = true) : (t.paint false).Bal (n + 1) := by
  cases t with
  | leaf => simp at hred
  | node red l x r =>
    obtain rfl : red = true := hred
    exact ⟨n, rfl, h.2.2⟩

/-- Painting the root black keeps a red-black tree. -/
theorem Bal.paint_black (h : t.Bal n) : ∃ m, (t.paint false).Bal m := by
  cases hred : t.isRed with
  | true => exact ⟨n + 1, h.blacken hred⟩
  | false =>
    refine ⟨n, ?_⟩
    cases t with
    | leaf => exact h
    | node red l x r =>
      obtain rfl : red = false := hred
      exact h

end Tree

open Tree List

/-! ## Paths -/

/-- A node above a hole: the side of the hole, the colour, the element and the
other child. -/
structure Frame (β : Type) where
  dir : Bool
  red : Bool
  elt : β
  sib : Tree β

/-- A path from a hole to the root, the innermost node first. -/
abbrev Path (β : Type) := List (Frame β)

/-- The node of a frame with a tree in its hole. -/
def Frame.fill (f : Frame β) (t : Tree β) : Tree β := join f.dir f.red t f.elt f.sib

/-- A tree put into the hole of a path. -/
def plug : Path β → Tree β → Tree β
  | [], t => t
  | f :: p, t => plug p (f.fill t)

/-- Whether the node right above the hole is red. -/
def headRed : Path β → Bool
  | [] => false
  | f :: _ => f.red

/-- The elements in front of the hole. -/
def before : Path β → List β
  | [] => []
  | f :: p => before p ++ if f.dir then f.sib.toList ++ [f.elt] else []

/-- The elements behind the hole. -/
def after : Path β → List β
  | [] => []
  | f :: p => (if f.dir then [] else f.elt :: f.sib.toList) ++ after p

variable (p q : Path β)

theorem toList_plug (t : Tree β) : (plug p t).toList = before p ++ t.toList ++ after p := by
  induction p generalizing t with
  | nil => simp [plug, before, after]
  | cons f p ih =>
    rw [plug, ih, Frame.fill, toList_join, before, after]
    cases f.dir <;> simp

theorem plug_append (p : Path β) (t : Tree β) : plug (q ++ p) t = plug p (plug q t) := by
  induction q generalizing t with
  | nil => rfl
  | cons f q ih => exact ih (f.fill t)

/-- Nothing is behind the hole at the end of a path along the right sides. -/
theorem after_eq_nil {p : Path β} (h : ∀ f ∈ p, f.dir = true) : after p = [] := by
  induction p with
  | nil => rfl
  | cons f p ih =>
    rw [after, h f mem_cons_self, if_pos rfl]
    exact ih (fun g hg => h g (mem_cons_of_mem f hg))

/-- Nothing is in front of the hole at the end of a path along the left sides. -/
theorem before_eq_nil {p : Path β} (h : ∀ f ∈ p, f.dir = false) : before p = [] := by
  induction p with
  | nil => rfl
  | cons f p ih =>
    rw [before, h f mem_cons_self, ih (fun g hg => h g (mem_cons_of_mem f hg))]
    rfl

/-- Every element of a tree is at the root of a subtree. -/
theorem exists_plug_of_mem {t : Tree β} {x : β} (h : x ∈ t.toList) :
    ∃ p red l r, t = plug p (.node red l x r) := by
  induction t with
  | leaf => simp at h
  | node red l y r ihl ihr =>
    rcases mem_append.mp h with h | h
    · obtain ⟨p, red', l', r', rfl⟩ := ihl h
      refine ⟨p ++ [⟨false, red, y, r⟩], red', l', r', ?_⟩
      rw [plug_append]
      rfl
    · rcases mem_cons.mp h with rfl | h
      · exact ⟨[], red, l, r, rfl⟩
      obtain ⟨p, red', l', r', rfl⟩ := ihr h
      refine ⟨p ++ [⟨true, red, y, l⟩], red', l', r', ?_⟩
      rw [plug_append]
      rfl

theorem length_le_plug (t : Tree β) : p.length + t.toList.length ≤ (plug p t).toList.length := by
  induction p generalizing t with
  | nil => simp [plug]
  | cons f p ih =>
    have hfill := (toList_join_perm f.dir f.red t f.elt f.sib).length_eq
    have hplug := ih (f.fill t)
    rw [length_cons, length_append] at hfill
    rw [Frame.fill] at hplug
    rw [plug, length_cons, Frame.fill]
    omega

/-- The element right in front of a hole is one of the path. -/
theorem getLast?_before {p : Path β} {x : β} (h : (before p).getLast? = some x) :
    ∃ f ∈ p, f.dir = true ∧ f.elt = x := by
  induction p with
  | nil => simp [before] at h
  | cons f p ih =>
    cases hd : f.dir with
    | true =>
      refine ⟨f, mem_cons_self, hd, ?_⟩
      rw [before, hd, if_pos rfl, ← append_assoc, getLast?_concat] at h
      exact Option.some.inj h
    | false =>
      obtain ⟨g, hg, hgx⟩ := ih (by simpa [before, hd] using h)
      exact ⟨g, mem_cons_of_mem f hg, hgx⟩

/-- The element right behind a hole is one of the path. -/
theorem head?_after {p : Path β} {x : β} (h : (after p).head? = some x) :
    ∃ f ∈ p, f.dir = false ∧ f.elt = x := by
  induction p with
  | nil => simp [after] at h
  | cons f p ih =>
    cases hd : f.dir with
    | true =>
      obtain ⟨g, hg, hgx⟩ := ih (by simpa [after, hd] using h)
      exact ⟨g, mem_cons_of_mem f hg, hgx⟩
    | false =>
      refine ⟨f, mem_cons_self, hd, ?_⟩
      simpa [after, hd] using h

/-- What is in the hole decides the order of the whole. -/
theorem toList_plug_congr {t t' : Tree β} (h : t'.toList = t.toList) :
    (plug p t').toList = (plug p t).toList := by
  rw [toList_plug, toList_plug, h]

/-- A red-black tree with a hole for a tree of black height `n`. -/
def BalPath : Path β → Nat → Prop
  | [], _ => True
  | f :: p, n =>
    f.sib.Bal n ∧
      if f.red then f.sib.isRed = false ∧ headRed p = false ∧ BalPath p n
      else BalPath p (n + 1)

/-- The balance of a path does not depend on its elements. -/
theorem balPath_elt (p : Path β) (d red : Bool) (x y : β) (s : Tree β) (n : Nat) :
    BalPath (q ++ ⟨d, red, x, s⟩ :: p) n → BalPath (q ++ ⟨d, red, y, s⟩ :: p) n := by
  induction q generalizing n with
  | nil => exact id
  | cons f q ih =>
    have hhead : headRed (q ++ ⟨d, red, x, s⟩ :: p) = headRed (q ++ ⟨d, red, y, s⟩ :: p) := by
      cases q <;> rfl
    simp only [cons_append, BalPath, hhead]
    intro h
    refine ⟨h.1, ?_⟩
    split
    · rename_i hred
      have h2 := h.2
      rw [if_pos hred] at h2
      exact ⟨h2.1, h2.2.1, ih _ h2.2.2⟩
    · rename_i hred
      have h2 := h.2
      rw [if_neg hred] at h2
      exact ih _ h2

/-- A path and a tree that make up a red-black tree together. -/
structure BalZip (p : Path β) (t : Tree β) (n : Nat) : Prop where
  path : BalPath p n
  tree : t.Bal n
  root : headRed p = true → t.isRed = false

/-- Moving the hole of a red-black tree up or down. -/
theorem balZip_cons_iff (f : Frame β) (p : Path β) (t : Tree β) :
    (∃ n, BalZip (f :: p) t n) ↔ ∃ n, BalZip p (f.fill t) n := by
  obtain ⟨d, red, x, s⟩ := f
  cases red with
  | true =>
    constructor
    · rintro ⟨n, ⟨hs, hsred, hhead, hp⟩, ht, hroot⟩
      refine ⟨n, hp, (bal_join_red d t x s n).mpr ⟨hroot rfl, hsred, ht, hs⟩, ?_⟩
      intro h
      rw [hhead] at h
      simp at h
    · rintro ⟨n, hp, ht, hroot⟩
      obtain ⟨htred, hsred, htb, hs⟩ := (bal_join_red d t x s n).mp ht
      have hhead : headRed p = false := by
        by_contra hc
        have := hroot (by simpa using hc)
        simp [Frame.fill] at this
      exact ⟨n, ⟨hs, hsred, hhead, hp⟩, htb, fun _ => htred⟩
  | false =>
    constructor
    · rintro ⟨n, ⟨hs, hp⟩, ht, -⟩
      exact ⟨n + 1, hp, (bal_join_black_succ d t x s n).mpr ⟨ht, hs⟩,
        fun _ => isRed_join d false t x s⟩
    · rintro ⟨n, hp, ht, -⟩
      obtain ⟨m, rfl, htb, hs⟩ := (bal_join_black d t x s n).mp ht
      exact ⟨m, ⟨hs, hp⟩, htb, by simp [headRed]⟩

/-- A path and a tree make up a red-black tree exactly when they fit. -/
theorem bal_plug (t : Tree β) : (∃ n, (plug p t).Bal n) ↔ ∃ n, BalZip p t n := by
  induction p generalizing t with
  | nil =>
    constructor
    · rintro ⟨n, h⟩
      exact ⟨n, trivial, h, by simp [headRed]⟩
    · rintro ⟨n, h⟩
      exact ⟨n, h.tree⟩
  | cons f p ih => rw [balZip_cons_iff, plug, ih]

end OpenSync.Lib.Rb
