import OpenSync.Ds.TreeHeap

/-!
# Insertion

`ds_tree_node_insert` goes down from the root once.  On the way it flips the colours of a black
node with two red children, and repairs the red violation that this may cause by a rotation at
the grandparent, which the source does not check for.

`Descent` is the invariant of the loop.  Its last two fields make the rotations possible: a flip
below a red node, and a new node below a red node, find a grandparent whose other child is
black.  `Zip.insertStep` is one turn of the loop and `Zip.insertLoop` the descent.

After a double rotation the direction that was chosen before leads to one of the two nodes the
search came through.  The comparison there goes back to the old subtree, one turn later;
`weight` counts that.
-/

namespace OpenSync.Ds.Tree

open OpenSync.Lib List Rb.Tree Rb

variable {α κ : Type}

/-! ## The invariant of the descent -/

/-- A black node with two black children. -/
def Calm : Rb.Tree (α × κ) → Prop
  | .leaf => False
  | .node red l _ r => red = false ∧ l.isRed = false ∧ r.isRed = false

theorem calm_join {d red : Bool} {a : Rb.Tree (α × κ)} {x : α × κ} {b : Rb.Tree (α × κ)} :
    Calm (.join d red a x b) ↔ red = false ∧ a.isRed = false ∧ b.isRed = false := by
  cases d with
  | false => exact Iff.rfl
  | true => exact and_congr_right fun _ => and_comm

variable {s : Rb.Tree (α × κ)}

/-- A red node of a red-black tree is calm once it is black. -/
theorem calm_paint {n : Nat} (hs : s.Bal n) (hred : s.isRed = true) : Calm (s.paint false) := by
  cases s with
  | leaf => simp at hred
  | node red l x r =>
    obtain rfl : red = true := hred
    exact ⟨rfl, hs.1, hs.2.1⟩

/-- The node above a hole has a black other child. -/
def sibBlack : Rb.Path (α × κ) → Prop
  | [] => False
  | f :: _ => f.sib.isRed = false

section

variable (cmp : κ → κ → Int) (key : κ)

/-- The index of the child that the search for `key` takes. -/
def side (x : α × κ) : Bool := cmp x.2 key < 0

/-- The invariant of the loop at the node `x`, with the child `a` on the side of the search and `b`
on the other. -/
structure Descent (p : Rb.Path (α × κ)) (red : Bool) (a : Rb.Tree (α × κ)) (x : α × κ)
    (b : Rb.Tree (α × κ)) : Prop where
  balanced : ∃ n, Rb.BalZip p (.join (side cmp key x) red a x b) n
  toward : ∀ f ∈ p, f.dir = side cmp key f.elt
  flip : a.isRed = true → b.isRed = true → Rb.headRed p = true → sibBlack p.tail
  insert : red = true → sibBlack p ∨ Calm a

end

/-- An upper bound for the number of turns that are left. -/
def weight (red : Bool) (a : Rb.Tree (α × κ)) : Nat :=
  2 * a.toList.length + if red then 0 else 1

theorem weight_lt_join (d red red' red'' : Bool) (a : Rb.Tree (α × κ)) (x : α × κ)
    (b : Rb.Tree (α × κ)) : weight red a < weight red' (.join d red'' a x b) := by
  have hlen := (toList_join_perm d red'' a x b).length_eq
  rw [length_cons, length_append] at hlen
  simp only [weight]
  split <;> omega

/-- A node is read from the side of the search. -/
theorem exists_side (cmp : κ → κ → Int) (key : κ) (hs : s ≠ .leaf) :
    ∃ red a x b, s = .join (side cmp key x) red a x b := by
  cases s with
  | leaf => exact absurd rfl hs
  | node red l x r =>
    obtain ⟨a, b, hab⟩ := exists_join (side cmp key x) red l x r
    exact ⟨red, a, x, b, hab⟩

section

variable {cmp : κ → κ → Int} {key : κ} {p : Rb.Path (α × κ)} {a b : Rb.Tree (α × κ)}
  {x y : α × κ} {red : Bool}

variable {red' : Bool} {a' b' : Rb.Tree (α × κ)}

theorem Descent.down (h : Descent cmp key p red (.join (side cmp key y) red' a' y b') x b)
    (hnot : ¬ (red' = true ∧ b.isRed = true)) :
    Descent cmp key (⟨side cmp key x, red, x, b⟩ :: p) red' a' y b' where
  balanced := (balZip_cons_iff _ _ _).mpr h.balanced
  toward := by
    intro f hf
    rcases mem_cons.mp hf with rfl | hf
    · rfl
    · exact h.toward f hf
  flip := by
    intro ha hb hred
    rcases h.insert hred with hsib | hcalm
    · exact hsib
    · rw [(calm_join.mp hcalm).2.1] at ha
      exact absurd ha (by simp)
  insert := by
    intro hred
    exact .inl (by simpa [sibBlack, hred] using hnot)

theorem Descent.of_flip {n : Nat} (hp : Rb.BalPath p (n + 1)) (hhead : Rb.headRed p = false)
    (htoward : ∀ f ∈ p, f.dir = side cmp key f.elt)
    (ha : (Rb.Tree.join (side cmp key y) red' a' y b').Bal n) (hred : red' = true) (hb : b.Bal n)
    (hbred : b.isRed = true) :
    Descent cmp key (⟨side cmp key x, true, x, b.paint false⟩ :: p) false a' y b' := by
  subst hred
  obtain ⟨hablack, hbblack, ha', hb'⟩ := (bal_join_red ..).mp ha
  refine ⟨⟨n + 1, ⟨hb.blacken hbred, ?_⟩, ?_, ?_⟩, ?_, ?_, ?_⟩
  · exact ⟨isRed_paint_false b, hhead, hp⟩
  · exact (bal_join_black_succ ..).mpr ⟨ha', hb'⟩
  · exact fun _ => isRed_join ..
  · intro f hf
    rcases mem_cons.mp hf with rfl | hf
    · rfl
    · exact htoward f hf
  · intro hc
    rw [hablack] at hc
    exact absurd hc (by simp)
  · intro hc
    exact absurd hc (by simp)

/-- A step down from a node that a double rotation has brought up. -/
theorem Descent.of_double {n : Nat} {c s : Rb.Tree (α × κ)}
    (hp : Rb.BalPath p (n + 1)) (htoward : ∀ f ∈ p, f.dir = side cmp key f.elt)
    (ha : a.Bal n) (hcalm : Calm a) (hc : c.Bal n) (hcred : c.isRed = false) (hs : s.Bal n) :
    Descent cmp key (⟨side cmp key x, false, x, s⟩ :: p) true a y c := by
  have hablack : a.isRed = false := by
    cases a with
    | leaf => rfl
    | node red l z r => exact hcalm.1
  refine ⟨⟨n, ⟨hs, hp⟩, ?_, ?_⟩, ?_, ?_, fun _ => .inr hcalm⟩
  · exact (bal_join_red ..).mpr ⟨hablack, hcred, ha, hc⟩
  · intro hc
    exact absurd hc (by simp [headRed])
  · intro f hf
    rcases mem_cons.mp hf with rfl | hf
    · rfl
    · exact htoward f hf
  · intro _ _ hc
    exact absurd hc (by simp [headRed])

end

/-! ## Flip and rebalancing in the heap -/

section

variable [DecidableEq α] {t : Tree α κ} {l : List (α × κ)} {p : Rb.Path (α × κ)}
  {a b c e : Rb.Tree (α × κ)} {x y z : α × κ} {d red : Bool}

section

variable (h : Zip t l p (.join d red a x b))

include h

/-- A node with two red children becomes red, and they become black. -/
theorem Zip.flip (ha : a.isRed = true) (hb : b.isRed = true) :
    Zip (t.flip x.1) l p (.join d true (a.paint false) x (b.paint false)) ∧
      Within l t (t.flip x.1) := by
  have hleaf : ∀ {s : Rb.Tree (α × κ)}, s.isRed = true → s ≠ .leaf := by
    rintro s hs rfl
    simp at hs
  obtain ⟨y, z, hy, hz, h', hw⟩ := h.paintChildren (hleaf ha) (hleaf hb) true
  have hred := h.isRed_children (· && ·) Bool.and_comm
  rw [ha, hb, hy, hz] at hred
  have hflip : t.flip x.1 = ((t.setProp x.1 .red).setProp y .black).setProp z .black := by
    rw [Tree.flip, hy, hz]
    exact if_pos hred
  rw [hflip]
  exact ⟨h', hw⟩

theorem Zip.flip_of_not (hnot : ¬ (a.isRed = true ∧ b.isRed = true)) : t.flip x.1 = t := by
  have hred := h.isRed_children (· && ·) Bool.and_comm
  rw [Tree.flip]
  split
  · rename_i y z hy hz
    rw [hy, hz] at hred
    refine if_neg ?_
    rw [hred]
    simpa using hnot
  · rfl

/-- There is nothing to repair at a black node, nor below one. -/
theorem Zip.insertRebalance_of_not (hnot : ¬ (red = true ∧ Rb.headRed p = true))
    : t.insertRebalance x.1 = some t := by
  have hpar : t.isRed (t.heap x.1).parent = headRed p := by
    rw [h.heap_eq]
    exact h.isRed_above
  have hx : t.isRed (some x.1) = red := by
    rw [← isRed_join d red a x b, ← h.tree.isRed_eq, ptr_join]
  rw [Tree.insertRebalance, hpar, hx, if_neg (by simpa using hnot)]
  rfl

end

variable {gdir red' : Bool}

/-- The pointers that the repair of a red node below a red node reads. -/
theorem Zip.insertRebalance_eq {pdir : Bool}
    (h : Zip t l (⟨pdir, true, y, c⟩ :: ⟨gdir, red', z, e⟩ :: p) (.join d true a x b)) :
    t.insertRebalance x.1 =
      if gdir == pdir then (t.rbtRotate z.1 gdir).map Prod.fst
      else (t.rbtRotateDouble z.1 gdir).map Prod.fst := by
  have hpar : (t.heap x.1).parent = some y.1 := by rw [h.heap_eq, above]
  have hx : t.isRed (some x.1) = true := by
    rw [← isRed_join d true a x b, ← h.tree.isRed_eq, ptr_join]
  have hy : t.isRed (some y.1) = true := h.isRed_above
  have hgpar : (t.heap y.1).parent = some z.1 := by rw [Zip.heap_eq h.up, above]
  have hgdir : t.dirOf z.1 y.1 = gdir := h.up.dirOf_eq (ptr_join ..)
  have hpdir : t.dirOf y.1 x.1 = pdir := h.dirOf_eq (ptr_join ..)
  rw [Tree.insertRebalance, hpar, hx, hy]
  simp only [Bool.and_self, if_true, Option.bind_eq_bind, Option.bind_some, hgpar, hgdir, hpdir]
  split
  · cases t.rbtRotate z.1 gdir <;> rfl
  · cases t.rbtRotateDouble z.1 gdir <;> rfl

/-- The straight branch: one rotation at the grandparent. -/
theorem Zip.insertRebalance_single
    (h : Zip t l (⟨gdir, true, y, c⟩ :: ⟨gdir, red', z, e⟩ :: p) (.join d true a x b)) :
    ∃ t', t.insertRebalance x.1 = some t' ∧
      Zip t' l (⟨gdir, false, y, .join gdir true c z e⟩ :: p) (.join d true a x b) ∧
        Within l t t' := by
  obtain ⟨t', hrot, h', hw⟩ := Zip.rbtRotate h.up.up
  refine ⟨t', ?_, h'.down, hw⟩
  rw [h.insertRebalance_eq, if_pos (by simp), hrot]
  rfl

/-- The twisted branch: a double rotation. -/
theorem Zip.insertRebalance_double
    (h : Zip t l (⟨!d, true, y, c⟩ :: ⟨d, red', z, e⟩ :: p) (.join d true a x b)) :
    ∃ t', t.insertRebalance x.1 = some t' ∧
      Zip t' l p (.join d false (.join (!d) true a y c) x (.join d true b z e)) ∧
        Within l t t' := by
  have hup := h.up.up
  rw [← join_not d true b x a] at hup
  obtain ⟨t', hrot, h', hw⟩ := Zip.rbtRotateDouble hup
  refine ⟨t', ?_, h', hw⟩
  rw [h.insertRebalance_eq, if_neg (by simp), hrot]
  rfl

end

/-! ## One turn of the loop -/

section

variable [DecidableEq α] {cmp : κ → κ → Int} {key : κ} {t : Tree α κ} {l : List (α × κ)}
  {p : Rb.Path (α × κ)} {a b c e : Rb.Tree (α × κ)} {x w z : α × κ} {red : Bool}

/-- One turn of the loop at `x` takes the invariant to the next node, with less
than `m` turns to go. -/
def Turn (cmp : κ → κ → Int) (key : κ) (t : Tree α κ) (l : List (α × κ)) (x : α × κ)
    (m : Nat) : Prop :=
  ∃ t' p' red' a' y b', (t.flip x.1).insertRebalance x.1 = some t' ∧
      (t'.heap x.1).child (side cmp key x) = some y.1 ∧
      Zip t' l p' (.join (side cmp key y) red' a' y b') ∧
      Descent cmp key p' red' a' y b' ∧ weight red' a' < m ∧ Within l t t'

theorem Zip.turn_down (h : Zip t l p (.join (side cmp key x) red a x b))
    (hd : Descent cmp key p red a x b) (ha : a ≠ .leaf)
    (hnot : ¬ (a.isRed = true ∧ b.isRed = true)) : Turn cmp key t l x (weight red a) := by
  obtain ⟨red', a', y, b', rfl⟩ := exists_side cmp key ha
  have hstay : ¬ (red = true ∧ headRed p = true) := by
    rintro ⟨rfl, hhead⟩
    obtain ⟨n, hbal⟩ := hd.balanced
    have := hbal.root hhead
    simp at this
  refine ⟨t, _, red', a', y, b', ?_, ?_, h.down, hd.down ?_, weight_lt_join .., .refl l t⟩
  · rw [h.flip_of_not hnot, h.insertRebalance_of_not hstay]
  · rw [h.heap_eq, ptr_join]
    exact sides_self ..
  · rwa [isRed_join] at hnot

/-- The turn at a node after a flip that has left it below the path `p`, with no
red node above it. -/
theorem Zip.turn_flip {t' : Tree α κ} {n : Nat}
    (h : Zip t' l p (.join (side cmp key x) true (a.paint false) x (b.paint false)))
    (hrun : (t.flip x.1).insertRebalance x.1 = some t') (hw : Within l t t')
    (hp : Rb.BalPath p (n + 1)) (hhead : Rb.headRed p = false)
    (htoward : ∀ f ∈ p, f.dir = side cmp key f.elt)
    (ha : a.Bal n) (hared : a.isRed = true) (hb : b.Bal n) (hbred : b.isRed = true) :
    Turn cmp key t l x (weight red a) := by
  have hleaf : a ≠ .leaf := by
    rintro rfl
    simp at hared
  obtain ⟨red', a', y, b', rfl⟩ := exists_side cmp key hleaf
  rw [isRed_join] at hared
  rw [paint_join] at h
  refine ⟨t', _, false, a', y, b', hrun, ?_, h.down,
    .of_flip hp hhead htoward ha hared hb hbred, weight_lt_join .., hw⟩
  rw [h.heap_eq, ptr_join]
  exact sides_self ..

theorem Zip.turn_double {n : Nat} {gdir : Bool}
    (h : Zip (t.flip x.1) l (⟨!gdir, true, w, c⟩ :: ⟨gdir, false, z, e⟩ :: p)
      (.join (side cmp key x) true (a.paint false) x (b.paint false)))
    (hw : Within l t (t.flip x.1))
    (hp : Rb.BalPath p (n + 2)) (htoward : ∀ f ∈ p, f.dir = side cmp key f.elt)
    (hwdir : (!gdir) = side cmp key w) (hzdir : gdir = side cmp key z)
    (ha : a.Bal n) (hared : a.isRed = true) (hb : b.Bal n) (hbred : b.isRed = true)
    (hc : c.Bal (n + 1)) (hcred : c.isRed = false) (he : e.Bal (n + 1))
    (hered : e.isRed = false) : Turn cmp key t l x (weight false a) := by
  have hcalm := calm_paint ha hared
  have hbblack := isRed_paint_false b
  have hweight : weight true (a.paint false) < weight false a := by
    rw [weight, weight]
    simp
  have habal := ha.blacken hared
  have hbbal := hb.blacken hbred
  -- the direction chosen at `x` leads to `w` or to `z`, and from there back to `a`
  by_cases hx : side cmp key x = gdir
  · rw [hx] at h
    obtain ⟨t', hrun, h', hw'⟩ := h.insertRebalance_double
    refine ⟨t', ⟨gdir, false, x, .join gdir true (b.paint false) z e⟩ :: p, true,
      a.paint false, w, c, hrun, ?_, ?_, ?_, hweight, hw.trans hw'⟩
    · rw [h'.heap_eq, hx, ptr_join]
      exact sides_self ..
    · rw [← hwdir]
      exact h'.down
    · rw [← hx]
      exact .of_double hp htoward habal hcalm hc hcred
        ((bal_join_red ..).mpr ⟨hbblack, hered, hbbal, he⟩)
  · rw [Bool.eq_not.mpr hx, join_not] at h
    obtain ⟨t', hrun, h', hw'⟩ := h.insertRebalance_double
    rw [← join_not] at h'
    refine ⟨t', ⟨!gdir, false, x, .join (!gdir) true (b.paint false) w c⟩ :: p, true,
      a.paint false, z, e, hrun, ?_, ?_, ?_, hweight, hw.trans hw'⟩
    · rw [h'.heap_eq, Bool.eq_not.mpr hx, ptr_join]
      exact sides_self ..
    · rw [← hzdir]
      exact h'.down
    · rw [← Bool.eq_not.mpr hx]
      exact .of_double hp htoward habal hcalm he hered
        ((bal_join_red ..).mpr ⟨hbblack, hcred, hbbal, hc⟩)

section

variable (h : Zip t l p (.join (side cmp key x) red a x b)) (hd : Descent cmp key p red a x b)

include h hd

theorem Zip.turn_red (hared : a.isRed = true) (hbred : b.isRed = true) :
    Turn cmp key t l x (weight red a) := by
  obtain ⟨n, hpath, htree, -⟩ := hd.balanced
  obtain rfl : red = false := by
    cases red with
    | false => rfl
    | true =>
      rw [((bal_join_red ..).mp htree).1] at hared
      exact absurd hared (by simp)
  obtain ⟨m, rfl, ha, hb⟩ := (bal_join_black ..).mp htree
  obtain ⟨h1, hw1⟩ := h.flip hared hbred
  cases hhead : headRed p with
  | false =>
    refine h1.turn_flip ?_ hw1 hpath hhead hd.toward ha hared hb hbred
    exact h1.insertRebalance_of_not (by simp [hhead])
  | true =>
    have hsib := hd.flip hared hbred hhead
    obtain _ | ⟨⟨pdir, _, w, c⟩, _ | ⟨⟨gdir, gred, z, e⟩, p⟩⟩ := p
    · simp [headRed] at hhead
    · simp [sibBlack] at hsib
    obtain rfl : _ = true := hhead
    obtain ⟨hc, hcred, hghead, hpath⟩ := hpath
    obtain rfl : gred = false := hghead
    obtain ⟨he, hp⟩ := hpath
    have htoward : ∀ f ∈ p, f.dir = side cmp key f.elt :=
      fun f hf => hd.toward f (by simp [hf])
    have hwdir : pdir = side cmp key w := hd.toward ⟨pdir, true, w, c⟩ (by simp)
    have hzdir : gdir = side cmp key z := hd.toward ⟨gdir, false, z, e⟩ (by simp)
    by_cases hdir : pdir = gdir
    · subst hdir
      obtain ⟨t', hrun, h2, hw2⟩ := h1.insertRebalance_single
      refine h2.turn_flip hrun (hw1.trans hw2) ⟨?_, hp⟩ rfl ?_ ha hared hb hbred
      · exact (bal_join_red ..).mpr ⟨hcred, hsib, hc, he⟩
      intro f hf
      rcases mem_cons.mp hf with rfl | hf
      · exact hwdir
      · exact htoward f hf
    · obtain rfl : pdir = !gdir := Bool.eq_not.mpr hdir
      exact h1.turn_double hw1 hp htoward hwdir hzdir ha hared hb hbred hc hcred he hsib

theorem Zip.turn (ha : a ≠ .leaf) : Turn cmp key t l x (weight red a) := by
  by_cases hred : a.isRed = true ∧ b.isRed = true
  · exact h.turn_red hd hred.1 hred.2
  · exact h.turn_down hd ha hred

/-- The descent ends at a node with room on the side of the search. -/
theorem Zip.insertLoop {fuel : Nat} (hfuel : weight red a < fuel) : ∃ t' p' red' y b',
      t.insertLoop cmp key fuel x.1 (side cmp key x) = some (t', y.1, side cmp key y) ∧
        Zip t' l p' (.join (side cmp key y) red' .leaf y b') ∧
        Descent cmp key p' red' .leaf y b' ∧ Within l t t' := by
  induction fuel generalizing t p red a x b with
  | zero => omega
  | succ fuel ih =>
    have hchild : (t.heap x.1).child (side cmp key x) = ptr a := by
      rw [h.heap_eq]
      exact sides_self ..
    by_cases ha : a = .leaf
    · subst ha
      refine ⟨t, p, red, x, b, ?_, h, hd, .refl l t⟩
      rw [Tree.insertLoop, hchild]
      rfl
    obtain ⟨t1, p1, red1, a1, y, b1, hrun, hnext, h1, hd1, hlt, hw1⟩ := h.turn hd ha
    obtain ⟨t', p', red', z, b', hloop, h', hd', hw'⟩ := ih h1 hd1 (by omega)
    refine ⟨t', p', red', z, b', ?_, h', hd', hw1.trans hw'⟩
    obtain ⟨_, a1, w, a2, rfl⟩ := exists_side cmp key ha
    have hkey : decide (cmp (t1.heap y.1).key key < 0) = side cmp key y := by
      rw [h1.heap_eq, side]
    rw [Tree.insertLoop, hchild, ptr_join]
    simp [hrun, hnext, hkey, hloop]

end

end

section

variable [DecidableEq α] {cmp : κ → κ → Int} {key : κ} {t : Tree α κ} {l : List (α × κ)}
  {p : Rb.Path (α × κ)} {b : Rb.Tree (α × κ)} {x : α × κ} {red : Bool} {node : α}

theorem Zip.attach {d : Bool} (h : Zip t l p (.join d red .leaf x b))
    (hnode : t.heap node = freshNode key) (hnot : node ∉ l.map Prod.fst) :
    Zip ((t.setChild x.1 d (some node)).setParent node (some x.1))
      (Rb.before (⟨d, red, x, b⟩ :: p) ++ (node, key) :: Rb.after (⟨d, red, x, b⟩ :: p))
      (⟨d, red, x, b⟩ :: p) (.join d true .leaf (node, key) .leaf) ∧
    Within (Rb.before (⟨d, red, x, b⟩ :: p) ++ (node, key) :: Rb.after (⟨d, red, x, b⟩ :: p)) t
      ((t.setChild x.1 d (some node)).setParent node (some x.1)) := by
  obtain ⟨-, hxb, -⟩ := nodup_addrs_join.mp h.nodup_tree
  have hxs : x.1 ∈ addrs (.join d red .leaf x b) := mem_addrs_join.mpr (.inl rfl)
  have hxp : x.1 ∉ pathAddrs p := h.disjoint hxs
  have hold : ∀ y, y ∈ pathAddrs p ∨ y ∈ addrs (.join d red .leaf x b) → y ≠ node :=
    fun y hy he => hnot (h.mem_iff.mpr (he ▸ hy))
  have hxn : x.1 ≠ node := hold x.1 (.inr hxs)
  set t' := (t.setChild x.1 d (some node)).setParent node (some x.1) with ht'
  have hother : ∀ y, y ≠ x.1 → y ≠ node → t'.heap y = t.heap y := by
    intro y hyx hyn
    rw [heap_setParent_of_ne _ hyn, heap_setChild_of_ne _ hyx]
  obtain ⟨hx, -, hb⟩ := rep_join.mp h.tree
  have hpath := h.path
  rw [ptr_join] at hpath
  have hperm : (before (⟨d, red, x, b⟩ :: p) ++
      (node, key) :: after (⟨d, red, x, b⟩ :: p)).Perm ((node, key) :: l) := by
    rw [h.down.order_leaf]
    exact perm_middle
  refine ⟨⟨⟨?_, hb.congr ?_, hpath.congr ?_⟩, rep_join.mpr ⟨?_, trivial, trivial⟩, ?_, ?_⟩, ?_, rfl⟩
  · rw [heap_setParent_of_ne _ hxn, heap_setChild_self, hx, ptr_join]
    simp
  · exact fun y hy => hother y (fun he => hxb (he ▸ hy)) (hold y (by simp [hy]))
  · exact fun y hy => hother y (fun he => hxp (he ▸ hy)) (hold y (.inl hy))
  · rw [heap_setParent_self, heap_setChild_of_ne _ (Ne.symm hxn), hnode]
    simp [freshNode, above, Color.ofRed]
  · rw [toList_plug, toList_join]
    simp
  · rw [(hperm.map Prod.fst).nodup_iff, map_cons, nodup_cons]
    exact ⟨hnot, h.nodup⟩
  · intro y hy
    rw [(hperm.map Prod.fst).mem_iff, map_cons, mem_cons, not_or] at hy
    exact hother y (fun he => hy.2 (h.mem_iff.mpr (.inr (he ▸ hxs)))) hy.1

/-- A red node without children, put below `f`, leaves or gets a red-black tree. -/
theorem Zip.insertRebalance_attached {f : Rb.Frame (α × κ)} {d : Bool}
    (h : Zip t l (f :: p) (.join d true .leaf x .leaf))
    (hbal : ∃ n, Rb.BalZip (f :: p) .leaf n) (hred : f.red = true → sibBlack p) :
    ∃ t' p' s n, t.insertRebalance x.1 = some t' ∧ Zip t' l p' s ∧ Rb.BalZip p' s n ∧
      Within l t t' := by
  obtain ⟨n, hpath, rfl, -⟩ := hbal
  have hnew : ∀ d, (join d true .leaf x .leaf).Bal 0 :=
    fun d => (bal_join_red ..).mpr ⟨rfl, rfl, rfl, rfl⟩
  obtain ⟨pdir, pred, y, c⟩ := f
  cases pred with
  | false =>
    refine ⟨t, _, _, 0, ?_, h, ⟨hpath, hnew d, ?_⟩, .refl l t⟩
    · exact h.insertRebalance_of_not (by simp [headRed])
    · exact fun hc => absurd hc (by simp [headRed])
  | true =>
    have hsib := hred rfl
    obtain _ | ⟨⟨gdir, gred, z, e⟩, p⟩ := p
    · simp [sibBlack] at hsib
    obtain ⟨hc, hcred, hghead, hpath⟩ := hpath
    obtain rfl : gred = false := hghead
    obtain ⟨he, hp⟩ := hpath
    by_cases hdir : pdir = gdir
    · subst hdir
      obtain ⟨t', hrun, h', hw⟩ := h.insertRebalance_single
      refine ⟨t', _, _, 0, hrun, h', ⟨⟨?_, hp⟩, hnew d, ?_⟩, hw⟩
      · exact (bal_join_red ..).mpr ⟨hcred, hsib, hc, he⟩
      · exact fun hc => absurd hc (by simp [headRed])
    · obtain rfl : pdir = !gdir := Bool.eq_not.mpr hdir
      -- a node without children reads the same from both sides
      have hread : join d true .leaf x .leaf = .join gdir true .leaf x .leaf := by
        cases d <;> cases gdir <;> rfl
      rw [hread] at h
      obtain ⟨t', hrun, h', hw⟩ := h.insertRebalance_double
      refine ⟨t', _, _, 1, hrun, h', ⟨hp, ?_, fun _ => isRed_join ..⟩, hw⟩
      exact (bal_join_black_succ ..).mpr
        ⟨(bal_join_red ..).mpr ⟨rfl, hcred, rfl, hc⟩, (bal_join_red ..).mpr ⟨rfl, hsib, rfl, he⟩⟩

/-! ## The whole insertion -/

/-- Where a search for `key` ends: between an element that compares below the key
and one that does not. -/
structure Place (cmp : κ → κ → Int) (key : κ) (l1 l2 : List (α × κ)) : Prop where
  left : ∀ y, l1.getLast? = some y → cmp y.2 key < 0
  right : ∀ y, l2.head? = some y → ¬ cmp y.2 key < 0

omit [DecidableEq α] in
theorem place_of_toward (h : ∀ f ∈ p, f.dir = side cmp key f.elt) :
    Place cmp key (Rb.before p) (Rb.after p) where
  left := by
    intro y hy
    obtain ⟨f, hf, hdir, rfl⟩ := getLast?_before hy
    simpa [side, hdir] using h f hf
  right := by
    intro y hy
    obtain ⟨f, hf, hdir, rfl⟩ := head?_after hy
    simpa [side, hdir] using h f hf

omit [DecidableEq α] in
/-- The root of a red-black tree meets the invariant of the loop. -/
theorem descent_root {s : Rb.Tree (α × κ)} {a : Rb.Tree (α × κ)} {n : Nat}
    (hs : s = .join (side cmp key x) red a x b) (hbal : s.Bal n) (hblack : s.isRed = false) :
    Descent cmp key [] red a x b where
  balanced := ⟨n, trivial, hs ▸ hbal, fun hc => absurd hc (by simp [headRed])⟩
  toward := by simp
  flip := fun _ _ hc => absurd hc (by simp [headRed])
  insert := by
    rw [hs, isRed_join] at hblack
    simp [hblack]

theorem insert_empty {fuel : Nat} (hroot : t.root = none) :
    ∃ t', t.insert cmp fuel node key = some t' ∧ RedBlack t' [(node, key)] ∧
      Within [(node, key)] t t' := by
  set t1 := { t.modify node (fun _ => freshNode key) with root := some node } with ht1
  refine ⟨t1.setProp node .black, ?_, ⟨.join false false .leaf (node, key) .leaf, 1, ?_, rfl, ?_⟩,
    ?_, rfl⟩
  · rw [Tree.insert, root_modify, hroot]
    rfl
  · refine ⟨rfl, rep_join.mpr ⟨?_, trivial, trivial⟩, rfl, nodup_singleton node⟩
    rw [heap_setProp_self, ht1]
    simp [freshNode, Color.ofRed, above]
  · exact (bal_join_black_succ ..).mpr ⟨rfl, rfl⟩
  · intro y hy
    have hyn : y ≠ node := by simpa using hy
    rw [heap_setProp_of_ne _ hyn, heap_modify_of_ne _ hyn]

/-- `ds_tree_node_insert` of a fresh node: a red-black tree again, with the node where the search
for its key ends. -/
theorem insert_spec (cmp : κ → κ → Int) (key : κ) {fuel : Nat} (h : RedBlack t l)
    (hnot : node ∉ l.map Prod.fst) (hfuel : 2 * l.length + 2 ≤ fuel) :
    ∃ t' l1 l2, t.insert cmp fuel node key = some t' ∧ l = l1 ++ l2 ∧
      Place cmp key l1 l2 ∧ RedBlack t' (l1 ++ (node, key) :: l2) ∧
      Within (l1 ++ (node, key) :: l2) t t' := by
  obtain ⟨s, n, hs, hblack, hbal⟩ := h
  by_cases hleaf : s = .leaf
  · subst hleaf
    obtain rfl : l = [] := hs.order_leaf
    obtain ⟨t', hrun, hrb, hw⟩ := insert_empty (t := t) hs.path
    exact ⟨t', [], [], hrun, rfl, ⟨by simp, by simp⟩, hrb, hw⟩
  obtain ⟨red, a, x, b, rfl⟩ := exists_side cmp key hleaf
  set t1 := t.modify node (fun _ => freshNode key) with ht1
  have hnode1 : t1.heap node = freshNode key := by rw [heap_modify_self]
  have hother1 : ∀ y, y ≠ node → t1.heap y = t.heap y :=
    fun y hy => by rw [heap_modify_of_ne _ hy]
  have hs1 : Zip t1 l [] (.join (side cmp key x) red a x b) :=
    hs.congr rfl (fun y hy => hother1 y (fun he => hnot (he ▸ hy)))
  have hweight : weight red a < fuel := by
    have hlen := (toList_join_perm (side cmp key x) red a x b).length_eq
    rw [show (join (side cmp key x) red a x b).toList = l from hs1.order] at hlen
    rw [length_cons, length_append] at hlen
    rw [weight]
    split <;> omega
  obtain ⟨t2, p, red', y, b', hloop, h2, hd2, hw2⟩ :=
    hs1.insertLoop (descent_root rfl hbal hblack) hweight
  have hnode2 : t2.heap node = freshNode key := (hw2.heap node hnot).trans hnode1
  have hsplit := h2.down.order_leaf
  obtain ⟨h3, hw3⟩ := h2.attach hnode2 hnot
  obtain ⟨t4, p', s', m, hreb, h4, hbal4, hw4⟩ := h3.insertRebalance_attached
    ((balZip_cons_iff _ _ _).mpr hd2.balanced)
    (fun hred => (hd2.insert hred).resolve_right id)
  obtain ⟨r, hr⟩ := h4.exists_root (by simp)
  obtain ⟨h5, hw5⟩ := h4.paint_root hbal4 hr
  have htoward : ∀ f ∈ (⟨side cmp key y, red', y, b'⟩ :: p : Rb.Path (α × κ)),
      f.dir = side cmp key f.elt := by
    intro f hf
    rcases mem_cons.mp hf with rfl | hf
    · rfl
    · exact hd2.toward f hf
  refine ⟨_, _, _, ?_, hsplit, place_of_toward htoward, h5, ?_⟩
  · have hroot1 : t1.root = some x.1 := hs1.path.trans (ptr_join ..)
    have hkey : decide (cmp (t1.heap x.1).key key < 0) = side cmp key x := by
      rw [hs1.heap_eq, side]
    rw [Tree.insert]
    simp [← ht1, hroot1, hkey, hloop, hreb, hr]
  set q := ⟨side cmp key y, red', y, b'⟩ :: p
  have hw1 : Within (before q ++
      (node, key) :: after q) t t1 := by
    refine ⟨fun z hz => hother1 z ?_, rfl⟩
    rintro rfl
    exact hz (by simp)
  have hsub : l ⊆ before q ++
      (node, key) :: after q := by
    rw [hsplit]
    intro z hz
    rcases mem_append.mp hz with hz | hz
    · exact mem_append_left _ hz
    · exact mem_append_right _ (mem_cons_of_mem _ hz)
  exact (((hw1.trans (hw2.mono hsub)).trans hw3).trans hw4).trans hw5

end

end OpenSync.Ds.Tree
