import OpenSync.Ds.TreeHeap

/-!
# Removal

`ds_tree_node_remove` unlinks a node with at most one child: the node itself, or its predecessor,
which then takes its place.  If a black node without a red child went, the subtree in that place
lacks one black node on every path, and the loop repairs this on the way up.

`Deficit p s n` is the invariant of the climb: the path `p` asks for a tree of black height
`n + 1` and `s` has black height `n`.  `Zip.removeRebalance` is one turn: it ends with a red-black
tree, or with a deficit one node higher up.  The sibling of a subtree with a deficit is not empty,
so the case `s == NULL` of the source never happens.
-/

namespace OpenSync.Ds.Tree

open OpenSync.Lib List Option Rb

variable {α κ : Type} [DecidableEq α] {t : Tree α κ} {l : List (α × κ)}
  {p : Rb.Path (α × κ)}

/-! ## Unlinking a node with at most one child -/

variable {d red : Bool} {a : Rb.Tree (α × κ)} {x : α × κ} {fuel : Nat} {b : Rb.Tree (α × κ)}

section

variable (h : Zip t l p (.join d red a x .leaf))

include h

omit [DecidableEq α] in
theorem Zip.child_keptSide : (t.heap x.1).child (t.keptSide x.1) = ptr a := by
  rw [keptSide, h.heap_eq]
  cases d with
  | true => rfl
  | false => cases a <;> rfl

/-- What is left when the node `x` goes and the tree `a` takes its place. -/
structure Cut (t t' : Tree α κ) (l : List (α × κ)) (p : Rb.Path (α × κ)) (x : α × κ)
    (a : Rb.Tree (α × κ)) : Prop where
  zip : Zip t' (Rb.before p ++ a.toList ++ Rb.after p) p a
  within : Within l t t'
  node : t'.heap x.1 = t.heap x.1

/-- A node with at most one child is replaced by that child. -/
theorem Zip.unlink {dir : Bool} (hdir : (t.heap x.1).child dir = ptr a)
    : Cut t (t.unlink x.1 dir) l p x a := by
  obtain ⟨hxa, -, hanodup, -⟩ := nodup_addrs_join.mp h.nodup_tree
  have hxs : x.1 ∈ addrs (.join d red a x .leaf) := mem_addrs_join.mpr (.inl rfl)
  have hxp : x.1 ∉ pathAddrs p := h.disjoint hxs
  have hap : ∀ y ∈ addrs a, y ∉ pathAddrs p := fun y hy => h.disjoint (by simp [hy])
  obtain ⟨-, ha, -⟩ := rep_join.mp h.tree
  have hpath := h.path
  rw [ptr_join] at hpath
  have hpar : (t.heap x.1).parent = above p := by rw [h.heap_eq]
  set t1 := t.relink (above p) x.1 (ptr a) with ht1
  have hx1 : t1.heap x.1 = t.heap x.1 := by rw [ht1, heap_relink_of_ne _ (above_ne hxp)]
  have heq : t.unlink x.1 dir = t1.adopt (ptr a) (above p) := by
    rw [Tree.unlink, hpar, hdir, ← ht1, hx1, hpar, hdir]
  have hpath1 : RepPath t1.heap t1.root p (ptr a) := repPath_relink hpath h.nodup_path hxp
  have ha1 : Rep t1.heap (some x.1) a :=
    ha.congr (fun y hy => heap_relink_of_ne _ (above_ne (hap y hy)))
  rw [heq]
  refine ⟨⟨?_, rep_adopt ha1 hanodup, toList_plug p a, ?_⟩, ⟨?_, ?_⟩, ?_⟩
  · rw [root_adopt]
    exact hpath1.congr (fun y hy => heap_adopt_of_ne _ (ptr_ne (fun hya => hap y hya hy)))
  · refine h.nodup.sublist (.map _ ?_)
    rw [← h.order, toList_plug]
    refine .append (.append (.refl _) ?_) (.refl _)
    rw [Rb.Tree.toList_join]
    cases d <;> simp
  · intro y hy
    rw [h.mem_iff, not_or, mem_addrs_join, not_or, not_or] at hy
    rw [heap_adopt_of_ne _ (ptr_ne hy.2.2.1), ht1, heap_relink_of_ne _ (above_ne hy.1)]
  · rw [ndel_adopt, ht1, ndel_relink]
  · rw [heap_adopt_of_ne _ (ptr_ne hxa), hx1]

/-- The tree `s` lacks one black node on every path. -/
structure Deficit (p : Rb.Path (α × κ)) (s : Rb.Tree (α × κ)) (n : Nat) : Prop where
  path : Rb.BalPath p (n + 1)
  tree : s.Bal n
  black : s.isRed = false

/-- What there is to do from `base` on: nothing, or to repair a deficit. -/
def Pending (p : Rb.Path (α × κ)) (s : Rb.Tree (α × κ)) (base : Option α) : Prop :=
  (base = none ∧ ∃ n, Rb.BalZip p s n) ∨ (base = above p ∧ ∃ n, Deficit p s n)

theorem Zip.removeLeaf {n : Nat} (hbal : Rb.BalZip p (.join d red a x .leaf) n) :
    ∃ s, s.toList = a.toList ∧ Cut t (t.removeLeaf x.1).1 l p x s ∧
      Pending p s (t.removeLeaf x.1).2 := by
  have hkept := h.child_keptSide
  have hpar : (t.heap x.1).parent = above p := by rw [h.heap_eq]
  have hx : t.isRed (some x.1) = red := by
    rw [← Rb.Tree.isRed_join d red a x .leaf, ← h.tree.isRed_eq, ptr_join]
  have ha : t.isRed (ptr a) = a.isRed := (rep_join.mp h.tree).2.1.isRed_eq
  cases red with
  | true =>
    have heq : t.removeLeaf x.1 = (t.unlink x.1 (t.keptSide x.1), none) := by
      rw [Tree.removeLeaf, if_pos hx]
    obtain ⟨hablack, -, habal, -⟩ := (Rb.Tree.bal_join_red ..).mp hbal.tree
    rw [heq]
    exact ⟨a, rfl, h.unlink hkept, .inl ⟨rfl, n, hbal.path, habal, fun _ => hablack⟩⟩
  | false =>
    obtain ⟨m, rfl, habal, hm⟩ := (Rb.Tree.bal_join_black ..).mp hbal.tree
    obtain rfl : m = 0 := hm
    cases a with
    | leaf =>
      have heq : t.removeLeaf x.1 = (t.unlink x.1 (t.keptSide x.1), above p) := by
        simp [Tree.removeLeaf, hx, hkept, hpar]
      rw [heq]
      exact ⟨.leaf, rfl, h.unlink hkept, .inr ⟨rfl, 0, hbal.path, rfl, rfl⟩⟩
    | node red' b y c =>
      -- a child without a black node below it is red
      obtain rfl : red' = true := by
        cases red' with
        | true => rfl
        | false => exact absurd (habal.eq_leaf rfl) (by simp)
      obtain ⟨h1, hw1⟩ := h.down.paint (x := y.1) rfl false
      have hyx : x.1 ≠ y.1 := by
        intro hc
        refine (nodup_addrs_join.mp h.nodup_tree).1 ?_
        rw [hc]
        exact ptr_mem rfl
      have hx1 : (t.setProp y.1 .black).heap x.1 = t.heap x.1 := heap_setProp_of_ne _ hyx _
      have heq : t.removeLeaf x.1 = ((t.setProp y.1 .black).unlink x.1 (t.keptSide x.1), none) := by
        have hptr : ptr (.node true b y c : Rb.Tree (α × κ)) = some y.1 := rfl
        have hy : t.isRed (some y.1) = true := ha
        simp [Tree.removeLeaf, hx, hkept, hptr, hy]
      have hchild : ((t.setProp y.1 .black).heap x.1).child (t.keptSide x.1) = some y.1 := by
        rw [hx1, hkept]
        rfl
      obtain ⟨hzip, hwithin, hnode⟩ := Zip.unlink h1.up hchild
      rw [heq]
      refine ⟨.node false b y c, rfl, ⟨hzip, hw1.trans hwithin, hnode.trans hx1⟩, ?_⟩
      exact .inl ⟨rfl, 1, hbal.path, habal.blacken rfl, fun _ => rfl⟩

end

omit [DecidableEq α] in
theorem Zip.follow {s : Rb.Tree (α × κ)} {z : α} (h : Zip t l p s) (hz : ptr s = some z)
    (hfuel : s.toList.length ≤ fuel) :
    ∃ q red y b, Tree.follow d fuel t z = some y.1 ∧ s = Rb.plug q (.join d red .leaf y b) ∧
      ∀ f ∈ q, f.dir = d := by
  induction fuel generalizing p s z with
  | zero =>
    cases s with
    | leaf => simp at hz
    | node red a e b => simp [Rb.Tree.toList] at hfuel
  | succ fuel ih =>
    cases s with
    | leaf => simp at hz
    | node red a e b =>
      obtain rfl : e.1 = z := some.inj hz
      obtain ⟨a, b, hab⟩ := Rb.Tree.exists_join d red a e b
      rw [hab] at h hfuel
      have hchild : (t.heap e.1).child d = ptr a := by
        rw [h.heap_eq]
        exact sides_self ..
      rw [Tree.follow, hchild, hab]
      by_cases ha : a = .leaf
      · subst ha
        exact ⟨[], red, e, b, rfl, rfl, by simp⟩
      obtain ⟨y, hy⟩ : ∃ y, ptr a = some y := by
        cases a with
        | leaf => exact absurd rfl ha
        | node red a1 y a2 => exact ⟨y.1, rfl⟩
      have hlen := (Rb.Tree.toList_join_perm d red a e b).length_eq
      rw [length_cons, length_append] at hlen
      obtain ⟨q, red', w, c, hrun, rfl, hdir⟩ := ih h.down hy (by omega)
      refine ⟨q ++ [⟨d, red, e, b⟩], red', w, c, ?_, ?_, ?_⟩
      · rw [hy]
        exact hrun
      · rw [plug_append]
        rfl
      intro f hf
      rcases mem_append.mp hf with hf | hf
      · exact hdir f hf
      · rw [mem_singleton.mp hf]

variable {y : α × κ}

/-- `ds_tree_node_replace`: another node in the place of the one in the focus. -/
theorem Zip.nodeReplace (h : Zip t l p (.join false red a x b)) (hy : y.1 ∉ l.map Prod.fst)
    (hkey : (t.heap y.1).key = y.2) :
    Zip (t.nodeReplace x.1 y.1) (Rb.before p ++ (a.toList ++ y :: b.toList) ++ Rb.after p) p
        (.join false red a y b) ∧
      Within (y :: l) t (t.nodeReplace x.1 y.1) := by
  obtain ⟨hxa, hxb, hanodup, hbnodup, hab⟩ := nodup_addrs_join.mp h.nodup_tree
  have hxs : x.1 ∈ addrs (.join false red a x b) := mem_addrs_join.mpr (.inl rfl)
  have hxp : x.1 ∉ pathAddrs p := h.disjoint hxs
  have hap : ∀ z ∈ addrs a, z ∉ pathAddrs p := fun z hz => h.disjoint (by simp [hz])
  have hbp : ∀ z ∈ addrs b, z ∉ pathAddrs p := fun z hz => h.disjoint (by simp [hz])
  have hyold := fun hc => hy (h.mem_iff.mpr hc)
  simp only [mem_addrs_join, imp_false, not_or] at hyold
  obtain ⟨hyp, hyx, hya, hyb⟩ := hyold
  obtain ⟨hx, ha, hb⟩ := rep_join.mp h.tree
  have hpath := h.path
  rw [ptr_join] at hpath
  set t1 := t.modify y.1 (fun n => { t.heap x.1 with key := n.key }) with ht1
  set t2 := t1.adopt (ptr a) (some y.1) with ht2
  set t3 := t2.adopt (ptr b) (some y.1) with ht3
  set t4 := t3.relink (above p) x.1 (some y.1) with ht4
  have hother1 : ∀ z, z ≠ y.1 → t1.heap z = t.heap z :=
    fun z hz => by rw [ht1, heap_modify_of_ne _ hz]
  have hother3 : ∀ z, z ∉ addrs a → z ∉ addrs b → t3.heap z = t1.heap z := by
    intro z hza hzb
    rw [ht3, heap_adopt_of_ne _ (ptr_ne hzb), ht2, heap_adopt_of_ne _ (ptr_ne hza)]
  have hother4 : ∀ z, z ∉ pathAddrs p → t4.heap z = t3.heap z :=
    fun z hz => by rw [ht4, heap_relink_of_ne _ (above_ne hz)]
  have hx1 : t1.heap x.1 = t.heap x.1 := hother1 x.1 (Ne.symm hyx)
  have hx2 : t2.heap x.1 = t.heap x.1 := by rw [ht2, heap_adopt_of_ne _ (ptr_ne hxa), hx1]
  have hx3 : t3.heap x.1 = t.heap x.1 := by rw [hother3 x.1 hxa hxb, hx1]
  have hleft : (t1.heap x.1).child false = ptr a := by
    rw [hx1, hx]
    rfl
  have hright : (t2.heap x.1).child true = ptr b := by
    rw [hx2, hx]
    rfl
  have hpar : (t3.heap x.1).parent = above p := by rw [hx3, hx]
  have heq : t.nodeReplace x.1 y.1 = t4 := by
    rw [ht4, ← hpar, ht3, ← hright, ht2, ← hleft]
    rfl
  rw [heq]
  refine ⟨⟨?_, rep_join.mpr ⟨?_, ?_, ?_⟩, ?_, ?_⟩, ?_, ?_⟩
  · rw [ptr_join]
    refine repPath_relink ?_ h.nodup_path hxp
    rw [ht3, root_adopt, ht2, root_adopt, ← ht2, ← ht3]
    refine hpath.congr (fun z hz => ?_)
    rw [hother3 z (fun hza => hap z hza hz) (fun hzb => hbp z hzb hz)]
    exact hother1 z (fun he => hyp (he ▸ hz))
  · rw [hother4 y.1 hyp, hother3 y.1 hya hyb, ht1, heap_modify_self, hx, hkey]
  · have ha1 : Rep t1.heap (some x.1) a :=
      ha.congr (fun z hz => hother1 z (fun he => hya (he ▸ hz)))
    have ha2 : Rep t2.heap (some y.1) a := rep_adopt ha1 hanodup
    refine ha2.congr (fun z hz => ?_)
    rw [hother4 z (hap z hz), ht3, heap_adopt_of_ne _ (ptr_ne (hab hz))]
  · have hb2 : Rep t2.heap (some x.1) b := by
      refine hb.congr (fun z hz => ?_)
      rw [ht2, heap_adopt_of_ne _ (ptr_ne (fun hza => hab hza hz))]
      exact hother1 z (fun he => hyb (he ▸ hz))
    have hb3 : Rep t3.heap (some y.1) b := rep_adopt hb2 hbnodup
    exact hb3.congr (fun z hz => hother4 z (hbp z hz))
  · rw [toList_plug, Rb.Tree.toList_join]
    rfl
  · have hassoc : ∀ z : α × κ, before p ++ (a.toList ++ z :: b.toList) ++ after p =
        (before p ++ a.toList) ++ z :: (b.toList ++ after p) := by simp
    have horder : l = (before p ++ a.toList) ++ x :: (b.toList ++ after p) := by
      rw [← hassoc, ← h.order, toList_plug]
      rfl
    have hnodup := h.nodup
    rw [horder, map_append, map_cons, nodup_middle, nodup_cons] at hnodup
    rw [horder, map_append, map_cons, mem_append, mem_cons] at hy
    rw [hassoc, map_append, map_cons, nodup_middle, nodup_cons, mem_append]
    exact ⟨fun hc => hy (hc.imp_right .inr), hnodup.2⟩
  · intro z hz
    rw [map_cons, mem_cons, not_or, h.mem_iff, not_or, mem_addrs_join, not_or, not_or] at hz
    rw [hother4 z hz.2.1, hother3 z hz.2.2.2.1 hz.2.2.2.2, hother1 z hz.1]
  · rw [ht4, ndel_relink, ht3, ndel_adopt, ht2, ndel_adopt]
    rfl

/-! ## One turn of the climb -/

variable {d red : Bool} {x : α × κ} {s sib : Rb.Tree (α × κ)} {n : Nat}

/-- What one turn at `x` leaves: a red-black tree, or a deficit at `x`. -/
def Repaired (t : Tree α κ) (l : List (α × κ)) (p : Rb.Path (α × κ)) (x : α × κ) :
    Bool → Prop
  | false => ∃ p' s m, Zip t l p' s ∧ Rb.BalZip p' s m
  | true => ∃ s m, Zip t l p s ∧ ptr s = some x.1 ∧ Deficit p s m

omit [DecidableEq α] in
/-- Two black trees under a node of the colour that was there before. -/
theorem balZip_of_children {d' : Bool} (hpath : Rb.BalPath (⟨d, red, x, sib⟩ :: p) n)
    (ha : a.Bal n) (hb : b.Bal n) (hablack : a.isRed = false) (hbblack : b.isRed = false) :
    ∃ m, Rb.BalZip p (.join d' red a y b) m := by
  cases red with
  | true =>
    obtain ⟨-, -, hhead, hp⟩ := hpath
    refine ⟨n, hp, (Rb.Tree.bal_join_red ..).mpr ⟨hablack, hbblack, ha, hb⟩, ?_⟩
    intro hc
    rw [hhead] at hc
    exact absurd hc (by simp)
  | false =>
    exact ⟨n + 1, hpath.2, (Rb.Tree.bal_join_black_succ ..).mpr ⟨ha, hb⟩,
      fun _ => Rb.Tree.isRed_join ..⟩

/-- The end of a turn that rotates: the new root gets the colour of `x` and its
children become black. -/
theorem Zip.finishRotation {d' red' : Bool} (h : Zip t l p (.join d' red' a y b)) (ha : a ≠ .leaf)
    (hb : b ≠ .leaf) (hbal : ∃ m, Rb.BalZip p (.join d' red (a.paint false) y (b.paint false)) m) :
    ∃ t', (do
        let t := t.setProp y.1 (.ofRed red)
        let l ← (t.heap y.1).child false
        let t := t.setProp l .black
        let r ← (t.heap y.1).child true
        return (t.setProp r .black, false)) = some (t', false) ∧
      Within l t t' ∧ Repaired t' l p x false := by
  obtain ⟨u, v, hu, hv, h', hw⟩ := h.paintChildren ha hb red
  obtain ⟨m, hm⟩ := hbal
  refine ⟨_, ?_, hw, p, _, m, h', hm⟩
  simp [hu, hv]

section

variable {b b' : Rb.Tree (α × κ)} {y : α × κ}

omit [DecidableEq α] in
/-- The node with the deficit, its sibling first. -/
theorem Zip.sibling (h : Zip t l (⟨d, red, x, sib⟩ :: p) s) :
    Zip t l p (.join (!d) red sib x s) := by
  rw [Rb.Tree.join_not]
  exact h.up

section

variable (h : Zip t l (⟨d, red, x, .join (!d) false b y b'⟩ :: p) s)

include h

/-- The pointers that the turn with a black sibling `y` reads. -/
theorem Zip.rebalanceBlack_eq : t.rebalanceBlack x.1 d =
      if !b.isRed && !b'.isRed then
        if red then some ((t.setProp y.1 .red).setProp x.1 .black, false)
        else some (t.setProp y.1 .red, true)
      else do
        let (t, node) ← if b.isRed then t.rbtRotate x.1 (!d) else t.rbtRotateDouble x.1 (!d)
        let t := t.setProp node (.ofRed red)
        let l ← (t.heap node).child false
        let t := t.setProp l .black
        let r ← (t.heap node).child true
        return (t.setProp r .black, false) := by
  have hsib := h.sibling
  obtain ⟨hx, hrep, -⟩ := rep_join.mp hsib.tree
  obtain ⟨hy, hb, -⟩ := rep_join.mp hrep
  have hchild : (t.heap x.1).child (!d) = some y.1 := by
    rw [hx, ptr_join]
    exact sides_self ..
  have houter : t.isRed ((t.heap y.1).child (!d)) = b.isRed := by
    rw [hy, ← hb.isRed_eq]
    exact congrArg _ (sides_self ..)
  have hprop : (t.heap x.1).prop = .ofRed red := by rw [hx]
  have hboth := hsib.down.isRed_children (fun c c' => !c && !c') (fun c c' => Bool.and_comm ..)
  have hxy : x.1 ≠ y.1 := by
    intro he
    refine (nodup_addrs_join.mp hsib.nodup_tree).1 ?_
    rw [he]
    exact mem_addrs_join.mpr (.inl rfl)
  have hred : (t.setProp y.1 .red).isRed (some x.1) = red := by
    rw [isRed, heap_setProp_of_ne _ hxy, hprop]
    exact Color.ofRed_beq red
  rw [Tree.rebalanceBlack, hchild]
  simp [hboth, houter, hprop, hred]

section

variable (hdef : Deficit (⟨d, red, x, .join (!d) false b y b'⟩ :: p) s n)

include hdef

/-- The turn with a black sibling that has two black children. -/
theorem Zip.rebalanceBlack_recolour (hb : b.isRed = false) (hb' : b'.isRed = false) :
    ∃ t' again, t.rebalanceBlack x.1 d = some (t', again) ∧ Within l t t' ∧
      Repaired t' l p x again ∧ (again = true → red = false) := by
  obtain ⟨hpath, hs, hsblack⟩ := hdef
  obtain ⟨hbbal, hb'bal⟩ := (Rb.Tree.bal_join_black_succ ..).mp hpath.1
  obtain ⟨h1, hw1⟩ := h.sibling.down.setProp true
  have hsib' : (Rb.Tree.join (!d) true b y b').Bal n :=
    (Rb.Tree.bal_join_red ..).mpr ⟨hb, hb', hbbal, hb'bal⟩
  rw [h.rebalanceBlack_eq, hb, hb']
  cases red with
  | true =>
    obtain ⟨h2, hw2⟩ := Zip.setProp h1.up false
    refine ⟨_, false, rfl, hw1.trans hw2, ⟨p, _, n + 1, h2, hpath.2.2.2, ?_, ?_⟩, by simp⟩
    · exact (Rb.Tree.bal_join_black_succ ..).mpr ⟨hsib', hs⟩
    · exact fun _ => Rb.Tree.isRed_join ..
  | false =>
    refine ⟨_, true, rfl, hw1, ⟨_, n + 1, h1.up, ptr_join .., hpath.2, ?_, ?_⟩, fun _ => rfl⟩
    · exact (Rb.Tree.bal_join_black_succ ..).mpr ⟨hsib', hs⟩
    · exact Rb.Tree.isRed_join ..

/-- The turn with a black sibling whose outer child is red: one rotation. -/
theorem Zip.rebalanceBlack_single (hb : b.isRed = true)
    : ∃ t', t.rebalanceBlack x.1 d = some (t', false) ∧ Within l t t' ∧
      Repaired t' l p x false := by
  obtain ⟨hpath, hs, hsblack⟩ := hdef
  obtain ⟨hbbal, hb'bal⟩ := (Rb.Tree.bal_join_black_succ ..).mp hpath.1
  have hleaf : b ≠ .leaf := by
    rintro rfl
    simp at hb
  obtain ⟨t1, hrot, h1, hw1⟩ := h.sibling.rbtRotate
  have hinner : ((Rb.Tree.join (!d) true b' x s).paint false).Bal (n + 1) := by
    rw [Rb.Tree.paint_join]
    exact (Rb.Tree.bal_join_black_succ ..).mpr ⟨hb'bal, hs⟩
  have hbal : ∃ m, Rb.BalZip p (.join (!d) red (b.paint false) y
      ((Rb.Tree.join (!d) true b' x s).paint false)) m :=
    balZip_of_children hpath (hbbal.blacken hb) hinner (Rb.Tree.isRed_paint_false _)
      (Rb.Tree.isRed_paint_false _)
  obtain ⟨t', hrun, hw', hrep⟩ := h1.finishRotation (x := x) hleaf Rb.Tree.join_ne_leaf hbal
  refine ⟨t', ?_, hw1.trans hw', hrep⟩
  rw [h.rebalanceBlack_eq, hb]
  simp only [hrot]
  exact hrun

/-- The turn with a black sibling whose only red child is the inner one: a double
rotation. -/
theorem Zip.rebalanceBlack_double (hb : b.isRed = false) (hb' : b'.isRed = true) :
    ∃ t', t.rebalanceBlack x.1 d = some (t', false) ∧ Within l t t' ∧ Repaired t' l p x false := by
  obtain ⟨hpath, hs, hsblack⟩ := hdef
  obtain ⟨hbbal, hb'bal⟩ := (Rb.Tree.bal_join_black_succ ..).mp hpath.1
  have heq := h.rebalanceBlack_eq
  obtain ⟨c, z, c', rfl⟩ : ∃ c z c', b' = .join (!!d) true c z c' := by
    cases b' with
    | leaf => simp at hb'
    | node red' u z v =>
      obtain rfl : red' = true := hb'
      obtain ⟨c, c', hc⟩ := Rb.Tree.exists_join (!!d) true u z v
      exact ⟨c, z, c', hc⟩
  obtain ⟨hcblack, hc'black, hcbal, hc'bal⟩ := (Rb.Tree.bal_join_red ..).mp hb'bal
  have hsib := h.sibling
  rw [← Rb.Tree.join_not (!d) false _ y b] at hsib
  obtain ⟨t1, hrot, h1, hw1⟩ := hsib.rbtRotateDouble
  have houter : ((Rb.Tree.join (!!d) true c' y b).paint false).Bal (n + 1) := by
    rw [Rb.Tree.paint_join]
    exact (Rb.Tree.bal_join_black_succ ..).mpr ⟨hc'bal, hbbal⟩
  have hinner : ((Rb.Tree.join (!d) true c x s).paint false).Bal (n + 1) := by
    rw [Rb.Tree.paint_join]
    exact (Rb.Tree.bal_join_black_succ ..).mpr ⟨hcbal, hs⟩
  have hbal : ∃ m, Rb.BalZip p (.join (!d) red ((Rb.Tree.join (!!d) true c' y b).paint false) z
      ((Rb.Tree.join (!d) true c x s).paint false)) m :=
    balZip_of_children hpath houter hinner (Rb.Tree.isRed_paint_false _)
      (Rb.Tree.isRed_paint_false _)
  obtain ⟨t', hrun, hw', hrep⟩ := h1.finishRotation (x := x) Rb.Tree.join_ne_leaf
    Rb.Tree.join_ne_leaf hbal
  refine ⟨t', ?_, hw1.trans hw', hrep⟩
  rw [heq, hb, hb']
  simp only [hrot]
  exact hrun

end

end

end

section

variable (h : Zip t l (⟨d, red, x, sib⟩ :: p) s) (hdef : Deficit (⟨d, red, x, sib⟩ :: p) s n)

include h hdef

/-- The turn with a black sibling. -/
theorem Zip.rebalanceBlack (hsib : sib.isRed = false) :
    ∃ t' again, t.rebalanceBlack x.1 d = some (t', again) ∧ Within l t t' ∧
      Repaired t' l p x again ∧ (again = true → red = false) := by
  obtain ⟨b, y, b', rfl, -⟩ := hdef.path.1.exists_join_black hsib (!d)
  cases hb : b.isRed with
  | true =>
    obtain ⟨t', hrun, hw, hrep⟩ := h.rebalanceBlack_single hdef hb
    exact ⟨t', false, hrun, hw, hrep, by simp⟩
  | false =>
    cases hb' : b'.isRed with
    | true =>
      obtain ⟨t', hrun, hw, hrep⟩ := h.rebalanceBlack_double hdef hb hb'
      exact ⟨t', false, hrun, hw, hrep, by simp⟩
    | false => exact h.rebalanceBlack_recolour hdef hb hb'

theorem Zip.removeRebalance :
    ∃ t' again, t.removeRebalance x.1 d = some (t', again) ∧ Within l t t' ∧
      Repaired t' l p x again := by
  obtain ⟨hx, hrep, -⟩ := rep_join.mp h.sibling.tree
  have hsibred : t.isRed ((t.heap x.1).child (!d)) = sib.isRed := by
    rw [hx, ← hrep.isRed_eq]
    exact congrArg _ (sides_self ..)
  cases hsib : sib.isRed with
  | false =>
    obtain ⟨t', again, hrun, hw, hrep, -⟩ := h.rebalanceBlack hdef hsib
    refine ⟨t', again, ?_, hw, hrep⟩
    rw [Tree.removeRebalance, hsibred, hsib]
    exact hrun
  | true =>
    obtain ⟨hpath, hs, hsblack⟩ := hdef
    obtain ⟨red', b, y, b', rfl⟩ := hpath.1.exists_join_succ (!d)
    obtain rfl : red' = true := (Rb.Tree.isRed_join ..).symm.trans hsib
    obtain rfl : red = false := by
      cases red with
      | false => rfl
      | true => exact absurd (hsib.symm.trans hpath.2.1) (by simp)
    obtain ⟨hbblack, hb'black, hbbal, hb'bal⟩ := (Rb.Tree.bal_join_red ..).mp hpath.1
    -- after the rotation the sibling is black and the node is red
    obtain ⟨t1, hrot, h1, hw1⟩ := h.sibling.rbtRotate
    rw [Rb.Tree.join_not, Rb.Tree.join_not d true] at h1
    obtain ⟨t', again, hrun, hw', hrep, hagain⟩ := h1.down.down.rebalanceBlack (n := n)
      ⟨⟨hb'bal, hb'black, rfl, hbbal, hpath.2⟩, hs, hsblack⟩ hb'black
    cases again with
    | true => exact absurd (hagain rfl) (by simp)
    | false =>
      refine ⟨t', false, ?_, hw1.trans hw', hrep⟩
      rw [Tree.removeRebalance, hsibred, hsib, if_pos rfl, hrot]
      exact hrun

end

/-- The side of the hole at the end of a path. -/
def holeSide : Rb.Path (α × κ) → Bool
  | [] => false
  | f :: _ => f.dir

theorem Zip.removeLoop (h : Zip t l p s) (hdef : Deficit p s n) (hfuel : p.length ≤ fuel) :
    ∃ t' p' s' m, t.removeLoop fuel (above p) (holeSide p) = some t' ∧ Zip t' l p' s' ∧
      Rb.BalZip p' s' m ∧ Within l t t' := by
  induction fuel generalizing t p s n with
  | zero =>
    obtain rfl : p = [] := length_eq_zero_iff.mp (by omega)
    refine ⟨t, [], s, n, ?_, h, ⟨trivial, hdef.tree, fun _ => hdef.black⟩, .refl l t⟩
    rw [above, Tree.removeLoop]
  | succ fuel ih =>
    cases p with
    | nil =>
      refine ⟨t, [], s, n, ?_, h, ⟨trivial, hdef.tree, fun _ => hdef.black⟩, .refl l t⟩
      rw [above, Tree.removeLoop]
    | cons f p =>
      obtain ⟨d, red, x, sib⟩ := f
      obtain ⟨t1, again, hrun, hw1, hrep⟩ := h.removeRebalance hdef
      cases again with
      | false =>
        obtain ⟨p', s', m, h', hbal⟩ := hrep
        refine ⟨t1, p', s', m, ?_, h', hbal, hw1⟩
        simp only [above, holeSide, Tree.removeLoop, hrun]
        rfl
      | true =>
        obtain ⟨s1, m1, h1, hptr, hdef1⟩ := hrep
        obtain ⟨t', p', s', m, hloop, h', hbal, hw'⟩ := ih h1 hdef1 (by simpa using hfuel)
        refine ⟨t', p', s', m, ?_, h', hbal, hw1.trans hw'⟩
        have hpar := h1.parent_eq hptr
        simp only [above, holeSide, Tree.removeLoop, hrun, bind_eq_bind, bind_some, hpar]
        cases p with
        | nil =>
          rw [above, Tree.removeLoop] at hloop
          exact hloop
        | cons g p =>
          have hdir := h1.dirOf_eq hptr
          simp only [hdir]
          exact hloop

/-! ## Taking a node out -/

/-- The index that the source computes for the node in the focus. -/
theorem Zip.dirOf_above {y : α} (h : Zip t l p s) (hy : ptr s = some y) {u : α}
    (hu : above p = some u) : t.dirOf u y = holeSide p := by
  cases p with
  | nil => simp [above] at hu
  | cons f p =>
    obtain rfl : f.elt.1 = u := some.inj hu
    exact h.dirOf_eq hy

/-- Taking out a node with at most one child. -/
theorem Zip.takeOut_leaf (fuel : Nat) (h : Zip t l p (.join d red a x .leaf))
    (hbal : Rb.BalZip p (.join d red a x .leaf) n) :
    ∃ t' s base, t.takeOut fuel x.1 = some (t', base, holeSide p) ∧
      Zip t' (Rb.before p ++ a.toList ++ Rb.after p) p s ∧ Within l t t' ∧ Pending p s base := by
  obtain ⟨s, hlist, hcut, hpend⟩ := h.removeLeaf hbal
  refine ⟨_, s, _, ?_, hlist ▸ hcut.zip, hcut.within, hpend⟩
  have hdir : (t.heap x.1).parent.elim false (t.dirOf · x.1) = holeSide p := by
    rw [h.parent_eq (ptr_join ..)]
    cases hp : above p with
    | none =>
      cases p with
      | nil => rfl
      | cons f p => simp [above] at hp
    | some u => exact h.dirOf_above (ptr_join ..) hp
  rw [Tree.takeOut]
  split
  · rename_i u v hu hv
    rw [h.heap_eq] at hu hv
    cases d with
    | false => simp [sides] at hv
    | true => simp [sides] at hu
  · rw [← hdir]
    cases (t.heap x.1).parent <;> rfl

section

variable {q : Rb.Path (α × κ)} {y : α × κ} {b : Rb.Tree (α × κ)}

/-- When another node takes the place of `x`, what is left to do is the same. -/
theorem Pending.replace {base : Option α} (h : Pending (q ++ ⟨false, red, x, b⟩ :: p) s base)
    (hx : ∀ f ∈ q, f.elt.1 ≠ x.1) :
    Pending (q ++ ⟨false, red, y, b⟩ :: p) s (if base = some x.1 then some y.1 else base) := by
  have hhead : headRed (q ++ ⟨false, red, y, b⟩ :: p) = headRed (q ++ ⟨false, red, x, b⟩ :: p) := by
    cases q <;> rfl
  rcases h with ⟨rfl, n, hbal⟩ | ⟨rfl, n, hdef⟩
  · refine .inl ⟨if_neg (by simp), n, balPath_elt q p false red x y b n hbal.path, hbal.tree, ?_⟩
    rw [hhead]
    exact hbal.root
  · refine .inr ⟨?_, n, balPath_elt q p false red x y b _ hdef.path, hdef.tree, hdef.black⟩
    cases q with
    | nil => exact if_pos rfl
    | cons f q => exact if_neg fun he => hx f mem_cons_self (some.inj he)

/-- The predecessor of a node with a left child, taken out, replaces the node. -/
theorem Zip.replace_pred {red' : Bool} {c : Rb.Tree (α × κ)}
    (h : Zip t l (q ++ ⟨false, red, x, b⟩ :: p) (.join true red' .leaf y c))
    (hq : ∀ f ∈ q, f.dir = true)
    (hbal : Rb.BalZip (q ++ ⟨false, red, x, b⟩ :: p) (.join true red' .leaf y c) n) :
    ∃ s, Zip ((t.removeLeaf y.1).1.nodeReplace x.1 y.1)
        (Rb.before p ++ (Rb.before q ++ c.toList) ++ y :: (b.toList ++ Rb.after p))
        (q ++ ⟨false, red, y, b⟩ :: p) s ∧
      Within l t ((t.removeLeaf y.1).1.nodeReplace x.1 y.1) ∧
      Pending (q ++ ⟨false, red, y, b⟩ :: p) s
        (if (t.removeLeaf y.1).2 = some x.1 then some y.1 else (t.removeLeaf y.1).2) := by
  have hread : Rb.Tree.join true red' .leaf y c = .join false red' c y .leaf :=
    Rb.Tree.join_not false red' .leaf y c
  rw [hread] at h hbal
  obtain ⟨s, hlist, hcut, hpend⟩ := h.removeLeaf hbal
  set t1 := (t.removeLeaf y.1).1 with ht1
  set l1 := before (q ++ ⟨false, red, x, b⟩ :: p) ++ s.toList ++
    after (q ++ ⟨false, red, x, b⟩ :: p) with hl1
  have hperm : l.Perm (y :: l1) := by
    rw [← h.order, toList_plug, Rb.Tree.toList_join, hl1, hlist]
    simp only [Bool.false_eq_true, if_false, Rb.Tree.toList_leaf]
    rw [← append_assoc, append_assoc _ [y]]
    exact perm_middle
  have hy : y.1 ∉ l1.map Prod.fst :=
    (nodup_cons.mp ((hperm.map Prod.fst).nodup_iff.mp h.nodup)).1
  have hkey : (t1.heap y.1).key = y.2 := by rw [hcut.node, h.heap_eq]
  have hx : ∀ f ∈ q, f.elt.1 ≠ x.1 := by
    intro f hf he
    have hnodup := h.nodup_path
    rw [pathAddrs_append, nodup_append'] at hnodup
    exact hnodup.2.2 (elt_mem_pathAddrs hf) (he ▸ mem_cons_self)
  obtain ⟨h2, hw2⟩ := Zip.nodeReplace hcut.zip.ascend.up hy hkey
  refine ⟨s, ?_, hcut.within.trans (hw2.mono hperm.symm.subset), hpend.replace hx⟩
  have horder : before p ++ ((plug q s).toList ++ y :: b.toList) ++ after p =
      before p ++ (before q ++ c.toList) ++ y :: (b.toList ++ after p) := by
    rw [toList_plug, hlist, after_eq_nil hq]
    simp
  rw [← horder]
  exact h2.down.descend

end

theorem Zip.takeOut (h : Zip t l p (.node red a x b))
    (hbal : ∃ n, Rb.BalZip p (.node red a x b) n) (hfuel : l.length ≤ fuel) :
    ∃ t' p' s base l1 l2, t.takeOut fuel x.1 = some (t', base, holeSide p') ∧
      l = l1 ++ x :: l2 ∧ Zip t' (l1 ++ l2) p' s ∧ Within l t t' ∧ Pending p' s base := by
  obtain ⟨n, hn⟩ := hbal
  have horder : l = (before p ++ a.toList) ++ x :: (b.toList ++ after p) := by
    rw [← h.order, toList_plug]
    simp [Rb.Tree.toList]
  by_cases hb : b = .leaf
  · subst hb
    obtain ⟨t', s, base, hrun, h', hw, hpend⟩ := Zip.takeOut_leaf (d := false) fuel h hn
    exact ⟨t', p, s, base, _, _, hrun, horder, by simpa using h', hw, hpend⟩
  by_cases ha : a = .leaf
  · subst ha
    obtain ⟨t', s, base, hrun, h', hw, hpend⟩ := Zip.takeOut_leaf (d := true) fuel h hn
    exact ⟨t', p, s, base, _, _, hrun, horder, by simpa using h', hw, hpend⟩
  obtain ⟨u, hu⟩ := exists_ptr ha
  obtain ⟨v, hv⟩ := exists_ptr hb
  have hdown : Zip t l (⟨false, red, x, b⟩ :: p) a := Zip.down (d := false) h
  have hlen : a.toList.length ≤ fuel := by
    have := congrArg length horder
    simp only [length_append, length_cons] at this
    omega
  obtain ⟨q, red', y, c, hfollow, rfl, hq⟩ := hdown.follow (d := true) hu hlen
  have hzip := hdown.descend
  obtain ⟨m, hm⟩ : ∃ m, BalZip (q ++ ⟨false, red, x, b⟩ :: p) (.join true red' .leaf y c) m := by
    rw [← bal_plug, plug_append, bal_plug]
    exact (balZip_cons_iff ⟨false, red, x, b⟩ p _).mpr ⟨n, hn⟩
  obtain ⟨s, h', hw, hpend⟩ := hzip.replace_pred hq hm
  refine ⟨_, _, s, _, _, _, ?_, horder, ?_, hw, hpend⟩
  · have hleft : (t.heap x.1).child false = some u := by
      rw [Zip.heap_eq (d := false) h, ← hu]
      rfl
    have hright : (t.heap x.1).child true = some v := by
      rw [Zip.heap_eq (d := false) h, ← hv]
      rfl
    obtain ⟨w, hw'⟩ : ∃ w, above (q ++ ⟨false, red, x, b⟩ :: p) = some w := by
      cases q <;> exact ⟨_, rfl⟩
    have hpar : (t.heap y.1).parent = some w := (hzip.parent_eq (ptr_join ..)).trans hw'
    have hdir : t.dirOf w y.1 = holeSide (q ++ ⟨false, red, y, b⟩ :: p) := by
      rw [hzip.dirOf_above (ptr_join ..) hw']
      cases q <;> rfl
    rw [Tree.takeOut, hleft, hright]
    simp only [bind_eq_bind, hfollow, bind_some, hpar, hdir]
    rfl
  · have hlist : before p ++ (plug q (.join true red' .leaf y c)).toList ++
        (b.toList ++ after p) =
        before p ++ (before q ++ c.toList) ++ y :: (b.toList ++ after p) := by
      rw [toList_plug, after_eq_nil hq, Rb.Tree.toList_join]
      simp
    rw [hlist]
    exact h'

/-! ## The whole removal -/

omit [DecidableEq α] in
theorem RedBlack.congr {t' : Tree α κ} (h : RedBlack t l) (hroot : t'.root = t.root)
    (heq : ∀ y ∈ l.map Prod.fst, t'.heap y = t.heap y) : RedBlack t' l := by
  obtain ⟨s, n, hs, hblack, hbal⟩ := h
  exact ⟨s, n, hs.congr hroot heq, hblack, hbal⟩

/-- The last step of the repair. -/
theorem Zip.blackRoot (h : Zip t l p s) (hbal : Rb.BalZip p s n) :
    RedBlack t.blackRoot l ∧ Within l t t.blackRoot := by
  rw [Tree.blackRoot]
  cases hroot : t.root with
  | some r => exact h.paint_root hbal hroot
  | none =>
    have htop := h.top
    obtain ⟨m, hm⟩ := (bal_plug p s).mpr ⟨n, hbal⟩
    refine ⟨⟨_, m, htop, ?_, hm⟩, .refl l t⟩
    have hptr : ptr (plug p s) = none := htop.path.symm.trans hroot
    cases hs : plug p s with
    | leaf => rfl
    | node red a e b => simp [hs, ptr] at hptr

/-- `ds_tree_node_remove` of a node of the tree: the tree is a red-black tree again,
without the node. -/
theorem remove_spec (h : RedBlack t l) (hx : x ∈ l) (hfuel : l.length ≤ fuel) :
    ∃ t' l1 l2, t.remove fuel x.1 = some t' ∧ l = l1 ++ x :: l2 ∧ RedBlack t' (l1 ++ l2) ∧
      (∀ y, y ∉ l.map Prod.fst → t'.heap y = t.heap y) ∧ t'.ndel = t.ndel + 1 := by
  obtain ⟨s, n, hs, hblack, hbal⟩ := h
  have hmem : x ∈ s.toList := by
    rw [show s.toList = l from hs.order]
    exact hx
  obtain ⟨p, red, a, b, rfl⟩ := exists_plug_of_mem hmem
  have hzip : Zip t l p (.node red a x b) := by simpa using hs.descend
  obtain ⟨t1, p1, s1, base, l1, l2, hrun, hsplit, h1, hw1, hpend⟩ :=
    hzip.takeOut ((bal_plug p _).mp ⟨n, hbal⟩) hfuel
  have hlen : p1.length ≤ fuel := by
    have hplug := length_le_plug p1 s1
    rw [h1.order] at hplug
    rw [hsplit] at hfuel
    simp only [length_append, length_cons] at hplug hfuel
    omega
  obtain ⟨t2, p2, s2, m, hloop, h2, hbal2, hw2⟩ : ∃ t2 p2 s2 m,
      t1.removeLoop fuel base (holeSide p1) = some t2 ∧ Zip t2 (l1 ++ l2) p2 s2 ∧
        Rb.BalZip p2 s2 m ∧ Within (l1 ++ l2) t1 t2 := by
    rcases hpend with ⟨rfl, m, hbal1⟩ | ⟨rfl, m, hdef⟩
    · exact ⟨t1, p1, s1, m, by rw [Tree.removeLoop], h1, hbal1, .refl _ _⟩
    · exact h1.removeLoop hdef hlen
  obtain ⟨hrb, hw3⟩ := h2.blackRoot hbal2
  have hperm : l.Perm (x :: (l1 ++ l2)) := hsplit ▸ perm_middle
  have hnot : x.1 ∉ (l1 ++ l2).map Prod.fst :=
    (nodup_cons.mp ((hperm.map Prod.fst).nodup_iff.mp hs.nodup)).1
  have hsub : l1 ++ l2 ⊆ l := fun y hy => hperm.symm.subset (mem_cons_of_mem x hy)
  have hw := (hw1.trans (hw2.mono hsub)).trans (hw3.mono hsub)
  set t3 := t2.blackRoot.modify x.1 (fun n => { n with child := fun _ => none }) with ht3
  have hother : ∀ y, y ≠ x.1 → t3.heap y = t2.blackRoot.heap y :=
    fun y hy => by rw [heap_modify_of_ne _ hy]
  refine ⟨{ t3 with ndel := t3.ndel + 1 }, l1, l2, ?_, hsplit, hrb.congr rfl ?_, ?_, ?_⟩
  · simp only [Tree.remove, hrun, bind_eq_bind, bind_some, hloop]
    rfl
  · exact fun y hy => hother y (fun he => hnot (he ▸ hy))
  · intro y hy
    refine (hother y ?_).trans (hw.heap y hy)
    rintro rfl
    exact hy (mem_map_of_mem hx)
  · exact congrArg (· + 1) hw.ndel

end OpenSync.Ds.Tree
