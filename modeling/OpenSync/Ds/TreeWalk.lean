import OpenSync.Ds.TreeRemove

/-!
# Reading a tree

On a red-black tree with the elements `l` in order, `ds_tree_check` returns the black height,
`ds_tree_foreach` visits `l` from the front to the back, and `ds_tree_find` ends at an element that
compares equal or between two elements that the key lies between.

The lookup does not ask for a comparator that is an order; what an order adds is in
`OpenSync.Ds.TreeRefine`.
-/

namespace OpenSync.Ds.Tree

open OpenSync.Lib List Option

variable {α κ : Type} [DecidableEq α] {t : Tree α κ} {l : List (α × κ)}
  {p : Rb.Path (α × κ)} {s : Rb.Tree (α × κ)} {fuel : Nat}

/-! ## The health check -/

variable {x : α} {l1 l2 : List (α × κ)}

theorem checkSide_spec {checkR : α → Option Int} {c : Bool} {n : Nat} (h : Rep t.heap (some x) s)
    (hbal : s.Bal n) (hchild : (t.heap x).child c = ptr s)
    (hrec : ∀ y, ptr s = some y → checkR y = some (n : Int)) :
    checkSide checkR t x c = some (n : Int) := by
  rw [checkSide, hchild]
  cases s with
  | leaf =>
    obtain rfl : n = 0 := hbal
    rfl
  | node red a y b =>
    have hpar : (t.heap y.1).parent = some x := by rw [h.1]
    simp only [ptr, hpar, ne_eq]
    exact hrec y.1 rfl

/-- `ds_tree_check_r` returns the black height. -/
theorem checkFrom_spec {par : Option α} {n : Nat} (h : Rep t.heap par s) (hbal : s.Bal n)
    (hx : ptr s = some x) (hfuel : s.toList.length ≤ fuel) :
    t.checkFrom fuel x = some (n : Int) := by
  induction s generalizing par x n fuel with
  | leaf => simp at hx
  | node red a e b iha ihb =>
    obtain rfl : e.1 = x := some.inj hx
    obtain ⟨hnode, ha, hb⟩ := h
    simp only [Rb.Tree.toList, length_append, length_cons] at hfuel
    obtain ⟨fuel, rfl⟩ : ∃ k, fuel = k + 1 := ⟨fuel - 1, by omega⟩
    have hleft : (t.heap e.1).child false = ptr a := by
      rw [hnode]
      rfl
    have hright : (t.heap e.1).child true = ptr b := by
      rw [hnode]
      rfl
    have hred : t.isRed (some e.1) = red := by
      rw [isRed, hnode]
      exact Color.ofRed_beq red
    have hl : ∀ {m}, a.Bal m → checkSide (checkFrom fuel t) t e.1 false = some (m : Int) :=
      fun hm => checkSide_spec ha hm hleft (fun y hy => iha ha hm hy (by omega))
    have hr : ∀ {m}, b.Bal m → checkSide (checkFrom fuel t) t e.1 true = some (m : Int) :=
      fun hm => checkSide_spec hb hm hright (fun y hy => ihb hb hm hy (by omega))
    have hnonneg : ∀ m : Nat, ¬ (m : Int) < 0 := fun m => by omega
    cases red with
    | true =>
      obtain ⟨hablack, hbblack, habal, hbbal⟩ := hbal
      simp [checkFrom, hl habal, hr hbbal, hred, hleft, hright, ha.isRed_eq, hb.isRed_eq, hablack,
        hbblack, hnonneg]
    | false =>
      obtain ⟨m, rfl, habal, hbbal⟩ := hbal
      simp [checkFrom, hl habal, hr hbbal, hred, hnonneg]

theorem RedBlack.check (h : RedBlack t l) (hfuel : l.length ≤ fuel) :
    ∃ n : Nat, t.check fuel = some (n : Int) := by
  obtain ⟨s, n, hs, hblack, hbal⟩ := h
  have hroot : t.root = ptr s := hs.path
  have horder : s.toList = l := hs.order
  cases s with
  | leaf =>
    refine ⟨0, ?_⟩
    rw [Tree.check, hroot]
    rfl
  | node red a e b =>
    refine ⟨n, ?_⟩
    have hred : t.isRed (some e.1) = false := hs.tree.isRed_eq.trans hblack
    rw [Tree.check, hroot, ptr]
    simp only [hred, Bool.false_eq_true]
    exact checkFrom_spec hs.tree hbal rfl (horder ▸ hfuel)

/-! ## The traversal -/

/-- The climb of `ds_tree_node_next` ends at the next element outside the subtree. -/
theorem Zip.climb (h : Zip t l p s) (hx : ptr s = some x) (hfuel : p.length < fuel) :
    t.climb true fuel x = some ((Rb.after p).head?.map Prod.fst) := by
  induction p generalizing s x fuel with
  | nil =>
    obtain ⟨fuel, rfl⟩ : ∃ k, fuel = k + 1 := ⟨fuel - 1, by omega⟩
    rw [Tree.climb, h.parent_eq hx]
    rfl
  | cons f p ih =>
    obtain ⟨fuel, rfl⟩ : ∃ k, fuel = k + 1 := ⟨fuel - 1, by omega⟩
    have hdir : ((t.heap f.elt.1).child true == some x) = f.dir := h.dirOf_eq hx
    rw [Tree.climb, h.parent_eq hx, above]
    simp only [hdir]
    cases hd : f.dir with
    | true =>
      rw [if_pos rfl, Rb.after, hd]
      exact ih h.up (ptr_join ..) (by simpa using hfuel)
    | false =>
      rw [Rb.after, hd]
      rfl

omit [DecidableEq α] in
theorem Zip.nodeMin (h : Zip t l p s) (hfuel : s.toList.length ≤ fuel) :
    t.nodeMin fuel (ptr s) = some (s.toList.head?.map Prod.fst) := by
  cases hs : ptr s with
  | none =>
    cases s with
    | leaf => rfl
    | node red a e b => simp [ptr] at hs
  | some z =>
    obtain ⟨q, red, y, b, hrun, rfl, hq⟩ := h.follow (d := false) hs hfuel
    rw [Tree.nodeMin, hrun, Rb.toList_plug, Rb.before_eq_nil hq, Rb.Tree.toList_join]
    rfl

omit [DecidableEq α] in
theorem RedBlack.focus {x : α × κ} (h : RedBlack t (l1 ++ x :: l2)) :
    ∃ p red a b, Zip t (l1 ++ x :: l2) p (.node red a x b) ∧
      l1 = Rb.before p ++ a.toList ∧ l2 = b.toList ++ Rb.after p := by
  obtain ⟨s, -, hs, -, -⟩ := h
  have hmem : x ∈ s.toList := by
    rw [show s.toList = l1 ++ x :: l2 from hs.order]
    exact mem_append_right _ mem_cons_self
  obtain ⟨p, red, a, b, rfl⟩ := Rb.exists_plug_of_mem hmem
  have hzip : Zip t (l1 ++ x :: l2) p (.node red a x b) := by simpa using hs.descend
  have horder : l1 ++ x :: l2 = (Rb.before p ++ a.toList) ++ x :: (b.toList ++ Rb.after p) := by
    rw [← hzip.order, Rb.toList_plug]
    simp [Rb.Tree.toList]
  have hnodup := (List.Nodup.of_map _ hzip.nodup)
  rw [nodup_middle, nodup_cons, mem_append, not_or] at hnodup
  obtain ⟨h1, -, h2⟩ := (append_cons_inj_of_notMem hnodup.1.1 hnodup.1.2).mp horder
  exact ⟨p, red, a, b, hzip, h1, h2⟩

theorem RedBlack.nodeNext {x : α × κ} (h : RedBlack t (l1 ++ x :: l2))
    (hfuel : (l1 ++ x :: l2).length ≤ fuel) :
    t.nodeNext fuel x.1 = some (l2.head?.map Prod.fst) := by
  obtain ⟨p, red, a, b, hzip, -, rfl⟩ := h.focus
  have hlen := Rb.length_le_plug p (.node red a x b)
  rw [hzip.order, Rb.Tree.toList, length_append, length_cons] at hlen
  have hchild : (t.heap x.1).child true = ptr b := by
    rw [hzip.tree.1]
    rfl
  rw [Tree.nodeNext, hchild]
  cases b with
  | leaf => exact hzip.climb rfl (by omega)
  | node red' c y c' =>
    have hdown : Zip t _ (⟨true, red, x, a⟩ :: p) (.node red' c y c') := Zip.down (d := true) hzip
    refine (hdown.nodeMin (by omega)).trans ?_
    rw [head?_append_of_ne_nil]
    simp [Rb.Tree.toList]

theorem RedBlack.walkFrom {steps : Nat} (h : RedBlack t (l1 ++ l2))
    (hsteps : (l1 ++ l2).length ≤ steps) (hfuel : l2.length ≤ fuel) :
    t.walkFrom steps fuel (l2.head?.map Prod.fst) = some (l2.map Prod.fst) := by
  induction l2 generalizing l1 fuel with
  | nil => rw [head?_nil, map_none, Tree.walkFrom, map_nil]
  | cons x l2 ih =>
    obtain ⟨fuel, rfl⟩ : ∃ k, fuel = k + 1 := ⟨fuel - 1, by simp at hfuel; omega⟩
    have happ : l1 ++ x :: l2 = (l1 ++ [x]) ++ l2 := by simp
    have hrest := ih (happ ▸ h) (happ ▸ hsteps) (Nat.le_of_succ_le_succ hfuel)
    rw [head?_cons, map_some, Tree.walkFrom, h.nodeNext hsteps]
    simp only [bind_eq_bind, bind_some, hrest]
    rfl

omit [DecidableEq α] in
theorem RedBlack.nodeMin (h : RedBlack t l) (hfuel : l.length ≤ fuel) :
    t.nodeMin fuel t.root = some (l.head?.map Prod.fst) := by
  obtain ⟨s, -, hs, -, -⟩ := h
  have horder : s.toList = l := hs.order
  rw [show t.root = ptr s from hs.path, hs.nodeMin (horder ▸ hfuel), horder]

/-- `ds_tree_foreach` visits the elements in order. -/
theorem RedBlack.walk (h : RedBlack t l) (hfuel : l.length ≤ fuel) :
    t.walk fuel = some (l.map Prod.fst) := by
  rw [Tree.walk, h.nodeMin hfuel]
  exact RedBlack.walkFrom (nil_append l ▸ h) (nil_append l ▸ hfuel) hfuel

/-! ## The lookup -/

/-- Where a lookup for `key` ends without a result: between an element below the key and one above
it. -/
structure Gap (cmp : κ → κ → Int) (key : κ) (l1 l2 : List (α × κ)) : Prop where
  left : ∀ y, l1.getLast? = some y → cmp y.2 key < 0
  right : ∀ y, l2.head? = some y → 0 < cmp y.2 key

/-- What a lookup for `key` returns. -/
def Lookup (cmp : κ → κ → Int) (key : κ) (l : List (α × κ)) (r : Option α) : Prop :=
  (∃ x ∈ l, cmp x.2 key = 0 ∧ r = some x.1) ∨ (r = none ∧ ∃ l1 l2, l = l1 ++ l2 ∧ Gap cmp key l1 l2)

omit [DecidableEq α] in
theorem Zip.findFrom {cmp : κ → κ → Int} {key : κ} (h : Zip t l p s)
    (hp : ∀ f ∈ p, cmp f.elt.2 key ≠ 0 ∧ f.dir = decide (cmp f.elt.2 key < 0))
    (hfuel : s.height ≤ fuel) :
    ∃ r, t.findFrom cmp key fuel (ptr s) = some r ∧ Lookup cmp key l r := by
  induction s generalizing p fuel with
  | leaf =>
    refine ⟨none, by rw [ptr, Tree.findFrom], .inr ⟨rfl, _, _, h.order_leaf, ?_, ?_⟩⟩
    · intro y hy
      obtain ⟨f, hf, hdir, rfl⟩ := Rb.getLast?_before hy
      simpa [hdir] using (hp f hf).2
    intro y hy
    obtain ⟨f, hf, hdir, rfl⟩ := Rb.head?_after hy
    obtain ⟨hne, hside⟩ := hp f hf
    rw [hdir] at hside
    have := of_decide_eq_false hside.symm
    omega
  | node red a e b iha ihb =>
    rw [Rb.Tree.height] at hfuel
    obtain ⟨fuel, rfl⟩ : ∃ k, fuel = k + 1 := ⟨fuel - 1, by omega⟩
    have hkey : (t.heap e.1).key = e.2 := by rw [h.tree.1]
    have hmem : e ∈ l := by
      rw [← h.order, Rb.toList_plug]
      simp [Rb.Tree.toList]
    rw [ptr, Tree.findFrom, hkey]
    by_cases hzero : cmp e.2 key = 0
    · exact ⟨some e.1, if_pos hzero, .inl ⟨e, hmem, hzero, rfl⟩⟩
    have hpath : ∀ d c, d = decide (cmp e.2 key < 0) →
        ∀ f ∈ (⟨d, red, e, c⟩ :: p : Rb.Path (α × κ)),
          cmp f.elt.2 key ≠ 0 ∧ f.dir = decide (cmp f.elt.2 key < 0) := by
      rintro d c hd f (_ | ⟨_, hf⟩)
      · exact ⟨hzero, hd⟩
      · exact hp f hf
    simp only [hzero]
    cases hd : decide (cmp e.2 key < 0) with
    | true =>
      have hlen : b.height ≤ fuel := by omega
      obtain ⟨r, hrun, hr⟩ := ihb (Zip.down (d := true) h) (hpath true a hd.symm) hlen
      refine ⟨r, ?_, hr⟩
      rw [h.tree.1]
      exact hrun
    | false =>
      have hlen : a.height ≤ fuel := by omega
      obtain ⟨r, hrun, hr⟩ := iha (Zip.down (d := false) h) (hpath false b hd.symm) hlen
      refine ⟨r, ?_, hr⟩
      rw [h.tree.1]
      exact hrun

omit [DecidableEq α] in
theorem RedBlack.find (h : RedBlack t l) (cmp : κ → κ → Int) (key : κ) (hfuel : l.length ≤ fuel) :
    ∃ r, t.find cmp fuel key = some r ∧ Lookup cmp key l r := by
  obtain ⟨s, -, hs, -, -⟩ := h
  have horder : s.toList = l := hs.order
  rw [Tree.find, show t.root = ptr s from hs.path]
  exact hs.findFrom (by simp) (Nat.le_trans s.height_le_length (horder ▸ hfuel))

omit [DecidableEq α] in
/-- A lookup looks at one node of each level. -/
theorem RedBlack.find_log (h : RedBlack t l) (cmp : κ → κ → Int) (key : κ) :
    (t.find cmp (2 * (l.length + 1).log2) key).isSome := by
  obtain ⟨s, n, hs, hblack, hbal⟩ := h
  have hheight := hbal.height_le
  have hn : n ≤ (l.length + 1).log2 :=
    (Nat.le_log2 (Nat.succ_ne_zero _)).mpr ((show s.toList = l from hs.order) ▸ hbal.two_pow_le)
  rw [hblack, Bool.toNat_false] at hheight
  rw [Tree.find, show t.root = ptr s from hs.path]
  obtain ⟨r, hr, -⟩ := hs.findFrom (by simp) (show s.height ≤ 2 * (l.length + 1).log2 by omega)
  exact isSome_of_eq_some hr

end OpenSync.Ds.Tree
