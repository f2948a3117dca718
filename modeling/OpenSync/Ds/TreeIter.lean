import OpenSync.Ds.TreeRefine

/-!
# Iteration with removal

`ds_tree_foreach_iter` walks over a tree and lets the loop remove the current element with
`ds_tree_iremove`.  The iterator has the next element before the current one is removed.  Removal
rotates the tree and may put the predecessor into the place of the removed node, but it keeps the
order of the elements, so the saved element stays the next one.
-/

namespace OpenSync.Ds.Tree

open OpenSync.Lib List Prod

variable {α κ : Type} [DecidableEq α]

/-! ## The iterator -/

/-- `struct ds_tree_iter`. -/
structure Iter (α : Type) where
  curr : Option α
  next : Option α
  ndel : UInt32

/-- `ds_tree_ifirst`.  The element that it returns is `oti_curr`. -/
def ifirst (fuel : Nat) (t : Tree α κ) : Option (Iter α) := do
  match ← t.nodeMin fuel t.root with
  | none => return ⟨none, none, t.ndel⟩
  | some curr => return ⟨some curr, ← t.nodeNext fuel curr, t.ndel⟩

/-- `ds_tree_inext`; `none` stands for `DS_ITER_ERROR` as well. -/
def inext (fuel : Nat) (t : Tree α κ) (iter : Iter α) : Option (Iter α) := do
  if iter.ndel ≠ t.ndel then none
  else
    match iter.next with
    | none => return { iter with curr := none }
    | some curr => return { iter with curr := some curr, next := ← t.nodeNext fuel curr }

/-- `ds_tree_iremove`. -/
def iremove (fuel : Nat) (t : Tree α κ) (iter : Iter α) : Option (Tree α κ × Iter α) := do
  if iter.ndel ≠ t.ndel then none
  else
    match iter.curr with
    | none => return (t, iter)
    | some curr =>
      return (← t.remove fuel curr, { iter with curr := none, ndel := iter.ndel + 1 })

/-- The loop of `ds_tree_foreach_iter` with a body that removes the elements in `S`: the elements
visited and the tree left. -/
def iterLoop (steps : Nat) (S : α → Bool) :
    Nat → Tree α κ → Iter α → Option (List α × Tree α κ)
  | 0, _, _ => none
  | fuel + 1, t, iter =>
    match iter.curr with
    | none => some ([], t)
    | some x => do
      let (t, iter) ← if S x then t.iremove steps iter else some (t, iter)
      let iter ← t.inext steps iter
      let (xs, t) ← iterLoop steps S fuel t iter
      return (x :: xs, t)

/-- `ds_tree_foreach_iter` over the whole tree. -/
def iterate (fuel : Nat) (S : α → Bool) (t : Tree α κ) : Option (List α × Tree α κ) := do
  let iter ← t.ifirst fuel
  iterLoop fuel S fuel t iter

/-! ## The loop -/

variable {t : Tree α κ} {l : List (α × κ)} {fuel : Nat}

/-- The iterator stands at the first of the elements `rest`. -/
structure At (t : Tree α κ) (rest : List (α × κ)) (iter : Iter α) : Prop where
  curr : iter.curr = rest.head?.map Prod.fst
  next : iter.next = rest.tail.head?.map Prod.fst
  ndel : iter.ndel = t.ndel

theorem RedBlack.ifirst (h : RedBlack t l) (hfuel : l.length ≤ fuel) :
    ∃ iter, t.ifirst fuel = some iter ∧ At t l iter := by
  have hhead : t.nodeMin fuel t.root = some (l.head?.map fst) := h.nodeMin hfuel
  cases l with
  | nil => exact ⟨⟨none, none, t.ndel⟩, by simp [Tree.ifirst, hhead], rfl, rfl, rfl⟩
  | cons x l =>
    have hnext := RedBlack.nodeNext (show RedBlack t ([] ++ x :: l) from h) hfuel
    exact ⟨⟨some x.1, l.head?.map fst, t.ndel⟩, by simp [Tree.ifirst, hhead, hnext], rfl, rfl,
      rfl⟩

variable {kept rest : List (α × κ)} {iter : Iter α}

/-- The step to the next element, when `kept` and `rest` are in the tree. -/
theorem RedBlack.inext (h : RedBlack t (kept ++ rest))
    (hnext : iter.next = rest.head?.map Prod.fst) (hndel : iter.ndel = t.ndel)
    (hfuel : (kept ++ rest).length ≤ fuel) :
    ∃ iter', t.inext fuel iter = some iter' ∧ At t rest iter' := by
  cases rest with
  | nil => exact ⟨{ iter with curr := none }, by simp [Tree.inext, hndel, hnext], rfl, hnext, hndel⟩
  | cons x rest =>
    exact ⟨{ iter with curr := some x.1, next := rest.head?.map fst },
      by simp [Tree.inext, hndel, hnext, h.nodeNext hfuel], rfl, rfl, hndel⟩

theorem RedBlack.iremove {x : α × κ} (h : RedBlack t (kept ++ x :: rest))
    (hat : At t (x :: rest) iter) (hfuel : (kept ++ x :: rest).length ≤ fuel) :
    ∃ t' iter', t.iremove fuel iter = some (t', iter') ∧ RedBlack t' (kept ++ rest) ∧
      iter'.next = rest.head?.map Prod.fst ∧ iter'.ndel = t'.ndel := by
  obtain ⟨t', l1, l2, hrun, hsplit, hrb, -, hndel⟩ :=
    remove_spec h (mem_append_right kept mem_cons_self) hfuel
  have hnodup := List.Nodup.of_map _ h.nodup
  rw [nodup_middle, nodup_cons, mem_append, not_or] at hnodup
  obtain ⟨rfl, -, rfl⟩ :=
    (append_cons_inj_of_notMem hnodup.1.1 hnodup.1.2).mp hsplit
  have hcurr : iter.curr = some x.1 := hat.curr
  refine ⟨t', { iter with curr := none, ndel := iter.ndel + 1 },
    by simp [Tree.iremove, hat.ndel, hcurr, hrun], hrb, hat.next, ?_⟩
  rw [hndel, hat.ndel]

/-- From an iterator at `rest` on the loop visits `rest` and removes what is in `S`. -/
theorem RedBlack.iterLoop {steps : Nat} {S : α → Bool} (h : RedBlack t (kept ++ rest))
    (hat : At t rest iter) (hsteps : (kept ++ rest).length ≤ steps) (hfuel : rest.length < fuel) :
    ∃ t', iterLoop steps S fuel t iter = some (rest.map Prod.fst, t') ∧
      RedBlack t' (kept ++ rest.filter fun x => !S x.1) := by
  induction rest generalizing t kept iter fuel with
  | nil =>
    obtain ⟨fuel, rfl⟩ : ∃ k, fuel = k + 1 := ⟨fuel - 1, by omega⟩
    have hcurr : iter.curr = none := hat.curr
    exact ⟨t, by simp [Tree.iterLoop, hcurr], h⟩
  | cons x rest ih =>
    obtain ⟨fuel, rfl⟩ : ∃ k, fuel = k + 1 := ⟨fuel - 1, by omega⟩
    have hfuel := Nat.lt_of_succ_lt_succ hfuel
    have hcurr : iter.curr = some x.1 := hat.curr
    have hlen : (kept ++ rest).length ≤ (kept ++ x :: rest).length := by simp
    by_cases hS : S x.1 = true
    · obtain ⟨t1, iter1, hremove, h1, hnext1, hndel1⟩ := h.iremove hat hsteps
      obtain ⟨iter2, hinext, hat2⟩ := h1.inext hnext1 hndel1 (hlen.trans hsteps)
      obtain ⟨t', hloop, h'⟩ := ih h1 hat2 (hlen.trans hsteps) hfuel
      refine ⟨t', ?_, ?_⟩
      · simp [Tree.iterLoop, hcurr, hS, hremove, hinext, hloop]
      · rwa [filter_cons_of_neg (by simp [hS])]
    · have happ : kept ++ x :: rest = (kept ++ [x]) ++ rest := by simp
      rw [happ] at h hsteps
      obtain ⟨iter2, hinext, hat2⟩ := h.inext hat.next hat.ndel hsteps
      obtain ⟨t', hloop, h'⟩ := ih h hat2 hsteps hfuel
      refine ⟨t', ?_, ?_⟩
      · simp [Tree.iterLoop, hcurr, hS, hinext, hloop]
      · rw [filter_cons_of_pos (by simp [hS])]
        simpa using h'

/-! ## Trees that were built -/

/-- The nodes of the tree are those of `m`; the comparator need not be an order. -/
def Built (t : Tree α κ) (m : List (α × κ)) : Prop := ∃ l, RedBlack t l ∧ l.Perm m

theorem Built.step {m : List (α × κ)} {op : Op α κ} (cmp : κ → κ → Int) (h : Built t m)
    (hok : op.Ok m) (hfuel : 2 * m.length + 2 ≤ fuel) :
    ∃ t', t.step cmp fuel op = some t' ∧ Built t' (op.apply m) := by
  obtain ⟨l, hrb, hperm⟩ := h
  rw [← hperm.length_eq] at hfuel
  cases op with
  | insert node key =>
    obtain ⟨t', l1, l2, hrun, rfl, -, hrb', -⟩ :=
      insert_spec cmp key hrb (mt (hperm.map fst).mem_iff.mp hok) hfuel
    exact ⟨t', hrun, _, hrb', perm_middle.trans (hperm.cons _)⟩
  | remove node =>
    obtain ⟨t', l', hrun, hrb', -, hperm'⟩ := hrb.remove hperm hok (by omega : l.length ≤ fuel)
    exact ⟨t', hrun, l', hrb', hperm'⟩

/-- On every tree that was built from an empty one, the loop visits each node once, in the order of
the tree and without an error, and leaves a red-black tree with the nodes that it did not remove. -/
theorem iterate_removes (cmp : κ → κ → Int) (heap : α → TreeNode α κ) (ops : List (Op α κ))
    (hops : Along Op.Ok [] ops) (hfuel : 2 * ops.length + 2 ≤ fuel) (S : α → Bool) :
    ∃ t xs t', (empty heap).run cmp fuel ops = some t ∧ t.walk fuel = some xs ∧ xs.Nodup ∧
      xs.Perm ((members [] ops).map Prod.fst) ∧ t.iterate fuel S = some (xs, t') ∧
      t'.walk fuel = some (xs.filter (!S ·)) ∧ (∃ l, RedBlack t' l) ∧
      ∃ n : Nat, t'.check fuel = some (n : Int) := by
  have hempty : Built (empty heap) [] := ⟨[], redBlack_empty heap, .refl _⟩
  have hmembers := length_members_le ([] : List (α × κ)) ops
  obtain ⟨t, hrun, l, hrb, hperm⟩ :=
    run_of_step (fun h hok => h.step cmp hok) hempty hops (by simpa using hfuel)
  have hlen : l.length < fuel := by
    rw [hperm.length_eq]
    simp only [length_nil] at hmembers
    omega
  obtain ⟨iter, hfirst, hat⟩ := hrb.ifirst hlen.le
  obtain ⟨t', hloop, hrb'⟩ :=
    RedBlack.iterLoop (S := S) (show RedBlack t ([] ++ l) from hrb) hat hlen.le hlen
  have hlen' : (l.filter fun x => !S x.1).length ≤ fuel :=
    (length_filter_le _ l).trans hlen.le
  refine ⟨t, l.map fst, t', hrun, hrb.walk hlen.le, hrb.nodup, hperm.map _, ?_, ?_,
    ⟨_, hrb'⟩, hrb'.check hlen'⟩
  · simp [Tree.iterate, hfirst, hloop]
  · rw [hrb'.walk hlen', filter_map]
    rfl

/-- Three nodes are inserted, and the loop removes the one in the middle. -/
theorem iterate_removes_middle :
    Along Op.Ok [] [.insert 0 (5 : Int), .insert 1 3, .insert 2 4] ∧
      ∃ t xs t', (empty (fun _ : Nat => freshNode (0 : Int))).run (· - ·) 8
          [.insert 0 5, .insert 1 3, .insert 2 4] = some t ∧ t.walk 8 = some xs ∧ xs.Nodup ∧
        xs.Perm ((members [] [.insert 0 (5 : Int), .insert 1 3, .insert 2 4]).map Prod.fst) ∧
        t.iterate 8 (· == 2) = some (xs, t') ∧ t'.walk 8 = some (xs.filter (!(· == 2) ·)) ∧
        (∃ l, RedBlack t' l) ∧ ∃ n : Nat, t'.check 8 = some (n : Int) := by
  have hops : Along Op.Ok [] [.insert 0 (5 : Int), .insert 1 3, .insert 2 4] := by
    simp [Along, Op.Ok, Op.apply]
  exact ⟨hops, iterate_removes _ _ _ hops (by decide) _⟩

/-- In every tree that was built from an empty one, whatever the comparator answers, a lookup ends
after at most twice as many nodes as the number of nodes has binary digits. -/
theorem find_logarithmic (cmp : κ → κ → Int) (heap : α → TreeNode α κ) (ops : List (Op α κ))
    (hops : Along Op.Ok [] ops) (hfuel : 2 * ops.length + 2 ≤ fuel) :
    ∃ t, (empty heap).run cmp fuel ops = some t ∧ ∀ key,
      (t.find cmp (2 * ((members [] ops).length + 1).log2) key).isSome := by
  have hempty : Built (empty heap) [] := ⟨[], redBlack_empty heap, .refl _⟩
  obtain ⟨t, hrun, l, hrb, hperm⟩ :=
    run_of_step (fun h hok => h.step cmp hok) hempty hops (by simpa using hfuel)
  exact ⟨t, hrun, fun key => hperm.length_eq ▸ hrb.find_log cmp key⟩

theorem find_logarithmic_three :
    ∃ t, (empty (fun _ : Nat => freshNode 0)).run (fun _ _ => 1) 8
        [.insert 0 5, .insert 1 3, .insert 2 4] = some t ∧
      ∀ key : Int, (t.find (fun _ _ => 1) 4 key).isSome :=
  find_logarithmic _ _ [.insert 0 5, .insert 1 3, .insert 2 4] (by simp [Along, Op.Ok, Op.apply])
    (by decide)

end OpenSync.Ds.Tree
