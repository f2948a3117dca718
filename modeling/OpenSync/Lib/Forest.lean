import Mathlib.Data.List.Nodup
import Mathlib.Data.List.Perm.Basic

/-!
# Ordered forests and their walks

A forest is a list of trees, each with the forest of its children.  A node of a forest is named
with the values above it, its parent first, and the forest below it.

A walk calls a function when it enters a node and again when it leaves it, and does not go below a
node where the call on entry fails.  Where no call fails, a walk whose function only acts on entry
is a fold over the nodes in the order `pre`, and one that only acts on leaving is a fold over the
nodes in the order `post`, with every node after those below it.
-/

namespace OpenSync.Lib

open List

/-- A list of trees, each with its children. -/
inductive Forest (α : Type*) where
  | nil
  | cons (val : α) (below next : Forest α)

/-- A node: its value, the values above it with the nearest first, and its children. -/
structure Node (α : Type*) where
  val : α
  above : List α
  below : Forest α

variable {α σ : Type*}

def Node.parent (n : Node α) : Option α := n.above.head?

/-- The value of the node, of its parent, and so on to the top. -/
def Node.path (n : Node α) : List α := n.val :: n.above

namespace Forest

/-- The nodes of a forest below the values `above`, each before those below it. -/
def pre (above : List α) : Forest α → List (Node α)
  | nil => []
  | cons a below next => ⟨a, above, below⟩ :: (below.pre (a :: above) ++ next.pre above)

/-- The nodes of a forest below the values `above`, each after those below it. -/
def post (above : List α) : Forest α → List (Node α)
  | nil => []
  | cons a below next => below.post (a :: above) ++ ⟨a, above, below⟩ :: next.post above

def vals : Forest α → List α
  | nil => []
  | cons a below next => a :: (below.vals ++ next.vals)

theorem map_val_pre (f : Forest α) (above : List α) : (f.pre above).map Node.val = f.vals := by
  induction f generalizing above with
  | nil => rfl
  | cons a below next ihb ihn => simp [pre, vals, ihb, ihn]

theorem post_perm (f : Forest α) (above : List α) : (f.post above).Perm (f.pre above) := by
  induction f generalizing above with
  | nil => exact .nil
  | cons a below next ihb ihn =>
    exact perm_middle.trans ((((ihb _).append (ihn _))).cons _)

variable {f : Forest α} {above : List α} {n : Node α}

section

variable (h : n ∈ f.pre above)

include h

theorem mem_vals : n.val ∈ f.vals := by
  rw [← map_val_pre f above]
  exact mem_map_of_mem h

/-- A node is at the top of the forest, or the child of another node. -/
theorem pre_parent : n.above = above ∨
      ∃ p ∈ f.pre above, n.above = p.path ∧ n ∈ p.below.pre p.path := by
  induction f generalizing above with
  | nil => cases h
  | cons a below next ihb ihn =>
    rcases mem_cons.mp h with rfl | h
    · exact .inl rfl
    rcases mem_append.mp h with h' | h'
    · rcases ihb h' with top | ⟨p, hp, eq, mem⟩
      · exact .inr ⟨⟨a, above, below⟩, mem_cons_self, top, h'⟩
      · exact .inr ⟨p, mem_cons_of_mem _ (mem_append_left _ hp), eq, mem⟩
    · rcases ihn h' with top | ⟨p, hp, eq, mem⟩
      · exact .inl top
      · exact .inr ⟨p, mem_cons_of_mem _ (mem_append_right _ hp), eq, mem⟩

omit h in
/-- A node below a node of the forest is a node of the forest. -/
theorem pre_trans {m : Node α} (hn : n ∈ f.pre above) (hm : m ∈ n.below.pre n.path) :
    m ∈ f.pre above := by
  induction f generalizing above with
  | nil => cases hn
  | cons a below next ihb ihn =>
    refine mem_cons_of_mem _ (mem_append.mpr ?_)
    rcases mem_cons.mp hn with rfl | hn
    · exact .inl hm
    · exact (mem_append.mp hn).imp ihb ihn

/-- What is above a node is in the forest, or above the forest. -/
theorem mem_above {x : α} (hx : x ∈ n.above) : x ∈ above ∨ x ∈ f.vals := by
  induction f generalizing above with
  | nil => cases h
  | cons a below next ihb ihn =>
    rcases mem_cons.mp h with rfl | h
    · exact .inl hx
    rcases mem_append.mp h with h | h
    · rcases ihb h with hx | hx
      · rcases mem_cons.mp hx with rfl | hx
        · exact .inr mem_cons_self
        · exact .inl hx
      · exact .inr (mem_cons_of_mem _ (mem_append_left _ hx))
    · exact (ihn h).imp_right fun hx => mem_cons_of_mem _ (mem_append_right _ hx)

theorem above_subset : above ⊆ n.above := by
  induction f generalizing above with
  | nil => cases h
  | cons a below next ihb ihn =>
    rcases mem_cons.mp h with rfl | h
    · exact List.Subset.refl _
    rcases mem_append.mp h with h | h
    · exact fun x hx => ihb h (mem_cons_of_mem _ hx)
    · exact ihn h

end

theorem cons_parts {a : α} {below next : Forest α} (nodup : (cons a below next).vals.Nodup)
    (disj : above.Disjoint (cons a below next).vals) :
    a ∉ above ∧ a ∉ next.vals ∧ below.vals.Nodup ∧ next.vals.Nodup ∧
      (a :: above).Disjoint below.vals ∧ above.Disjoint next.vals ∧
      below.vals.Disjoint next.vals := by
  simp only [vals, nodup_cons, nodup_append', mem_append, not_or, disjoint_cons_left,
    disjoint_cons_right, disjoint_append_right] at *
  tauto

theorem val_not_mem_above (nodup : f.vals.Nodup) (disj : above.Disjoint f.vals)
    (h : n ∈ f.pre above) : n.val ∉ n.above := by
  induction f generalizing above with
  | nil => cases h
  | cons a below next ihb ihn =>
    obtain ⟨hda, -, hb, hn, hab, hdn, -⟩ := cons_parts nodup disj
    rcases mem_cons.mp h with rfl | h
    · exact hda
    rcases mem_append.mp h with h | h
    · exact ihb hb hab h
    · exact ihn hn hdn h

/-- In the order `pre` no node comes after one below it. -/
theorem pre_pairwise (nodup : f.vals.Nodup) (disj : above.Disjoint f.vals) :
    (f.pre above).Pairwise fun m n => n.val ∉ m.above := by
  induction f generalizing above with
  | nil => exact .nil
  | cons a below next ihb ihn =>
    obtain ⟨hda, ha, hb, hn, hab, hdn, hbn⟩ := cons_parts nodup disj
    refine pairwise_cons.mpr ⟨?_, pairwise_append.mpr ⟨ihb hb hab, ihn hn hdn, ?_⟩⟩
    · intro n mem hx
      rcases mem_append.mp mem with mem | mem
      · exact hab (mem_cons_of_mem a hx) (mem_vals mem)
      · exact hdn hx (mem_vals mem)
    · intro m hm n hn' hx
      rcases mem_above hm hx with hx | hx
      · rcases mem_cons.mp hx with hx | hx
        · exact ha (hx ▸ mem_vals hn')
        · exact hdn hx (mem_vals hn')
      · exact hbn hx (mem_vals hn')

/-- In the order `post` no node comes before one below it. -/
theorem post_pairwise (nodup : f.vals.Nodup) (disj : above.Disjoint f.vals) :
    (f.post above).Pairwise fun m n => m.val ∉ n.above := by
  induction f generalizing above with
  | nil => exact .nil
  | cons a below next ihb ihn =>
    obtain ⟨hda, ha, hb, hn, hab, hdn, hbn⟩ := cons_parts nodup disj
    have next_above : ∀ x, x ∉ above → x ∉ next.vals → ∀ n ∈ next.post above, x ∉ n.above := by
      intro x h1 h2 n mem hx
      exact (mem_above ((post_perm _ _).mem_iff.mp mem) hx).elim h1 h2
    refine pairwise_append.mpr ⟨ihb hb hab, pairwise_cons.mpr ⟨?_, ihn hn hdn⟩, ?_⟩
    · exact next_above a hda ha
    intro m hm n hn'
    have hm := mem_vals ((post_perm _ _).mem_iff.mp hm)
    have not_above : m.val ∉ above := fun h => hab (mem_cons_of_mem a h) hm
    rcases mem_cons.mp hn' with rfl | hn'
    · exact not_above
    · exact next_above _ not_above (hbn hm) n hn'

end Forest

/-! ## Walks -/

section Walk

variable (fn : Node α → Bool → σ → Bool × σ)

/-- Enter a node, walk below it, leave it.  A failed call ends the visit. -/
def visit (n : Node α) (walkBelow : σ → Bool × σ) (s : σ) : Bool × σ :=
  match fn n true s with
  | (false, s) => (false, s)
  | (true, s) =>
    match walkBelow s with
    | (false, s) => (false, s)
    | (true, s) => fn n false s

/-- Walk every tree of a forest, also after one has failed. -/
def Forest.walk (above : List α) : Forest α → σ → Bool × σ
  | nil, s => (true, s)
  | cons a below next, s =>
    let r := visit fn ⟨a, above, below⟩ (below.walk (a :: above)) s
    let r' := next.walk above r.2
    (r.1 && r'.1, r'.2)

/-- Walk a node and what is below it. -/
def Node.walk (n : Node α) (s : σ) : Bool × σ :=
  visit fn n (n.below.walk fn n.path) s

variable {fn}

variable {act : σ → Node α → σ}

/-- A walk whose function acts on entry only, and never fails. -/
theorem Forest.walk_enter (enter : ∀ n s, fn n true s = (true, act s n))
    (leave : ∀ n s, fn n false s = (true, s)) (f : Forest α) (above : List α) (s : σ) :
    f.walk fn above s = (true, (f.pre above).foldl act s) := by
  induction f generalizing above s with
  | nil => rfl
  | cons a below next ihb ihn =>
    simp [walk, visit, pre, enter, leave, ihb, ihn]

/-- A walk whose function acts on leaving only, and never fails. -/
theorem Forest.walk_leave (enter : ∀ n s, fn n true s = (true, s))
    (leave : ∀ n s, fn n false s = (true, act s n)) (f : Forest α) (above : List α) (s : σ) :
    f.walk fn above s = (true, (f.post above).foldl act s) := by
  induction f generalizing above s with
  | nil => rfl
  | cons a below next ihb ihn =>
    simp [walk, visit, post, enter, leave, ihb, ihn]

end Walk

/-- The nodes of a tree, each before those below it. -/
def Node.pre (n : Node α) : List (Node α) := n :: n.below.pre n.path

/-- The nodes of a tree, each after those below it. -/
def Node.post (n : Node α) : List (Node α) := n.below.post n.path ++ [n]

variable {fn : Node α → Bool → σ → Bool × σ} {act : σ → Node α → σ}

theorem Node.walk_enter (enter : ∀ n s, fn n true s = (true, act s n))
    (leave : ∀ n s, fn n false s = (true, s)) (n : Node α) (s : σ) :
    n.walk fn s = (true, n.pre.foldl act s) := by
  simp [walk, visit, pre, enter, leave, Forest.walk_enter enter leave]

theorem Node.walk_leave (enter : ∀ n s, fn n true s = (true, s))
    (leave : ∀ n s, fn n false s = (true, act s n)) (n : Node α) (s : σ) :
    n.walk fn s = (true, n.post.foldl act s) := by
  simp [walk, visit, post, enter, leave, Forest.walk_leave enter leave, foldl_append]

/-! ## Trees with distinct values -/

/-- A tree in which no value occurs twice. -/
structure Tree (α : Type*) where
  val : α
  below : Forest α
  nodup : (val :: below.vals).Nodup

namespace Tree

def root (t : Tree α) : Node α := ⟨t.val, [], t.below⟩

/-- The nodes, each before those below it. -/
def nodes (t : Tree α) : List (Node α) := t.root.pre

variable {t : Tree α} {n m p : Node α}

theorem nodes_eq (t : Tree α) : t.nodes = (Forest.cons t.val t.below .nil).pre [] := by
  simp [nodes, root, Node.pre, Node.path, Forest.pre]

theorem post_eq (t : Tree α) : t.root.post = (Forest.cons t.val t.below .nil).post [] := by
  simp [root, Node.post, Node.path, Forest.post]

theorem nodup_vals (t : Tree α) : (Forest.cons t.val t.below .nil).vals.Nodup := by
  simpa [Forest.vals] using t.nodup

theorem nodup_map_val (t : Tree α) : (t.nodes.map Node.val).Nodup := by
  rw [nodes_eq, Forest.map_val_pre]
  exact t.nodup_vals

theorem mem_post_iff : n ∈ t.root.post ↔ n ∈ t.nodes := by
  rw [post_eq, nodes_eq]
  exact (Forest.post_perm _ _).mem_iff

theorem nodup_map_val_post (t : Tree α) : (t.root.post.map Node.val).Nodup := by
  have h := t.nodup_map_val
  rw [nodes_eq] at h
  exact ((Forest.post_perm _ _).map _).nodup_iff.mpr h

section

variable (hn : n ∈ t.nodes)

include hn

theorem eq_of_val (hm : m ∈ t.nodes) (h : n.val = m.val) : n = m :=
  inj_on_of_nodup_map t.nodup_map_val hn hm h

theorem parent_mem : n.above = [] ∨ ∃ p ∈ t.nodes, n.above = p.path ∧ n ∈ p.pre := by
  rw [nodes_eq] at hn ⊢
  refine (Forest.pre_parent hn).imp_right ?_
  rintro ⟨p, hp, eq, mem⟩
  exact ⟨p, hp, eq, mem_cons_of_mem _ mem⟩

/-- What is above a node is the value of a node. -/
theorem above_mem {a : α} (ha : a ∈ n.above) : ∃ p ∈ t.nodes, p.val = a := by
  rw [nodes_eq] at hn ⊢
  have h := (Forest.mem_above hn ha).resolve_left not_mem_nil
  rw [← Forest.map_val_pre _ []] at h
  exact mem_map.mp h

theorem val_not_mem_above : n.val ∉ n.above := by
  rw [nodes_eq] at hn
  exact Forest.val_not_mem_above t.nodup_vals (disjoint_nil_left _) hn

theorem pre_subset (hm : m ∈ n.pre) : m ∈ t.nodes := by
  rcases mem_cons.mp hm with rfl | hm
  · exact hn
  · rw [nodes_eq] at hn ⊢
    exact Forest.pre_trans hn hm

/-- A node that has `n` on its path is below it. -/
theorem mem_pre (hm : m ∈ t.nodes) (h : n.val ∈ m.path) : m ∈ n.pre := by
  induction hl : m.above.length generalizing m with
  | zero =>
    rw [Node.path, length_eq_zero_iff.mp hl, mem_singleton] at h
    exact eq_of_val hn hm h ▸ mem_cons_self
  | succ k ih =>
    rcases mem_cons.mp h with h | h
    · exact eq_of_val hn hm h ▸ mem_cons_self
    rcases parent_mem hm with top | ⟨p, hp, eq, mem⟩
    · rw [top] at h
      cases h
    rw [eq] at h hl
    have hp' := ih hp h (Nat.succ.inj hl)
    rcases mem_cons.mp mem with rfl | mem
    · exact hp'
    rcases mem_cons.mp hp' with rfl | hp'
    · exact mem_cons_of_mem _ mem
    · exact mem_cons_of_mem _ (Forest.pre_trans hp' mem)

/-- The nodes below a node are those that have it on their path. -/
theorem mem_map_pre_iff (hm : m ∈ t.nodes) : m.val ∈ n.pre.map Node.val ↔ n.val ∈ m.path := by
  refine ⟨fun h => ?_, fun h => mem_map_of_mem (mem_pre hn hm h)⟩
  obtain ⟨m', hm', val⟩ := mem_map.mp h
  obtain rfl := eq_of_val (pre_subset hn hm') hm val
  rcases mem_cons.mp hm' with rfl | hm'
  · exact mem_cons_self
  · exact mem_cons_of_mem _ (Forest.above_subset hm' mem_cons_self)

/-- The path of a node goes on with the path of each node on it. -/
theorem path_subset (hm : m ∈ t.nodes) (h : n.val ∈ m.path) : n.path ⊆ m.path := by
  rcases mem_cons.mp (mem_pre hn hm h) with rfl | mem
  · exact List.Subset.refl _
  · exact List.Subset.trans (Forest.above_subset mem) (subset_cons_self _ _)

end

variable {l₁ l₂ : List (Node α)}

/-- What is above a node comes before it in the order `pre`. -/
theorem mem_of_pre_split (split : t.nodes = l₁ ++ n :: l₂) (hp : p ∈ t.nodes)
    (h : p.val ∈ n.above) : p ∈ l₁ := by
  have pairs := Forest.pre_pairwise t.nodup_vals (disjoint_nil_left _)
  rw [← nodes_eq, split, pairwise_append, pairwise_cons] at pairs
  rw [split] at hp
  rcases mem_append.mp hp with hp | hp
  · exact hp
  rcases mem_cons.mp hp with rfl | hp
  · exact absurd h (val_not_mem_above (t := t) (split ▸ mem_append_right _ mem_cons_self))
  · exact absurd h (pairs.2.1.1 p hp)

/-- What is below a node comes before it in the order `post`. -/
theorem mem_of_post_split (split : t.root.post = l₁ ++ n :: l₂) (hm : m ∈ t.nodes)
    (h : n.val ∈ m.above) : m ∈ l₁ := by
  have pairs := Forest.post_pairwise t.nodup_vals (disjoint_nil_left _)
  rw [← post_eq, split, pairwise_append, pairwise_cons] at pairs
  have hm' := mem_post_iff.mpr hm
  rw [split] at hm'
  rcases mem_append.mp hm' with hm' | hm'
  · exact hm'
  rcases mem_cons.mp hm' with rfl | hm'
  · exact absurd h (val_not_mem_above hm)
  · exact absurd h (pairs.2.1.1 m hm')

end Tree

/-- A fold keeps what each step carries from the elements so far to one more. -/
theorem foldl_prefixes {β : Type*} {act : σ → β → σ} {P : List β → σ → Prop} {l : List β} {s : σ}
    (init : P [] s)
    (step : ∀ l₁ x l₂ s, l = l₁ ++ x :: l₂ → P l₁ s → P (l₁ ++ [x]) (act s x)) :
    P l (l.foldl act s) := by
  have run : ∀ l₂ l₁ s, l = l₁ ++ l₂ → P l₁ s → P l (l₂.foldl act s) := by
    intro l₂
    induction l₂ with
    | nil =>
      intro l₁ s split h
      rw [split, append_nil]
      exact h
    | cons x l₂ ih =>
      intro l₁ s split h
      exact ih (l₁ ++ [x]) (act s x) (by simp [split]) (step l₁ x l₂ s split h)
  exact run l [] s rfl init

end OpenSync.Lib
