import OpenSync.Lib.Forest
import OpenSync.Lib.Keyed

/-!
# Changes of one node of a forest

A forest whose nodes have a key is changed at one node: the node is found by its key, and the
tree under it is replaced.  With distinct keys this moves nothing else (`put_split`), it
commutes with a map of the values (`map_put`), and it keeps a property of every node that looks
at a node and at the labels of its children only (`all_put`).
-/

namespace OpenSync.Lib.Forest

open List

variable {α β κ : Type*}

/-! ## The trees of a forest -/

/-- The trees of a forest: the value at the top of each, and what is below it. -/
def trees : Forest α → List (α × Forest α)
  | nil => []
  | cons a below next => (a, below) :: next.trees

def ofTrees : List (α × Forest α) → Forest α
  | [] => nil
  | t :: ts => cons t.1 t.2 (ofTrees ts)

@[simp] theorem trees_ofTrees (l : List (α × Forest α)) : (ofTrees l).trees = l := by
  induction l with
  | nil => rfl
  | cons t ts ih => rw [ofTrees, trees, ih]

@[simp] theorem ofTrees_trees (f : Forest α) : ofTrees f.trees = f := by
  induction f with
  | nil => rfl
  | cons a below next _ ihn => rw [trees, ofTrees, ihn]

def heads (f : Forest α) : List α := f.trees.map Prod.fst

attribute [local simp] vals

theorem vals_ofTrees (l : List (α × Forest α)) :
    (ofTrees l).vals = l.flatMap fun t => t.1 :: t.2.vals := by
  induction l with
  | nil => rfl
  | cons t ts ih => simp [ofTrees, ih]

/-! ## A property of every node -/

/-- Every node has the property, with what is below it. -/
def All (P : α → Forest α → Prop) : Forest α → Prop
  | nil => True
  | cons a below next => P a below ∧ below.All P ∧ next.All P

variable {P Q : α → Forest α → Prop}

theorem all_ofTrees {l : List (α × Forest α)} :
    (ofTrees l).All P ↔ ∀ t ∈ l, P t.1 t.2 ∧ t.2.All P := by
  induction l with
  | nil => simp [ofTrees, All]
  | cons t ts ih => simp [ofTrees, All, ih, and_assoc]

theorem all_iff {f : Forest α} : f.All P ↔ ∀ t ∈ f.trees, P t.1 t.2 ∧ t.2.All P := by
  rw [← all_ofTrees, ofTrees_trees]

theorem All.mono {f : Forest α} (h : f.All P) (sub : ∀ a b, P a b → Q a b) : f.All Q := by
  induction f with
  | nil => trivial
  | cons a below next ihb ihn => exact ⟨sub a below h.1, ihb h.2.1, ihn h.2.2⟩

/-! ## A map of the values -/

def map (g : α → β) : Forest α → Forest β
  | nil => nil
  | cons a below next => cons (g a) (below.map g) (next.map g)

/-- A tree with its values mapped. -/
def mapTree (g : α → β) (t : α × Forest α) : β × Forest β := (g t.1, t.2.map g)

theorem trees_map (g : α → β) (f : Forest α) : (f.map g).trees = f.trees.map (mapTree g) := by
  induction f with
  | nil => rfl
  | cons a below next _ ihn => rw [map, trees, trees, map_cons, ihn, mapTree]

theorem map_ofTrees (g : α → β) (l : List (α × Forest α)) :
    (ofTrees l).map g = ofTrees (l.map (mapTree g)) := by
  rw [← ofTrees_trees ((ofTrees l).map g), trees_map, trees_ofTrees]

/-! ## One node -/

section

variable [DecidableEq κ] (key : α → κ) (k : κ)

/-- The node with the key. -/
def find : Forest α → Option (α × Forest α)
  | nil => none
  | cons a below next => if key a = k then some (a, below) else below.find.or next.find

/-- The forest with another tree in the place of the node with the key. -/
def put (t : α × Forest α) : Forest α → Forest α
  | nil => nil
  | cons a below next =>
    if key a = k then cons t.1 t.2 (next.put t) else cons a (below.put t) (next.put t)

variable {key} {k} {f : Forest α} {t t' : α × Forest α}

theorem key_of_find (h : f.find key k = some t) : key t.1 = k := by
  induction f with
  | nil => cases h
  | cons a below next ihb ihn =>
    rw [find] at h
    split_ifs at h with ha
    · cases h
      exact ha
    · rcases Option.or_eq_some_iff.mp h with hb | ⟨-, hn⟩
      · exact ihb hb
      · exact ihn hn

theorem All.of_find (hall : f.All P) (h : f.find key k = some t) : P t.1 t.2 ∧ t.2.All P := by
  induction f with
  | nil => cases h
  | cons a below next ihb ihn =>
    rw [find] at h
    split_ifs at h with ha
    · cases h
      exact ⟨hall.1, hall.2.1⟩
    · rcases Option.or_eq_some_iff.mp h with hb | ⟨-, hn⟩
      · exact ihb hall.2.1 hb
      · exact ihn hall.2.2 hn

theorem put_of_not_mem (h : k ∉ f.vals.map key) : f.put key k t = f := by
  induction f with
  | nil => rfl
  | cons a below next ihb ihn =>
    simp only [vals, map_cons, map_append, mem_cons, mem_append, not_or] at h
    rw [put, if_neg (Ne.symm h.1), ihb h.2.1, ihn h.2.2]

/-- The values before, in and after the node, also with another tree in its place. -/
theorem put_split (nodup : (f.vals.map key).Nodup) (h : f.find key k = some t) :
    ∃ u v, f.vals = u ++ (t.1 :: t.2.vals) ++ v ∧
      ∀ t', (f.put key k t').vals = u ++ (t'.1 :: t'.2.vals) ++ v := by
  induction f with
  | nil => cases h
  | cons a below next ihb ihn =>
    simp only [vals, map_cons, map_append, nodup_cons, nodup_append, mem_append, not_or] at nodup
    obtain ⟨⟨hab, han⟩, hb, hn, hbn⟩ := nodup
    rw [find] at h
    split_ifs at h with ha
    · cases h
      refine ⟨[], next.vals, by simp, ?_⟩
      intro t'
      rw [put, if_pos ha, put_of_not_mem (ha ▸ han)]
      simp
    rcases Option.or_eq_some_iff.mp h with hfind | ⟨-, hfind⟩
    · obtain ⟨u, v, before, after⟩ := ihb hb hfind
      have mem : k ∈ below.vals.map key := by
        have hk := key_of_find hfind
        rw [before]
        simp [hk]
      have hnot : k ∉ next.vals.map key := fun hm => hbn k mem k hm rfl
      refine ⟨a :: u, v ++ next.vals, by simp [before], ?_⟩
      intro t'
      rw [put, if_neg ha, put_of_not_mem hnot, vals, after]
      simp
    · obtain ⟨u, v, before, after⟩ := ihn hn hfind
      have mem : k ∈ next.vals.map key := by
        have hk := key_of_find hfind
        rw [before]
        simp [hk]
      have hnot : k ∉ below.vals.map key := fun hm => hbn k hm k mem rfl
      refine ⟨a :: (below.vals ++ u), v, by simp [before], ?_⟩
      intro t'
      rw [put, if_neg ha, put_of_not_mem hnot, vals, after]
      simp

theorem find_map {key' : β → κ} {g : α → β} (hkey : ∀ a, key' (g a) = key a) :
    (f.map g).find key' k = (f.find key k).map (mapTree g) := by
  induction f with
  | nil => rfl
  | cons a below next ihb ihn =>
    rw [map, find, find, hkey, ihb, ihn]
    split_ifs
    · rfl
    · cases below.find key k <;> rfl

theorem map_put {key' : β → κ} {g : α → β} (hkey : ∀ a, key' (g a) = key a) :
    (f.put key k t).map g = (f.map g).put key' k (mapTree g t) := by
  induction f with
  | nil => rfl
  | cons a below next ihb ihn =>
    rw [map, put, put, hkey]
    split_ifs
    · rw [map, ihn, mapTree]
    · rw [map, ihb, ihn]

/-- A property of every node after the change is one of the new tree. -/
theorem All.of_put (h : f.find key k = some t) (hall : (f.put key k t').All P) : P t'.1 t'.2 := by
  induction f with
  | nil => cases h
  | cons a below next ihb ihn =>
    rw [find] at h
    rw [Forest.put] at hall
    split_ifs at h hall with ha
    · exact hall.1
    · rcases Option.or_eq_some_iff.mp h with hb | ⟨-, hn⟩
      · exact ihb hb hall.2.1
      · exact ihn hn hall.2.2

/-- The labels at the top stay, if the new tree has the label of the old one. -/
theorem heads_put {ρ : Type*} {label : α → ρ}
    (hlabel : ∀ a ∈ f.vals, key a = k → label a = label t.1) :
    (f.put key k t).heads.map label = f.heads.map label := by
  induction f with
  | nil => rfl
  | cons a below next _ ihn =>
    have hnext := ihn fun x hx => hlabel x (by simp [hx])
    simp only [heads] at hnext ⊢
    rw [put]
    split_ifs with ha
    · simp [trees, hnext, hlabel a (by simp) ha]
    · simp [trees, hnext]

/-- A property of every node is kept, if it looks at a node and the labels of its children, and the
new tree has it and the old label. -/
theorem All.put {ρ : Type*} {label : α → ρ} (hall : f.All P)
    (hP : ∀ a b b', b'.heads.map label = b.heads.map label → P a b → P a b')
    (hlabel : ∀ a ∈ f.vals, key a = k → label a = label t.1) (ht : P t.1 t.2 ∧ t.2.All P) :
    (f.put key k t).All P := by
  induction f with
  | nil => trivial
  | cons a below next ihb ihn =>
    have hbelow : ∀ x ∈ below.vals, key x = k → label x = label t.1 := fun x hx =>
      hlabel x (by simp [hx])
    have hnext : ∀ x ∈ next.vals, key x = k → label x = label t.1 := fun x hx =>
      hlabel x (by simp [hx])
    rw [Forest.put]
    split_ifs with ha
    · exact ⟨ht.1, ht.2, ihn hall.2.2 hnext⟩
    · exact ⟨hP a below _ (heads_put hbelow) hall.1, ihb hall.2.1 hbelow, ihn hall.2.2 hnext⟩

end

/-! ## A tree taken out -/

section

variable [DecidableEq κ] (key : α → κ) (k : κ)

/-- The tree at the top with the key, and the forest without it. -/
def takeTree (f : Forest α) : Option ((α × Forest α) × Forest α) :=
  (findKey (fun t : α × Forest α => key t.1) f.trees k).map fun t =>
    (t, ofTrees (f.trees.filter fun t => key t.1 ≠ k))

/-- The forest after a change of the node with the key, which may fail. -/
def edit (g : α × Forest α → Option (α × Forest α)) (f : Forest α) : Option (Forest α) :=
  (f.find key k).bind fun t => (g t).map fun t' => f.put key k t'

variable {key} {k} {f : Forest α} {t : α × Forest α} {rest : Forest α}

theorem takeTree_eq_some_iff : f.takeTree key k = some (t, rest) ↔
    findKey (fun t : α × Forest α => key t.1) f.trees k = some t ∧
      rest = ofTrees (f.trees.filter fun t => key t.1 ≠ k) := by
  rw [takeTree, Option.map_eq_some_iff]
  constructor
  · rintro ⟨t', h, e⟩
    cases e
    exact ⟨h, rfl⟩
  · rintro ⟨h, rfl⟩
    exact ⟨t, h, rfl⟩

theorem vals_takeTree (nodup : (f.vals.map key).Nodup) (h : f.takeTree key k = some (t, rest)) :
    f.vals.Perm (t.1 :: t.2.vals ++ rest.vals) := by
  obtain ⟨hfind, rfl⟩ := takeTree_eq_some_iff.mp h
  have heads : (f.trees.map fun t => key t.1).Nodup := by
    have sub : (f.trees.map fun t => t.1).Sublist f.vals := by
      clear nodup h hfind
      induction f with
      | nil => exact List.Sublist.slnil
      | cons a below next _ ihn =>
        exact (ihn.trans (sublist_append_right _ _)).cons_cons a
    have mapped := sub.map key
    rw [map_map] at mapped
    exact nodup.sublist mapped
  have perm := (perm_cons_of_findKey heads hfind).flatMap_right fun t => t.1 :: t.2.vals
  rwa [← vals_ofTrees, ofTrees_trees, ← vals_ofTrees] at perm

theorem All.takeTree (hall : f.All P) (h : f.takeTree key k = some (t, rest)) :
    (P t.1 t.2 ∧ t.2.All P) ∧ rest.All P := by
  obtain ⟨hfind, rfl⟩ := takeTree_eq_some_iff.mp h
  refine ⟨all_iff.mp hall t (mem_of_findKey hfind), all_ofTrees.mpr ?_⟩
  intro x hx
  exact all_iff.mp hall x (mem_of_mem_filter hx)

theorem takeTree_map {key' : β → κ} {g : α → β} (hkey : ∀ a, key' (g a) = key a) :
    (f.map g).takeTree key' k = (f.takeTree key k).map fun r => (mapTree g r.1, r.2.map g) := by
  have hfind : findKey (fun t : β × Forest β => key' t.1) (f.trees.map (mapTree g)) k =
      (findKey (fun t : α × Forest α => key t.1) f.trees k).map (mapTree g) := by
    rw [findKey, findKey, find?_map]
    simp [Function.comp_def, mapTree, hkey]
  rw [takeTree, takeTree, trees_map, hfind, filter_map, ← map_ofTrees]
  simp [Function.comp_def, mapTree, hkey]

end

end OpenSync.Lib.Forest
