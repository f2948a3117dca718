import OpenSync.Ds.Ordered
import OpenSync.Lib.CString
import OpenSync.Lib.Keyed

/-!
# Tag lists

A tag list (`policy_tag_list.c`) is a `ds_tree` of values with flags.  The tree takes an entry with
a value that it already has, and a search in such a tree gives one of the entries with the value,
depending on the shape of the tree.  `Finder` is such a search.

`om_tag_list_apply_diff` applies the difference that `om_tag_list_diff` finds; both identify an
entry by its value.  On lists with distinct values `applyDiff_look` proves that this turns the old
list into the new one.
-/

namespace OpenSync.Tags

open OpenSync.Lib List Option

/-- Values, and the names of tags and groups. -/
abbrev Name := CStr

/-- `om_tag_list_entry_t`. -/
structure Entry where
  value : Name
  flags : UInt8
deriving DecidableEq

def flagDevice : UInt8 := 1
def flagLocal : UInt8 := 2
def flagCloud : UInt8 := 4

/-- `ds_tree_find` by the value. -/
structure Finder where
  find : List Entry → Name → Option Entry
  found : ∀ {l v e}, find l v = some e → e ∈ l ∧ e.value = v
  missing : ∀ {l v}, find l v = none → v ∉ l.map Entry.value

/-- The search that gives the first entry in the order of the tree. -/
def Finder.first : Finder where
  find := findKey Entry.value
  found h := ⟨mem_of_findKey h, key_of_findKey h⟩
  missing h := findKey_eq_none_iff.mp h

/-- The search that gives the last entry in the order of the tree. -/
def Finder.last : Finder where
  find l := findKey Entry.value l.reverse
  found h := ⟨List.mem_reverse.mp (mem_of_findKey h), key_of_findKey h⟩
  missing h := by simpa using findKey_eq_none_iff.mp h

/-- `om_tag_list_entry_add`. -/
def entryAdd (l : List Entry) (value : Name) (flags : UInt8) : List Entry :=
  Ds.Ordered.insert Entry.value strcmp l ⟨value, flags⟩

def setFlags (l : List Entry) (e : Entry) (flags : UInt8) : List Entry :=
  l.replace e { e with flags := flags }

/-- A loop over a list that adds an entry for some of the entries of it. -/
def collect (f : Entry → Option Entry) (l : List Entry) : List Entry :=
  l.foldl (fun d e =>
    match f e with
    | some x => entryAdd d x.value x.flags
    | none => d) []

/-- `om_tag_list_diff_t`.  A list that is not passed on is empty. -/
structure Diff where
  removed : List Entry := []
  added : List Entry := []
  updated : List Entry := []
deriving DecidableEq

section

variable (F : Finder)

/-- `om_tag_list_diff`. -/
def listDiff (old new : List Entry) : Diff where
  removed := collect (fun o => if (F.find new o.value).isNone then some o else none) old
  added := collect (fun n => if (F.find old n.value).isNone then some n else none) new
  updated := collect (fun o => (F.find new o.value).filter fun n => o.flags ≠ n.flags) old

/-- The first loop of `om_tag_list_apply_diff`. -/
def applyRemoved (l removed : List Entry) : List Entry :=
  removed.foldl (fun l d =>
    match F.find l d.value with
    | some e => l.erase e
    | none => l) l

/-- The second loop of `om_tag_list_apply_diff`. -/
def applyAdded (l added : List Entry) : List Entry :=
  added.foldl (fun l d => if (F.find l d.value).isNone then entryAdd l d.value d.flags else l) l

/-- The third loop of `om_tag_list_apply_diff`. -/
def applyUpdated (l updated : List Entry) : List Entry :=
  updated.foldl (fun l d =>
    match F.find l d.value with
    | some e => setFlags l e d.flags
    | none => l) l

/-- `om_tag_list_apply_diff`. -/
def applyDiff (l : List Entry) (diff : Diff) : List Entry :=
  applyUpdated F (applyAdded F (applyRemoved F l diff.removed) diff.added) diff.updated

/-- The flags with which an entry passes a filter. -/
def admits (filter flags : UInt8) : Bool := filter = 0 || flags &&& filter ≠ 0

/-- `om_tag_list_append_list`. -/
def appendList (dest src : List Entry) (filter : UInt8) : List Entry :=
  src.foldl (fun dest e =>
    if admits filter e.flags then
      match F.find dest e.value with
      | some n => setFlags dest n (n.flags ||| e.flags)
      | none => entryAdd dest e.value e.flags
    else dest) dest

end

/-! ## Lists as maps -/

/-- The flags of a value. -/
def look (l : List Entry) (v : Name) : Option UInt8 := (findKey Entry.value l v).map Entry.flags

def Distinct (l : List Entry) : Prop := (l.map Entry.value).Nodup

instance (l : List Entry) : Decidable (Distinct l) := inferInstanceAs (Decidable (List.Nodup _))

section

variable {F : Finder} {l l' : List Entry} {v w : Name} {f : UInt8} {e : Entry}

theorem distinct_nil : Distinct [] := List.nodup_nil

theorem distinct_cons : Distinct (e :: l) ↔ e.value ∉ l.map Entry.value ∧ Distinct l :=
  nodup_cons

theorem Distinct.perm (h : Distinct l) (perm : l.Perm l') : Distinct l' :=
  (perm.map Entry.value).nodup_iff.mp h

theorem Distinct.sublist (h : Distinct l) (sub : l'.Sublist l) : Distinct l' :=
  List.Nodup.sublist (sub.map Entry.value) h

@[simp] theorem look_nil : look [] v = none := rfl

theorem look_cons : look (e :: l) v = if e.value = v then some e.flags else look l v := by
  rw [look, findKey_cons]
  split_ifs <;> rfl

theorem look_eq_none_iff : look l v = none ↔ v ∉ l.map Entry.value := by
  rw [look, map_eq_none_iff, findKey_eq_none_iff]

section

variable (h : Distinct l)

include h

theorem look_eq_some_iff : look l v = some f ↔ ⟨v, f⟩ ∈ l := by
  rw [look, map_eq_some_iff]
  constructor
  · rintro ⟨e, he, rfl⟩
    obtain ⟨hmem, rfl⟩ := (findKey_eq_some_iff h).mp he
    exact hmem
  · intro hmem
    exact ⟨⟨v, f⟩, (findKey_eq_some_iff h).mpr ⟨hmem, rfl⟩, rfl⟩

theorem look_perm (perm : l.Perm l') : look l v = look l' v := by
  rw [look, look, findKey_perm h perm]

/-- Lists with distinct values that are the same map have the same entries. -/
theorem perm_of_look (h' : Distinct l') (heq : look l = look l') : l.Perm l' := by
  refine (perm_ext_iff_of_nodup (List.Nodup.of_map _ h) (List.Nodup.of_map _ h')).mpr ?_
  intro e
  rw [← look_eq_some_iff h (v := e.value), heq, look_eq_some_iff h']

/-! ## Searches -/

theorem Finder.find_eq : F.find l v = findKey Entry.value l v := by
  cases hf : F.find l v with
  | none => exact (findKey_eq_none_iff.mpr (F.missing hf)).symm
  | some e => exact ((findKey_eq_some_iff h).mpr (F.found hf)).symm

omit h in
theorem Finder.find_isNone_iff : (F.find l v).isNone ↔ look l v = none := by
  rw [look_eq_none_iff, isNone_iff_eq_none]
  constructor
  · exact F.missing
  intro hv
  rw [eq_none_iff_forall_ne_some]
  rintro e he
  obtain ⟨hmem, rfl⟩ := F.found he
  exact hv (mem_map_of_mem hmem)

omit h in
theorem Finder.find_isSome_iff : (F.find l v).isSome ↔ v ∈ l.map Entry.value := by
  rw [← not_iff_not, ← look_eq_none_iff, ← F.find_isNone_iff]
  cases F.find l v <;> simp

theorem Finder.look_of_find (hf : F.find l v = some e) : look l v = some e.flags := by
  rw [look, ← F.find_eq h, hf]
  rfl

omit h in
theorem Finder.look_of_missing (hf : F.find l v = none) : look l v = none :=
  Finder.find_isNone_iff.mp (by rw [hf]; rfl)

/-! ## The changes of one entry -/

omit h in
theorem entryAdd_perm : (entryAdd l v f).Perm (⟨v, f⟩ :: l) :=
  Ds.Ordered.insert_perm Entry.value strcmp l ⟨v, f⟩

theorem Distinct.entryAdd (hv : look l v = none) : Distinct (entryAdd l v f) :=
  (distinct_cons.mpr ⟨look_eq_none_iff.mp hv, h⟩).perm entryAdd_perm.symm

theorem look_entryAdd (hv : look l v = none) :
    look (entryAdd l v f) w = if v = w then some f else look l w := by
  rw [look_perm (h.entryAdd hv) entryAdd_perm, look_cons]

theorem look_erase (he : e ∈ l) : look (l.erase e) w = if e.value = w then none else look l w := by
  rw [look, findKey_erase h he]
  split_ifs <;> rfl

omit h in
theorem map_value_setFlags : (setFlags l e f).map Entry.value = l.map Entry.value := by
  induction l with
  | nil => rfl
  | cons x l ih =>
    rw [setFlags, replace_cons]
    split
    · next hx =>
      rw [beq_iff_eq.mp hx]
      rfl
    · rw [map_cons, map_cons, ← ih]
      rfl

theorem Distinct.setFlags : Distinct (setFlags l e f) := by
  rw [Distinct, map_value_setFlags]
  exact h

theorem look_setFlags (he : e ∈ l) :
    look (setFlags l e f) w = if e.value = w then some f else look l w := by
  induction l with
  | nil => cases he
  | cons x l ih =>
    obtain ⟨hx, hl⟩ := distinct_cons.mp h
    rw [Tags.setFlags, replace_cons]
    by_cases hxe : x = e
    · subst hxe
      rw [beq_self_eq_true, look_cons, look_cons]
      split_ifs <;> rfl
    have hmem : e ∈ l := (mem_cons.mp he).resolve_left (Ne.symm hxe)
    have hne : x.value ≠ e.value := fun heq => hx (heq ▸ mem_map_of_mem hmem)
    have htail := ih hl hmem
    rw [Tags.setFlags] at htail
    rw [beq_eq_false_iff_ne.mpr (Ne.symm hxe), look_cons, look_cons, htail]
    split_ifs with h1 h2
    · exact absurd (h1.trans h2.symm) hne
    · rfl
    · rfl
    · rfl

end

/-! ## Differences -/

theorem foldl_entryAdd_perm {α : Type} (g : α → Option Entry) (xs : List α) (d : List Entry) :
    (xs.foldl (fun d x =>
      match g x with
      | some e => entryAdd d e.value e.flags
      | none => d) d).Perm (d ++ xs.filterMap g) := by
  induction xs generalizing d with
  | nil => simp
  | cons x xs ih =>
    rw [foldl_cons]
    refine (ih _).trans ?_
    cases hg : g x with
    | none => simp [hg]
    | some e =>
      rw [filterMap_cons_some hg]
      exact ((entryAdd_perm (l := d)).append_right _).trans perm_middle.symm

theorem collect_perm (g : Entry → Option Entry) (l : List Entry) :
    (collect g l).Perm (l.filterMap g) :=
  foldl_entryAdd_perm g l []

theorem mem_collect {g : Entry → Option Entry} : e ∈ collect g l ↔ ∃ x ∈ l, g x = some e := by
  rw [(collect_perm g l).mem_iff, mem_filterMap]

/-- The entries that a loop adds for distinct values, if it keeps the values. -/
theorem Distinct.collect {g : Entry → Option Entry} (h : Distinct l)
    (keep : ∀ x y, g x = some y → y.value = x.value) : Distinct (collect g l) := by
  refine .perm ?_ (collect_perm g l).symm
  induction l with
  | nil => exact distinct_nil
  | cons e l ih =>
    obtain ⟨he, hl⟩ := distinct_cons.mp h
    cases hg : g e with
    | none =>
      rw [filterMap_cons_none hg]
      exact ih hl
    | some x =>
      rw [filterMap_cons_some hg]
      refine distinct_cons.mpr ⟨?_, ih hl⟩
      rintro hmem
      obtain ⟨y, hy, hyx⟩ := mem_map.mp hmem
      obtain ⟨z, hz, hzy⟩ := mem_filterMap.mp hy
      refine he (mem_map.mpr ⟨z, hz, ?_⟩)
      rw [← keep z y hzy, hyx, keep e x hg]

/-- The difference between two maps. -/
structure IsDiff (old new : Name → Option UInt8) (d : Diff) : Prop where
  removedDistinct : Distinct d.removed
  addedDistinct : Distinct d.added
  updatedDistinct : Distinct d.updated
  removed : ∀ v f, ⟨v, f⟩ ∈ d.removed ↔ old v = some f ∧ new v = none
  added : ∀ v f, ⟨v, f⟩ ∈ d.added ↔ old v = none ∧ new v = some f
  updated : ∀ v f, ⟨v, f⟩ ∈ d.updated ↔ new v = some f ∧ ∃ g, old v = some g ∧ g ≠ f

theorem listDiff_isDiff {old new : List Entry} (hold : Distinct old) (hnew : Distinct new) :
    IsDiff (look old) (look new) (listDiff F old new) where
  removedDistinct := by
    refine hold.collect fun x y hxy => ?_
    split_ifs at hxy
    cases hxy
    rfl
  addedDistinct := by
    refine hnew.collect fun x y hxy => ?_
    split_ifs at hxy
    cases hxy
    rfl
  updatedDistinct := by
    refine hold.collect fun x y hxy => ?_
    exact (F.found (filter_eq_some_iff.mp hxy).1).2
  removed v f := by
    rw [listDiff, mem_collect, look_eq_some_iff hold]
    constructor
    · rintro ⟨x, hx, hxe⟩
      split_ifs at hxe with hnone
      cases hxe
      exact ⟨hx, F.find_isNone_iff.mp hnone⟩
    · rintro ⟨hmem, hnone⟩
      exact ⟨_, hmem, if_pos (F.find_isNone_iff.mpr hnone)⟩
  added v f := by
    rw [listDiff, mem_collect, look_eq_some_iff hnew]
    constructor
    · rintro ⟨x, hx, hxe⟩
      split_ifs at hxe with hnone
      cases hxe
      exact ⟨F.find_isNone_iff.mp hnone, hx⟩
    · rintro ⟨hnone, hmem⟩
      exact ⟨_, hmem, if_pos (F.find_isNone_iff.mpr hnone)⟩
  updated v f := by
    rw [listDiff, mem_collect]
    constructor
    · rintro ⟨x, hx, hxe⟩
      obtain ⟨hfind, hne⟩ := filter_eq_some_iff.mp hxe
      have hv : v = x.value := (F.found hfind).2
      rw [hv]
      exact ⟨F.look_of_find hnew hfind, x.flags, (look_eq_some_iff hold).mpr hx, by simpa using hne⟩
    · rintro ⟨hlook, g, hg, hne⟩
      refine ⟨⟨v, g⟩, (look_eq_some_iff hold).mp hg, filter_eq_some_iff.mpr ⟨?_, by simpa⟩⟩
      rw [F.find_eq hnew, findKey_eq_some_iff hnew]
      exact ⟨(look_eq_some_iff hnew).mp hlook, rfl⟩

section

variable {old new : Name → Option UInt8} {d : Diff} (hd : IsDiff old new d)

include hd

theorem IsDiff.look_removed : look d.removed w = if new w = none then old w else none := by
  apply ext
  intro f
  rw [look_eq_some_iff hd.removedDistinct, hd.removed]
  split_ifs with hw <;> simp [hw]

theorem IsDiff.look_added : look d.added w = if old w = none then new w else none := by
  apply ext
  intro f
  rw [look_eq_some_iff hd.addedDistinct, hd.added]
  split_ifs with hw <;> simp [hw]

theorem IsDiff.look_updated :
    look d.updated w = if old w = none ∨ old w = new w then none else new w := by
  apply ext
  intro f
  rw [look_eq_some_iff hd.updatedDistinct, hd.updated]
  cases old w with
  | none => simp
  | some g =>
    cases new w with
    | none => simp
    | some f' =>
      by_cases hgf : g = f'
      · grind
      · grind

end

/-! ## Applying a difference -/

/-- A loop over entries, each of which changes what the list has for its value. -/
theorem foldl_look {f : List Entry → Entry → List Entry}
    {c : Option UInt8 → Option UInt8 → Option UInt8} (zero : ∀ o, c o none = o)
    (step : ∀ {l}, Distinct l → ∀ e, Distinct (f l e) ∧ ∀ w, look (f l e) w =
      if e.value = w then c (look l w) (some e.flags) else look l w)
    (h : Distinct l) {d : List Entry} (hd : Distinct d) :
    Distinct (d.foldl f l) ∧ ∀ w, look (d.foldl f l) w = c (look l w) (look d w) := by
  induction d generalizing l with
  | nil => exact ⟨h, fun w => (zero _).symm⟩
  | cons e d ih =>
    obtain ⟨he, hd⟩ := distinct_cons.mp hd
    obtain ⟨hstep, hlook⟩ := step h e
    obtain ⟨hrest, hrest'⟩ := ih hstep hd
    refine ⟨hrest, fun w => ?_⟩
    rw [foldl_cons, hrest', hlook, look_cons]
    split_ifs with hw
    · rw [← hw, look_eq_none_iff.mpr he, zero]
    · rfl

section

variable (h : Distinct l)

include h

section

variable {d : List Entry} (hd : Distinct d)

include hd

theorem applyRemoved_look : Distinct (applyRemoved F l d) ∧ ∀ w, look (applyRemoved F l d) w =
      if look d w = none then look l w else none := by
  refine foldl_look (c := fun o x => if x = none then o else none) (by simp) (fun h e => ?_) h hd
  cases hf : F.find _ e.value with
  | none =>
    refine ⟨h, fun w => ?_⟩
    by_cases hw : e.value = w
    · simp [← hw, F.look_of_missing hf]
    · simp [hw]
  | some x =>
    obtain ⟨hx, hv⟩ := F.found hf
    exact ⟨h.sublist erase_sublist, fun w => by simp [look_erase h hx, hv]⟩

theorem applyAdded_look :
    Distinct (applyAdded F l d) ∧ ∀ w, look (applyAdded F l d) w = (look l w).or (look d w) := by
  refine foldl_look (c := Option.or) (by simp) (fun {l} h e => ?_) h hd
  by_cases hn : look l e.value = none
  · rw [if_pos (F.find_isNone_iff.mpr hn)]
    refine ⟨h.entryAdd hn, fun w => ?_⟩
    rw [look_entryAdd h hn]
    split_ifs with hw
    · rw [← hw, hn, none_or]
    · rfl
  · rw [if_neg (mt F.find_isNone_iff.mp hn)]
    refine ⟨h, fun w => ?_⟩
    split_ifs with hw
    · obtain ⟨f, hf⟩ := ne_none_iff_exists'.mp hn
      rw [← hw, hf, some_or]
    · rfl

theorem applyUpdated_look : Distinct (applyUpdated F l d) ∧ ∀ w, look (applyUpdated F l d) w =
      (look l w).map fun g => (look d w).getD g := by
  refine foldl_look (c := fun o x => o.map fun g => x.getD g) (by simp) (fun h e => ?_) h hd
  cases hf : F.find _ e.value with
  | none =>
    refine ⟨h, fun w => ?_⟩
    split_ifs with hw
    · rw [← hw, F.look_of_missing hf, map_none]
    · rfl
  | some x =>
    obtain ⟨hx, hv⟩ := F.found hf
    refine ⟨h.setFlags, fun w => ?_⟩
    rw [look_setFlags h hx, hv]
    split_ifs with hw
    · rw [← hw, F.look_of_find h hf]
      rfl
    · rfl

end

/-- Applied to a list with distinct values, a difference makes it the new list. -/
theorem applyDiff_look {new : Name → Option UInt8} {d : Diff} (hd : IsDiff (look l) new d) :
    Distinct (applyDiff F l d) ∧ look (applyDiff F l d) = new := by
  obtain ⟨h1, removed⟩ := applyRemoved_look (F := F) h hd.removedDistinct
  obtain ⟨h2, added⟩ := applyAdded_look (F := F) h1 hd.addedDistinct
  obtain ⟨h3, updated⟩ := applyUpdated_look (F := F) h2 hd.updatedDistinct
  refine ⟨h3, funext fun w => ?_⟩
  rw [applyDiff, updated, added, removed, hd.look_removed, hd.look_added, hd.look_updated]
  cases look l w with
  | none => cases new w <;> simp
  | some g =>
    cases new w with
    | none => simp
    | some f =>
      by_cases hgf : g = f
      · simp [hgf]
      · simp [hgf]

/-- The list after an update has the values and flags of the new list. -/
theorem applyDiff_listDiff {new : List Entry} (hnew : Distinct new) :
    Distinct (applyDiff F l (listDiff F l new)) ∧
      look (applyDiff F l (listDiff F l new)) = look new :=
  applyDiff_look h (listDiff_isDiff h hnew)

end

/-- The flags of a value, if they pass a filter. -/
def admitted (filter : UInt8) (o : Option UInt8) : Option UInt8 := o.filter (admits filter)

theorem appendList_look (filter : UInt8) (h : Distinct l) {src : List Entry}
    (hsrc : Distinct src) : Distinct (appendList F l src filter) ∧
      ∀ w, look (appendList F l src filter) w =
        Option.merge (· ||| ·) (look l w) (admitted filter (look src w)) := by
  refine foldl_look (c := fun o x => Option.merge (· ||| ·) o (admitted filter x))
    (by simp [admitted]) (fun {l} h e => ?_) h hsrc
  by_cases had : admits filter e.flags
  · have hadm : admitted filter (some e.flags) = some e.flags := by
      simp [admitted, Option.filter, had]
    rw [if_pos had]
    cases hf : F.find l e.value with
    | none =>
      have hl := F.look_of_missing hf
      refine ⟨h.entryAdd hl, fun w => ?_⟩
      rw [look_entryAdd h hl, hadm]
      split_ifs with hw
      · rw [← hw, hl]
        rfl
      · rfl
    | some n =>
      obtain ⟨hn, hv⟩ := F.found hf
      refine ⟨h.setFlags, fun w => ?_⟩
      rw [look_setFlags h hn, hv, hadm]
      split_ifs with hw
      · rw [← hw, F.look_of_find h hf]
        rfl
      · rfl
  · rw [if_neg had]
    exact ⟨h, fun w => by simp [admitted, Option.filter, had]⟩

end

end OpenSync.Tags
