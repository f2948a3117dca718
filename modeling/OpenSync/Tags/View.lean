import OpenSync.Tags.Tag

/-!
# Group tags as views

The tag of a group is a view of the tables.  A value is in it if one of the members of the group
names a tag that has the value with a flag that the marker of the member admits, and its flags are
the flags of the value in those members together.

`Tables` holds the rows and says which changes the database makes.  The lemmas say what the
functions on `om_tags` do to the values of the tags: `omTagGroupUpdate` makes the tag of a group
the view of its members, and `omTagGroupUpdateByTag_spec` does so for all groups that list a
tag.
-/

namespace OpenSync.Tags

open OpenSync.Lib List Function Ds.Ordered

/-! ## The tables -/

/-- The flags that the row of a tag has for a value. -/
def TagRow.look : TagRow → Name → Option UInt8
  | .tag deviceValue cloudValue, v =>
    Option.merge (· ||| ·) (if v ∈ deviceValue then some flagDevice else none)
      (if v ∈ cloudValue then some flagCloud else none)
  | .localTag values, v => if v ∈ values then some flagLocal else none

/-- No value list of the row has a value twice. -/
def TagRow.Nodup : TagRow → Prop
  | .tag deviceValue cloudValue => deviceValue.Nodup ∧ cloudValue.Nodup
  | .localTag values => values.Nodup

/-- Two rows of the same table. -/
def TagRow.SameTable : TagRow → TagRow → Prop
  | .tag _ _, .tag _ _ => True
  | .localTag _, .localTag _ => True
  | _, _ => False

/-- The rows of the tags, of both tables since their names are distinct, and of the groups. -/
structure Tables where
  tag : Name → Option TagRow := fun _ => none
  group : Name → Option (List Name) := fun _ => none

/-- The flags together, if there are any. -/
def unionOf (flags : List UInt8) : Option UInt8 :=
  if flags = [] then none else some (flags.foldr (· ||| ·) 0)

/-- The view of a list of members, for the flags that the tags have for their values. -/
def viewOf (flags : Name → Name → Option UInt8) (members : List Entry) (v : Name) : Option UInt8 :=
  unionOf (members.filterMap fun m => admitted m.flags (flags m.value v))

/-- What the tag of a group with the row is to have. -/
def Tables.view (T : Tables) (row : List Name) : Name → Option UInt8 :=
  viewOf (fun t v => (T.tag t).bind (·.look v)) (row.map member)

/-- The tables after a change. -/
def Tables.step (T : Tables) : Event → Tables
  | .tagNew name row => { T with tag := update T.tag name (some row) }
  | .tagDel name => { T with tag := update T.tag name none }
  | .tagModify name row => { T with tag := update T.tag name (some row) }
  | .groupNew name tags => { T with group := update T.group name (some tags) }
  | .groupDel name => { T with group := update T.group name none }
  | .groupModify name tags => { T with group := update T.group name (some tags) }

/-- The changes that the database makes: a new row has a new name, and the row that is changed or
deleted is there. -/
def Tables.Accepts (T : Tables) : Event → Prop
  | .tagNew name row => T.tag name = none ∧ row.Nodup
  | .tagDel name => ∃ old, T.tag name = some old
  | .tagModify name row => (∃ old, T.tag name = some old ∧ old.SameTable row) ∧ row.Nodup
  | .groupNew name _ => T.group name = none
  | .groupDel name => ∃ old, T.group name = some old
  | .groupModify name _ => ∃ old, T.group name = some old

/-- A change of a group lists no tag twice, before or after. -/
def Tables.Clean (T : Tables) : Event → Prop
  | .groupModify name tags =>
    (∀ old, T.group name = some old → Distinct (old.map member)) ∧ Distinct (tags.map member)
  | _ => True

/-! ## The lists of the rows -/

section

variable {F : Finder}

theorem values_list {values : List Name} (h : values.Nodup) (flag : UInt8) :
    Distinct (values.foldl (fun l v => entryAdd l v flag) []) ∧
      ∀ v, look (values.foldl (fun l v => entryAdd l v flag) []) v =
        if v ∈ values then some flag else none := by
  have perm : (values.foldl (fun l v => entryAdd l v flag) []).Perm
      (values.map fun v => ⟨v, flag⟩) := by
    simpa using foldl_entryAdd_perm (fun v => some ⟨v, flag⟩) values []
  have distinct : Distinct (values.map fun v => (⟨v, flag⟩ : Entry)) := by
    rw [Distinct]
    simpa [comp_def] using h
  refine ⟨distinct.perm perm.symm, fun v => Option.ext fun f => ?_⟩
  rw [← look_perm distinct perm.symm]
  rw [look_eq_some_iff distinct, mem_map]
  split_ifs with hv
  · constructor
    · rintro ⟨a, -, ha⟩
      cases ha
      rfl
    · rintro ⟨⟩
      exact ⟨v, hv, rfl⟩
  · constructor
    · rintro ⟨a, ha, heq⟩
      cases heq
      exact absurd ha hv
    · rintro ⟨⟩

theorem cloud_list {l : List Entry} (hl : Distinct l) {cloudValue : List Name}
    (h : cloudValue.Nodup) :
    let l' := cloudValue.foldl (fun l v =>
      match F.find l v with
      | some e => setFlags l e (e.flags ||| flagCloud)
      | none => entryAdd l v flagCloud) l
    Distinct l' ∧ ∀ v, look l' v = Option.merge (· ||| ·) (look l v)
      (if v ∈ cloudValue then some flagCloud else none) := by
  induction cloudValue generalizing l with
  | nil => exact ⟨hl, fun v => by simp⟩
  | cons c cs ih =>
    obtain ⟨hc, hcs⟩ := nodup_cons.mp h
    simp only [foldl_cons]
    cases hf : F.find l c with
    | none =>
      have hnone := F.look_of_missing hf
      obtain ⟨hd, hlook⟩ := ih (hl.entryAdd hnone) hcs
      refine ⟨hd, fun v => (hlook v).trans ?_⟩
      rw [look_entryAdd hl hnone]
      by_cases hv : c = v
      · subst hv
        simp [hc, hnone]
      · simp [hv, Ne.symm hv]
    | some e =>
      obtain ⟨he, hval⟩ := F.found hf
      obtain ⟨hd, hlook⟩ := ih hl.setFlags hcs
      refine ⟨hd, fun v => (hlook v).trans ?_⟩
      rw [look_setFlags hl he, hval]
      by_cases hv : c = v
      · subst hv
        simp [hc, F.look_of_find hl hf]
      · simp [hv, Ne.symm hv]

/-- The list of a row has the values and flags of the row. -/
theorem TagRow.list_look {row : TagRow} (h : row.Nodup) :
    Distinct (row.list F) ∧ Tags.look (row.list F) = row.look := by
  cases row with
  | tag deviceValue cloudValue =>
    obtain ⟨hdev, device⟩ := values_list h.1 flagDevice
    obtain ⟨hd, hlook⟩ := cloud_list (F := F) hdev h.2
    refine ⟨hd, funext fun v => (hlook v).trans ?_⟩
    rw [device]
    rfl
  | localTag values =>
    obtain ⟨hd, hlook⟩ := values_list h flagLocal
    exact ⟨hd, funext hlook⟩

theorem groupList_perm (tags : List Name) :
    (omTagGroupCreateListFromSchema tags).Perm (tags.map member) := by
  simpa [omTagGroupCreateListFromSchema] using
    foldl_entryAdd_perm (fun n => some (member n)) tags []

end

/-! ## The values of the tags -/

/-- The values of a tag, with their flags. -/
def valuesOf (tags : List Tag) (name : Name) (group : Bool) : Option (Name → Option UInt8) :=
  (omTagFindByName tags name group).map fun t => look t.values

/-- The value map of a tag.  A tag that does not exist has no values. -/
def valueMap (tags : List Tag) (key : Name × Bool) (v : Name) : Option UInt8 :=
  (valuesOf tags key.1 key.2).bind (· v)

/-- No tag is there twice, and none has a value twice. -/
structure Ok (tags : List Tag) : Prop where
  keys : (tags.map Tag.key).Nodup
  distinct : ∀ t ∈ tags, Distinct t.values

section

variable {tags : List Tag} {t : Tag} {n : Name} {b : Bool} {l : List Entry}

theorem Ok.of_find (h : Ok tags) (hf : omTagFindByName tags n b = some t) :
    t ∈ tags ∧ t.key = (n, b) ∧ Distinct t.values :=
  ⟨mem_of_findKey hf, key_of_findKey hf, h.distinct t (mem_of_findKey hf)⟩

theorem Ok.find_of_mem (h : Ok tags) (ht : t ∈ tags) :
    omTagFindByName tags t.name t.group = some t :=
  (findKey_eq_some_iff h.keys).mpr ⟨ht, rfl⟩

theorem find_of_values_none (hv : valuesOf tags n b = none) : omTagFindByName tags n b = none :=
  Option.map_eq_none_iff.mp hv

theorem Ok.find_of_values {m : Name → Option UInt8} (h : Ok tags)
    (hv : valuesOf tags n b = some m) :
    ∃ t, omTagFindByName tags n b = some t ∧ t ∈ tags ∧ t.name = n ∧ t.group = b ∧
      Distinct t.values := by
  obtain ⟨t, ht, -⟩ := Option.map_eq_some_iff.mp hv
  obtain ⟨hmem, hkey, hd⟩ := h.of_find ht
  exact ⟨t, ht, hmem, congrArg Prod.fst hkey, congrArg Prod.snd hkey, hd⟩

theorem Ok.setValues (h : Ok tags) (hl : Distinct l) : Ok (setValues tags t l) where
  keys := by
    have same : (Tags.setValues tags t l).map Tag.key = tags.map Tag.key := by
      rw [Tags.setValues, map_map]
      refine map_congr_left fun x _ => ?_
      simp only [comp_apply]
      split_ifs <;> rfl
    rw [same]
    exact h.keys
  distinct := by
    intro x hx
    obtain ⟨y, hy, rfl⟩ := mem_map.mp hx
    split_ifs
    · exact hl
    · exact h.distinct y hy

theorem valuesOf_setValues : valuesOf (setValues tags t l) n b =
    if t.key = (n, b) then (valuesOf tags n b).map (fun _ => look l) else valuesOf tags n b := by
  have keep : ∀ x : Tag, (if x.key = t.key then { x with values := l } else x).key = x.key := by
    intro x
    split_ifs <;> rfl
  rw [valuesOf, omTagFindByName, setValues, findKey_map keep, valuesOf, omTagFindByName]
  cases hf : findKey Tag.key tags (n, b) with
  | none => simp
  | some x =>
    have hkey := key_of_findKey hf
    simp only [Option.map_some, hkey, eq_comm (a := (n, b))]
    split_ifs <;> rfl

section

variable (h : Ok tags) (hnew : omTagFindByName tags t.name t.group = none) (ht : Distinct t.values)

include h hnew ht

theorem Ok.insert : Ok (Ds.Ordered.insert Tag.name strcmp tags t) where
  keys := by
    have perm := (insert_perm Tag.name strcmp tags t).map Tag.key
    rw [perm.nodup_iff, map_cons, nodup_cons]
    exact ⟨findKey_eq_none_iff.mp hnew, h.keys⟩
  distinct := by
    intro x hx
    rcases (mem_insert Tag.name strcmp).mp hx with rfl | hx
    · exact ht
    · exact h.distinct x hx

theorem valuesOf_insert : valuesOf (Ds.Ordered.insert Tag.name strcmp tags t) n b =
      if t.key = (n, b) then some (look t.values) else valuesOf tags n b := by
  rw [valuesOf, omTagFindByName, findKey_perm (h.insert hnew ht).keys
    (insert_perm Tag.name strcmp tags t), findKey_cons]
  split_ifs <;> rfl

end

theorem Ok.remove (h : Ok tags) : Ok (Ds.Ordered.remove tags t) where
  keys := .sublist (erase_sublist.map Tag.key) h.keys
  distinct := fun x hx => h.distinct x (mem_of_mem_erase hx)

/-- A new tag is new, and a tag that is removed or updated is there. -/
def Change.Valid (tags : List Tag) : Change → Prop
  | .add tag => omTagFindByName tags tag.name tag.group = none ∧ Distinct tag.values
  | .remove tag => tag ∈ tags
  | .update tag newValues => tag ∈ tags ∧ Distinct newValues

/-- The values of the tag after the change. -/
def Change.values : Change → Option (Name → Option UInt8)
  | .add tag => some (look tag.values)
  | .remove _ => none
  | .update _ newValues => some (look newValues)

variable {F : Finder} {c : Change}

theorem Ok.change (F : Finder) (h : Ok tags) (hc : c.Valid tags) : Ok (c.after F tags) := by
  cases c with
  | add tag => exact h.insert hc.1 hc.2
  | remove tag => exact h.remove
  | update tag newValues =>
    exact h.setValues (applyDiff_listDiff (h.distinct tag hc.1) hc.2).1

theorem valuesOf_after (h : Ok tags) (hc : c.Valid tags) : valuesOf (c.after F tags) n b =
    if c.tag.key = (n, b) then c.values else valuesOf tags n b := by
  cases c with
  | add tag => exact valuesOf_insert h hc.1 hc.2
  | remove tag =>
    change Option.map _ (findKey _ (tags.erase tag) _) = _
    rw [findKey_erase h.keys hc, apply_ite (Option.map _)]
    rfl
  | update tag newValues =>
    rw [Change.after, valuesOf_setValues, (applyDiff_listDiff (h.distinct tag hc.1) hc.2).2,
      Change.tag]
    split_ifs with hk
    · obtain ⟨rfl, rfl⟩ := Prod.mk.inj hk
      rw [valuesOf, h.find_of_mem hc.1]
      rfl
    · rfl

theorem find_after_of_ne (h : Ok tags) (hc : c.Valid tags) (hne : c.tag.key ≠ (n, b)) :
    omTagFindByName (c.after F tags) n b = omTagFindByName tags n b := by
  cases c with
  | add tag =>
    rw [Change.tag] at hne
    rw [Change.after, omTagFindByName, findKey_perm (h.insert hc.1 hc.2).keys
      (insert_perm Tag.name strcmp tags tag), findKey_cons, if_neg hne]
    rfl
  | remove tag =>
    rw [Change.tag] at hne
    rw [Change.after, omTagFindByName, remove, findKey_erase h.keys hc, if_neg hne]
    rfl
  | update tag newValues =>
    rw [Change.after, omTagFindByName, setValues, findKey_map fun x => by split_ifs <;> rfl]
    rw [omTagFindByName]
    cases hf : findKey Tag.key tags (n, b) with
    | none => rfl
    | some t =>
      have hkey : t.key ≠ tag.key := by
        rw [key_of_findKey hf]
        exact hne.symm
      simp [hkey]

theorem Ok.valueMap_of_mem (ok : Ok tags) (ht : t ∈ tags) :
    valueMap tags t.key = look t.values := by
  funext v
  simp [valueMap, valuesOf, Tag.key, ok.find_of_mem ht]

theorem isDiff_added (h : Distinct l) : IsDiff (fun _ => none) (look l) { added := l } :=
  ⟨distinct_nil, h, distinct_nil, by simp, fun v f => by simp [look_eq_some_iff h], by simp⟩

theorem isDiff_removed (h : Distinct l) : IsDiff (look l) (fun _ => none) { removed := l } :=
  ⟨h, distinct_nil, distinct_nil, fun v f => by simp [look_eq_some_iff h], by simp, by simp⟩

/-- The component is told the difference between the old and the new values. -/
theorem Change.isDiff (ok : Ok tags) (hc : c.Valid tags) :
    IsDiff (valueMap tags c.tag.key) (valueMap (c.after F tags) c.tag.key) (c.diff F) := by
  have hafter : valueMap (c.after F tags) c.tag.key = fun v => c.values.bind (· v) := by
    funext v
    rw [valueMap, valuesOf_after ok hc, if_pos rfl]
  rw [hafter]
  cases c with
  | add tag =>
    have hbefore : valueMap tags tag.key = fun _ => none := by
      funext v
      rw [valueMap, valuesOf, Tag.key, hc.1]
      rfl
    rw [Change.tag, hbefore]
    exact isDiff_added hc.2
  | remove tag =>
    rw [Change.tag, ok.valueMap_of_mem hc]
    exact isDiff_removed (ok.distinct tag hc)
  | update tag newValues =>
    rw [Change.tag, ok.valueMap_of_mem hc.1]
    exact listDiff_isDiff (ok.distinct tag hc.1) hc.2

end

/-! ## Views -/

section

variable {F : Finder} {tags : List Tag}

theorem merge_or_assoc (a b c : Option UInt8) :
    Option.merge (· ||| ·) (Option.merge (· ||| ·) a b) c =
      Option.merge (· ||| ·) a (Option.merge (· ||| ·) b c) := by
  cases a <;> cases b <;> cases c <;> simp [UInt8.or_assoc]

theorem unionOf_cons (f : UInt8) (fs : List UInt8) :
    unionOf (f :: fs) = Option.merge (· ||| ·) (some f) (unionOf fs) := by
  cases fs with
  | nil => simp [unionOf]
  | cons g fs => simp [unionOf]

theorem unionOf_perm {fs fs' : List UInt8} (h : fs.Perm fs') : unionOf fs = unionOf fs' := by
  rw [unionOf, unionOf, h.foldr_op_eq]
  simp [← length_eq_zero_iff, h.length_eq]

variable {flags : Name → Name → Option UInt8} {ms : List Entry}

theorem viewOf_cons {m : Entry} {v : Name} : viewOf flags (m :: ms) v =
      Option.merge (· ||| ·) (admitted m.flags (flags m.value v)) (viewOf flags ms v) := by
  rw [viewOf, viewOf, filterMap_cons]
  cases admitted m.flags (flags m.value v) with
  | none => simp
  | some f => exact unionOf_cons f _

theorem viewOf_congr {flags' : Name → Name → Option UInt8}
    (h : ∀ m ∈ ms, flags m.value = flags' m.value) : viewOf flags ms = viewOf flags' ms := by
  funext v
  rw [viewOf, viewOf, filterMap_congr fun m hm => by rw [h m hm]]

/-- The values that a group gets are the view of its members. -/
theorem appendMembers_look (ok : Ok tags) (ms : List Entry) :
    Distinct (appendMembers F tags ms []) ∧ look (appendMembers F tags ms []) =
      viewOf (fun t => valueMap tags (t, false)) ms := by
  have go : ∀ (ms dest : List Entry), Distinct dest → Distinct (appendMembers F tags ms dest) ∧
      ∀ v, look (appendMembers F tags ms dest) v =
        Option.merge (· ||| ·) (look dest v) (viewOf (fun t => valueMap tags (t, false)) ms v) := by
    intro ms
    induction ms with
    | nil => exact fun dest h => ⟨h, fun v => by simp [appendMembers, viewOf, unionOf]⟩
    | cons m ms ih =>
      intro dest h
      rw [appendMembers, foldl_cons, ← appendMembers]
      cases hf : omTagFindByName tags m.value false with
      | none =>
        refine ⟨(ih dest h).1, fun v => ?_⟩
        have hnone : valueMap tags (m.value, false) v = none := by
          rw [valueMap, valuesOf, hf]
          rfl
        rw [(ih dest h).2, viewOf_cons, hnone]
        simp [admitted]
      | some t =>
        obtain ⟨-, -, ht⟩ := ok.of_find hf
        obtain ⟨hd, hl⟩ := appendList_look (F := F) m.flags h ht
        refine ⟨(ih _ hd).1, fun v => ?_⟩
        have hsome : valueMap tags (m.value, false) v = look t.values v := by
          rw [valueMap, valuesOf, hf]
          rfl
        rw [(ih _ hd).2, hl, merge_or_assoc, viewOf_cons, hsome]
  obtain ⟨hd, hl⟩ := go ms [] distinct_nil
  exact ⟨hd, funext fun v => by simp [hl]⟩

end

/-! ## The update of a group -/

section

variable {σ : Type} {F : Finder} {serviceTagUpdate : List Tag → Tag → Diff → σ → σ} {w : World σ}

/-- The view of the members of a group, by the tags that there are. -/
def membersView (tags : List Tag) (members : List Entry) : Name → Option UInt8 :=
  viewOf (fun t => valueMap tags (t, false)) members

/-- The update of a group changes the values of its tag to the view of its members. -/
theorem omTagGroupUpdate_spec (F : Finder) (serviceTagUpdate : List Tag → Tag → Diff → σ → σ)
    (ok : Ok w.tags) (g : Group) :
    Ok (omTagGroupUpdate F serviceTagUpdate w g).tags ∧
      (omTagGroupUpdate F serviceTagUpdate w g).groups = w.groups ∧
      ∀ n b, valuesOf (omTagGroupUpdate F serviceTagUpdate w g).tags n b =
        if (g.name, true) = (n, b) then
          (valuesOf w.tags n b).map fun _ => membersView w.tags g.tags
        else valuesOf w.tags n b := by
  obtain ⟨hd, hl⟩ := appendMembers_look (F := F) ok g.tags
  rw [omTagGroupUpdate]
  cases hf : omTagFindByName w.tags g.name true with
  | none =>
    refine ⟨ok, rfl, fun n b => ?_⟩
    split_ifs with hk
    · cases hk
      simp [valuesOf, hf]
    · rfl
  | some gtag =>
    obtain ⟨hmem, hkey, -⟩ := ok.of_find hf
    have hc : (Change.update gtag (appendMembers F w.tags g.tags [])).Valid w.tags := ⟨hmem, hd⟩
    refine ⟨ok.change F hc, rfl, fun n b => ?_⟩
    simp only [World.change, valuesOf_after ok hc, Change.tag, hkey, Change.values, hl, membersView]
    split_ifs with hnb
    · cases hnb
      simp [valuesOf, hf]
    · rfl

theorem membersView_congr {tags tags' : List Tag} {ms : List Entry}
    (h : ∀ n, valuesOf tags n false = valuesOf tags' n false) :
    membersView tags ms = membersView tags' ms := by
  refine viewOf_congr fun m _ => ?_
  funext v
  rw [valueMap, valueMap, h]

/-- The values of the tag of a group after an update for a tag. -/
def refreshed (tags : List Tag) (groups : List Group) (name n : Name) :
    Option (Name → Option UInt8) :=
  match findKey Group.name groups n with
  | some g =>
    if name ∈ g.tags.map Entry.value then
      (valuesOf tags n true).map fun _ => membersView tags g.tags
    else valuesOf tags n true
  | none => valuesOf tags n true

/-- A change of a tag updates the groups that list it. -/
theorem omTagGroupUpdateByTag_spec (F : Finder)
    (serviceTagUpdate : List Tag → Tag → Diff → σ → σ) (ok : Ok w.tags)
    (names : (w.groups.map Group.name).Nodup) (name : Name) :
    Ok (omTagGroupUpdateByTag F serviceTagUpdate w name).tags ∧
      (omTagGroupUpdateByTag F serviceTagUpdate w name).groups = w.groups ∧
      (∀ n, valuesOf (omTagGroupUpdateByTag F serviceTagUpdate w name).tags n false =
        valuesOf w.tags n false) ∧
      ∀ n, valuesOf (omTagGroupUpdateByTag F serviceTagUpdate w name).tags n true =
        refreshed w.tags w.groups name n := by
  have go : ∀ (gs : List Group) (w : World σ), Ok w.tags → (gs.map Group.name).Nodup →
      let w' := gs.foldl (fun w group =>
        if (F.find group.tags name).isSome then omTagGroupUpdate F serviceTagUpdate w group
        else w) w
      Ok w'.tags ∧ w'.groups = w.groups ∧
        (∀ n, valuesOf w'.tags n false = valuesOf w.tags n false) ∧
        ∀ n, valuesOf w'.tags n true = refreshed w.tags gs name n := by
    intro gs
    induction gs with
    | nil => exact fun w ok _ => ⟨ok, rfl, fun _ => rfl, fun _ => rfl⟩
    | cons g gs ih =>
      intro w ok names
      rw [map_cons, nodup_cons] at names
      have none_of_eq : ∀ n, g.name = n → findKey Group.name gs n = none := by
        rintro n rfl
        exact findKey_eq_none_iff.mpr names.1
      simp only [foldl_cons]
      by_cases hin : name ∈ g.tags.map Entry.value
      · rw [if_pos (F.find_isSome_iff.mpr hin)]
        obtain ⟨ok1, groups1, values1⟩ := omTagGroupUpdate_spec F serviceTagUpdate ok g
        obtain ⟨ok', groups', plain, views⟩ := ih _ ok1 names.2
        have plain1 : ∀ n, valuesOf (omTagGroupUpdate F serviceTagUpdate w g).tags n false =
            valuesOf w.tags n false := fun n => by simp [values1]
        refine ⟨ok', groups'.trans groups1, fun n => (plain n).trans (plain1 n), fun n => ?_⟩
        rw [views, refreshed, refreshed, findKey_cons]
        by_cases hn : g.name = n
        · rw [none_of_eq n hn]
          simp [values1, hn, hin]
        · simp [values1, hn, membersView_congr plain1]
      · rw [if_neg (mt F.find_isSome_iff.mp hin)]
        obtain ⟨ok', groups', plain, views⟩ := ih w ok names.2
        refine ⟨ok', groups', plain, fun n => ?_⟩
        rw [views, refreshed, refreshed, findKey_cons]
        by_cases hn : g.name = n
        · rw [if_pos hn, none_of_eq n hn]
          simp [hin]
        · rw [if_neg hn]
  exact go w.groups w ok names

end

end OpenSync.Tags
