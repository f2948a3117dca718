import OpenSync.Tags.List

/-!
# Tags and tag groups

The tags of `policy_tags.c` and the groups of `policy_tag_groups.c`.  `om_tags` holds the tags of
the `Openflow_Tag` and the `Openflow_Local_Tag` table and, for every group, a tag with the values
of its members.  `om_tag_groups` holds the member names of the groups, with their markers.

The user of the tags is told of every change through `service_tag_update`, a parameter here: a
function of `om_tags`, the tag and the difference, on a state of the user.  A change of a tag goes
on to the groups that list it (`om_tag_group_update_by_tag`), a change of a group no further.
-/

namespace OpenSync.Tags

open OpenSync.Lib

/-- `om_tag_t`. -/
structure Tag where
  name : Name
  group : Bool
  values : List Entry
deriving DecidableEq

/-- What a tag is found by: a tag and a group may have the same name. -/
def Tag.key (t : Tag) : Name × Bool := (t.name, t.group)

/-- `om_tag_group_t`. -/
structure Group where
  name : Name
  tags : List Entry
deriving DecidableEq

/-- `om_tags`, `om_tag_groups` and the state of the component behind `service_tag_update`. -/
structure World (σ : Type) where
  tags : List Tag := []
  groups : List Group := []
  client : σ

/-- `om_tag_find_by_name`. -/
def omTagFindByName (tags : List Tag) (name : Name) (group : Bool) : Option Tag :=
  findKey Tag.key tags (name, group)

/-- `om_tag_group_find_by_name`. -/
def omTagGroupFindByName (groups : List Group) (name : Name) : Option Group :=
  findKey Group.name groups name

/-- Other values for a tag of `om_tags`. -/
def setValues (tags : List Tag) (tag : Tag) (values : List Entry) : List Tag :=
  tags.map fun t => if t.key = tag.key then { t with values := values } else t

/-- Other members for a group of `om_tag_groups`. -/
def setMembers (groups : List Group) (group : Group) (tags : List Entry) : List Group :=
  groups.map fun g => if g.name = group.name then { g with tags := tags } else g

/-! ## References

The texts `${tag}` and `$[group]` of the source, with a marker behind the bracket.
-/

/-- What a text refers to. -/
inductive TagType where
  | notATag
  | tag
  | groupTag
deriving DecidableEq

/-- `om_tag_get_type`. -/
def omTagGetType (name : Name) : TagType :=
  if name.1.head? ≠ some 0x24 then .notATag
  else if name.1.length < 3 then .notATag
  else if name.1.getD 1 0 = 0x7b ∧ name.1.getLast? = some 0x7d then .tag
  else if name.1.getD 1 0 = 0x5b ∧ name.1.getLast? = some 0x5d then .groupTag
  else .notATag

def flagNone : UInt8 := 16

/-- The flag of a marker, and zero for any other byte. -/
def markerFlag (b : UInt8) : UInt8 :=
  if b = 0x40 then flagDevice else if b = 0x23 then flagCloud else if b = 0x2a then flagLocal else 0

/-- `om_get_type_of_tag`. -/
def omGetTypeOfTag (name : Name) : UInt8 :=
  if omTagGetType name = .notATag then flagNone
  else if markerFlag (name.1.getD 2 0) ≠ 0 then markerFlag (name.1.getD 2 0)
  else flagNone

/-- `strscpy_len` with the source length `-1`: without the last byte. -/
def strscpyButLast (s : Name) (size : Nat) : Name :=
  ⟨s.1.take (min (min s.1.length (size + 1) - 1) (size - 1)),
    fun h => s.2 (List.mem_of_mem_take h)⟩

/-- The text behind the bracket and the marker. -/
def behindMarker (name : Name) : Name :=
  let n := if markerFlag (name.1.getD 2 0) ≠ 0 then 3 else 2
  ⟨name.1.drop n, fun h => name.2 (List.mem_of_mem_drop h)⟩

/-- `om_tag_find`. -/
def omTagFind (tags : List Tag) (tagName : Name) : Option Tag :=
  match omTagGetType tagName with
  | .notATag => none
  | .tag => omTagFindByName tags (strscpyButLast (behindMarker tagName) 256) false
  | .groupTag => omTagFindByName tags (strscpyButLast (behindMarker tagName) 256) true

/-! ## Changes of one tag -/

/-- What the functions on tags have in common: `om_tags` changes in one tag, and the component is
told. -/
inductive Change where
  | add (tag : Tag)
  | remove (tag : Tag)
  | update (tag : Tag) (newValues : List Entry)
deriving DecidableEq

/-- The tag that the component is told of. -/
def Change.tag : Change → Tag
  | .add tag => tag
  | .remove tag => tag
  | .update tag _ => tag

section

variable {σ : Type} (F : Finder) (serviceTagUpdate : List Tag → Tag → Diff → σ → σ)

/-- The difference that the component is told. -/
def Change.diff : Change → Diff
  | .add tag => { added := tag.values }
  | .remove tag => { removed := tag.values }
  | .update tag newValues => listDiff F tag.values newValues

/-- `om_tags` after the change. -/
def Change.after (tags : List Tag) : Change → List Tag
  | .add tag => Ds.Ordered.insert Tag.name strcmp tags tag
  | .remove tag => Ds.Ordered.remove tags tag
  | .update tag newValues =>
    setValues tags tag (applyDiff F tag.values (listDiff F tag.values newValues))

/-- `om_tags` when the component is told: before the difference of an update is applied. -/
def Change.seen (tags : List Tag) : Change → List Tag
  | .update _ _ => tags
  | c => c.after F tags

def World.change (w : World σ) (c : Change) : World σ :=
  { w with
    client := serviceTagUpdate (c.seen F w.tags) c.tag (c.diff F) w.client
    tags := c.after F w.tags }

/-! ## Groups -/

/-- `om_tag_group_append_members`. -/
def appendMembers (tags : List Tag) (members dest : List Entry) : List Entry :=
  members.foldl (fun dest m =>
    match omTagFindByName tags m.value false with
    | some tag => appendList F dest tag.values m.flags
    | none => dest) dest

/-- `om_tag_group_update`.  The update of the tag of a group ends with its change. -/
def omTagGroupUpdate (w : World σ) (group : Group) : World σ :=
  match omTagFindByName w.tags group.name true with
  | some gtag =>
    w.change F serviceTagUpdate (.update gtag (appendMembers F w.tags group.tags []))
  | none => w

/-- `om_tag_group_update_by_tag`. -/
def omTagGroupUpdateByTag (w : World σ) (name : Name) : World σ :=
  w.groups.foldl (fun w group =>
    if (F.find group.tags name).isSome then omTagGroupUpdate F serviceTagUpdate w group else w) w

/-! ## Tags -/

/-- `om_tag_add`. -/
def omTagAdd (w : World σ) (tag : Tag) : Bool × World σ :=
  if (omTagFindByName w.tags tag.name tag.group).isSome then (false, w)
  else
    let w := w.change F serviceTagUpdate (.add tag)
    (true, if tag.group then w else omTagGroupUpdateByTag F serviceTagUpdate w tag.name)

/-- `om_tag_remove`. -/
def omTagRemove (w : World σ) (tag : Tag) : World σ :=
  let w := w.change F serviceTagUpdate (.remove tag)
  if tag.group then w else omTagGroupUpdateByTag F serviceTagUpdate w tag.name

/-- `om_tag_update`. -/
def omTagUpdate (w : World σ) (tag : Tag) (newValues : List Entry) : World σ :=
  let w := w.change F serviceTagUpdate (.update tag newValues)
  if tag.group then w else omTagGroupUpdateByTag F serviceTagUpdate w tag.name

/-! ## Rows -/

/-- The row of a tag or of a local tag. -/
inductive TagRow where
  | tag (deviceValue cloudValue : List Name)
  | localTag (values : List Name)
deriving DecidableEq

/-- `om_tag_add_list_from_schema`. -/
def omTagAddListFromSchema (deviceValue cloudValue : List Name) : List Entry :=
  cloudValue.foldl (fun l v =>
    match F.find l v with
    | some e => setFlags l e (e.flags ||| flagCloud)
    | none => entryAdd l v flagCloud)
    (deviceValue.foldl (fun l v => entryAdd l v flagDevice) [])

/-- `om_local_tag_add_list_from_schema`. -/
def omLocalTagAddListFromSchema (values : List Name) : List Entry :=
  values.foldl (fun l v => entryAdd l v flagLocal) []

/-- The values of a row. -/
def TagRow.list : TagRow → List Entry
  | .tag deviceValue cloudValue => omTagAddListFromSchema F deviceValue cloudValue
  | .localTag values => omLocalTagAddListFromSchema values

/-- `om_tag_add_from_schema` and `om_local_tag_add_from_schema`. -/
def omTagAddFromSchema (w : World σ) (name : Name) (row : TagRow) : Bool × World σ :=
  omTagAdd F serviceTagUpdate w ⟨name, false, row.list F⟩

/-- `om_tag_remove_from_schema` and `om_local_tag_remove_from_schema`. -/
def omTagRemoveFromSchema (w : World σ) (name : Name) : Bool × World σ :=
  match omTagFindByName w.tags name false with
  | none => (false, w)
  | some tag => (true, omTagRemove F serviceTagUpdate w tag)

/-- `om_tag_update_from_schema` and `om_local_tag_update_from_schema`. -/
def omTagUpdateFromSchema (w : World σ) (name : Name) (row : TagRow) : Bool × World σ :=
  match omTagFindByName w.tags name false with
  | none => (false, w)
  | some tag => (true, omTagUpdate F serviceTagUpdate w tag (row.list F))

/-- The rest of a string behind its first byte. -/
def Name.tail (s : Name) : Name := ⟨s.1.tail, fun h => s.2 (List.mem_of_mem_tail h)⟩

/-- A member of a group: the name of a tag behind a marker. -/
def member (name : Name) : Entry :=
  match name.1.head? with
  | some 0x40 => ⟨name.tail, flagDevice⟩
  | some 0x23 => ⟨name.tail, flagCloud⟩
  | some 0x2a => ⟨name.tail, flagLocal⟩
  | _ => ⟨name, 0⟩

/-- `om_tag_group_create_list_from_schema`. -/
def omTagGroupCreateListFromSchema (tags : List Name) : List Entry :=
  tags.foldl (fun l name => entryAdd l (member name).value (member name).flags) []

/-- `om_tag_group_add_from_schema`. -/
def omTagGroupAddFromSchema (w : World σ) (name : Name) (tags : List Name) : Bool × World σ :=
  if (omTagGroupFindByName w.groups name).isSome then (false, w)
  else
    let group : Group := ⟨name, omTagGroupCreateListFromSchema tags⟩
    let w := { w with groups := Ds.Ordered.insert Group.name strcmp w.groups group }
    omTagAdd F serviceTagUpdate w ⟨name, true, appendMembers F w.tags group.tags []⟩

/-- `om_tag_group_remove_from_schema`. -/
def omTagGroupRemoveFromSchema (w : World σ) (name : Name) : Bool × World σ :=
  match omTagGroupFindByName w.groups name with
  | none => (false, w)
  | some group =>
    let w := { w with groups := Ds.Ordered.remove w.groups group }
    match omTagFindByName w.tags group.name true with
    | some gtag => (true, omTagRemove F serviceTagUpdate w gtag)
    | none => (true, w)

/-- `om_tag_group_update_from_schema`. -/
def omTagGroupUpdateFromSchema (w : World σ) (name : Name) (tags : List Name) : Bool × World σ :=
  match omTagGroupFindByName w.groups name with
  | none => (false, w)
  | some group =>
    let diff := listDiff F group.tags (omTagGroupCreateListFromSchema tags)
    let group := { group with tags := applyDiff F group.tags diff }
    let w := { w with groups := setMembers w.groups group group.tags }
    (true, omTagGroupUpdate F serviceTagUpdate w group)

/-! ## Callbacks -/

/-- A change of a row of one of the three tables. -/
inductive Event where
  | tagNew (name : Name) (row : TagRow)
  | tagDel (name : Name)
  | tagModify (name : Name) (row : TagRow)
  | groupNew (name : Name) (tags : List Name)
  | groupDel (name : Name)
  | groupModify (name : Name) (tags : List Name)
deriving DecidableEq

/-- `om_callback_Openflow_Tag`, `…_Openflow_Local_Tag` and `…_Openflow_Tag_Group`.  A failure is
only logged. -/
def omCallback (w : World σ) : Event → World σ
  | .tagNew name row => (omTagAddFromSchema F serviceTagUpdate w name row).2
  | .tagDel name => (omTagRemoveFromSchema F serviceTagUpdate w name).2
  | .tagModify name row => (omTagUpdateFromSchema F serviceTagUpdate w name row).2
  | .groupNew name tags => (omTagGroupAddFromSchema F serviceTagUpdate w name tags).2
  | .groupDel name => (omTagGroupRemoveFromSchema F serviceTagUpdate w name).2
  | .groupModify name tags => (omTagGroupUpdateFromSchema F serviceTagUpdate w name tags).2

end

end OpenSync.Tags
