import OpenSync.Tags.View
import Mathlib.Data.Multiset.MapFold

/-!
# Changes of the tables

`groups_are_views` proves that the tags of the groups are views of the tables through every sequence
of changes of rows, and that every report of a change is the difference between the old and the new
values.  It needs a condition: `om_tag_group_update_from_schema` compares the members of a group by
their names, so a change of a group that lists a tag twice may leave it with other members than its
row has (`modified_group_is_no_view`).
-/

namespace OpenSync.Tags

open OpenSync.Lib Function List Change Ds.Ordered

/-! ## What every change keeps -/

/-- The members of the groups are those of the rows. -/
def GroupsMatch (T : Tables) (groups : List Group) : Prop :=
  ∀ n, (omTagGroupFindByName groups n).map (fun g => (g.tags : Multiset Entry)) =
    (T.group n).map fun row => ((row.map member : List Entry) : Multiset Entry)

/-- The tags have the values of their rows, and the tags of the groups are views. -/
structure Inv {σ : Type} (T : Tables) (w : World σ) : Prop where
  ok : Ok w.tags
  names : (w.groups.map Group.name).Nodup
  tags : ∀ n, valuesOf w.tags n false = (T.tag n).map TagRow.look
  groups : GroupsMatch T w.groups
  views : ∀ n, valuesOf w.tags n true = (T.group n).map T.view

section

variable {σ : Type} {F : Finder} {serviceTagUpdate : List Tag → Tag → Diff → σ → σ} {w : World σ}
  {T T' : Tables}

variable {row : List Name} {name : Name} {old : List Name}

theorem membersView_eq (tags : ∀ n, valuesOf w.tags n false = (T.tag n).map TagRow.look)
    {g : Group} (h : g.tags.Perm (row.map member)) : membersView w.tags g.tags = T.view row := by
  refine Eq.trans (funext fun _ => unionOf_perm (h.filterMap _)) (?_ : membersView _ _ = _)
  refine viewOf_congr fun m _ => ?_
  funext v
  rw [valueMap, tags]
  cases T.tag m.value <;> rfl

variable {groups : List Group}

theorem GroupsMatch.find {n : Name} (h : GroupsMatch T groups) (hrow : T.group n = some row) :
    ∃ g, findKey Group.name groups n = some g ∧ g.name = n ∧ g.tags.Perm (row.map member) := by
  have hn := h n
  rw [hrow, Option.map_some, Option.map_eq_some_iff] at hn
  obtain ⟨g, hg, hperm⟩ := hn
  exact ⟨g, hg, key_of_findKey hg, Multiset.coe_eq_coe.mp hperm⟩

theorem GroupsMatch.find_none {n : Name} (h : GroupsMatch T groups) (hrow : T.group n = none) :
    findKey Group.name groups n = none := by
  have hn := h n
  rwa [hrow, Option.map_none, Option.map_eq_none_iff] at hn

/-- After a change of one tag, updating the groups that list it makes them views again. -/
theorem inv_updateByTag (ok : Ok w.tags) (names : (w.groups.map Group.name).Nodup)
    (tags : ∀ n, valuesOf w.tags n false = (T'.tag n).map TagRow.look)
    (groups : GroupsMatch T w.groups)
    (views : ∀ n, valuesOf w.tags n true = (T.group n).map T.view) (same : T'.group = T.group)
    (others : ∀ n, n ≠ name → T'.tag n = T.tag n) :
    Inv T' (omTagGroupUpdateByTag F serviceTagUpdate w name) := by
  obtain ⟨ok', groups', plain, refresh⟩ :=
    omTagGroupUpdateByTag_spec F serviceTagUpdate ok names name
  refine ⟨ok', by rw [groups']; exact names, fun n => (plain n).trans (tags n), ?_, fun n => ?_⟩
  · rw [groups']
    intro n
    rw [same]
    exact groups n
  rw [refresh, refreshed, views, same]
  cases hrow : T.group n with
  | none =>
    rw [groups.find_none hrow]
    rfl
  | some row =>
    obtain ⟨g, hg, -, hperm⟩ := groups.find hrow
    simp only [hg, Option.map_some]
    rw [membersView_eq tags hperm]
    split_ifs with hin
    · rfl
    have hview : T.view row = T'.view row := by
      refine viewOf_congr fun m hm => ?_
      have hne : m.value ≠ name := by
        rintro rfl
        exact hin (mem_map_of_mem (hperm.mem_iff.mpr hm))
      rw [others m.value hne]
    rw [hview]

attribute [local simp] Tag.key

/-- A change of the tag of a row, and the update of the groups. -/
theorem inv_change {c : Change} {r : Option TagRow} (inv : Inv T w) (hc : c.Valid w.tags)
    (hplain : c.tag.group = false) (hvalues : c.values = r.map TagRow.look) :
    Inv { T with tag := Function.update T.tag c.tag.name r }
      (omTagGroupUpdateByTag F serviceTagUpdate (w.change F serviceTagUpdate c) c.tag.name) := by
  refine inv_updateByTag (inv.ok.change F hc) inv.names (fun n => ?_) inv.groups (fun n => ?_)
    rfl (fun n hn => update_of_ne hn _ _)
  · rw [World.change, valuesOf_after inv.ok hc, inv.tags, hvalues]
    by_cases hn : c.tag.name = n
    · simp [hn, hplain]
    · simp [hn, Ne.symm hn]
  · rw [World.change, valuesOf_after inv.ok hc, inv.views]
    simp [hplain]

theorem Inv.valuesOf_tag {old : TagRow} (inv : Inv T w) (hold : T.tag name = some old) :
    valuesOf w.tags name false = some old.look := by
  rw [inv.tags, hold]
  rfl

theorem inv_tagNew {row : TagRow} (inv : Inv T w) (hnew : T.tag name = none) (hrow : row.Nodup) :
    Inv (T.step (.tagNew name row)) (omCallback F serviceTagUpdate w (.tagNew name row)) := by
  obtain ⟨hd, hlook⟩ := TagRow.list_look (F := F) hrow
  have hfind : omTagFindByName w.tags name false = none :=
    find_of_values_none (by rw [inv.tags, hnew]; rfl)
  rw [omCallback, omTagAddFromSchema, omTagAdd, hfind]
  exact inv_change (c := .add ⟨name, false, row.list F⟩) (r := some row) inv ⟨hfind, hd⟩ rfl
    (congrArg some hlook)

theorem inv_tagDel {old : TagRow} (inv : Inv T w) (hold : T.tag name = some old) :
    Inv (T.step (.tagDel name)) (omCallback F serviceTagUpdate w (.tagDel name)) := by
  obtain ⟨t, hfind, hmem, rfl, hplain, -⟩ := inv.ok.find_of_values (inv.valuesOf_tag hold)
  simp only [omCallback, omTagRemoveFromSchema, hfind, omTagRemove, hplain]
  exact inv_change (c := .remove t) (r := none) inv hmem hplain rfl

theorem inv_tagModify {old row : TagRow} (inv : Inv T w) (hold : T.tag name = some old)
    (hrow : row.Nodup) :
    Inv (T.step (.tagModify name row)) (omCallback F serviceTagUpdate w (.tagModify name row)) := by
  obtain ⟨t, hfind, hmem, rfl, hplain, -⟩ := inv.ok.find_of_values (inv.valuesOf_tag hold)
  obtain ⟨hd, hlook⟩ := TagRow.list_look (F := F) hrow
  simp only [omCallback, omTagUpdateFromSchema, hfind, omTagUpdate, hplain]
  exact inv_change (c := .update t (row.list F)) (r := some row) inv ⟨hmem, hd⟩ hplain
    (congrArg some hlook)

attribute [local simp] Tables.step

theorem inv_groupNew (inv : Inv T w) (hnew : T.group name = none) :
    Inv (T.step (.groupNew name row)) (omCallback F serviceTagUpdate w (.groupNew name row)) := by
  have hfind : omTagFindByName w.tags name true = none :=
    find_of_values_none (by rw [inv.views, hnew]; rfl)
  set ms := omTagGroupCreateListFromSchema row
  obtain ⟨hd, hlook⟩ := appendMembers_look (F := F) inv.ok ms
  have hview : look (appendMembers F w.tags ms []) = T.view row :=
    hlook.trans (membersView_eq (g := ⟨name, _⟩) inv.tags (groupList_perm row))
  have same : (T.step (.groupNew name row)).view = T.view := rfl
  have hnone : omTagGroupFindByName w.groups name = none := inv.groups.find_none hnew
  have perm := insert_perm Group.name strcmp w.groups
    ⟨name, omTagGroupCreateListFromSchema row⟩
  have names : ((insert Group.name strcmp w.groups
      ⟨name, omTagGroupCreateListFromSchema row⟩).map Group.name).Nodup := by
    rw [(perm.map Group.name).nodup_iff]
    exact nodup_cons.mpr ⟨findKey_eq_none_iff.mp hnone, inv.names⟩
  simp only [omCallback, omTagGroupAddFromSchema, hnone, omTagAdd, hfind, Option.isSome_none,
    Bool.false_eq_true, if_false, if_true]
  have hc : (add ⟨name, true, appendMembers F w.tags
      ms []⟩).Valid w.tags := ⟨hfind, hd⟩
  refine ⟨inv.ok.change F hc, names, fun n => ?_, fun n => ?_, fun n => ?_⟩
  · rw [World.change, valuesOf_after inv.ok hc, inv.tags]
    simp [tag]
  · simp only [World.change, omTagGroupFindByName, findKey_perm names perm, findKey_cons,
      Tables.step]
    by_cases hn : name = n
    · subst hn
      simpa using Multiset.coe_eq_coe.mpr (groupList_perm row)
    · rw [if_neg hn, update_of_ne (Ne.symm hn)]
      exact inv.groups n
  · rw [World.change, valuesOf_after inv.ok hc, inv.views, values, hview, same]
    by_cases hn : name = n
    · simp [tag, hn]
    · simp [tag, hn, update_of_ne (Ne.symm hn)]

theorem inv_groupDel (inv : Inv T w) (hold : T.group name = some old) :
    Inv (T.step (.groupDel name)) (omCallback F serviceTagUpdate w (.groupDel name)) := by
  obtain ⟨g, hg, rfl, -⟩ := inv.groups.find hold
  obtain ⟨t, hfind, hmem, ht, hgroup, -⟩ := inv.ok.find_of_values
    (by rw [inv.views, hold]; rfl : valuesOf w.tags g.name true = some (T.view old))
  have same : (T.step (.groupDel g.name)).view = T.view := rfl
  have hgf : omTagGroupFindByName w.groups g.name = some g := hg
  simp only [omCallback, omTagGroupRemoveFromSchema, hgf, hfind, omTagRemove, hgroup, if_true]
  have names : ((remove w.groups g).map Group.name).Nodup :=
    .sublist (erase_sublist.map Group.name) inv.names
  have hc : (remove t).Valid w.tags := hmem
  refine ⟨inv.ok.change F hc, names, fun n => ?_, fun n => ?_, fun n => ?_⟩
  · rw [World.change, valuesOf_after inv.ok hc, inv.tags]
    simp [tag, hgroup]
  · simp only [World.change, omTagGroupFindByName, Ds.Ordered.remove,
      findKey_erase inv.names (mem_of_findKey hg), Tables.step]
    by_cases hn : g.name = n
    · simp [hn]
    · rw [if_neg hn, update_of_ne (Ne.symm hn)]
      exact inv.groups n
  · rw [World.change, valuesOf_after inv.ok hc, inv.views, same]
    by_cases hn : g.name = n
    · simp [tag, values, hn, ht, hgroup]
    · simp [tag, hn, ht, update_of_ne (Ne.symm hn)]

theorem inv_groupModify (inv : Inv T w) (hold : T.group name = some old)
    (hclean : Distinct (old.map member)) (hrow : Distinct (row.map member)) :
    Inv (T.step (.groupModify name row))
      (omCallback F serviceTagUpdate w (.groupModify name row)) := by
  obtain ⟨g, hg, rfl, hperm⟩ := inv.groups.find hold
  have hgf : omTagGroupFindByName w.groups g.name = some g := hg
  have hnew := hrow.perm (groupList_perm row).symm
  obtain ⟨hd, hlook⟩ := applyDiff_listDiff (F := F) (hclean.perm hperm.symm) hnew
  have hmembers := (perm_of_look hd hnew hlook).trans (groupList_perm row)
  have same : (T.step (.groupModify g.name row)).view = T.view := rfl
  simp only [omCallback, omTagGroupUpdateFromSchema, hgf]
  generalize applyDiff F g.tags (listDiff F g.tags (omTagGroupCreateListFromSchema row)) = ms
    at hmembers
  obtain ⟨ok, groups, values⟩ := omTagGroupUpdate_spec (w := { w with
    groups := setMembers w.groups { g with tags := ms } ms }) F serviceTagUpdate inv.ok
    { g with tags := ms }
  have keep : ∀ x : Group,
      (if x.name = g.name then { x with tags := ms } else x).name = x.name := by
    intro x
    split_ifs <;> rfl
  refine ⟨ok, ?_, fun n => ?_, fun n => ?_, fun n => ?_⟩
  · rw [groups, setMembers, map_map, show Group.name ∘ _ = Group.name from funext keep]
    exact inv.names
  · rw [values, if_neg (by simp)]
    exact inv.tags n
  · rw [groups, omTagGroupFindByName, setMembers, findKey_map keep]
    by_cases hn : g.name = n
    · subst hn
      simpa [hg] using hmembers
    have hgn := inv.groups n
    simp only [Tables.step, update_of_ne (Ne.symm hn), ← hgn, Option.map_map]
    refine Option.map_congr fun x hx => ?_
    have hxn : x.name ≠ g.name := by
      rw [key_of_findKey hx]
      exact Ne.symm hn
    simp [hxn]
  · rw [values, same, membersView_eq (g := { g with tags := ms }) inv.tags hmembers, inv.views]
    by_cases hn : g.name = n
    · subst hn
      simp [hold]
    · simp [hn, update_of_ne (Ne.symm hn)]

/-- Every accepted change that lists no tag of a group twice keeps the views. -/
theorem Inv.step {e : Event} (inv : Inv T w) (accepts : T.Accepts e) (clean : T.Clean e) :
    Inv (T.step e) (omCallback F serviceTagUpdate w e) := by
  cases e with
  | tagNew name row => exact inv_tagNew inv accepts.1 accepts.2
  | tagDel name =>
    obtain ⟨old, hold⟩ := accepts
    exact inv_tagDel inv hold
  | tagModify name row =>
    obtain ⟨⟨old, hold, -⟩, hrow⟩ := accepts
    exact inv_tagModify inv hold hrow
  | groupNew name row => exact inv_groupNew inv accepts
  | groupDel name =>
    obtain ⟨old, hold⟩ := accepts
    exact inv_groupDel inv hold
  | groupModify name row =>
    obtain ⟨old, hold⟩ := accepts
    exact inv_groupModify inv hold (clean.1 old hold) clean.2

end

/-! ## Reports -/

/-- A call of `service_tag_update`: the tag and the difference. -/
abbrev Call := (Name × Bool) × Diff

/-- A component that writes down what it is told. -/
def logCall (_ : List Tag) (tag : Tag) (diff : Diff) (calls : List Call) : List Call :=
  calls ++ [(tag.key, diff)]

/-- The calls report each tag once, with the difference between its old and new values, and no other
tag has changed. -/
structure Reports (tags tags' : List Tag) (calls : List Call) : Prop where
  nodup : (calls.map Prod.fst).Nodup
  exact : ∀ c ∈ calls, IsDiff (valueMap tags c.1) (valueMap tags' c.1) c.2
  others : ∀ k, k ∉ calls.map Prod.fst → valueMap tags' k = valueMap tags k

section

variable {F : Finder} {w : World (List Call)} {tags tags' tags'' : List Tag}
  {calls calls' : List Call}

theorem Reports.nil (tags : List Tag) : Reports tags tags [] :=
  ⟨nodup_nil, by simp, fun _ _ => rfl⟩

theorem Reports.single {k : Name × Bool} {d : Diff}
    (exact : IsDiff (valueMap tags k) (valueMap tags' k) d)
    (others : ∀ k', k' ≠ k → valueMap tags' k' = valueMap tags k') :
    Reports tags tags' [(k, d)] where
  nodup := by simp
  exact := by simpa using exact
  others := fun k' hk' => others k' (by simpa using hk')

/-- Changes of different tags, one after the other. -/
theorem Reports.append (h : Reports tags tags' calls) (h' : Reports tags' tags'' calls')
    (disjoint : ∀ c ∈ calls, ∀ c' ∈ calls', c.1 ≠ c'.1) :
    Reports tags tags'' (calls ++ calls') where
  nodup := by
    rw [map_append, nodup_append]
    refine ⟨h.nodup, h'.nodup, ?_⟩
    rintro k hk k' hk' rfl
    obtain ⟨c, hc, rfl⟩ := mem_map.mp hk
    obtain ⟨c', hc', heq⟩ := mem_map.mp hk'
    exact disjoint c hc c' hc' heq.symm
  exact := by
    intro c hc
    rcases mem_append.mp hc with hc | hc
    · rw [h'.others c.1]
      · exact h.exact c hc
      · intro hmem
        obtain ⟨c', hc', heq⟩ := mem_map.mp hmem
        exact disjoint c hc c' hc' heq.symm
    · rw [← h.others c.1]
      · exact h'.exact c hc
      · intro hmem
        obtain ⟨c', hc', heq⟩ := mem_map.mp hmem
        exact disjoint c' hc' c hc heq
  others := by
    intro k hk
    rw [map_append, mem_append, not_or] at hk
    rw [h'.others k hk.2, h.others k hk.1]

theorem Change.reports {c : Change} (ok : Ok tags) (hc : c.Valid tags) :
    Reports tags (c.after F tags) [(c.tag.key, c.diff F)] := by
  refine .single (isDiff ok hc) fun k hk => funext fun v => ?_
  rw [valueMap, valueMap, valuesOf_after ok hc, if_neg hk.symm]

/-- The calls that a part of a change makes, which report only some tags. -/
def Told (S : Name × Bool → Prop) (w w' : World (List Call)) : Prop :=
  ∃ calls, w'.client = w.client ++ calls ∧ Reports w.tags w'.tags calls ∧ ∀ c ∈ calls, S c.1

theorem omTagGroupUpdate_told (ok : Ok w.tags) (g : Group) :
    Told (· = (g.name, true)) w (omTagGroupUpdate F logCall w g) := by
  rw [omTagGroupUpdate]
  cases hf : omTagFindByName w.tags g.name true with
  | none => exact ⟨[], by simp, .nil _, by simp⟩
  | some gtag =>
    obtain ⟨hmem, hkey, -⟩ := ok.of_find hf
    obtain ⟨hd, -⟩ := appendMembers_look (F := F) ok g.tags
    exact ⟨_, rfl, reports (c := .update gtag _) ok ⟨hmem, hd⟩, by simp [tag, hkey]⟩

theorem omTagGroupUpdateByTag_told (ok : Ok w.tags) (names : (w.groups.map Group.name).Nodup)
    (name : Name) :
    Told (fun k => k.2 = true) w (omTagGroupUpdateByTag F logCall w name) := by
  have go : ∀ (gs : List Group) (w : World (List Call)), Ok w.tags → (gs.map Group.name).Nodup →
      Told (fun k => ∃ g ∈ gs, k = (g.name, true)) w (gs.foldl (fun w group =>
        if (F.find group.tags name).isSome then omTagGroupUpdate F logCall w group else w) w) := by
    intro gs
    induction gs with
    | nil => exact fun w _ _ => ⟨[], by simp, .nil _, by simp⟩
    | cons g gs ih =>
      intro w ok names
      rw [map_cons, nodup_cons] at names
      simp only [foldl_cons]
      split_ifs
      · obtain ⟨calls, hclient, reports, hkeys⟩ := omTagGroupUpdate_told (F := F) ok g
        obtain ⟨calls', hclient', reports', hkeys'⟩ := ih _
          (omTagGroupUpdate_spec F logCall ok g).1 names.2
        refine ⟨calls ++ calls', ?_, reports.append reports' ?_, ?_⟩
        · rw [hclient', hclient, append_assoc]
        · intro c hc c' hc' heq
          obtain ⟨g', hg', hk'⟩ := hkeys' c' hc'
          rw [hkeys c hc, hk'] at heq
          exact names.1 (mem_map.mpr ⟨g', hg', (congrArg Prod.fst heq).symm⟩)
        · intro c hc
          rcases mem_append.mp hc with hc | hc
          · exact ⟨g, mem_cons_self, hkeys c hc⟩
          · obtain ⟨g', hg', hk'⟩ := hkeys' c hc
            exact ⟨g', mem_cons_of_mem g hg', hk'⟩
      · obtain ⟨calls, hclient, reports, hkeys⟩ := ih w ok names.2
        refine ⟨calls, hclient, reports, fun c hc => ?_⟩
        obtain ⟨g', hg', hk'⟩ := hkeys c hc
        exact ⟨g', mem_cons_of_mem g hg', hk'⟩
  obtain ⟨calls, hclient, reports, hkeys⟩ := go w.groups w ok names
  refine ⟨calls, hclient, reports, fun c hc => ?_⟩
  obtain ⟨g, -, hk⟩ := hkeys c hc
  rw [hk]

/-- A change of a tag that is reported, followed by the update of the groups. -/
theorem told_updateByTag {w1 : World (List Call)} {name : Name} {c : Call} (ok : Ok w1.tags)
    (names : (w1.groups.map Group.name).Nodup) (hc : c.1.2 = false)
    (hclient : w1.client = w.client ++ [c]) (reports : Reports w.tags w1.tags [c]) :
    Told (fun _ => True) w (omTagGroupUpdateByTag F logCall w1 name) := by
  obtain ⟨calls, hclient', reports', hkeys⟩ := omTagGroupUpdateByTag_told (F := F) ok names name
  refine ⟨c :: calls, by rw [hclient', hclient]; simp, ?_, fun _ _ => trivial⟩
  refine reports.append reports' ?_
  simp only [mem_singleton]
  rintro _ rfl c' hc' heq
  rw [heq, hkeys c' hc'] at hc
  cases hc

theorem Inv.told {T : Tables} {e : Event} (inv : Inv T w) (accepts : T.Accepts e) :
    Told (fun _ => True) w (omCallback F logCall w e) := by
  cases e with
  | tagNew name row =>
    obtain ⟨hnew, hrow⟩ := accepts
    obtain ⟨hd, -⟩ := TagRow.list_look (F := F) hrow
    have hfind : omTagFindByName w.tags name false = none :=
      find_of_values_none (by rw [inv.tags, hnew]; rfl)
    rw [omCallback, omTagAddFromSchema, omTagAdd, hfind]
    have hc : (add ⟨name, false, row.list F⟩).Valid w.tags := ⟨hfind, hd⟩
    exact told_updateByTag (inv.ok.change F hc) inv.names rfl rfl (reports inv.ok hc)
  | tagDel name =>
    obtain ⟨old, hold⟩ := accepts
    obtain ⟨t, hfind, hmem, -, hplain, -⟩ := inv.ok.find_of_values (inv.valuesOf_tag hold)
    simp only [omCallback, omTagRemoveFromSchema, hfind, omTagRemove, hplain]
    have hc : (remove t).Valid w.tags := hmem
    exact told_updateByTag (inv.ok.change F hc) inv.names hplain rfl (reports inv.ok hc)
  | tagModify name row =>
    obtain ⟨⟨old, hold, -⟩, hrow⟩ := accepts
    obtain ⟨t, hfind, hmem, -, hplain, -⟩ := inv.ok.find_of_values (inv.valuesOf_tag hold)
    obtain ⟨hd, -⟩ := TagRow.list_look (F := F) hrow
    simp only [omCallback, omTagUpdateFromSchema, hfind, omTagUpdate, hplain]
    have hc : (update t (row.list F)).Valid w.tags := ⟨hmem, hd⟩
    exact told_updateByTag (inv.ok.change F hc) inv.names hplain rfl (reports inv.ok hc)
  | groupNew name row =>
    have hfind : omTagFindByName w.tags name true = none :=
      find_of_values_none (by rw [inv.views, accepts]; rfl)
    have hnone : omTagGroupFindByName w.groups name = none := inv.groups.find_none accepts
    obtain ⟨hd, -⟩ := appendMembers_look (F := F) inv.ok (omTagGroupCreateListFromSchema row)
    simp only [omCallback, omTagGroupAddFromSchema, hnone, omTagAdd, hfind]
    exact ⟨_, rfl, reports (c := .add _) inv.ok ⟨hfind, hd⟩, fun _ _ => trivial⟩
  | groupDel name =>
    obtain ⟨old, hold⟩ := accepts
    obtain ⟨g, hg, rfl, -⟩ := inv.groups.find hold
    obtain ⟨t, hfind, hmem, -, hgroup, -⟩ := inv.ok.find_of_values
      (by rw [inv.views, hold]; rfl : valuesOf w.tags g.name true = some (T.view old))
    have hgf : omTagGroupFindByName w.groups g.name = some g := hg
    simp only [omCallback, omTagGroupRemoveFromSchema, hgf, hfind, omTagRemove, hgroup]
    exact ⟨_, rfl, reports (c := .remove t) inv.ok hmem, fun _ _ => trivial⟩
  | groupModify name row =>
    obtain ⟨old, hold⟩ := accepts
    obtain ⟨g, hg, rfl, -⟩ := inv.groups.find hold
    have hgf : omTagGroupFindByName w.groups g.name = some g := hg
    simp only [omCallback, omTagGroupUpdateFromSchema, hgf]
    generalize applyDiff F g.tags (listDiff F g.tags (omTagGroupCreateListFromSchema row)) = ms
    obtain ⟨calls, hclient, reports, -⟩ := omTagGroupUpdate_told (F := F) (w := { w with
      groups := setMembers w.groups { g with tags := ms } ms }) inv.ok { g with tags := ms }
    exact ⟨calls, hclient, reports, fun _ _ => trivial⟩

end

/-! ## Runs -/

/-- The same tags, before a change. -/
def World.clear (w : World (List Call)) : World (List Call) := { w with client := [] }

variable {w : World (List Call)}

theorem Inv.clear {T : Tables} (inv : Inv T w) : Inv T w.clear :=
  ⟨inv.ok, inv.names, inv.tags, inv.groups, inv.views⟩

/-- A change of a row, with the calls that it makes. -/
def step (F : Finder) (w : World (List Call)) (e : Event) : World (List Call) :=
  omCallback F logCall w.clear e

/-- The tables and the tags after a sequence of changes. -/
inductive Reach : Tables → World (List Call) → Prop where
  | init : Reach {} { client := [] }
  | step {T : Tables} {w : World (List Call)} (reach : Reach T w) (F : Finder) {e : Event}
    (accepts : T.Accepts e) (clean : T.Clean e) : Reach (T.step e) (Tags.step F w e)

theorem Reach.inv {T : Tables} (h : Reach T w) : Inv T w := by
  induction h with
  | init =>
    exact ⟨⟨nodup_nil, by simp⟩, nodup_nil, fun _ => rfl, fun _ => rfl, fun _ => rfl⟩
  | step _ F accepts clean ih => exact ih.clear.step accepts clean

/-- After every change the tags of the groups are the views of the tables, each value once, and
the calls report the change. -/
theorem groups_are_views {T : Tables} {w : World (List Call)} {e : Event} (reach : Reach T w)
    (accepts : T.Accepts e) (clean : T.Clean e) (F : Finder) :
    (∀ n, valuesOf (step F w e).tags n true = ((T.step e).group n).map (T.step e).view) ∧
      (∀ t ∈ (step F w e).tags, Distinct t.values) ∧
      Reports w.tags (step F w e).tags (step F w e).client := by
  have after := (reach.step F accepts clean).inv
  obtain ⟨calls, hclient, reports, -⟩ := reach.inv.clear.told (F := F) accepts
  refine ⟨after.views, after.ok.distinct, ?_⟩
  rw [step, hclient]
  exact reports

def nameT : Name := cstrOf [0x74]
def nameG : Name := ⟨[0x67], by decide⟩
def valueA : Name := cstrOf [0x61]
def valueB : Name := cstrOf [0x62]

/-- The tag under the marker of the device. -/
def deviceT : Name := ⟨[0x40, 0x74], by decide⟩

/-- The tag under the marker of the cloud. -/
def cloudT : Name := ⟨[0x23, 0x74], by decide⟩

/-- The tag has a device value and a cloud value. -/
def newTag : Event := .tagNew nameT (.tag [valueA] [valueB])

/-- A group that lists a tag under two markers, and a change of the tag. -/
theorem groups_are_views_both :
    let T := (({} : Tables).step newTag).step (.groupNew nameG [deviceT, cloudT])
    let w := step .last (step .last { client := [] } newTag) (.groupNew nameG [deviceT, cloudT])
    let e : Event := .tagModify nameT (.tag [valueB] [valueB])
    T.Accepts e ∧ T.Clean e ∧
      valuesOf (step .last w e).tags nameG true = some ((T.step e).view [deviceT, cloudT]) := by
  have reach := (Reach.init.step .last (e := newTag) ⟨rfl, by decide, by decide⟩ trivial).step .last
    (e := .groupNew nameG [deviceT, cloudT]) rfl trivial
  have accepts : ((({} : Tables).step newTag).step (.groupNew nameG [deviceT, cloudT])).Accepts
        (.tagModify nameT (.tag [valueB] [valueB])) :=
    ⟨⟨_, rfl, trivial⟩, by decide, by decide⟩
  refine ⟨accepts, trivial, ?_⟩
  rw [(groups_are_views reach accepts trivial .last).1 nameG]
  rfl

/-- The group lists the tag for the device, and its row is changed to list it for the cloud as
well.  It misses the value of the cloud or that of the device, by the entry that is found. -/
theorem modified_group_is_no_view :
    let T := (({} : Tables).step newTag).step (.groupNew nameG [deviceT])
    let w := fun F => step F (step F { client := [] } newTag)
      (.groupNew nameG [deviceT])
    let e : Event := .groupModify nameG [deviceT, cloudT]
    (T.Accepts e ∧ (T.step e).view [deviceT, cloudT] valueA = some flagDevice ∧
        (T.step e).view [deviceT, cloudT] valueB = some flagCloud) ∧
      valueMap (step .last (w .last) e).tags (nameG, true) valueB = none ∧
      valueMap (step .first (w .first) e).tags (nameG, true) valueA = none := by
  refine ⟨⟨⟨_, rfl⟩, ?_⟩, ?_⟩ <;> decide +kernel

end OpenSync.Tags
