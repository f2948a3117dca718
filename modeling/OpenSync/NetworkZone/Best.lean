import OpenSync.NetworkZone.Elem
import Mathlib.Algebra.BigOperators.Group.List.Basic

/-!
# The best zone of a device

`network_zone_get_zone` gives a zone of the highest priority among those that list the device, by
its address or by a tag that has the address among its values.

`best_zone` proves it for every sequence of changes of the zones and the tags under a condition,
`Clean`.  The tags are monitored by their names alone, so a name may be listed only once, as a tag
or as a group, over all zones; a change of a tag goes to the devices whatever the marker says, so
the marker may not tell the values of the change apart; the texts have to fit the buffers of 64
bytes; and a change of a row may not change the name of its zone.
-/

namespace OpenSync.NetworkZone

open OpenSync.Lib OpenSync.Tags List TagEntry Ds.Ordered

/-! ## The zones -/

def refsOf (Z : List Zone) : List (Zone × Ref) :=
  Z.flatMap fun z => (z.deviceTags.filterMap refOf).map fun r => (z, r)

/-- The texts fit, and no name of a tag or a group is listed twice. -/
structure CleanZones (Z : List Zone) : Prop where
  short : ∀ z ∈ Z, z.name.1.length < 64
  fits : ∀ z ∈ Z, ∀ elem ∈ z.deviceTags, Fits elem
  once : ((refsOf Z).map fun p => p.2.name).Nodup

def zonesAfter (Z : List Zone) : Event → List Zone
  | .zoneNew nz => nz :: Z
  | .zoneDel name => Z.filter fun z => z.name ≠ name
  | .zoneModify oldName nz => nz :: Z.filter fun z => z.name ≠ oldName
  | .tag _ => Z

/-- The changes that come: the zones keep distinct names, their elements are addresses and
references, and the tags are there. -/
def Accepts (Z : List Zone) (tags : List Tag) : Event → Prop
  | .zoneNew nz => nz.name ∉ Z.map Zone.name ∧ ∀ elem ∈ nz.deviceTags, WellFormed elem
  | .zoneDel name => name ∈ Z.map Zone.name
  | .zoneModify oldName nz => oldName ∈ Z.map Zone.name ∧
      (nz.name = oldName ∨ nz.name ∉ Z.map Zone.name) ∧ ∀ elem ∈ nz.deviceTags, WellFormed elem
  | .tag c => c.Valid tags

/-- A marker does not tell the values of a change apart: it selects those that come and go, and one
with other flags before and after or not at all. -/
def SelectsAlike (filter : UInt8) : Option UInt8 → Option UInt8 → Prop
  | none, none => True
  | none, some g => admits filter g
  | some f, none => admits filter f
  | some f, some g => admits filter f = admits filter g

/-- The condition on a change. -/
def Clean (F : Finder) (Z : List Zone) (tags : List Tag) : Event → Prop
  | .zoneNew nz => CleanZones (nz :: Z)
  | .zoneDel _ => True
  | .zoneModify oldName nz =>
    nz.name = oldName ∧ CleanZones (nz :: Z.filter fun z => z.name ≠ oldName)
  | .tag c => ∀ p ∈ refsOf Z, p.2.name = c.tag.name → p.2.group = c.tag.group ∧
      ∀ v, SelectsAlike p.2.filter (valueMap tags c.tag.key v)
        (valueMap (c.after F tags) c.tag.key v)

/-- The entries of a device, one for every reason why it is in a zone. -/
def expected (P : MacParser) (tags : List Tag) (Z : List Zone) (mac : Mac) : Multiset DeviceZone :=
  (Z.map fun z => Multiset.replicate ((zoneMacs P tags z).count mac) z.device).sum

structure Inv (P : MacParser) (Z : List Zone) (s : Sys) : Prop where
  ok : Ok s.tags
  names : (Z.map Zone.name).Nodup
  wellFormed : ∀ z ∈ Z, ∀ elem ∈ z.deviceTags, WellFormed elem
  clean : CleanZones Z
  cache : s.mgr.nzCache.Perm Z
  monitor : s.mgr.tagsToMonitor.Perm ((refsOf Z).map fun p => entryOf p.1 p.2)
  entries : ∀ mac, (s.mgr.deviceCache mac : Multiset DeviceZone) = expected P s.tags Z mac
  sorted : ∀ mac, SortedZones (s.mgr.deviceCache mac)

section

variable {P : MacParser} {tags : List Tag} {Z Z' : List Zone} {z : Zone} {mac : Mac} {s : Sys}

theorem refsOf_cons : refsOf (z :: Z) =
    (z.deviceTags.filterMap refOf).map (fun r => (z, r)) ++ refsOf Z := rfl

theorem refsOf_perm (h : Z.Perm Z') : (refsOf Z).Perm (refsOf Z') := h.flatMap_right _

theorem expected_cons : expected P tags (z :: Z) mac =
    Multiset.replicate ((zoneMacs P tags z).count mac) z.device + expected P tags Z mac := by
  rw [expected, map_cons, sum_cons, expected]

theorem expected_perm (h : Z.Perm Z') : expected P tags Z mac = expected P tags Z' mac :=
  (h.map _).sum_eq

theorem mem_expected {d : DeviceZone} :
    d ∈ expected P tags Z mac ↔ ∃ z ∈ Z, mac ∈ zoneMacs P tags z ∧ d = z.device := by
  induction Z with
  | nil => simp [expected]
  | cons z Z ih =>
    rw [expected_cons, Multiset.mem_add, ih, Multiset.mem_replicate]
    simp [count_eq_zero]

theorem CleanZones.perm (h : CleanZones Z) (perm : Z.Perm Z') : CleanZones Z' where
  short := fun z hz => h.short z (perm.mem_iff.mpr hz)
  fits := fun z hz => h.fits z (perm.mem_iff.mpr hz)
  once := ((refsOf_perm perm).map _).nodup_iff.mp h.once

theorem CleanZones.tail (h : CleanZones (z :: Z)) : CleanZones Z where
  short := fun z' hz' => h.short z' (mem_cons_of_mem z hz')
  fits := fun z' hz' => h.fits z' (mem_cons_of_mem z hz')
  once := by
    have := h.once
    rw [refsOf_cons, map_append] at this
    exact (nodup_append.mp this).2.1

/-- The entries of a device with the name of a zone are those of the zone. -/
theorem Inv.uniform (inv : Inv P Z s) (hz : z ∈ Z) : Uniform z.device s.mgr := by
  intro mac x hx hname
  rw [← Multiset.mem_coe, inv.entries, mem_expected] at hx
  obtain ⟨z', hz', -, rfl⟩ := hx
  rw [inj_on_of_nodup_map inv.names hz' hz hname]

end

/-! ## Zones that come and go -/

section

variable {z : Zone}

section

variable (P : MacParser) (tags : List Tag) (hshort : z.name.1.length < 64) (mgr : Mgr)

include hshort

section

variable {elems : List Name} (hwf : ∀ elem ∈ elems, WellFormed elem)
  (hfits : ∀ elem ∈ elems, Fits elem)

include hwf hfits

theorem addElems_spec
    (hnodup : ((elems.filterMap refOf).map Ref.name ++ mgr.tagsToMonitor.map TagEntry.name).Nodup) :
    Adds z.device (elems.flatMap (elemMacs P tags)) mgr (elems.foldl (addElem P tags z) mgr) ∧
      (elems.foldl (addElem P tags z) mgr).nzCache = mgr.nzCache ∧
      (elems.foldl (addElem P tags z) mgr).tagsToMonitor.Perm
        ((elems.filterMap refOf).map (entryOf z) ++ mgr.tagsToMonitor) := by
  induction elems generalizing mgr with
  | nil => exact ⟨.refl rfl, rfl, .refl _⟩
  | cons elem elems ih =>
    have hwf' := fun e he => hwf e (mem_cons_of_mem elem he)
    have hfits' := fun e he => hfits e (mem_cons_of_mem elem he)
    cases hr : refOf elem with
    | none =>
      rw [filterMap_cons_none hr] at hnodup ⊢
      obtain ⟨hadd, hframe⟩ := addElem_mac P tags mgr hshort hr
      obtain ⟨hadds, hnz, hmon⟩ := ih (addElem P tags z mgr elem) hwf' hfits'
        (by rwa [hframe.tagsToMonitor])
      rw [hframe.tagsToMonitor] at hmon
      exact ⟨hadd.trans hadds, hnz.trans hframe.nzCache, hmon⟩
    | some r =>
      rw [filterMap_cons_some hr, map_cons, cons_append, nodup_cons] at hnodup
      rw [filterMap_cons_some hr]
      obtain ⟨hadd, hnz1, hmon1⟩ := addElem_ref P tags mgr hshort (hwf elem mem_cons_self)
        (hfits elem mem_cons_self) hr fun hmem => hnodup.1 (mem_append_right _ hmem)
      have hnodup' : ((elems.filterMap refOf).map Ref.name ++
          (addElem P tags z mgr elem).tagsToMonitor.map name).Nodup := by
        have hperm := ((hmon1.map name).append_left
          ((elems.filterMap refOf).map Ref.name)).trans perm_middle
        rw [hperm.nodup_iff]
        exact nodup_cons.mpr hnodup
      obtain ⟨hadds, hnz, hmon⟩ := ih (addElem P tags z mgr elem) hwf' hfits' hnodup'
      refine ⟨hadd.trans hadds, hnz.trans hnz1, hmon.trans ?_⟩
      exact (hmon1.append_left _).trans perm_middle

theorem delElems_spec {rest : List TagEntry} (hnodup : (mgr.tagsToMonitor.map TagEntry.name).Nodup)
    (hmon : mgr.tagsToMonitor.Perm ((elems.filterMap refOf).map (entryOf z) ++ rest)) :
    Dels z.device (elems.flatMap (elemMacs P tags)) mgr (elems.foldl (delElem P tags z) mgr) ∧
      (elems.foldl (delElem P tags z) mgr).nzCache = mgr.nzCache ∧
      (elems.foldl (delElem P tags z) mgr).tagsToMonitor.Perm rest := by
  induction elems generalizing mgr with
  | nil => exact ⟨.refl rfl, rfl, hmon⟩
  | cons elem elems ih =>
    have hwf' := fun e he => hwf e (mem_cons_of_mem elem he)
    have hfits' := fun e he => hfits e (mem_cons_of_mem elem he)
    cases hr : refOf elem with
    | none =>
      rw [filterMap_cons_none hr] at hmon
      obtain ⟨hdel, hframe⟩ := delElem_mac P tags mgr hshort hr
      obtain ⟨hdels, hnz, hmon'⟩ := ih (delElem P tags z mgr elem) hwf' hfits'
        (by rwa [hframe.tagsToMonitor]) (by rwa [hframe.tagsToMonitor])
      exact ⟨hdel.trans hdels, hnz.trans hframe.nzCache, hmon'⟩
    | some r =>
      rw [filterMap_cons_some hr, map_cons] at hmon
      obtain ⟨hdel, hnz1, hmon1⟩ := delElem_ref P tags mgr hshort (hwf elem mem_cons_self)
        (hfits elem mem_cons_self) hr hnodup (hmon.mem_iff.mpr mem_cons_self)
      have hmon' : (delElem P tags z mgr elem).tagsToMonitor.Perm
          ((elems.filterMap refOf).map (entryOf z) ++ rest) := by
        rw [hmon1]
        simpa using hmon.erase (entryOf z r)
      have hnodup' : ((delElem P tags z mgr elem).tagsToMonitor.map name).Nodup := by
        rw [hmon1]
        exact .sublist (erase_sublist.map name) hnodup
      obtain ⟨hdels, hnz, hrest⟩ := ih (delElem P tags z mgr elem) hwf' hfits' hnodup' hmon'
      exact ⟨hdel.trans hdels, hnz.trans hnz1, hrest⟩

end

end

end

section

variable {P : MacParser} {Z : List Zone} {s : Sys}

theorem Inv.monitor_nodup (inv : Inv P Z s) : (s.mgr.tagsToMonitor.map TagEntry.name).Nodup := by
  rw [(inv.monitor.map name).nodup_iff, map_map]
  exact inv.clean.once

theorem Inv.zoneNew (F : Finder) {nz : Zone} (inv : Inv P Z s) (hname : nz.name ∉ Z.map Zone.name)
    (hwf : ∀ elem ∈ nz.deviceTags, WellFormed elem) (hclean : CleanZones (nz :: Z)) :
    Inv P (nz :: Z) (step P F s (.zoneNew nz)) := by
  have hnodup : ((nz.deviceTags.filterMap refOf).map Ref.name ++
      s.mgr.tagsToMonitor.map name).Nodup := by
    have hperm := (inv.monitor.map name).append_left
      ((nz.deviceTags.filterMap refOf).map Ref.name)
    rw [hperm.nodup_iff]
    have honce := hclean.once
    rw [refsOf_cons, map_append] at honce
    simpa [Function.comp_def, entryOf] using honce
  obtain ⟨hadds, hnz, hmon⟩ := addElems_spec P s.tags
    (hclean.short nz mem_cons_self) s.mgr hwf (hclean.fits nz mem_cons_self) hnodup
  have hstep : (step P F s (.zoneNew nz)).mgr = {
      nz.deviceTags.foldl (addElem P s.tags nz) s.mgr with
      nzCache := insert Zone.name strcmp
        (nz.deviceTags.foldl (addElem P s.tags nz) s.mgr).nzCache nz } := rfl
  exact {
    ok := inv.ok
    names := nodup_cons.mpr ⟨hname, inv.names⟩
    wellFormed := forall_mem_cons.mpr ⟨hwf, inv.wellFormed⟩
    clean := hclean
    cache := by
      rw [hstep, hnz]
      exact (insert_perm Zone.name strcmp _ nz).trans (inv.cache.cons nz)
    monitor := by
      rw [hstep, refsOf_cons, map_append, map_map]
      exact hmon.trans (inv.monitor.append_left _)
    entries := fun mac => by
      rw [hstep, expected_cons, add_comm]
      refine (hadds.entries mac).trans ?_
      rw [inv.entries, Multiset.coe_count]
      rfl
    sorted := hadds.sorted inv.sorted }

theorem Inv.zoneDel (F : Finder) {name : Name} (inv : Inv P Z s) (hname : name ∈ Z.map Zone.name) :
    Inv P (Z.filter fun z => z.name ≠ name) (step P F s (.zoneDel name)) := by
  obtain ⟨z, hz, rfl⟩ := mem_map.mp hname
  have hfindZ : findKey Zone.name Z z.name = some z := (findKey_eq_some_iff inv.names).mpr ⟨hz, rfl⟩
  have hperm := perm_cons_of_findKey inv.names hfindZ
  have hfind : findKey Zone.name s.mgr.nzCache z.name = some z := by
    rw [findKey_perm ((inv.cache.map Zone.name).nodup_iff.mpr inv.names) inv.cache]
    exact hfindZ
  generalize Z.filter (fun x => x.name ≠ z.name) = Z' at hperm ⊢
  have hclean := inv.clean.perm hperm
  have hmon : s.mgr.tagsToMonitor.Perm ((z.deviceTags.filterMap refOf).map (entryOf z) ++
      (refsOf Z').map fun p => entryOf p.1 p.2) := by
    have h := inv.monitor.trans ((refsOf_perm hperm).map fun p => entryOf p.1 p.2)
    rwa [refsOf_cons, map_append, map_map] at h
  obtain ⟨hdels, hnz, hrest⟩ := delElems_spec P s.tags
    (hclean.short z mem_cons_self) { s.mgr with nzCache := remove s.mgr.nzCache z }
    (inv.wellFormed z hz) (inv.clean.fits z hz) inv.monitor_nodup hmon
  have hstep : (step P F s (.zoneDel z.name)).mgr = z.deviceTags.foldl (delElem P s.tags z)
      { s.mgr with nzCache := remove s.mgr.nzCache z } := by
    simp only [step, networkZoneDelete, hfind]
    rfl
  have hnames := (hperm.map Zone.name).nodup_iff.mp inv.names
  exact {
    ok := inv.ok
    names := (nodup_cons.mp hnames).2
    wellFormed := fun x hx => inv.wellFormed x (hperm.mem_iff.mpr (mem_cons_of_mem z hx))
    clean := hclean.tail
    cache := by
      rw [hstep, hnz, remove]
      simpa using (inv.cache.trans hperm).erase z
    monitor := by
      rw [hstep]
      exact hrest
    entries := fun mac => by
      rw [hstep]
      refine (hdels.entries (inv.uniform hz) mac).trans ?_
      have hexp := inv.entries mac
      rw [expected_perm hperm, expected_cons, add_comm] at hexp
      rw [hexp, Multiset.coe_count]
      exact Multiset.add_sub_cancel_right
    sorted := by
      rw [hstep]
      exact hdels.sorted inv.sorted }

/-! ## Tags that change -/

/-- The values of a tag, and none if there is no such tag. -/
def valueList (tags : List Tag) (key : Name × Bool) : List Entry :=
  (omTagFindByName tags key.1 key.2).elim [] Tag.values

variable {tags : List Tag} {filter : UInt8}

theorem valueList_spec (ok : Ok tags) (key : Name × Bool) :
    Distinct (valueList tags key) ∧ look (valueList tags key) = valueMap tags key := by
  rw [valueList]
  cases hf : omTagFindByName tags key.1 key.2 with
  | none => exact ⟨distinct_nil, funext fun v => by simp [valueMap, valuesOf, hf]⟩
  | some t => exact ⟨(ok.of_find hf).2.2, funext fun v => by simp [valueMap, valuesOf, hf]⟩

/-- The values that a marker selects. -/
def picked (filter : UInt8) (l : List Entry) : List Name :=
  (l.filter fun e => admits filter e.flags).map Entry.value

variable {l : List Entry} {elem : Name} {r : Ref} {z : Zone}

theorem picked_nodup (h : Distinct l) : (picked filter l).Nodup :=
  .sublist (filter_sublist.map Entry.value) h

theorem mem_picked (h : Distinct l) {v : Name} :
    v ∈ picked filter l ↔ ∃ f, look l v = some f ∧ admits filter f := by
  rw [picked, mem_map]
  constructor
  · rintro ⟨e, he, rfl⟩
    obtain ⟨hmem, had⟩ := mem_filter.mp he
    exact ⟨e.flags, (look_eq_some_iff h).mpr hmem, had⟩
  · rintro ⟨f, hf, had⟩
    exact ⟨⟨v, f⟩, mem_filter.mpr ⟨(look_eq_some_iff h).mp hf, had⟩, rfl⟩

/-- If the marker does not tell the values of a change apart, its selection changes by those that
come and go. -/
theorem picked_change {old new : List Entry} {d : Diff} (hold : Distinct old)
    (hnew : Distinct new) (hd : IsDiff (look old) (look new) d)
    (halike : ∀ v, SelectsAlike filter (look old v) (look new v)) :
    (picked filter new ++ d.removed.map Entry.value).Perm
      (picked filter old ++ d.added.map Entry.value) := by
  have hremoved : ∀ v, v ∈ d.removed.map Entry.value ↔
      ∃ f, look old v = some f ∧ look new v = none := by
    intro v
    rw [mem_map]
    constructor
    · rintro ⟨e, he, rfl⟩
      exact ⟨e.flags, (hd.removed _ _).mp he⟩
    · rintro ⟨f, hf⟩
      exact ⟨⟨v, f⟩, (hd.removed v f).mpr hf, rfl⟩
  have hadded : ∀ v, v ∈ d.added.map Entry.value ↔
      ∃ f, look old v = none ∧ look new v = some f := by
    intro v
    rw [mem_map]
    constructor
    · rintro ⟨e, he, rfl⟩
      exact ⟨e.flags, (hd.added _ _).mp he⟩
    · rintro ⟨f, hf⟩
      exact ⟨⟨v, f⟩, (hd.added v f).mpr hf, rfl⟩
  have hnodup : (picked filter new ++ d.removed.map Entry.value).Nodup := by
    refine nodup_append.mpr ⟨picked_nodup hnew, hd.removedDistinct, ?_⟩
    rintro v hv _ hv' rfl
    obtain ⟨f, hf, -⟩ := (mem_picked hnew).mp hv
    obtain ⟨g, -, hnone⟩ := (hremoved v).mp hv'
    rw [hf] at hnone
    cases hnone
  have hnodup' : (picked filter old ++ d.added.map Entry.value).Nodup := by
    refine nodup_append.mpr ⟨picked_nodup hold, hd.addedDistinct, ?_⟩
    rintro v hv _ hv' rfl
    obtain ⟨f, hf, -⟩ := (mem_picked hold).mp hv
    obtain ⟨g, hnone, -⟩ := (hadded v).mp hv'
    rw [hf] at hnone
    cases hnone
  refine (perm_ext_iff_of_nodup hnodup hnodup').mpr fun v => ?_
  rw [mem_append, mem_append, mem_picked hnew, mem_picked hold, hremoved, hadded]
  have := halike v
  cases ho : look old v with
  | none =>
    cases hn : look new v with
    | none => simp
    | some g =>
      rw [ho, hn] at this
      simpa [SelectsAlike] using this
  | some f =>
    cases hn : look new v with
    | none =>
      rw [ho, hn] at this
      simpa [SelectsAlike] using this
    | some g =>
      rw [ho, hn] at this
      simp only [SelectsAlike] at this
      simp [this]

theorem valueMacs_eq (P : MacParser) (l : List Entry) :
    valueMacs P l = (l.map Entry.value).filterMap P.parse := by
  rw [filterMap_map]
  rfl

theorem elemMacs_ref (hr : refOf elem = some r) :
    elemMacs P tags elem =
      (picked r.filter (valueList tags (r.name, r.group))).filterMap P.parse := by
  rw [elemMacs, hr]
  exact valueMacs_eq P _

variable {F : Finder} {c : Change}

/-- A change of a tag does not change what the other elements list. -/
theorem elemMacs_other (ok : Ok tags) (hc : c.Valid tags)
    (hr : ∀ r, refOf elem = some r → r.name ≠ c.tag.name) :
    elemMacs P (c.after F tags) elem = elemMacs P tags elem := by
  rw [elemMacs, elemMacs]
  cases h : refOf elem with
  | none => rfl
  | some r =>
    have hne : c.tag.key ≠ (r.name, r.group) := fun heq => hr r h (congrArg Prod.fst heq).symm
    simp [refValues, find_after_of_ne ok hc hne]

theorem expected_other (ok : Ok tags) (hc : c.Valid tags)
    (hr : ∀ p ∈ refsOf Z, p.2.name ≠ c.tag.name) (mac : Mac) :
    expected P (c.after F tags) Z mac = expected P tags Z mac := by
  refine congrArg sum (map_congr_left fun z hz => ?_)
  have hmacs : zoneMacs P (c.after F tags) z = zoneMacs P tags z :=
    flatMap_congr fun elem helem => elemMacs_other ok hc fun r hrr => hr (z, r)
      (mem_flatMap.mpr ⟨z, hz, mem_map_of_mem (mem_filterMap.mpr ⟨elem, helem, hrr⟩)⟩)
  rw [hmacs]

/-- What the zone with the reference lists changes by the values that come and go. -/
theorem zoneMacs_change (ok : Ok tags) (hc : c.Valid tags) {pre post : List Name}
    (hz : z.deviceTags = pre ++ elem :: post) (hr : refOf elem = some r)
    (hkey : c.tag.key = (r.name, r.group))
    (halike : ∀ v, SelectsAlike r.filter (valueMap tags c.tag.key v)
      (valueMap (c.after F tags) c.tag.key v))
    (hpre : ∀ r ∈ pre.filterMap refOf, r.name ≠ c.tag.name)
    (hpost : ∀ r ∈ post.filterMap refOf, r.name ≠ c.tag.name) :
    (zoneMacs P (c.after F tags) z ++ valueMacs P (c.diff F).removed).Perm
      (zoneMacs P tags z ++ valueMacs P (c.diff F).added) := by
  obtain ⟨hold, hlook⟩ := valueList_spec ok c.tag.key
  obtain ⟨hnew, hlook'⟩ := valueList_spec (ok.change F hc) c.tag.key
  have hd := Change.isDiff (F := F) ok hc
  rw [← hlook, ← hlook'] at hd halike
  have hpicked := (picked_change hold hnew hd halike).filterMap P.parse
  have helem : (elemMacs P (c.after F tags) elem ++ valueMacs P (c.diff F).removed).Perm
      (elemMacs P tags elem ++ valueMacs P (c.diff F).added) := by
    rw [elemMacs_ref hr, elemMacs_ref hr, valueMacs_eq, valueMacs_eq, ← hkey,
      ← filterMap_append, ← filterMap_append]
    exact hpicked
  have same : ∀ elems : List Name, (∀ r ∈ elems.filterMap refOf, r.name ≠ c.tag.name) →
      elems.flatMap (elemMacs P (c.after F tags)) = elems.flatMap (elemMacs P tags) :=
    fun elems h => flatMap_congr fun e he => elemMacs_other ok hc fun r hrr =>
      h r (mem_filterMap.mpr ⟨e, he, hrr⟩)
  -- the values that come and go move next to the element that lists them
  have shuffle : ∀ a e b x : List Mac, ((a ++ (e ++ b)) ++ x).Perm (a ++ ((e ++ x) ++ b)) := by
    intro a e b x
    simp only [append_assoc]
    exact (perm_append_comm.append_left e).append_left a
  rw [zoneMacs, zoneMacs, hz]
  simp only [flatMap_append, flatMap_cons, same pre hpre, same post hpost]
  exact (shuffle _ _ _ _).trans
    (((helem.append_right _).append_left _).trans (shuffle _ _ _ _).symm)

theorem Inv.tag_unlisted (inv : Inv P Z s) (hc : c.Valid s.tags)
    (hnone : ∀ p ∈ refsOf Z, p.2.name ≠ c.tag.name) : Inv P Z (step P F s (.tag c)) := by
  have hfind : findKey name s.mgr.tagsToMonitor c.tag.name = none := by
    refine findKey_eq_none_iff.mpr fun hmem => ?_
    rw [(inv.monitor.map name).mem_iff, map_map] at hmem
    obtain ⟨p, hp, hname⟩ := mem_map.mp hmem
    exact hnone p hp hname
  have hmgr : (step P F s (.tag c)).mgr = s.mgr := by
    simp [step, World.change, networkZoneTagUpdateCb, hfind]
  have htags : (step P F s (.tag c)).tags = c.after F s.tags := rfl
  exact {
    ok := inv.ok.change F hc
    names := inv.names
    wellFormed := inv.wellFormed
    clean := inv.clean
    cache := by rw [hmgr]; exact inv.cache
    monitor := by rw [hmgr]; exact inv.monitor
    entries := fun mac => by
      rw [hmgr, htags, expected_other inv.ok hc hnone]
      exact inv.entries mac
    sorted := by rw [hmgr]; exact inv.sorted }

theorem Inv.tag_listed (inv : Inv P Z s) (hc : c.Valid s.tags) (hp : (z, r) ∈ refsOf Z)
    (hname : r.name = c.tag.name) (hgroup : r.group = c.tag.group)
    (halike : ∀ v, SelectsAlike r.filter (valueMap s.tags c.tag.key v)
      (valueMap (c.after F s.tags) c.tag.key v)) :
    Inv P Z (step P F s (.tag c)) := by
  obtain ⟨hz, elem, helem, hr⟩ : z ∈ Z ∧ ∃ elem ∈ z.deviceTags, refOf elem = some r := by
    obtain ⟨z', hz', hmap⟩ := mem_flatMap.mp hp
    obtain ⟨r', hr', heq⟩ := mem_map.mp hmap
    cases heq
    exact ⟨hz', mem_filterMap.mp hr'⟩
  obtain ⟨pre, post, hsplit⟩ := append_of_mem helem
  have hperm : Z.Perm (z :: Z.erase z) := perm_cons_erase hz
  generalize Z.erase z = Z' at hperm
  -- the name of the reference is nowhere else
  have honce : ((pre.filterMap refOf).map Ref.name ++ r.name ::
      ((post.filterMap refOf).map Ref.name ++ (refsOf Z').map fun p => p.2.name)).Nodup := by
    have h := (inv.clean.perm hperm).once
    rw [refsOf_cons, hsplit, filterMap_append, filterMap_cons_some hr] at h
    simpa [Function.comp_def] using h
  have hnot := (nodup_cons.mp (nodup_middle.mp honce)).1
  rw [hname, mem_append, mem_append, not_or, not_or] at hnot
  have hpre : ∀ r' ∈ pre.filterMap refOf, r'.name ≠ c.tag.name :=
    fun r' hr' heq => hnot.1 (mem_map.mpr ⟨r', hr', heq⟩)
  have hpost : ∀ r' ∈ post.filterMap refOf, r'.name ≠ c.tag.name :=
    fun r' hr' heq => hnot.2.1 (mem_map.mpr ⟨r', hr', heq⟩)
  have hothers : ∀ p ∈ refsOf Z', p.2.name ≠ c.tag.name :=
    fun p hp' heq => hnot.2.2 (mem_map.mpr ⟨p, hp', heq⟩)
  have hkey : c.tag.key = (r.name, r.group) := by
    rw [hname, hgroup]
    rfl
  have hentry : entryOf z r ∈ s.mgr.tagsToMonitor :=
    inv.monitor.mem_iff.mpr (mem_map.mpr ⟨(z, r), hp, rfl⟩)
  have hfind : findKey name s.mgr.tagsToMonitor c.tag.name = some (entryOf z r) :=
    (findKey_eq_some_iff inv.monitor_nodup).mpr ⟨hentry, hname⟩
  have hnz : findKey Zone.name s.mgr.nzCache (entryOf z r).zoneName = some z :=
    (findKey_eq_some_iff ((inv.cache.map Zone.name).nodup_iff.mpr inv.names)).mpr
      ⟨inv.cache.mem_iff.mpr hz, rfl⟩
  have hmakes : MakesDevices P z.device fun item => networkZoneGetMac z item.value := fun item =>
    ⟨strscpy_of_lt (inv.clean.short z hz), rfl, getMac_macs P z item.value⟩
  obtain ⟨hadds, hframe⟩ := foldl_adds s.mgr hmakes (c.diff F).added
  obtain ⟨hdels, hframe'⟩ := foldl_dels ((c.diff F).added.foldl
    (fun mgr item => networkZoneAddMac P mgr (networkZoneGetMac z item.value)) s.mgr) hmakes
    (c.diff F).removed
  have hmgr : (step P F s (.tag c)).mgr = (c.diff F).removed.foldl
      (fun mgr item => networkZoneDeleteMac P mgr (networkZoneGetMac z item.value))
      ((c.diff F).added.foldl
        (fun mgr item => networkZoneAddMac P mgr (networkZoneGetMac z item.value)) s.mgr) := by
    simp [step, World.change, networkZoneTagUpdateCb, hfind, hnz]
  rw [← hmgr] at hdels hframe'
  have htags : (step P F s (.tag c)).tags = c.after F s.tags := rfl
  exact {
    ok := inv.ok.change F hc
    names := inv.names
    wellFormed := inv.wellFormed
    clean := inv.clean
    cache := by
      rw [hframe'.nzCache, hframe.nzCache]
      exact inv.cache
    monitor := by
      rw [hframe'.tagsToMonitor, hframe.tagsToMonitor]
      exact inv.monitor
    entries := fun mac => by
      have hmacs := zoneMacs_change (P := P) inv.ok hc hsplit hr hkey halike hpre hpost
      have hcount := hmacs.count_eq mac
      rw [count_append, count_append] at hcount
      rw [hdels.entries (hadds.uniform (inv.uniform hz)), hadds.entries, inv.entries, htags,
        expected_perm hperm, expected_perm hperm, expected_cons, expected_cons,
        expected_other inv.ok hc hothers, Multiset.coe_count, Multiset.coe_count,
        add_right_comm, ← Multiset.replicate_add, ← hcount, Multiset.replicate_add, add_right_comm]
      exact Multiset.add_sub_cancel_right
    sorted := hdels.sorted (hadds.sorted inv.sorted) }

theorem Inv.tag (inv : Inv P Z s) (hc : c.Valid s.tags) (hclean : Clean F Z s.tags (.tag c)) :
    Inv P Z (step P F s (.tag c)) := by
  by_cases hmem : ∃ p ∈ refsOf Z, p.2.name = c.tag.name
  · obtain ⟨p, hp, hname⟩ := hmem
    obtain ⟨hgroup, halike⟩ := hclean p hp hname
    exact inv.tag_listed hc hp hname hgroup halike
  · exact inv.tag_unlisted hc fun p hp hname => hmem ⟨p, hp, hname⟩

theorem Inv.step {e : Event} (inv : Inv P Z s) (accepts : Accepts Z s.tags e)
    (clean : Clean F Z s.tags e) : Inv P (zonesAfter Z e) (step P F s e) := by
  cases e with
  | zoneNew nz => exact inv.zoneNew F accepts.1 accepts.2 clean
  | zoneDel name => exact inv.zoneDel F accepts
  | zoneModify oldName nz =>
    obtain ⟨hname, hclean⟩ := clean
    subst hname
    refine (inv.zoneDel F accepts.1).zoneNew F ?_ accepts.2.2 hclean
    simp [mem_filter]
  | tag c => exact inv.tag accepts clean

end

/-! ## Runs -/

/-- The zones of the table and the system after a sequence of changes. -/
inductive Reach (P : MacParser) : List Zone → Sys → Prop where
  | init : Reach P [] {}
  | step {Z : List Zone} {s : Sys} (reach : Reach P Z s) (F : Finder) {e : Event}
    (accepts : Accepts Z s.tags e) (clean : Clean F Z s.tags e) :
    Reach P (zonesAfter Z e) (NetworkZone.step P F s e)

theorem Reach.inv {P : MacParser} {Z : List Zone} {s : Sys} (h : Reach P Z s) : Inv P Z s := by
  induction h with
  | init =>
    exact {
      ok := ⟨nodup_nil, by simp⟩
      names := nodup_nil
      wellFormed := by simp
      clean := ⟨by simp, by simp, nodup_nil⟩
      cache := .refl _
      monitor := .refl _
      entries := fun _ => rfl
      sorted := fun _ => .nil }
  | step _ F accepts clean ih => exact ih.step accepts clean

def hexDigit (b : UInt8) : Option Nat :=
  if 0x30 ≤ b ∧ b ≤ 0x39 then some (b.toNat - 0x30)
  else if 0x61 ≤ b ∧ b ≤ 0x66 then some (b.toNat - 0x57)
  else none

/-- The number of pairs of digits between colons. -/
def hexPairs : List UInt8 → Nat → Option Nat
  | [a, b], n => (hexDigit a).bind fun x => (hexDigit b).map fun y => (n * 16 + x) * 16 + y
  | a :: b :: c :: rest, n =>
    if c = 0x3a then
      (hexDigit a).bind fun x => (hexDigit b).bind fun y => hexPairs rest ((n * 16 + x) * 16 + y)
    else none
  | _, _ => none

theorem hexPairs_dollar {l : List UInt8} {n : Nat} (h : l.head? = some 0x24) :
    hexPairs l n = none := by
  have hd : hexDigit 0x24 = none := by decide
  match l, h with
  | [_], _ => rfl
  | [a, b], h =>
    obtain rfl : a = 0x24 := by simpa using h
    rw [hexPairs, hd, Option.bind_none]
  | a :: b :: c :: rest, h =>
    obtain rfl : a = 0x24 := by simpa using h
    rw [hexPairs, hd]
    split_ifs <;> rfl

/-- The addresses that are written with six pairs of digits. -/
def MacParser.pairs : MacParser where
  parse v := if v.1.length = 17 then (hexPairs v.1 0).map (BitVec.ofNat 48) else none
  short v := by
    by_cases h : v.1.length < 64
    · rw [strscpy_of_lt h]
    have hlen : (strscpy v 64).1.length ≠ 17 := by
      simp only [strscpy, List.length_take]
      omega
    rw [if_neg hlen, if_neg (by omega)]
  reference v h := by
    have hhead : v.1.head? = some 0x24 := by
      rcases h with hg | ht
      · exact (start_of_take (of_decide_eq_true hg)).1
      · exact (start_of_take (of_decide_eq_true ht)).1
    rw [hexPairs_dollar hhead]
    split_ifs <;> rfl

/-- `00:00:00:00:00:01`. -/
def device : Name :=
  ⟨[0x30, 0x30, 0x3a, 0x30, 0x30, 0x3a, 0x30, 0x30, 0x3a, 0x30, 0x30, 0x3a, 0x30, 0x30, 0x3a,
    0x30, 0x31], by decide⟩

def run (events : List Event) : Sys := events.foldl (step .pairs .first) {}

end OpenSync.NetworkZone
