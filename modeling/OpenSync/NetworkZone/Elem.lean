import OpenSync.NetworkZone.Device
import OpenSync.Tags.View

/-!
# The elements of a zone

An element of a zone is an address or a reference to a tag.  `Lists` says which devices a zone
lists by its elements, and `zoneMacs` has them once for every reason.  The lemmas here say what
the code does for one element: it adds or deletes the devices that the element lists, and a
reference is added to `tags_to_monitor` or taken out of it.
-/

namespace OpenSync.NetworkZone

open OpenSync.Lib OpenSync.Tags List Ds.Ordered

/-! ## References -/

/-- A reference to a tag or a group: the flags that its marker selects. -/
structure Ref where
  name : Name
  group : Bool
  filter : UInt8
deriving DecidableEq

def butLast (s : Name) : Name := ⟨s.1.dropLast, fun h => s.2 (List.dropLast_subset _ h)⟩

/-- The reference that an element of a zone is, if it is one. -/
def refOf (elem : Name) : Option Ref :=
  if isGtag elem then some ⟨butLast (behindMarker elem), true, markerFlag (elem.1.getD 2 0)⟩
  else if isTag elem then some ⟨butLast (behindMarker elem), false, markerFlag (elem.1.getD 2 0)⟩
  else none

/-- An element that starts like a reference ends like one. -/
def WellFormed (elem : Name) : Prop :=
  (isTag elem → 3 ≤ elem.1.length ∧ elem.1.getLast? = some 0x7d) ∧
    (isGtag elem → 3 ≤ elem.1.length ∧ elem.1.getLast? = some 0x5d)

instance (elem : Name) : Decidable (WellFormed elem) := inferInstanceAs (Decidable (_ ∧ _))

/-- The name of a reference fits its buffer. -/
def Fits (elem : Name) : Prop := (behindMarker elem).1.length ≤ 64

instance (elem : Name) : Decidable (Fits elem) := inferInstanceAs (Decidable (_ ≤ _))

theorem strscpyButLast_eq {s : Name} {size : Nat} (h : s.1.length ≤ size) :
    strscpyButLast s size = butLast s := by
  have hlen : min (min s.1.length (size + 1) - 1) (size - 1) = s.1.length - 1 := by omega
  apply Subtype.ext
  simp [strscpyButLast, butLast, dropLast_eq_take, hlen]

variable {elem : Name} {r : Ref}

theorem tagType_eq (h : omTagGetType elem ≠ .notATag) :
    tagType elem = markerFlag (elem.1.getD 2 0) := by
  rw [tagType, omGetTypeOfTag]
  unfold markerFlag
  split_ifs <;> simp_all [flagDevice, flagCloud, flagLocal, flagNone]

theorem start_of_take {l : List UInt8} {b : UInt8} (h : l.take 2 = [0x24, b]) :
    l.head? = some 0x24 ∧ l.getD 1 0 = b := by
  match l, h with
  | x :: y :: l, h =>
    simp only [take_succ_cons, cons.injEq] at h
    simp [h.1, h.2]

theorem refOf_name (h : refOf elem = some r) :
    r.name = butLast (behindMarker elem) ∧ r.filter = markerFlag (elem.1.getD 2 0) := by
  unfold refOf at h
  split_ifs at h <;> cases h <;> exact ⟨rfl, rfl⟩

theorem omTagGetType_eq (hwf : WellFormed elem) (h : refOf elem = some r) :
    omTagGetType elem = if r.group then .groupTag else .tag := by
  unfold refOf at h
  split_ifs at h with hg ht
  · cases h
    obtain ⟨hlen, hlast⟩ := hwf.2 hg
    obtain ⟨h0, h1⟩ := start_of_take (of_decide_eq_true hg)
    rw [omTagGetType, if_neg (not_not.mpr h0), if_neg (by omega), h1, hlast]
    rfl
  · cases h
    obtain ⟨hlen, hlast⟩ := hwf.1 ht
    obtain ⟨h0, h1⟩ := start_of_take (of_decide_eq_true ht)
    rw [omTagGetType, if_neg (not_not.mpr h0), if_neg (by omega), h1, hlast]
    rfl

/-- The values of a reference that its marker selects. -/
def refValues (tags : List Tag) (r : Ref) : List Entry :=
  ((omTagFindByName tags r.name r.group).elim [] Tag.values).filter
    fun item => admits r.filter item.flags

/-- The values that the code selects for a reference. -/
theorem selected_eq (tags : List Tag) (hwf : WellFormed elem) (hfits : Fits elem)
    (hr : refOf elem = some r) : selected tags elem = refValues tags r := by
  obtain ⟨hname, hfilter⟩ := refOf_name hr
  have htype := omTagGetType_eq hwf hr
  have hcopy : strscpyButLast (behindMarker elem) 256 = r.name :=
    (strscpyButLast_eq (Nat.le_trans hfits (by decide))).trans hname.symm
  have hflag : tagType elem = r.filter := by
    rw [tagType_eq, hfilter]
    rw [htype]
    split_ifs <;> simp
  have hfind : omTagFind tags elem = omTagFindByName tags r.name r.group := by
    rw [omTagFind, htype, hcopy]
    cases r.group <;> rfl
  rw [selected, refValues, hfind, hflag]
  cases omTagFindByName tags r.name r.group <;> rfl

/-- The kind of an element, as the code sees it. -/
theorem getMac_type (nz : Zone) (elem : Name) : (networkZoneGetMac nz elem).type =
    match refOf elem with
    | none => .mac
    | some r => if r.group then .gtag else .tag := by
  rw [networkZoneGetMac, refOf]
  split_ifs <;> rfl

/-- The name that the code monitors for a reference. -/
theorem getMac_val (nz : Zone) (hfits : Fits elem) (hr : refOf elem = some r) :
    (networkZoneGetMac nz elem).val = r.name := by
  have href : isGtag elem ∨ isTag elem := by
    unfold refOf at hr
    split_ifs at hr with hg ht
    · exact .inl hg
    · exact .inr ht
  rw [networkZoneGetMac, (refOf_name hr).1]
  simp only [if_pos href]
  exact strscpyButLast_eq hfits

/-- The device of an element that is an address.  A reference is no address. -/
theorem getMac_macs (P : MacParser) (nz : Zone) (elem : Name) :
    (networkZoneGetMac nz elem).macs P = ((P.parse elem).toList : Multiset Mac) := by
  by_cases href : isGtag elem ∨ isTag elem
  · have htype : (networkZoneGetMac nz elem).type ≠ .mac := by
      simp only [networkZoneGetMac]
      split_ifs with hg ht
      · simp
      · simp
      · exact absurd href (by simp [hg, ht])
    rw [NzMac.macs, if_neg htype, P.reference elem href]
    rfl
  · rw [not_or] at href
    have htype : (networkZoneGetMac nz elem).type = .mac := by
      simp [networkZoneGetMac, href.1, href.2]
    rw [NzMac.macs, if_pos htype]
    simp [networkZoneGetMac, href, P.short]

/-! ## What the zones list -/

section

variable (P : MacParser) (tags : List Tag)

/-- The devices of an element, once for every reason. -/
def elemMacs (elem : Name) : List Mac :=
  match refOf elem with
  | none => (P.parse elem).toList
  | some r => (refValues tags r).filterMap fun item => P.parse item.value

/-- The devices of a zone, once for every reason. -/
def zoneMacs (z : Zone) : List Mac :=
  z.deviceTags.flatMap (elemMacs P tags)

/-- The zone lists the device: by its address, or by a tag with the address among its values, with a
flag that the marker selects. -/
def Lists (z : Zone) (mac : Mac) : Prop :=
  ∃ elem ∈ z.deviceTags,
    match refOf elem with
    | none => P.parse elem = some mac
    | some r => ∃ v f, valueMap tags (r.name, r.group) v = some f ∧ admits r.filter f ∧
        P.parse v = some mac

end

/-- Only the devices differ. -/
structure Frame (mgr mgr' : Mgr) : Prop where
  nzCache : mgr'.nzCache = mgr.nzCache
  tagsToMonitor : mgr'.tagsToMonitor = mgr.tagsToMonitor

theorem Frame.refl (mgr : Mgr) : Frame mgr mgr := ⟨rfl, rfl⟩

theorem Frame.trans {mgr mgr' mgr'' : Mgr} (h : Frame mgr mgr') (h' : Frame mgr' mgr'') :
    Frame mgr mgr'' :=
  ⟨h'.nzCache.trans h.nzCache, h'.tagsToMonitor.trans h.tagsToMonitor⟩

section

variable {P : MacParser} {tags : List Tag} {mgr : Mgr} {d : DeviceZone} {z : Zone} {elem : Name}
  {r : Ref}

theorem networkZoneAddMac_frame (m : NzMac) : Frame mgr (networkZoneAddMac P mgr m) := by
  rw [networkZoneAddMac]
  split_ifs
  · exact .refl mgr
  · cases P.parse m.val <;> exact ⟨rfl, rfl⟩

theorem networkZoneDeleteMac_frame (m : NzMac) : Frame mgr (networkZoneDeleteMac P mgr m) := by
  rw [networkZoneDeleteMac]
  split_ifs
  · exact .refl mgr
  · cases P.parse m.val <;> exact ⟨rfl, rfl⟩

/-- A function that makes devices of a zone from the values of a tag. -/
def MakesDevices (P : MacParser) (d : DeviceZone) (mk : Entry → NzMac) : Prop :=
  ∀ item, (mk item).nzName = d.name ∧ (mk item).priority = d.priority ∧
    (mk item).macs P = ((P.parse item.value).toList : Multiset Mac)

/-- The addresses among values. -/
def valueMacs (P : MacParser) (items : List Entry) : List Mac :=
  items.filterMap fun item => P.parse item.value

theorem valueMacs_cons (item : Entry) (items : List Entry) :
    (valueMacs P (item :: items) : Multiset Mac) =
      ((P.parse item.value).toList : Multiset Mac) + valueMacs P items := by
  rw [valueMacs, filterMap_cons]
  cases P.parse item.value <;> rfl

variable {mk : Entry → NzMac}

section

variable (mgr : Mgr) (hmk : MakesDevices P d mk) (items : List Entry)

include hmk

theorem foldl_adds : Adds d (valueMacs P items) mgr
        (items.foldl (fun mgr item => networkZoneAddMac P mgr (mk item)) mgr) ∧
      Frame mgr (items.foldl (fun mgr item => networkZoneAddMac P mgr (mk item)) mgr) := by
  induction items generalizing mgr with
  | nil => exact ⟨.refl rfl, .refl mgr⟩
  | cons item items ih =>
    obtain ⟨hname, hprio, hmacs⟩ := hmk item
    have hadd := networkZoneAddMac_adds P mgr (mk item)
    rw [hname, hprio, hmacs] at hadd
    obtain ⟨hadds, hframe⟩ := ih (networkZoneAddMac P mgr (mk item))
    rw [valueMacs_cons]
    exact ⟨hadd.trans hadds, (networkZoneAddMac_frame _).trans hframe⟩

theorem foldl_dels : Dels d (valueMacs P items) mgr
        (items.foldl (fun mgr item => networkZoneDeleteMac P mgr (mk item)) mgr) ∧
      Frame mgr (items.foldl (fun mgr item => networkZoneDeleteMac P mgr (mk item)) mgr) := by
  induction items generalizing mgr with
  | nil => exact ⟨.refl rfl, .refl mgr⟩
  | cons item items ih =>
    obtain ⟨hname, hprio, hmacs⟩ := hmk item
    have hdel := networkZoneDeleteMac_dels P mgr (mk item)
    rw [hname, hprio, hmacs] at hdel
    obtain ⟨hdels, hframe⟩ := ih (networkZoneDeleteMac P mgr (mk item))
    rw [valueMacs_cons]
    exact ⟨hdel.trans hdels, (networkZoneDeleteMac_frame _).trans hframe⟩

end

/-- The entry of a zone in the list of a device. -/
def Zone.device (z : Zone) : DeviceZone := ⟨z.name, z.priority⟩

theorem getMac_device (hshort : z.name.1.length < 64) :
    (⟨(networkZoneGetMac z elem).nzName, (networkZoneGetMac z elem).priority⟩ : DeviceZone) =
      z.device := by
  rw [networkZoneGetMac, Zone.device, strscpy_of_lt hshort]

theorem macItem_makes (elem : Name) (hshort : z.name.1.length < 64) :
    MakesDevices P z.device (macItem (networkZoneGetMac z elem)) := fun item =>
  ⟨strscpy_of_lt hshort, rfl, by simp [NzMac.macs, macItem, P.short]⟩

/-! ## The elements of a zone -/

/-- The entry of a reference in `tags_to_monitor`. -/
def entryOf (z : Zone) (r : Ref) : TagEntry := ⟨r.name, z.name, if r.group then .gtag else .tag⟩

section

variable (P : MacParser) (tags : List Tag) (z : Zone) (mgr : Mgr)

/-- The step of the loop of `network_zone_add_devices`. -/
def addElem (elem : Name) : Mgr :=
  match (networkZoneGetMac z elem).type with
  | .mac => networkZoneAddMac P mgr (networkZoneGetMac z elem)
  | _ => networkZoneAddTag P tags mgr (networkZoneGetMac z elem)

/-- The step of the loop of `network_zone_delete_zone_entry`. -/
def delElem (elem : Name) : Mgr :=
  match (networkZoneGetMac z elem).type with
  | .mac => networkZoneDeleteMac P mgr (networkZoneGetMac z elem)
  | _ => networkZoneDeleteTag P tags mgr (networkZoneGetMac z elem)

end

section

variable (P : MacParser) (tags : List Tag) (mgr : Mgr)

section

variable (hshort : z.name.1.length < 64) (hr : refOf elem = none)

include hshort hr

theorem addElem_mac : Adds z.device (elemMacs P tags elem) mgr (addElem P tags z mgr elem) ∧
      Frame mgr (addElem P tags z mgr elem) := by
  have htype : (networkZoneGetMac z elem).type = .mac := by rw [getMac_type, hr]
  have hadd := networkZoneAddMac_adds P mgr (networkZoneGetMac z elem)
  rw [getMac_device hshort, getMac_macs] at hadd
  rw [addElem, htype, elemMacs, hr]
  exact ⟨hadd, networkZoneAddMac_frame _⟩

theorem delElem_mac : Dels z.device (elemMacs P tags elem) mgr (delElem P tags z mgr elem) ∧
      Frame mgr (delElem P tags z mgr elem) := by
  have htype : (networkZoneGetMac z elem).type = .mac := by rw [getMac_type, hr]
  have hdel := networkZoneDeleteMac_dels P mgr (networkZoneGetMac z elem)
  rw [getMac_device hshort, getMac_macs] at hdel
  rw [delElem, htype, elemMacs, hr]
  exact ⟨hdel, networkZoneDeleteMac_frame _⟩

end

section

variable (hshort : z.name.1.length < 64) (hwf : WellFormed elem) (hfits : Fits elem)
  (hr : refOf elem = some r)

include hshort hwf hfits hr

omit hshort in
/-- What the functions see of an element that is a reference. -/
theorem getMac_ref : (networkZoneGetMac z elem).type = (if r.group then .gtag else .tag) ∧
    (networkZoneGetMac z elem).type ≠ .mac ∧ (networkZoneGetMac z elem).val = r.name ∧
    selected tags (networkZoneGetMac z elem).ovsdbTagString = refValues tags r ∧
    elemMacs P tags elem = valueMacs P (refValues tags r) := by
  have htype : (networkZoneGetMac z elem).type = if r.group then .gtag else .tag := by
    rw [getMac_type, hr]
  refine ⟨htype, ?_, getMac_val z hfits hr, selected_eq tags hwf hfits hr, ?_⟩
  · rw [htype]
    split_ifs <;> simp
  · rw [elemMacs, hr, valueMacs]

theorem addElem_ref (hnew : r.name ∉ mgr.tagsToMonitor.map TagEntry.name) :
    Adds z.device (elemMacs P tags elem) mgr (addElem P tags z mgr elem) ∧
      (addElem P tags z mgr elem).nzCache = mgr.nzCache ∧
      (addElem P tags z mgr elem).tagsToMonitor.Perm (entryOf z r :: mgr.tagsToMonitor) := by
  obtain ⟨htype, hne, hval, hsel, hmacs⟩ := getMac_ref P tags (z := z) hwf hfits hr
  set m := networkZoneGetMac z elem
  have hadd : addElem P tags z mgr elem =
      networkZoneAddTag P tags mgr m := by
    rw [addElem, htype]
    cases r.group <;> rfl
  have hnone : findKey TagEntry.name mgr.tagsToMonitor m.val = none := by
    rw [hval]
    exact findKey_eq_none_iff.mpr hnew
  have hentry : (⟨m.val, m.nzName,
      m.type⟩ : TagEntry) = entryOf z r := by
    rw [hval, htype]
    exact congrArg (fun n => (⟨r.name, n, _⟩ : TagEntry)) (strscpy_of_lt hshort)
  rw [hadd, networkZoneAddTag, if_neg hne, hnone]
  simp only [hentry]
  rw [hsel]
  obtain ⟨hadds, hframe⟩ := foldl_adds (P := P) { mgr with
    tagsToMonitor := insert TagEntry.name strcmp mgr.tagsToMonitor (entryOf z r) }
    (macItem_makes elem hshort) (refValues tags r)
  rw [hmacs]
  refine ⟨⟨hadds.entries, hadds.sorted⟩, hframe.nzCache, ?_⟩
  rw [hframe.tagsToMonitor]
  exact insert_perm TagEntry.name strcmp mgr.tagsToMonitor (entryOf z r)

theorem delElem_ref (hnodup : (mgr.tagsToMonitor.map TagEntry.name).Nodup)
    (hmem : entryOf z r ∈ mgr.tagsToMonitor) :
    Dels z.device (elemMacs P tags elem) mgr (delElem P tags z mgr elem) ∧
      (delElem P tags z mgr elem).nzCache = mgr.nzCache ∧
      (delElem P tags z mgr elem).tagsToMonitor = mgr.tagsToMonitor.erase (entryOf z r) := by
  obtain ⟨htype, hne, hval, hsel, hmacs⟩ := getMac_ref P tags (z := z) hwf hfits hr
  set m := networkZoneGetMac z elem
  have hdel : delElem P tags z mgr elem =
      networkZoneDeleteTag P tags mgr m := by
    rw [delElem, htype]
    cases r.group <;> rfl
  have hfind : findKey TagEntry.name mgr.tagsToMonitor m.val =
      some (entryOf z r) := by
    rw [hval]
    exact (findKey_eq_some_iff hnodup).mpr ⟨hmem, rfl⟩
  rw [hdel, networkZoneDeleteTag, if_neg hne, hfind]
  simp only [hsel]
  obtain ⟨hdels, hframe⟩ := foldl_dels (P := P) { mgr with
    tagsToMonitor := remove mgr.tagsToMonitor (entryOf z r) }
    (macItem_makes elem hshort) (refValues tags r)
  rw [hmacs]
  exact ⟨⟨hdels.sub, hdels.entries⟩, hframe.nzCache, hframe.tagsToMonitor⟩

end

end

end

end OpenSync.NetworkZone
