import OpenSync.Tags.Tag

/-!
# Network zones

`network_zone.c`.  A zone lists devices: by their MAC addresses, or by tags and groups whose
values are MAC addresses.  For each device there is a list of the zones that it is in, the ones
with the highest priority first, with one entry for every reason why it is in the zone.

A zone that is added adds the devices that its tags have at that moment.  After that its tags are
in `tags_to_monitor`, by their names, and `network_zone_tag_update_cb` follows their changes.

The address of a device is a parameter: `os_nif_macaddr_from_str` looks at the first 63 bytes of
a text, and takes no reference to a tag for an address.  `device_cache` is a map here.
-/

namespace OpenSync.NetworkZone

open OpenSync.Lib OpenSync.Tags

/-- `os_macaddr_t`. -/
abbrev Mac := BitVec 48

def isGtag (elem : Name) : Bool := elem.1.take 2 = [0x24, 0x5b]

def isTag (elem : Name) : Bool := elem.1.take 2 = [0x24, 0x7b]

/-- `os_nif_macaddr_from_str`. -/
structure MacParser where
  parse : Name → Option Mac
  short : ∀ v, parse (strscpy v 64) = parse v
  reference : ∀ v, isGtag v ∨ isTag v → parse v = none

/-- `enum nz_mac_type`. -/
inductive NzMacType where
  | mac
  | tag
  | gtag
deriving DecidableEq

/-- `struct network_zone_mac`. -/
structure NzMac where
  val : Name
  ovsdbTagString : Name
  nzName : Name
  priority : Int
  type : NzMacType
deriving DecidableEq

/-- `struct nz_cache_entry`. -/
structure Zone where
  name : Name
  priority : Int
  deviceTags : List Name
deriving DecidableEq

/-- `struct nz_device_zone`. -/
structure DeviceZone where
  name : Name
  priority : Int
deriving DecidableEq

/-- `struct nz_tag_entry`. -/
structure TagEntry where
  name : Name
  zoneName : Name
  type : NzMacType
deriving DecidableEq

/-- `struct network_zone_mgr`, once it is initialized. -/
structure Mgr where
  nzCache : List Zone := []
  deviceCache : Mac → List DeviceZone := fun _ => []
  tagsToMonitor : List TagEntry := []

/-- `network_zone_get_mac`. -/
def networkZoneGetMac (nz : Zone) (elem : Name) : NzMac where
  val :=
    if isGtag elem ∨ isTag elem then strscpyButLast (behindMarker elem) 64 else strscpy elem 64
  ovsdbTagString := elem
  nzName := strscpy nz.name 64
  priority := nz.priority
  type := if isGtag elem then .gtag else if isTag elem then .tag else .mac

/-! ## Devices -/

/-- `network_zone_add_device_zone`. -/
def networkZoneAddDeviceZone (zone : DeviceZone) : List DeviceZone → List DeviceZone
  | [] => [zone]
  | z :: zones =>
    if zone.priority ≥ z.priority then zone :: z :: zones
    else z :: networkZoneAddDeviceZone zone zones

/-- `network_zone_delete_mac_entry`. -/
def networkZoneDeleteMacEntry (name : Name) (zones : List DeviceZone) : List DeviceZone :=
  zones.eraseP fun z => z.name = name

section

variable (P : MacParser)

/-- `network_zone_add_mac`. -/
def networkZoneAddMac (mgr : Mgr) (mac : NzMac) : Mgr :=
  if mac.type ≠ .mac then mgr
  else match P.parse mac.val with
    | none => mgr
    | some m => { mgr with
        deviceCache := Function.update mgr.deviceCache m
          (networkZoneAddDeviceZone ⟨mac.nzName, mac.priority⟩ (mgr.deviceCache m)) }

/-- `network_zone_delete_mac`. -/
def networkZoneDeleteMac (mgr : Mgr) (mac : NzMac) : Mgr :=
  if mac.type ≠ .mac then mgr
  else match P.parse mac.val with
    | none => mgr
    | some m => { mgr with
        deviceCache := Function.update mgr.deviceCache m
          (networkZoneDeleteMacEntry mac.nzName (mgr.deviceCache m)) }

/-! ## Tags -/

/-- The device of a value of a tag. -/
def macItem (tag : NzMac) (item : Entry) : NzMac where
  val := strscpy item.value 64
  ovsdbTagString := item.value
  nzName := tag.nzName
  priority := tag.priority
  type := .mac

/-- The flags that the values of a reference have to have. -/
def tagType (ovsdbTagString : Name) : UInt8 :=
  if omGetTypeOfTag ovsdbTagString = flagNone then 0 else omGetTypeOfTag ovsdbTagString

variable (tags : List Tag)

/-- The values of a reference that its marker selects. -/
def selected (ovsdbTagString : Name) : List Entry :=
  match omTagFind tags ovsdbTagString with
  | none => []
  | some tag => tag.values.filter fun item => admits (tagType ovsdbTagString) item.flags

section

variable (mgr : Mgr)

/-- `network_zone_add_tag`. -/
def networkZoneAddTag (tag : NzMac) : Mgr :=
  if tag.type = .mac then mgr
  else match findKey TagEntry.name mgr.tagsToMonitor tag.val with
    | some _ => mgr
    | none =>
      let entry : TagEntry := ⟨tag.val, tag.nzName, tag.type⟩
      (selected tags tag.ovsdbTagString).foldl
        (fun mgr item => networkZoneAddMac P mgr (macItem tag item))
        { mgr with tagsToMonitor := Ds.Ordered.insert TagEntry.name strcmp mgr.tagsToMonitor entry }

/-- `network_zone_delete_tag`. -/
def networkZoneDeleteTag (tag : NzMac) : Mgr :=
  if tag.type = .mac then mgr
  else match findKey TagEntry.name mgr.tagsToMonitor tag.val with
    | none => mgr
    | some entry =>
      (selected tags tag.ovsdbTagString).foldl
        (fun mgr item => networkZoneDeleteMac P mgr (macItem tag item))
        { mgr with tagsToMonitor := Ds.Ordered.remove mgr.tagsToMonitor entry }

/-! ## Zones -/

/-- `network_zone_add_devices`. -/
def networkZoneAddDevices (nz : Zone) : Mgr :=
  nz.deviceTags.foldl (fun mgr elem =>
    let mac := networkZoneGetMac nz elem
    match mac.type with
    | .mac => networkZoneAddMac P mgr mac
    | _ => networkZoneAddTag P tags mgr mac) mgr

/-- `network_zone_delete_zone_entry`. -/
def networkZoneDeleteZoneEntry (nz : Zone) : Mgr :=
  nz.deviceTags.foldl (fun mgr elem =>
    let mac := networkZoneGetMac nz elem
    match mac.type with
    | .mac => networkZoneDeleteMac P mgr mac
    | _ => networkZoneDeleteTag P tags mgr mac) mgr

/-- `network_zone_add`. -/
def networkZoneAdd (nz : Zone) : Mgr :=
  let mgr := networkZoneAddDevices P tags mgr nz
  { mgr with nzCache := Ds.Ordered.insert Zone.name strcmp mgr.nzCache nz }

/-- `network_zone_delete`. -/
def networkZoneDelete (name : Name) : Mgr :=
  match findKey Zone.name mgr.nzCache name with
  | none => mgr
  | some nz =>
    networkZoneDeleteZoneEntry P tags { mgr with nzCache := Ds.Ordered.remove mgr.nzCache nz } nz

/-- `network_zone_update`.  The old row is not looked at. -/
def networkZoneUpdate (nz : Zone) : Mgr :=
  networkZoneAdd P tags (networkZoneDelete P tags mgr nz.name) nz

end

/-! ## Changes of tags -/

/-- `network_zone_tag_update_cb`. -/
def networkZoneTagUpdateCb (_ : List Tag) (tag : Tag) (diff : Diff) (mgr : Mgr) : Mgr :=
  match findKey TagEntry.name mgr.tagsToMonitor tag.name with
  | none => mgr
  | some tagEntry =>
    match findKey Zone.name mgr.nzCache tagEntry.zoneName with
    | none => mgr
    | some nz =>
      let mgr := diff.added.foldl
        (fun mgr item => networkZoneAddMac P mgr (networkZoneGetMac nz item.value)) mgr
      diff.removed.foldl
        (fun mgr item => networkZoneDeleteMac P mgr (networkZoneGetMac nz item.value)) mgr

end

/-- `om_tags` and the zones. -/
structure Sys where
  tags : List Tag := []
  mgr : Mgr := {}

/-- A change of a row of the `Network_Zone` table, or of a tag. -/
inductive Event where
  | zoneNew (nz : Zone)
  | zoneDel (name : Name)
  | zoneModify (oldName : Name) (nz : Zone)
  | tag (c : Change)

/-- `callback_Network_Zone`, and `network_zone_tag_update_cb` as the component behind the tags. -/
def step (P : MacParser) (F : Finder) (s : Sys) : Event → Sys
  | .zoneNew nz => { s with mgr := networkZoneAdd P s.tags s.mgr nz }
  | .zoneDel name => { s with mgr := networkZoneDelete P s.tags s.mgr name }
  | .zoneModify _ nz => { s with mgr := networkZoneUpdate P s.tags s.mgr nz }
  | .tag c =>
    let w : World Mgr := { tags := s.tags, client := s.mgr }
    let w := w.change F (networkZoneTagUpdateCb P) c
    { tags := w.tags, mgr := w.client }

end OpenSync.NetworkZone
