import OpenSync.Gkc.Attr
import OpenSync.Ds.Ordered

/-!
# The gatekeeper cache

The manager of `gatekeeper_cache.c`: the slots, the list that is both the order of use and the
list of free slots, the attribute trees of the devices and the location-wide tree.  A slot is named
by its index in `attr_cache_array`.  The trees and the list are lists of slots; the comparators
read the key of a slot when they are called.

An addition looks up the location-wide cache, which can add an entry in turn; `addAttributeEntry`
closes this circle with fuel.
-/

namespace OpenSync.Gkc

open OpenSync.Ds Function List

/-- `struct per_device_cache`, without its trees. -/
structure PerDevice where
  reqCounter : ReqType → UInt64
  allowed : ReqType → UInt64
  blocked : ReqType → UInt64
  categoryCache : List AttrCache

/-- `struct gk_cache_mgr`. -/
structure Mgr where
  totalEntryCount : UInt64
  devices : List Mac
  device : Mac → PerDevice
  lruList : List Nat
  lruSize : Nat
  lruFree : Option Nat
  lruAvailable : Nat
  lruRecycled : Nat
  slots : Nat → AttrCache
  trees : TreeId → List Nat
  categoryIds : Fin 96 → Int
  locationCategories : Nat

/-- `gk_cache_init_mgr`. -/
def Mgr.init (lruSize : Nat) : Mgr where
  totalEntryCount := 0
  devices := []
  device := fun _ => ⟨fun _ => 0, fun _ => 0, fun _ => 0, []⟩
  lruList := range lruSize
  lruSize := lruSize
  lruFree := (range lruSize).head?
  lruAvailable := lruSize
  lruRecycled := 0
  slots := fun _ => .zero
  trees := fun _ => []
  categoryIds := fun _ => 0
  locationCategories := 0

/-- `gkc_uint64_cmp`. -/
def uint64Cmp (a b : UInt64) : Int := if a < b then -1 else if b < a then 1 else 0

/-- `gkc_mac_addr_cmp`. -/
def macAddrCmp (a b : Mac) : Int := if a < b then -1 else if b < a then 1 else 0

/-- `category2index`, where it is not zero. -/
def categoryTable : List (Nat × Fin 96) :=
  [(52, 1), (76, 2), (58, 3), (4, 4), (65, 5), (66, 6), (53, 7), (503, 8), (7, 9), (14, 10),
    (505, 11), (8, 12), (506, 13), (543, 14), (10, 15), (40, 16), (21, 17), (507, 18), (508, 19),
    (24, 20), (520, 21), (27, 22), (34, 23), (61, 24), (544, 25), (33, 26), (46, 27), (69, 28),
    (545, 29), (546, 30), (26, 31), (43, 32), (3, 33), (63, 34), (527, 35), (62, 36), (54, 37),
    (31, 38), (75, 39), (18, 40), (35, 41), (11, 42), (1, 43), (80, 44), (20, 45), (50, 46),
    (500, 47), (19, 48), (30, 49), (42, 50), (25, 51), (5, 52), (67, 53), (56, 54), (57, 55),
    (71, 56), (510, 57), (28, 58), (9, 59), (547, 60), (48, 61), (36, 62), (55, 63)]

/-- The number of elements of `category2index`. -/
def categoryTableSize : Nat := 548

/-- `category2index[id]`. -/
def category2index (id : UInt32) : Option (Fin 96) :=
  if id.toNat < categoryTableSize then some ((categoryTable.lookup id.toNat).getD 0) else none

namespace Mgr

variable (m : Mgr)

/-! ## Slots, trees and the list -/

def setSlot (s : Nat) (c : AttrCache) : Mgr := { m with slots := update m.slots s c }

def setTree (t : TreeId) (l : List Nat) : Mgr := { m with trees := update m.trees t l }

@[simp] theorem setSlot_self (s : Nat) (c : AttrCache) : (m.setSlot s c).slots s = c :=
  update_self ..

theorem setSlot_of_ne {s x : Nat} (c : AttrCache) (h : x ≠ s) :
    (m.setSlot s c).slots x = m.slots x :=
  update_of_ne h ..

/-- `ds_tree_find` in a tree of entries. -/
def find (t : TreeId) (key : UInt64) : Option Nat :=
  Ordered.find (fun s => (m.slots s).key) uint64Cmp (m.trees t) key

section

variable (t : TreeId) (s : Nat)

/-- `ds_tree_insert` in a tree of entries. -/
def treeInsert : Mgr :=
  m.setTree t (Ordered.insert (fun s => (m.slots s).key) uint64Cmp (m.trees t) s)

@[simp] theorem treeInsert_slots : (m.treeInsert t s).slots = m.slots := rfl

/-- `ds_tree_remove` in a tree of entries. -/
def treeRemove : Mgr := m.setTree t (Ordered.remove (m.trees t) s)

/-- The slot goes to the head of `lru_list`. -/
def moveToHead (s : Nat) : Mgr := { m with lruList := s :: m.lruList.erase s }

/-- `gkc_lookup_device_tree`, as a test. -/
def hasDevice (mac : Mac) : Prop :=
  (Ordered.find id macAddrCmp m.devices mac).isSome

instance (mac : Mac) : Decidable (m.hasDevice mac) :=
  inferInstanceAs (Decidable ((Ordered.find id macAddrCmp m.devices mac).isSome = true))

/-- `gkc_remove_entry`. -/
def removeEntry : Mgr :=
  let m := (m.treeRemove t s).setSlot s { m.slots s with key := 0 }
  { m with
    lruList := m.lruList.erase s ++ [s]
    lruAvailable := m.lruAvailable + 1
    totalEntryCount := m.totalEntryCount - 1
    lruFree := m.lruFree.or (some s) }

/-- `gkc_new_attr_entry` when there is a free slot. -/
def takeFree : Mgr :=
  let m := m.setSlot s { m.slots s with attrTree := some t }
  let m := { m with lruFree := Ordered.next m.lruList s }
  { m.moveToHead s with
    lruAvailable := m.lruAvailable - 1
    totalEntryCount := m.totalEntryCount + 1 }

/-- `gkc_new_attr_entry` when the slot `s` at the tail is reused. -/
def recycle : Option Mgr := do
  let old ← (m.slots s).attrTree
  let m := m.treeRemove old s
  let m := m.setSlot s { m.slots s with attrTree := some t }
  let m := m.moveToHead s
  let c ← freeAttrEntry (m.slots s) (m.slots s).type
  some { m.setSlot s c with lruRecycled := m.lruRecycled + 1 }

end

/-- `gkc_new_attr_entry`. -/
def newAttrEntry (now : Int) (t : TreeId) (entry : Req) : Option (Option Nat × Mgr) :=
  if entry.attributeType.kind.isNone then some (none, m)
  else if m.lruAvailable ≠ 0 then
    match m.lruFree with
    | none => some (none, m)
    | some s => do
      let m := m.takeFree t s
      let c ← interfaceToAttrCache now entry (m.slots s)
      some (some s, m.setSlot s c)
  else do
    let s ← m.lruList.getLast?
    let m ← m.recycle t s
    let c ← interfaceToAttrCache now entry (m.slots s)
    some (some s, m.setSlot s c)

/-- `gkc_new_attr_entry` and the insertion into the tree that follows it. -/
def insertNew (now : Int) (t : TreeId) (entry : Req) : Option (Bool × Mgr) := do
  let (s, m) ← m.newAttrEntry now t entry
  match s with
  | none => some (false, m)
  | some s => some (true, m.treeInsert t s)

/-! ## Lookup -/

/-- `gkc_fetch_attribute_entry`. -/
def fetchAttributeEntry (req : Req) : Option Nat × Req × Mgr :=
  if req.attributeType = .other then (none, req, m)
  else
    let req := req.withKey
    match req.deviceMac, req.attributeType.kind with
    | some mac, kind =>
      if m.hasDevice mac then
        match kind.bind fun kind => m.find (.device mac kind) req.cacheKey with
        | none => (none, req, m)
        | some s => (some s, req, m.moveToHead s)
      else (none, req, m)
    | none, kind =>
      match kind.bind fun _ => m.find .locationWide req.cacheKey with
      | none => (none, req, m)
      | some s => (some s, req, m.moveToHead s)

/-- `gkc_lookup_attr_tree`. -/
def lookupAttrTree (t : TreeId) (req : Req) (updateCount : Bool) : Option (Bool × Req × Mgr) :=
  if req.attrName.isNone ∧ req.ipAddr.isNone then some (false, req, m)
  else
    let req := req.withKey
    match m.find t req.cacheKey with
    | none => some (false, req, m)
    | some s => do
      let m := m.moveToHead s
      let (ok, req, c) ← lookupHit req (m.slots s) updateCount
      some (ok, req, m.setSlot s c)

/-- `gkc_lookup_attributes_tree`. -/
def lookupAttributesTree (mac : Mac) (req : Req) (updateCount : Bool) : Option (Bool × Req × Mgr) :=
  match req.attributeType.kind with
  | none => some (false, req, m)
  | some kind => m.lookupAttrTree (.device mac kind) req updateCount

end Mgr

/-- An addition, with the request and the manager after it. -/
abbrev Add := Req → Mgr → Option (Bool × Req × Mgr)

namespace Mgr

variable (m : Mgr)

def categoryEntry (mac : Mac) (id : UInt32) : Option AttrCache :=
  ((m.device mac).categoryCache.take m.locationCategories).find? (fun c => c.categoryId = id)

/-- `gkc_lookup_location_cache`. -/
def lookupLocationCache (add : Add) (req : Req) : Option (Bool × Req × Mgr) := do
  let (ok, req, m) ← m.lookupAttrTree .locationWide req true
  if !ok then some (false, req, m)
  else
    match m.find .locationWide req.cacheKey, req.deviceMac with
    | none, _ => some (false, req, m)
    | some s, none => some (false, req, m.moveToHead s)
    | some s, some mac =>
      let m := m.moveToHead s
      if ¬ m.hasDevice mac then some (false, req, m)
      else
        match m.categoryEntry mac (m.slots s).categoryId with
        | none => some (true, req, m)
        | some c =>
          if c.action = actionNone then some (false, req, m)
          else if !compareAttrType req c then some (false, req, m)
          else
            let category ← attrCacheToInterface c
            let (_, _, m) ← add { category with
              deviceMac := some mac, cacheKey := req.cacheKey, attrName := req.attrName } m
            some (true, req, m)

/-- One more successful request of a type. -/
def countRequest (mac : Mac) (type : ReqType) : Mgr :=
  let d := m.device mac
  let d := { d with reqCounter := update d.reqCounter type (d.reqCounter type + 1) }
  { m with device := update m.device mac d }

/-- `gkc_lookup_attribute_entry`. -/
def lookupAttributeEntry (add : Add) (req : Req) (updateCount : Bool) : Option (Bool × Req × Mgr) :=
  match req.deviceMac with
  | none => some (false, req, m)
  | some mac =>
    if req.attributeType = .other then some (false, req, m)
    else if ¬ m.hasDevice mac then some (false, req, m)
    else do
      let (ok, req, m) ← m.lookupAttributesTree mac req updateCount
      let (ok, req, m) ← if ok then some (true, req, m) else m.lookupLocationCache add req
      if ok then some (true, req, m.countRequest mac req.attributeType)
      else some (false, req, m)

/-! ## Addition -/

/-- The attribute of an entry that is added again. -/
def countAgain (now : Int) (type : ReqType) (c : AttrCache) : Option AttrCache :=
  match c.attr with
  | .ptr attr => do
    let (_, attr) ← countHit type attr
    some { c with attr := .ptr attr, cacheTs := now }
  | _ => none

/-- `gkc_insert_host_name`. -/
def insertHostName (now : Int) (t : TreeId) (entry : Req) : Option (Bool × Req × Mgr) :=
  match m.fetchAttributeEntry entry with
  | (some s, entry, m) =>
    let c := m.slots s
    if c.isPrivateIp then
      some (false, { entry with isPrivateIp := true }, m.setSlot s { c with cacheTs := now })
    else do
      let c ← countAgain now entry.attributeType c
      some (false, entry, m.setSlot s c)
  | (none, entry, m) => do
    let (ok, m) ← m.insertNew now t entry
    some (ok, entry, m)

section

variable (add : Add) (now : Int)

/-- `gkc_insert_generic`. -/
def insertGeneric (t : TreeId) (entry : Req) : Option (Bool × Req × Mgr) := do
  let (found, entry, m) ← m.lookupAttributeEntry add entry false
  if found then some (false, entry, m)
  else
    let (ok, m) ← m.insertNew now t entry
    some (ok, entry, m)

/-- The insertion into a tree by the kind of the attribute. -/
def insertKind (t : TreeId) (kind : Kind) (entry : Req) : Option (Bool × Req × Mgr) :=
  if kind = .hostname then m.insertHostName now t entry else m.insertGeneric add now t entry

section

variable (mac : Mac)

/-- `gkc_add_attr_tree`. -/
def addAttrTree (entry : Req) : Option (Bool × Req × Mgr) :=
  match entry.attributeType.kind with
  | none => some (false, entry, m)
  | some kind => m.insertKind add now (.device mac kind) kind entry

/-- The entries of a new device for the categories. -/
def newCategoryCache : Option (List AttrCache) :=
  let ids := ((finRange 96).map m.categoryIds).filter (· ≠ 0)
  let n := m.locationCategories
  if n = 0 ∧ ids ≠ [] then none
  else
    some ((ids.take n).map (fun id => { AttrCache.zero with categoryId := UInt32.ofInt id }) ++
      replicate (n - ids.length) .zero)

/-- `gkc_init_per_dev` and the insertion of the device. -/
def initPerDev : Option Mgr := do
  let cache ← m.newCategoryCache
  some { m with
    devices := Ordered.insert id macAddrCmp m.devices mac
    device := update m.device mac ⟨fun _ => 0, fun _ => 0, fun _ => 0, cache⟩
    trees := fun t =>
      match t with
      | .device mac' _ => if mac' = mac then [] else m.trees t
      | .locationWide => m.trees t }

/-- The counter of allowed or of other entries of the device. -/
def countAction (entry : Req) : Mgr :=
  let d := m.device mac
  let t := entry.attributeType
  let d :=
    if entry.action = actionAllow then
      { d with allowed := update d.allowed t (d.allowed t + 1) }
    else { d with blocked := update d.blocked t (d.blocked t + 1) }
  { m with device := update m.device mac d }

/-- The end of `gkc_add_attribute_entry`: the entries of the device for the category. -/
def fillCategories (now : Int) (mac : Mac) (entry : Req) : Option Mgr := do
  let d := m.device mac
  let cache ← (range m.locationCategories).foldlM (fun cache i => do
    let c ← cache[i]?
    if c.categoryId ≠ entry.categoryId ∨ c.action ≠ actionNone then some cache
    else
      let c ← interfaceToAttrCache now entry c
      some (cache.set i c)) d.categoryCache
  some { m with device := update m.device mac { d with categoryCache := cache } }

/-- The part of `gkc_add_attribute_entry` for the location-wide cache.  The request has no
device while it runs. -/
def addLocation (entry : Req) : Option (Bool × Req × Mgr) :=
  match m.find .locationWide entry.cacheKey with
  | some _ => some (true, entry, m)
  | none =>
    match entry.attributeType.kind with
    | none => some (false, entry, m)
    | some kind => do
      let (ok, entry', m) ← m.insertKind add now .locationWide kind { entry with deviceMac := none }
      some (ok, { entry' with deviceMac := entry.deviceMac }, m)

def withDevice : Option Mgr := if m.hasDevice mac then some m else m.initPerDev mac

/-- The part of `gkc_add_attribute_entry` for the device. -/
def addDevice (category : Bool) (entry : Req) : Option (Bool × Req × Mgr) := do
  let m ← m.withDevice mac
  let (ok, entry, m) ← m.addAttrTree add now mac entry
  if !ok then some (false, entry, m)
  else if category then do
    let m ← (m.countAction mac entry).fillCategories now mac entry
    some (true, entry, m)
  else some (true, entry, m.countAction mac entry)

end

/-- `gkc_add_attribute_entry`, with `add` for the additions that it causes. -/
def addEntry (entry : Req) : Option (Bool × Req × Mgr) :=
  if entry.attributeType.kind.isNone then some (false, entry, m)
  else do
    let entry := entry.withKey
    let idx ← category2index entry.categoryId
    let category := decide (m.categoryIds idx ≠ 0)
    match entry.deviceMac with
    | none => m.addLocation add now entry
    | some mac =>
      if category then
        let (_, entry, m) ← m.addLocation add now entry
        m.addDevice add now mac category entry
      else m.addDevice add now mac category entry

end

end Mgr

/-- `gkc_add_attribute_entry`. -/
def addAttributeEntry (now : Int) : Nat → Add
  | 0 => fun _ _ => none
  | fuel + 1 => fun entry m => m.addEntry (addAttributeEntry now fuel) now entry

namespace Mgr

variable (m : Mgr)

/-- The part of `gkc_upsert_attribute_entry` for the action by name. -/
def updateByName (entry : Req) (attr : Ptr Attr) : Option (Ptr Attr) :=
  if entry.actionByName ≠ actionNone.toNat ∧
      (entry.attributeType = .ipv4 ∨ entry.attributeType = .ipv6) then
    match attr with
    | .ptr (.ipAddr a n _) => some (.ptr (.ipAddr a n entry.actionByName))
    | _ => none
  else some attr

/-- The part of `gkc_upsert_attribute_entry` that updates an entry. -/
def updateEntry (now : Int) (entry : Req) (c : AttrCache) : Option AttrCache := do
  let attr ← updateByName entry c.attr
  some { c with
    attr := attr
    action := if entry.action ≠ actionNone then entry.action else c.action
    categorized := entry.categorized
    categoryId := entry.categoryId
    confidenceLevel := entry.confidenceLevel
    isPrivateIp := entry.isPrivateIp
    redirectFlag := entry.redirectFlag
    cacheTs := now
    gkPolicy := c.gkPolicy.dup entry.gkPolicy }

/-- `gkc_upsert_attribute_entry`. -/
def upsertAttributeEntry (add : Add) (now : Int) (entry : Req) : Option (Bool × Req × Mgr) :=
  if entry.attrName.isNone ∧ entry.ipAddr.isNone ∧
      (entry.attributeType = .ipv4 ∨ entry.attributeType = .ipv6) then none
  else
    match m.fetchAttributeEntry entry with
    | (none, entry, m) => add entry m
    | (some s, entry, m) => do
      let c ← updateEntry now entry (m.slots s)
      some (true, entry, m.setSlot s c)

/-! ## Deletion -/

/-- `gkc_free_attr_entry` and `gkc_remove_entry`. -/
def deleteEntry (t : TreeId) (s : Nat) (type : ReqType) : Option Mgr := do
  let c ← freeAttrEntry (m.slots s) type
  some ((m.setSlot s c).removeEntry t s)

/-- `gkc_del_attribute`. -/
def delAttribute (req : Req) : Option (Bool × Req × Mgr) :=
  match req.deviceMac with
  | none => some (false, req, m)
  | some mac =>
    let req := req.withKey
    if ¬ m.hasDevice mac then some (false, req, m)
    else
      match req.attributeType.kindOrHostname with
      | none => some (false, req, m)
      | some kind =>
        match m.find (.device mac kind) req.cacheKey with
        | none => some (false, req, m)
        | some s => do
          let m ← m.deleteEntry (.device mac kind) s req.attributeType
          some (true, req, m)

/-- `gkc_attr_ttl_expired`, negated as in the source. -/
def ttlExpired (now : Int) (c : AttrCache) : Bool := !decide (now - c.originalTs < c.cacheTtl)

/-- The loop of `gkc_cleanup_ttl_attribute_tree`, at the entry `s`.  `now s` is the time when
the entry is tested. -/
def cleanupLoop (now : Nat → Int) (t : TreeId) (type : ReqType) :
    Nat → Option Nat → Mgr → Option Mgr
  | _, none, m => some m
  | 0, some _, _ => none
  | fuel + 1, some s, m =>
    let next := Ordered.next (m.trees t) s
    if ttlExpired (now s) (m.slots s) then do
      let m ← m.deleteEntry t s type
      cleanupLoop now t type fuel next { m with totalEntryCount := m.totalEntryCount - 1 }
    else cleanupLoop now t type fuel next m

/-- `gkc_cleanup_ttl_attribute_tree`. -/
def cleanupTtlAttributeTree (now : Nat → Int) (t : TreeId) (type : ReqType) : Option Mgr :=
  cleanupLoop now t type (m.trees t).length (m.trees t).head? m

/-- The types in the order of `gk_cache_check_ttl_per_device`. -/
def ttlTypes : List (ReqType × Kind) :=
  [(.hostname, .hostname), (.url, .url), (.ipv4, .ipv4), (.ipv6, .ipv6), (.app, .app)]

/-- `gk_cache_check_ttl_per_device`, for the attributes. -/
def checkTtlPerDevice (now : Nat → Int) (mac : Mac) : Option Mgr :=
  ttlTypes.foldlM (fun m p => m.cleanupTtlAttributeTree now (.device mac p.2) p.1) m

/-- `gkc_ttl_cleanup`. -/
def ttlCleanup (now : Nat → Int) : Option Mgr :=
  m.devices.foldlM (fun m mac => m.checkTtlPerDevice now mac) m

end Mgr

end OpenSync.Gkc
