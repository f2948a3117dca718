import OpenSync.Lib.CInt

/-!
# Entries of the gatekeeper cache

`struct attr_cache` and `struct gk_attr_cache_interface` of `gatekeeper_cache.h`, and the
functions of `gatekeeper_cache.c` that move data between an entry and a request.

`FREE` leaves a marker in the pointer, and `IS_NULL_PTR` takes the marker for a null pointer.
A use of memory through the marker or of a member of the union that is not the one in use, a
`STRDUP` of null and a second `FREE` are `none`.
-/

namespace OpenSync.Gkc

open OpenSync.Lib

/-- `enum gk_cache_request_type`; `other` is any value outside of it. -/
inductive ReqType where
  | fqdn | url | host | sni | ipv4 | ipv6 | app | inbound | outbound | hostname | other
deriving DecidableEq

/-- The attribute trees of a device. -/
inductive Kind where
  | hostname | url | ipv4 | ipv6 | app
deriving DecidableEq

/-- A MAC address as a number, so that `memcmp` is the order of numbers. -/
abbrev Mac := Fin (2 ^ 48)

instance neZero_mac : NeZero (2 ^ 48) := ⟨by decide⟩

/-- A `ds_tree_t` of entries. -/
inductive TreeId where
  | device (mac : Mac) (kind : Kind)
  | locationWide
deriving DecidableEq

/-- The tree of a device for requests of a type. -/
def ReqType.kind : ReqType → Option Kind
  | .fqdn | .host | .sni => some .hostname
  | .url => some .url
  | .ipv4 => some .ipv4
  | .ipv6 => some .ipv6
  | .app => some .app
  | _ => none

/-- `gk_get_attribute_tree`, which has a case for the internal type. -/
def ReqType.kindOrHostname : ReqType → Option Kind
  | .hostname => some .hostname
  | t => t.kind

/-- The bytes of a C string. -/
abbrev Name := List UInt8

/-- `struct sockaddr_storage`. -/
abbrev Sockaddr := Fin 128 → UInt8

/-- `sin_addr`. -/
def Sockaddr.sinAddr (a : Sockaddr) : List UInt8 := [a 4, a 5, a 6, a 7]

/-- `sin6_addr`. -/
def Sockaddr.sin6Addr (a : Sockaddr) : List UInt8 :=
  (List.range 16).map fun i => a (8 + .ofNat 128 i)

/-- A pointer that can be null or hold the marker of `FREE`. -/
inductive Ptr (α : Type) where
  | null
  | freed
  | ptr (a : α)

/-- `FREE`. -/
def Ptr.free {α : Type} : Ptr α → Option (Ptr α)
  | .null => some .null
  | .freed => none
  | .ptr _ => some .freed

/-- `if (!IS_NULL_PTR(p)) FREE(p)`. -/
def Ptr.release {α : Type} : Ptr α → Ptr α
  | .ptr _ => .freed
  | p => p

/-- What a pointer other than the marker points to, if it is not null. -/
def Ptr.read {α : Type} : Ptr α → Option (Option α)
  | .null => some none
  | .freed => none
  | .ptr a => some (some a)

/-- `struct fqdn_redirect_s`. -/
structure Redirect where
  redirectCname : Option Name
  redirectIps : Name × Name
  redirectTtl : Int
  redirect : Bool

/-- What `union attribute_type` points to. -/
inductive Attr where
  | hostName (name : Name) (countFqdn countHost countSni : UInt64)
  | generic (name : Name) (hitCount : UInt64)
  | ipAddr (addr : Sockaddr) (hitCount : UInt64) (actionByName : Int)

/-- `struct attr_cache`. -/
structure AttrCache where
  attr : Ptr Attr
  cacheTtl : Int
  cacheTs : Int
  originalTs : Int
  action : UInt8
  gkPolicy : Ptr Name
  categoryId : UInt32
  confidenceLevel : UInt32
  categorized : Int
  fqdnRedirect : Ptr Redirect
  direction : UInt8
  key : UInt64
  isPrivateIp : Bool
  redirectFlag : Bool
  flowMarker : UInt32
  networkId : Ptr Name
  attrTree : Option TreeId
  type : ReqType

/-- An entry from `CALLOC`. -/
def AttrCache.zero : AttrCache where
  attr := .null
  cacheTtl := 0
  cacheTs := 0
  originalTs := 0
  action := 0
  gkPolicy := .null
  categoryId := 0
  confidenceLevel := 0
  categorized := 0
  fqdnRedirect := .null
  direction := 0
  key := 0
  isPrivateIp := false
  redirectFlag := false
  flowMarker := 0
  networkId := .null
  attrTree := none
  type := .fqdn

/-- `struct gk_attr_cache_interface`. -/
structure Req where
  deviceMac : Option Mac
  attributeType : ReqType
  attrName : Option Name
  ipAddr : Option Sockaddr
  cacheTtl : UInt64
  action : UInt8
  direction : UInt8
  gkPolicy : Option Name
  categoryId : UInt32
  confidenceLevel : UInt32
  hitCounter : UInt64
  cacheKey : UInt64
  fqdnRedirect : Option Redirect
  categorized : Int
  isPrivateIp : Bool
  redirectFlag : Bool
  actionByName : Int
  flowMarker : UInt32
  networkId : Ptr Name

/-- `FSM_ACTION_NONE`. -/
def actionNone : UInt8 := 0

/-- `FSM_BLOCK`. -/
def actionBlock : UInt8 := 1

/-- `FSM_ALLOW`. -/
def actionAllow : UInt8 := 2

/-- `FSM_REDIRECT`. -/
def actionRedirect : UInt8 := 5

/-! ## Keys -/

/-- One byte of `MurmurOAAT64`. -/
def murmurStep (h : UInt64) (b : UInt8) : UInt64 :=
  let h := (h ^^^ b.toUInt64) * 0x5bd1e9955bd1e995
  h ^^^ (h >>> 47)

/-- `MurmurOAAT64`. -/
def murmurOAAT64 (dir : UInt8) (data : List UInt8) : UInt64 :=
  data.foldl murmurStep (murmurStep 0x749E3E6989DF617 dir)

/-- `GKC_FLOW_DIRECTION_INTERNAL_IGNORE`. -/
def directionIgnore : UInt8 := 4

section

variable (r : Req)

/-- The direction and the bytes that make up the key of a request. -/
def Req.keyData : UInt8 × List UInt8 :=
  match r.attributeType, r.ipAddr with
  | .ipv4, some a => (r.direction, Sockaddr.sinAddr a)
  | .ipv6, some a => (r.direction, Sockaddr.sin6Addr a)
  | .inbound, _ | .outbound, _ => (r.direction, r.attrName.getD [])
  | _, _ => (directionIgnore, r.attrName.getD [])

/-- `get_attr_key`. -/
def getAttrKey : UInt64 :=
  if r.attrName.isNone ∧ r.ipAddr.isNone then 0
  else if r.keyData.2 = [] then 0
  else murmurOAAT64 r.keyData.1 r.keyData.2

def Req.key : UInt64 := if r.cacheKey = 0 then getAttrKey r else r.cacheKey

/-- The request with its key filled in. -/
def Req.withKey : Req := { r with cacheKey := r.key }

@[simp] theorem Req.withKey_deviceMac : r.withKey.deviceMac = r.deviceMac := rfl

@[simp] theorem Req.withKey_attributeType : r.withKey.attributeType = r.attributeType := rfl

@[simp] theorem Req.withKey_cacheKey : r.withKey.cacheKey = r.key := rfl

@[simp] theorem Req.withKey_key : r.withKey.key = r.key := by
  unfold Req.key
  by_cases h : r.cacheKey = 0
  · have hk : getAttrKey r.withKey = getAttrKey r := rfl
    rw [hk]
    simp [withKey, key, h]
  · simp [withKey, key, h]

end

/-! ## From a request to an entry -/

/-- `gk_add_new_redirect_entry`. -/
def addNewRedirectEntry (input : Req) (c : AttrCache) : AttrCache :=
  match input.fqdnRedirect with
  | none => c
  | some r =>
    if r.redirect then { c with fqdnRedirect := .ptr r }
    else { c with fqdnRedirect := .ptr ⟨none, ([], []), 0, false⟩ }

def newAttr (entry : Req) : Option Attr :=
  match entry.attributeType with
  | .fqdn => entry.attrName.map fun name => .hostName name 1 0 0
  | .host => entry.attrName.map fun name => .hostName name 0 1 0
  | .sni => entry.attrName.map fun name => .hostName name 0 0 1
  | .url | .app => entry.attrName.map fun name => .generic name 1
  | .ipv4 | .ipv6 => some (.ipAddr (entry.ipAddr.getD fun _ => 0) 1 entry.actionByName)
  | _ => none

/-- `STRDUP` into a pointer, when there is something to copy. -/
def Ptr.dup (p : Ptr Name) : Option Name → Ptr Name
  | none => p
  | some name => .ptr name

/-- `gkc_interface_to_attr_cache` for one of the types of attributes. -/
def interfaceToAttrCache (now : Int) (entry : Req) (c : AttrCache) : Option AttrCache := do
  let attr ← newAttr entry
  let c := if entry.attributeType.kind = some .hostname then addNewRedirectEntry entry c else c
  let network ← entry.networkId.read
  some { c with
    attr := .ptr attr
    cacheTs := now
    originalTs := now
    cacheTtl := toInt entry.cacheTtl.toNat
    direction := entry.direction
    key := entry.key
    redirectFlag := entry.redirectFlag
    action := entry.action
    categorized := entry.categorized
    categoryId := entry.categoryId
    confidenceLevel := entry.confidenceLevel
    isPrivateIp := entry.isPrivateIp
    gkPolicy := c.gkPolicy.dup entry.gkPolicy
    flowMarker := entry.flowMarker
    networkId := c.networkId.dup network
    type := entry.attributeType }

/-- `gkc_free_attr_entry`. -/
def freeAttrEntry (c : AttrCache) (type : ReqType) : Option AttrCache := do
  let c := { c with gkPolicy := c.gkPolicy.release, networkId := c.networkId.release }
  match type with
  | .hostname | .fqdn =>
    let .ptr (.hostName ..) := c.attr | none
    some { c with fqdnRedirect := c.fqdnRedirect.release, attr := .freed }
  | .host | .sni =>
    let .ptr (.hostName ..) := c.attr | none
    some { c with attr := .freed }
  | .url | .app =>
    let .ptr (.generic ..) := c.attr | none
    some { c with attr := .freed }
  | .ipv4 | .ipv6 => some { c with attr := ← c.attr.free }
  | _ => some c

/-! ## From an entry to a request -/

section

variable (req : Req) (c : AttrCache)

/-- `gkc_lookup_redirect_entry`. -/
def lookupRedirectEntry : Option Req :=
  if req.attributeType.kind = some .hostname then
    match req.fqdnRedirect with
    | none => some req
    | some old => do
      match ← c.fqdnRedirect.read with
      | none => some req
      | some r =>
        some { req with fqdnRedirect := some { r with
          redirectCname := r.redirectCname.or old.redirectCname } }
  else some req

/-- `gkc_update_entry_action`. -/
def updateEntryAction : Option (Bool × Req) :=
  if req.attributeType = .ipv4 ∨ req.attributeType = .ipv6 then
    match c.attr with
    | .ptr (.ipAddr _ _ byName) =>
      if byName = actionNone.toNat ∧ c.action ≠ actionNone then
        some (true, { req with action := c.action })
      else if byName = actionAllow.toNat ∧ c.action = actionNone then
        some (true, { req with action := actionAllow })
      else if byName = actionAllow.toNat ∧ c.action ≠ actionNone then
        some (true, { req with action := c.action })
      else if byName = actionBlock.toNat ∧ c.action = actionNone then some (false, req)
      else if byName = actionBlock.toNat ∧ c.action ≠ actionNone then
        some (true, { req with action := c.action })
      else some (true, req)
    | _ => none
  else some (true, req)

/-- The hit counter of an attribute for requests of a type, and the attribute with one more. -/
def countHit (type : ReqType) (attr : Attr) : Option (UInt64 × Attr) :=
  match type, attr with
  | .fqdn, .hostName name f h s => some (f + 1, .hostName name (f + 1) h s)
  | .host, .hostName name f h s => some (h + 1, .hostName name f (h + 1) s)
  | .sni, .hostName name f h s => some (s + 1, .hostName name f h (s + 1))
  | .url, .generic name n | .app, .generic name n => some (n + 1, .generic name (n + 1))
  | .ipv4, .ipAddr a n b | .ipv6, .ipAddr a n b => some (n + 1, .ipAddr a (n + 1) b)
  | _, _ => none

/-- The value of a counter after it went through an `int`. -/
def throughInt (n : UInt64) : UInt64 := UInt64.ofInt (toInt n.toNat)

/-- The part of `gkc_lookup_attr_tree` that counts the hit. -/
def lookupCount (updateCount : Bool) : Option (Req × AttrCache) :=
  if updateCount ∧ !c.isPrivateIp ∧ req.attributeType.kind.isSome then do
    let .ptr attr := c.attr | none
    let (n, attr) ← countHit req.attributeType attr
    some ({ req with hitCounter := throughInt n }, { c with attr := .ptr attr })
  else some ({ req with hitCounter := throughInt req.hitCounter }, c)

/-- The action of the request and of the entry that it finds. -/
def mergeAction : Req × AttrCache :=
  if c.action = actionNone ∧ req.action ≠ actionNone then (req, { c with action := req.action })
  else ({ req with action := c.action }, c)

/-- The fields of the request that come from the entry. -/
def fillRequest : Req :=
  let req := { req with
    categorized := c.categorized
    categoryId := c.categoryId
    confidenceLevel := c.confidenceLevel
    isPrivateIp := c.isPrivateIp
    redirectFlag := c.redirectFlag
    flowMarker := c.flowMarker
    networkId := c.networkId }
  if req.attributeType = .sni ∧ req.action = actionRedirect then
    { req with action := actionBlock, redirectFlag := false }
  else req

/-- The policies of the request and of the entry that it finds. -/
def mergePolicy : Req × AttrCache :=
  match c.gkPolicy, req.gkPolicy with
  | .ptr name, none => ({ req with gkPolicy := some name }, c)
  | _, some name => (req, { c with gkPolicy := .ptr name })
  | _, none => (req, c)

/-- The part of `gkc_lookup_attr_tree` that can refuse the entry. -/
def lookupAction (updateCount : Bool) : Option (Bool × Req) :=
  if updateCount then updateEntryAction req c else some (true, req)

/-- The part of `gkc_lookup_attr_tree` that copies from the entry to the request. -/
def lookupCopy : Option (Req × AttrCache) := do
  let (req, c) := mergeAction req c
  let req ← lookupRedirectEntry (fillRequest req c) c
  some (mergePolicy req c)

/-- `gkc_lookup_attr_tree` after the entry is found. -/
def lookupHit (updateCount : Bool) : Option (Bool × Req × AttrCache) := do
  let (req, c) ← lookupCount req c updateCount
  let (ok, req) ← lookupAction req c updateCount
  if !ok then some (false, req, c)
  else
    let (req, c) ← lookupCopy req c
    some (true, req, c)

/-- `gkc_attr_cache_to_interface` into a request that is zero. -/
def attrCacheToInterface (c : AttrCache) : Option Req := do
  let (name, addr, byName) ←
    match c.type, c.attr with
    | .fqdn, .ptr (.hostName name ..) | .host, .ptr (.hostName name ..)
    | .sni, .ptr (.hostName name ..) | .hostname, .ptr (.hostName name ..) =>
      some (some name, none, 0)
    | .url, .ptr (.generic name _) | .app, .ptr (.generic name _) => some (some name, none, 0)
    | .ipv4, .ptr (.ipAddr a _ b) | .ipv6, .ptr (.ipAddr a _ b) => some (none, some a, b)
    | .inbound, _ | .outbound, _ | .other, _ => some (none, none, 0)
    | _, _ => none
  let policy ← c.gkPolicy.read
  let redirect ← c.fqdnRedirect.read
  some {
    deviceMac := none
    attributeType := c.type
    attrName := name
    ipAddr := addr
    cacheTtl := UInt64.ofInt c.cacheTtl
    action := c.action
    direction := c.direction
    gkPolicy := policy
    categoryId := c.categoryId
    confidenceLevel := c.confidenceLevel
    hitCounter := 0
    cacheKey := 0
    fqdnRedirect := redirect
    categorized := c.categorized
    isPrivateIp := c.isPrivateIp
    redirectFlag := c.redirectFlag
    actionByName := byName
    flowMarker := c.flowMarker
    networkId := c.networkId }

/-- `gkc_compare_attr_type`. -/
def compareAttrType : Bool :=
  req.attributeType.kind.isSome && req.attributeType.kind == c.type.kind

end

end OpenSync.Gkc
