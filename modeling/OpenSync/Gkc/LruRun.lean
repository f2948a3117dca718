import OpenSync.Gkc.LruCalls

/-!
# Runs of the gatekeeper cache

Every call keeps the invariant of the slots, and the attributes in `lru_list` are in the order of
last use.  A use of an attribute is a call that adds it, looks it up or fetches it, and finds it in
the cache or puts it there, also when a lookup returns false for a new verdict by name.
-/

namespace OpenSync.Gkc

open OpenSync.Ds OpenSync.Lib List Option Mgr

/-- The calls of the cache. -/
inductive Op where
  | add (now : Int) (req : Req)
  | upsert (now : Int) (req : Req)
  | lookup (now : Int) (req : Req) (updateCount : Bool)
  | fetch (req : Req)
  | del (req : Req)
  | ttl (now : Nat → Int)

/-- The result of a call and the manager after it. -/
def Mgr.step (fuel : Nat) (m : Mgr) : Op → Option (Bool × Mgr)
  | .add now req => do
    let (ok, _, m) ← addAttributeEntry now fuel req m
    some (ok, m)
  | .upsert now req => do
    let (ok, _, m) ← m.upsertAttributeEntry (addAttributeEntry now fuel) now req
    some (ok, m)
  | .lookup now req updateCount => do
    let (ok, _, m) ← m.lookupAttributeEntry (addAttributeEntry now fuel) req updateCount
    some (ok, m)
  | .fetch req => some ((m.fetchAttributeEntry req).1.isSome, (m.fetchAttributeEntry req).2.2)
  | .del req => do
    let (ok, _, m) ← m.delAttribute req
    some (ok, m)
  | .ttl now => do
    let m ← m.ttlCleanup now
    some (true, m)

/-- The request of a call that is for an attribute to be used. -/
def Op.request : Op → Option Req
  | .add _ req | .upsert _ req | .lookup _ req _ | .fetch req => some req
  | .del _ | .ttl _ => none

/-- The attribute that a call is for. -/
def Op.ident (op : Op) : Option AttrId := op.request.bind Req.ident

def Mgr.has (m : Mgr) (a : AttrId) : Bool := (m.find a.1 a.2).isSome

/-- The attribute that a call used, from the manager after the call. -/
def Mgr.used (m : Mgr) (op : Op) : Option AttrId := op.ident.filter m.has

/-- A run, with the uses of attributes so far. -/
def Mgr.run (fuel : Nat) (m : Mgr) (h : List (Option AttrId)) :
    List Op → Option (Mgr × List (Option AttrId))
  | [] => some (m, h)
  | op :: ops => do
    let (_, m) ← m.step fuel op
    m.run fuel (m.used op :: h) ops

/-- The request is for a device and has a name or an address. -/
structure Req.ForDevice (r : Req) : Prop where
  mac : r.deviceMac ≠ none
  name : r.attrName ≠ none ∨ r.ipAddr ≠ none

/-- A request for a device, that can be made into an entry if it is an addition.  A lookup reads no
redirect of a slot where it has been freed. -/
def Mgr.Allowed (m : Mgr) : Op → Prop
  | .add _ req | .upsert _ req => req.ForDevice ∧ (req.attributeType.kind ≠ none → req.Named)
  | .lookup _ req _ => req.ForDevice ∧ ∀ a s, req.ident = some a → m.find a.1 a.2 = some s →
      (m.slots s).Readable req
  | .fetch req | .del req => req.ForDevice
  | .ttl _ => True

/-- Every call of a run is allowed. -/
def Mgr.Legal (fuel : Nat) (m : Mgr) : List Op → Prop
  | [] => True
  | op :: ops => m.Allowed op ∧ ∀ ok m', m.step fuel op = some (ok, m') → m'.Legal fuel ops

/-- The attributes in the cache after an addition of `a`.  A full cache gives up the least recently
used one. -/
structure Adds (h : List (Option AttrId)) (m m' : Mgr) (a : AttrId) : Prop where
  present : a ∈ m.attrs → m'.attrs = m.attrs
  room : a ∉ m.attrs → m.lruAvailable ≠ 0 → m'.attrs = insert a m.attrs
  full : a ∉ m.attrs → m.lruAvailable = 0 → ∃ v ∈ m.attrs,
    (∀ b ∈ m.attrs, b ≠ v → lastUse h v < lastUse h b) ∧ m'.attrs = insert a (m.attrs \ {v})

/-- What the attributes in the cache are after a call. -/
def OpSpec (h : List (Option AttrId)) (m m' : Mgr) : Op → Prop
  | .add _ req | .upsert _ req => ∀ a, req.ident = some a → Adds h m m' a
  | .lookup _ _ _ | .fetch _ => m'.attrs = m.attrs
  | .del req => m'.attrs = m.attrs \ {a | ∃ mac k, req.deviceMac = some mac ∧
      req.attributeType.kindOrHostname = some k ∧ a = (.device mac k, req.key)}
  | .ttl now => m'.attrs = {a | ∃ s ∈ m.trees a.1, (m.slots s).key = a.2 ∧
      Mgr.ttlExpired (now s) (m.slots s) = false}

/-! ## One call -/

section Step

variable {size : Nat} {h : List (Option AttrId)} {m m' : Mgr} {used used' free free' : List Nat}
  {s : Nat}
  {op : Op} {a : AttrId}

section

variable (hi : Inv size m used free)

include hi

theorem Inv.has_iff : m.has a = true ↔ a ∈ used.map m.ident := by
  rw [has, isSome_iff_ne_none, Ne, hi.find_eq_none, not_not]

theorem Inv.attrs_eq : m.attrs = {a | a ∈ used.map m.ident} :=
  Set.ext fun _ => hi.mem_attrs

theorem Inv.used_of_mem (hop : op.ident = some a) (ha : a ∈ used.map m.ident)
    : m.used op = some a := by
  rw [Mgr.used, hop, filter_some, if_pos (hi.has_iff.mpr ha)]

theorem Inv.used_of_not_mem (op : Op) (hop : ∀ a, op.ident = some a → a ∉ used.map m.ident)
    : m.used op = none := by
  cases ha : op.ident with
  | none => simp [Mgr.used, ha]
  | some a =>
    rw [Mgr.used, ha, filter_some, if_neg fun hh => hop a ha (hi.has_iff.mp hh)]

end

/-- A call that finds the attribute of the slot `s`. -/
theorem touch_spec (op : Op) (hi : Inv size m used free) (hr : Recent h (used.map m.ident))
    (hs : s ∈ used)
    (hi' : Inv size m' (s :: used.erase s) free) (hid : m'.ident = m.ident)
    (hop : op.ident = some (m.ident s)) :
    Recent (m'.used op :: h) ((s :: used.erase s).map m'.ident) ∧ m'.attrs = m.attrs := by
  have hnd := hi'.idents
  rw [hid] at hnd
  rw [hi'.used_of_mem hop (by simp [hid]), hid]
  refine ⟨(hr.sublist (erase_sublist.map _)).cons (nodup_cons.mp hnd).1, ?_⟩
  rw [hi'.attrs_eq, hi.attrs_eq, hid]
  ext a
  exact ((perm_cons_erase hs).map m.ident).mem_iff.symm

theorem insert_spec (hi : Inv size m used free) (hr : Recent h (used.map m.ident))
    (hi' : Inv size m' used' free') (hnew : a ∉ used.map m.ident)
    (hmap : used'.map m'.ident = lruInsert a (used.map m.ident) free.length)
    (hop : op.ident = some a) :
    Recent (m'.used op :: h) (used'.map m'.ident) ∧ Adds h m m' a := by
  rw [hi'.used_of_mem hop (by simp [hmap, lruInsert]), hmap, lruInsert]
  refine ⟨?_, fun ha => absurd (hi.mem_attrs.mp ha) hnew, fun _ havail => ?_, fun _ havail => ?_⟩
  · split
    · exact (hr.sublist (dropLast_sublist _)).cons fun ha =>
        hnew ((dropLast_sublist _).subset ha)
    · exact hr.cons hnew
  · rw [hi.avail_eq] at havail
    rw [hi'.attrs_eq, hi.attrs_eq, hmap, lruInsert, if_neg havail]
    ext b
    simp
  rw [hi.avail_eq] at havail
  have hne : used.map m.ident ≠ [] := by
    intro hnil
    have hlen := hi.perm.length_eq
    have heq := hi.size_eq
    have hpos := hi.size_pos
    simp only [map_eq_nil_iff] at hnil
    simp [hnil] at hlen
    omega
  obtain ⟨l, v, hl⟩ := (eq_nil_or_concat' (used.map m.ident)).resolve_left hne
  have hnd := hi.idents
  rw [hl] at hr hnd
  have hv : v ∉ l := fun hv => (nodup_append.mp hnd).2.2 v hv v (by simp) rfl
  refine ⟨v, by simp [hi.attrs_eq, hl], fun b hb hbv => ?_, ?_⟩
  · have hb : b ∈ l := by simpa [hi.attrs_eq, hl, hbv] using hb
    exact (pairwise_append.mp hr).2.2 b hb v (mem_singleton_self v)
  rw [hi'.attrs_eq, hi.attrs_eq, hmap, lruInsert, if_pos havail, hl]
  ext b
  simp only [dropLast_concat, mem_cons, mem_append, not_mem_nil, or_false]
  refine or_congr_right ⟨fun hb => ⟨.inl hb, fun he => hv (he ▸ hb)⟩, fun hb => ?_⟩
  exact hb.1.resolve_right hb.2

/-- The call returns, and does what it should. -/
def Done (size fuel : Nat) (h : List (Option AttrId)) (m : Mgr) (op : Op) : Prop :=
  ∃ ok m' used' free', m.step fuel op = some (ok, m') ∧ Inv size m' used' free' ∧
    Recent (m'.used op :: h) (used'.map m'.ident) ∧ OpSpec h m m' op

variable {req : Req} (fuel : Nat)

variable (m used) in
/-- The attribute of a request is in the cache or it is not. -/
theorem hit_or_miss {mac : Mac} (hmac : req.deviceMac = some mac) :
    (∃ k s, req.attributeType.kind = some k ∧ s ∈ used ∧ m.ident s = (.device mac k, req.key) ∧
      req.ident = some (m.ident s)) ∨
    ((∀ k, req.attributeType.kind = some k → (.device mac k, req.key) ∉ used.map m.ident) ∧
      ∀ a, req.ident = some a → a ∉ used.map m.ident) := by
  cases hk : req.attributeType.kind with
  | none => exact .inr ⟨by simp, by simp [Req.ident, hk]⟩
  | some k =>
    have hident : req.ident = some (.device mac k, req.key) := by simp [Req.ident, hmac, hk]
    by_cases hmem : (TreeId.device mac k, req.key) ∈ used.map m.ident
    · obtain ⟨s, hs, hid⟩ := mem_map.mp hmem
      exact .inl ⟨k, s, rfl, hs, hid, by rw [hident, hid]⟩
    refine .inr ⟨fun k' hk' => ?_, fun a ha => ?_⟩
    · cases hk'
      exact hmem
    · rw [hident] at ha
      cases ha
      exact hmem

section

variable (hi : Inv size m used free)

include hi

section

variable (hr : Recent h (used.map m.ident))

include hr

theorem Inv.idle (hmiss : ∀ a, op.ident = some a → a ∉ used.map m.ident) :
    Recent (m.used op :: h) (used.map m.ident) := by
  rw [hi.used_of_not_mem op hmiss]
  exact hr.idle

theorem fetch_done (hreq : req.ForDevice) : Done size fuel h m (.fetch req) := by
  obtain ⟨mac, hmac⟩ := ne_none_iff_exists'.mp hreq.mac
  obtain ⟨k, s, hk, hs, hid, hident⟩ | ⟨hmiss, hnot⟩ := hit_or_miss m used hmac
  · have hfetch := fetch_hit hi hmac hk hs hid
    have hi' := hi.moveToHead hs
    obtain ⟨hrecent, hattrs⟩ := touch_spec (.fetch req) hi hr hs hi' rfl hident
    exact ⟨true, _, _, _, by simp [step, hfetch], hi', hrecent, hattrs⟩
  · have hfetch : ∃ req', m.fetchAttributeEntry req = (none, req', m) := by
      obtain ⟨hfetch, -⟩ | hfetch := fetch_miss hi hmac hmiss
      · exact ⟨req, hfetch⟩
      · exact ⟨req.withKey, hfetch⟩
    obtain ⟨req', hfetch⟩ := hfetch
    exact ⟨false, m, used, free, by simp [step, hfetch], hi, hi.idle hr hnot, rfl⟩

theorem lookup_done {now : Int} {u : Bool} (hop : m.Allowed (.lookup now req u))
    : Done size fuel h m (.lookup now req u) := by
  obtain ⟨hreq, hread⟩ := hop
  obtain ⟨mac, hmac⟩ := ne_none_iff_exists'.mp hreq.mac
  obtain ⟨k, s, hk, hs, hid, hident⟩ | ⟨hmiss, hnot⟩ := hit_or_miss m used hmac
  · have hfind : m.find (m.ident s).1 (m.ident s).2 = some s := hi.find_eq_some.mpr ⟨hs, rfl⟩
    obtain ⟨ok, req', m', hlookup, hi', hid', -⟩ := lookup_hit (addAttributeEntry now fuel) hi hmac
      hk hreq.name hs hid (hread _ s hident hfind) u
    obtain ⟨hrecent, hattrs⟩ := touch_spec (.lookup now req u) hi hr hs hi' hid' hident
    exact ⟨ok, m', _, _, by simp [step, hlookup], hi', hrecent, hattrs⟩
  · obtain ⟨req', hlookup, -⟩ := lookup_miss (addAttributeEntry now fuel) hi hmac hmiss u
    exact ⟨false, m, used, free, by simp [step, hlookup], hi, hi.idle hr hnot, rfl⟩

end

end

/-- An addition that finds the attribute or puts it into the cache. -/
theorem add_spec (add : Add) (hi : Inv size m used free) (now : Int) {mac : Mac}
    (hmac : req.deviceMac = some mac) (hn : req.attributeType.kind ≠ none → req.Named) :
    ∃ ok req' m' used' free', m.addEntry add now req = some (ok, req', m') ∧
      Inv size m' used' free' ∧
      ∀ (op : Op) h, op.ident = req.ident → Recent h (used.map m.ident) →
        Recent (m'.used op :: h) (used'.map m'.ident) ∧
          ∀ a, req.ident = some a → Adds h m m' a := by
  obtain ⟨k, s, hk, hs, hid, hident⟩ | ⟨hmiss, hnot⟩ := hit_or_miss m used hmac
  · obtain ⟨req', m', hadd, hi', hid'⟩ := addEntry_hit add hi now hmac hk (hn (by simp [hk])) hs hid
    refine ⟨false, req', m', _, _, hadd, hi', fun op h hop hr => ?_⟩
    obtain ⟨hrecent, hattrs⟩ := touch_spec op hi hr hs hi' hid' (hop.trans hident)
    refine ⟨hrecent, fun a ha => ⟨fun _ => hattrs, fun hno => ?_, fun hno => ?_⟩⟩ <;>
    · rw [hident, some.injEq] at ha
      exact absurd (hi.mem_attrs.mpr (ha ▸ mem_map_of_mem hs)) hno
  cases hk : req.attributeType.kind with
  | none =>
    refine ⟨false, req, m, used, free, by simp [addEntry, hk], hi, fun op h hop hr => ?_⟩
    exact ⟨hi.idle hr (by rwa [hop]), by simp [Req.ident, hk]⟩
  | some k =>
    have hident : req.ident = some (.device mac k, req.key) := by simp [Req.ident, hmac, hk]
    obtain ⟨req', m', used', free', hadd, hi', hmap, -⟩ :=
      addEntry_miss add hi now hmac hk (hn (by simp [hk])) (hmiss k hk)
    refine ⟨true, req', m', used', free', hadd, hi', fun op h hop hr => ?_⟩
    obtain ⟨hrecent, hadds⟩ := insert_spec hi hr hi' (hmiss k hk) hmap (hop.trans hident)
    refine ⟨hrecent, fun a ha => ?_⟩
    rw [hident, some.injEq] at ha
    exact ha ▸ hadds

section

variable (hi : Inv size m used free) (hr : Recent h (used.map m.ident))

include hi hr

theorem add_done {now : Int} (hop : m.Allowed (.add now req))
    : Done size (fuel + 1) h m (.add now req) := by
  obtain ⟨mac, hmac⟩ := ne_none_iff_exists'.mp hop.1.mac
  obtain ⟨ok, req', m', used', free', hadd, hi', hspec⟩ :=
    add_spec (addAttributeEntry now fuel) hi now hmac hop.2
  obtain ⟨hrecent, hadds⟩ := hspec (.add now req) h rfl hr
  exact ⟨ok, m', used', free', by simp [step, addAttributeEntry, hadd], hi', hrecent, hadds⟩

theorem upsert_done {now : Int} (hop : m.Allowed (.upsert now req))
    : Done size (fuel + 1) h m (.upsert now req) := by
  obtain ⟨hreq, hn⟩ := hop
  obtain ⟨mac, hmac⟩ := ne_none_iff_exists'.mp hreq.mac
  have hname : ¬ (req.attrName.isNone ∧ req.ipAddr.isNone ∧
      (req.attributeType = .ipv4 ∨ req.attributeType = .ipv6)) := by
    have := hreq.name
    simp only [isNone_iff_eq_none]
    tauto
  obtain ⟨k, s, hk, hs, hid, hident⟩ | ⟨hmiss, hnot⟩ := hit_or_miss m used hmac
  · obtain ⟨htree, hfits⟩ := hi.slot_of hs hid
    obtain ⟨c, hupdate, hc⟩ := updateEntry_spec req.withKey now hk hfits
    obtain ⟨hi', hid'⟩ := (hi.moveToHead hs).setSlot (mem_cons_self ..) htree hc
    obtain ⟨hrecent, hattrs⟩ := touch_spec (.upsert now req) hi hr hs hi' hid' hident
    refine ⟨true, (m.moveToHead s).setSlot s c, _, _, ?_, hi', hrecent, fun a ha => ?_⟩
    · have hslots : (m.moveToHead s).slots s = m.slots s := rfl
      rw [step, upsertAttributeEntry, if_neg hname, fetch_hit hi hmac hk hs hid]
      simp [hslots, hupdate]
    · rw [hident, some.injEq] at ha
      have hmem : m.ident s ∈ m.attrs := hi.mem_attrs.mpr (mem_map_of_mem hs)
      rw [ha] at hmem
      exact ⟨fun _ => hattrs, fun hno => absurd hmem hno, fun hno => absurd hmem hno⟩
  · have hfetch : ∃ req', m.fetchAttributeEntry req = (none, req', m) ∧
        req'.deviceMac = some mac ∧ (req'.attributeType.kind ≠ none → req'.Named) ∧
        req'.ident = req.ident := by
      obtain ⟨hfetch, -⟩ | hfetch := fetch_miss hi hmac hmiss
      · exact ⟨req, hfetch, hmac, hn, rfl⟩
      · exact ⟨req.withKey, hfetch, hmac, hn, by simp [Req.ident]⟩
    obtain ⟨req1, hfetch, hmac1, hn1, hident1⟩ := hfetch
    obtain ⟨ok, req', m', used', free', hadd, hi', hspec⟩ :=
      add_spec (addAttributeEntry now fuel) hi now hmac1 hn1
    obtain ⟨hrecent, hadds⟩ := hspec (.upsert now req) h hident1.symm hr
    refine ⟨ok, m', used', free', ?_, hi', hrecent, fun a ha => hadds a (hident1.trans ha)⟩
    rw [step, upsertAttributeEntry, if_neg hname, hfetch]
    simp [addAttributeEntry, hadd]

theorem del_done (hreq : req.ForDevice) : Done size fuel h m (.del req) := by
  obtain ⟨mac, hmac⟩ := ne_none_iff_exists'.mp hreq.mac
  by_cases hhit : ∃ k, req.attributeType.kindOrHostname = some k ∧
      (TreeId.device mac k, req.key) ∈ used.map m.ident
  · obtain ⟨k, hk, hmem⟩ := hhit
    obtain ⟨s, hs, hid⟩ := mem_map.mp hmem
    obtain ⟨m', hdel, hi', hids⟩ := delAttribute_hit hi hmac hk hs hid
    have hmap : (used.erase s).map m'.ident = (used.erase s).map m.ident :=
      map_congr_left hids
    refine ⟨true, m', _, _, by simp [step, hdel], hi', ?_, ?_⟩
    · rw [hmap]
      exact (hr.sublist (erase_sublist.map _)).idle
    show m'.attrs = _
    have hnd := (((perm_cons_erase hs).map m.ident).nodup_iff).mp hi.idents
    rw [hi'.attrs_eq, hi.attrs_eq, hmap]
    ext a
    simp only [hmac, hk, some.injEq,
      ((perm_cons_erase hs).map m.ident).mem_iff, map_cons, mem_cons]
    simp only [exists_and_left, exists_eq_left', hid]
    rw [map_cons, nodup_cons, hid] at hnd
    constructor
    · exact fun ha => ⟨.inr ha, fun he => hnd.1 (he ▸ ha)⟩
    · exact fun ha => ha.1.resolve_left ha.2
  · have hmiss : ∀ k, req.attributeType.kindOrHostname = some k →
        (.device mac k, req.key) ∉ used.map m.ident := fun k hk hmem => hhit ⟨k, hk, hmem⟩
    have hdel : m.delAttribute req = some (false, req.withKey, m) := by
      by_cases hdev : m.hasDevice mac
      · cases hk : req.attributeType.kindOrHostname with
        | none => simp [delAttribute, hmac, hk]
        | some k =>
          have hfind := hi.find_eq_none.mpr (hmiss k hk)
          simp [delAttribute, hmac, hk, hfind]
      · simp [delAttribute, hmac, hdev]
    refine ⟨false, m, used, free, by simp [step, hdel], hi, ?_, ?_⟩
    · exact hi.idle hr (by simp [Op.ident, Op.request])
    ext a
    refine ⟨fun ha => ⟨ha, ?_⟩, fun ha => ha.1⟩
    rintro ⟨mac', k, hmac', hk, rfl⟩
    rw [hmac] at hmac'
    cases hmac'
    exact hmiss k hk (hi.mem_attrs.mp ha)

theorem ttl_done (now : Nat → Int) : Done size fuel h m (.ttl now) := by
  obtain ⟨m', used', free', hrun, hi', hclean⟩ := ttlCleanup_spec now hi
  have hmap : used'.map m'.ident = used'.map m.ident :=
    map_congr_left fun s hs => by rw [ident, ident, hclean.slots_eq s hs]
  refine ⟨true, m', used', free', by simp [step, hrun], hi', ?_, ?_⟩
  · rw [hmap]
    exact (hr.sublist (hclean.sublist.map _)).idle
  show m'.attrs = _
  rw [hi'.attrs_eq, hmap]
  ext a
  simp only [List.mem_map, hclean.mem_iff, true_and, Bool.not_eq_true]
  constructor
  · rintro ⟨s, ⟨hs, hexp⟩, rfl⟩
    obtain ⟨mac, k, htree, -⟩ := hi.kind s hs
    have hmem := (hi.mem_tree _ s).mpr ⟨hs, htree⟩
    rw [hi.ident_eq hmem]
    exact ⟨s, hmem, rfl, hexp⟩
  · rintro ⟨s, hmem, hkey, hexp⟩
    refine ⟨s, ⟨((hi.mem_tree _ s).mp hmem).1, hexp⟩, ?_⟩
    rw [hi.ident_eq hmem, hkey]

/-- Every call that is allowed returns, and does what it should. -/
theorem step_done (hop : m.Allowed op) : Done size (fuel + 1) h m op := by
  cases op with
  | add now req => exact add_done fuel hi hr hop
  | upsert now req => exact upsert_done fuel hi hr hop
  | lookup now req u => exact lookup_done (fuel + 1) hi hr hop
  | fetch req => exact fetch_done (fuel + 1) hi hr hop
  | del req => exact del_done (fuel + 1) hi hr hop
  | ttl now => exact ttl_done (fuel + 1) hi hr now

end

end Step

/-! ## Runs -/

theorem inv_init {size : Nat} (hsize : 0 < size) : Inv size (.init size) [] (List.range size) where
  list_eq := rfl
  perm := .refl _
  free_eq := rfl
  avail_eq := by simp [init]
  mem_tree := by simp [init]
  tree_nodup := by simp [init]
  has_tree := by simp
  size_eq := rfl
  size_pos := hsize
  idents := .nil
  kind := by simp
  device := by simp [init]
  category := by simp [init]

theorem run_inv (fuel : Nat) {size : Nat} {m : Mgr} {used free : List Nat}
    {h : List (Option AttrId)}
    (hi : Inv size m used free) (hr : Recent h (used.map m.ident)) {ops : List Op}
    (hops : m.Legal (fuel + 1) ops) :
    ∃ m' h' used' free', m.run (fuel + 1) h ops = some (m', h') ∧ Inv size m' used' free' ∧
      Recent h' (used'.map m'.ident) := by
  induction ops generalizing m used free h with
  | nil => exact ⟨m, h, used, free, rfl, hi, hr⟩
  | cons op ops ih =>
    obtain ⟨ok, m1, used1, free1, hstep, hi1, hr1, -⟩ := step_done fuel hi hr hops.1
    obtain ⟨m', h', used', free', hrun, hi', hr'⟩ := ih hi1 hr1 (hops.2 ok m1 hstep)
    exact ⟨m', h', used', free', by simp [run, hstep, hrun], hi', hr'⟩

/-- In every run of a cache of devices, `lru_list` is the slots in use and then the free ones,
the slots in use are in the trees, and a full cache gives up the attribute whose last use is
the oldest. -/
theorem run_lru (fuel : Nat) {size : Nat} (hsize : 0 < size) {ops : List Op}
    (hops : (Mgr.init size).Legal (fuel + 1) ops) :
    ∃ m h used free, (Mgr.init size).run (fuel + 1) [] ops = some (m, h) ∧ Slots m used free ∧
      m.lruSize = size ∧ ∀ op, m.Allowed op → ∃ ok m', m.step (fuel + 1) op = some (ok, m') ∧
        OpSpec h m m' op := by
  obtain ⟨m, h, used, free, hrun, hi, hr⟩ := run_inv fuel (inv_init hsize) (.nil []) hops
  refine ⟨m, h, used, free, hrun, hi.toSlots, hi.size_eq, fun op hop => ?_⟩
  obtain ⟨ok, m', used', free', hstep, -, -, hspec⟩ := step_done fuel hi hr hop
  exact ⟨ok, m', hstep, hspec⟩

def Mgr.results (fuel : Nat) (m : Mgr) : List Op → Option (List Bool × Mgr)
  | [] => some ([], m)
  | op :: ops => do
    let (ok, m) ← m.step fuel op
    let (oks, m) ← m.results fuel ops
    some (ok :: oks, m)

/-- A request for an address with a verdict by name only, which is to block. -/
def blockedByName (key : UInt64) : Req where
  deviceMac := some 1
  attributeType := .ipv4
  attrName := none
  ipAddr := some fun _ => 0
  cacheTtl := 60
  action := actionNone
  direction := 1
  gkPolicy := none
  categoryId := 0
  confidenceLevel := 0
  hitCounter := 0
  cacheKey := key
  fqdnRedirect := none
  categorized := 0
  isPrivateIp := false
  redirectFlag := false
  actionByName := 1
  flowMarker := 0
  networkId := .null

/-- Two additions, a lookup of the first attribute, and one more addition. -/
def refusedLookup : List Op :=
  [.add 0 (blockedByName 1), .add 0 (blockedByName 2), .lookup 0 (blockedByName 1) true,
    .add 0 (blockedByName 3)]

theorem blockedByName_allowed (m : Mgr) (key : UInt64) :
    m.Allowed (.add 0 (blockedByName key)) ∧ m.Allowed (.lookup 0 (blockedByName key) true) := by
  have hdev : (blockedByName key).ForDevice := ⟨by simp [blockedByName], by simp [blockedByName]⟩
  refine ⟨⟨hdev, fun _ => ?_⟩, hdev, fun a s _ _ hk => ?_⟩
  · exact ⟨.inl rfl, hdev.name, show (0 : UInt32).toNat < categoryTableSize by decide,
      by simp [blockedByName, Ptr.read]⟩
  · simp [blockedByName, ReqType.kind] at hk

theorem refusedLookup_legal (fuel : Nat) (m : Mgr) : m.Legal fuel refusedLookup :=
  ⟨(blockedByName_allowed m 1).1, fun _ m1 _ => ⟨(blockedByName_allowed m1 2).1, fun _ m2 _ =>
    ⟨(blockedByName_allowed m2 1).2, fun _ m3 _ => ⟨(blockedByName_allowed m3 3).1, fun _ _ _ =>
      trivial⟩⟩⟩⟩

/-- A cache of two slots in such a run. -/
theorem run_lru_refusedLookup : (Mgr.init 2).Legal 1 refusedLookup ∧
    ∃ m h used free, (Mgr.init 2).run 1 [] refusedLookup = some (m, h) ∧ Slots m used free ∧
      m.lruSize = 2 := by
  obtain ⟨m, h, used, free, hrun, hslots, hsize, -⟩ :=
    run_lru 0 (show 0 < 2 by decide) (refusedLookup_legal 1 (.init 2))
  exact ⟨refusedLookup_legal 1 _, m, h, used, free, hrun, hslots, hsize⟩

/-- The lookup of the first attribute returns false, but keeps it in the cache: the last
addition removes the second one, whose last successful call is later. -/
theorem refusedLookup_keeps : (Mgr.init 2).Legal 1 refusedLookup ∧
    ((Mgr.init 2).results 1 refusedLookup).map (fun r => (r.1, r.2.has (.device 1 .ipv4, 1),
      r.2.has (.device 1 .ipv4, 2), r.2.has (.device 1 .ipv4, 3))) =
      some ([true, true, false, true], true, false, true) :=
  ⟨refusedLookup_legal 1 _, by decide +kernel⟩

end OpenSync.Gkc
