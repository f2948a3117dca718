import OpenSync.Gkc.Lru

/-!
# Calls of the gatekeeper cache

What each call does to the slots, for requests that name a device.  Such a request never gets
to the location-wide cache, so the additions that a lookup there would make are arbitrary.
-/

namespace OpenSync.Gkc

open OpenSync.Ds OpenSync.Lib List Mgr

/-- The attribute that a request is for. -/
def Req.ident (r : Req) : Option AttrId :=
  match r.deviceMac, r.attributeType.kind with
  | some mac, some k => some (.device mac k, r.key)
  | _, _ => none

@[simp] theorem Req.withKey_withKey (r : Req) : r.withKey.withKey = r.withKey := by
  have : r.withKey.key = r.key := r.withKey_key
  simp only [withKey] at this ⊢
  rw [this]

/-! ## Requests -/

section Requests

variable {size : Nat} {m : Mgr} {used free : List Nat} {s : Nat} {mac : Mac} {k : Kind}
  {req entry : Req}
  (add : Add)

section

variable {key : UInt64}
  (h : Inv size m used free) (hs : s ∈ used) (hid : m.ident s = (.device mac k, key))

include h hs hid

theorem Inv.hasDevice : m.hasDevice mac := by
  by_contra hno
  have hmem : m.ident s ∈ used.map m.ident := mem_map_of_mem hs
  rw [hid] at hmem
  obtain ⟨x, hx, -⟩ := h.mem_attrs.mpr hmem
  simp [h.device mac hno k] at hx

theorem Inv.slot_of : (m.slots s).attrTree = some (.device mac k) ∧ (m.slots s).Fits k := by
  obtain ⟨mac', k', htree, hfits⟩ := h.kind s hs
  simp only [ident, htree, Prod.mk.injEq] at hid
  obtain ⟨⟨rfl, rfl⟩, -⟩ := hid
  exact ⟨htree, hfits⟩

end

section

variable (h : Inv size m used free) (hmac : req.deviceMac = some mac)

include h hmac

attribute [local simp] fetchAttributeEntry

theorem fetch_hit (hk : req.attributeType.kind = some k) (hs : s ∈ used)
    (hid : m.ident s = (.device mac k, req.key)) :
    m.fetchAttributeEntry req = (some s, req.withKey, m.moveToHead s) := by
  have hother : req.attributeType ≠ .other := by
    intro he
    simp [he, ReqType.kind] at hk
  have hdev : m.hasDevice mac := h.hasDevice hs hid
  have hfind := h.find_eq_some.mpr ⟨hs, hid⟩
  simp [hother, hmac, hk, hdev, hfind]

theorem fetch_miss
    (hmiss : ∀ k, req.attributeType.kind = some k → (.device mac k, req.key) ∉ used.map m.ident) :
    m.fetchAttributeEntry req = (none, req, m) ∧ req.attributeType.kind = none ∨
      m.fetchAttributeEntry req = (none, req.withKey, m) := by
  by_cases hother : req.attributeType = .other
  · exact .inl ⟨by simp [hother], by simp [hother, ReqType.kind]⟩
  refine .inr ?_
  by_cases hdev : m.hasDevice mac
  · cases hk : req.attributeType.kind with
    | none => simp [hother, hmac, hk]
    | some k =>
      have hfind := h.find_eq_none.mpr (hmiss k hk)
      simp [hother, hmac, hk, hfind]
  · simp [hother, hmac, hdev]

omit h hmac in
theorem lookupAttrTree_miss {t : TreeId} (hfind : m.find t req.key = none) (u : Bool) :
    ∃ req', m.lookupAttrTree t req u = some (false, req', m) ∧
      (req' = req ∨ req' = req.withKey) := by
  unfold lookupAttrTree
  split
  · exact ⟨req, rfl, .inl rfl⟩
  · exact ⟨req.withKey, by simp [hfind], .inr rfl⟩

omit h hmac in
theorem lookupLocationCache_miss (h : Inv size m used free) (req : Req) :
    ∃ req', m.lookupLocationCache add req = some (false, req', m) ∧
      (req' = req ∨ req' = req.withKey) := by
  obtain ⟨req', hlookup, hreq'⟩ := lookupAttrTree_miss (h.find_locationWide req.key) true
  exact ⟨req', by simp [lookupLocationCache, hlookup], hreq'⟩

attribute [local simp] lookupAttributeEntry

theorem lookup_hit (hk : req.attributeType.kind = some k)
    (hname : req.attrName ≠ none ∨ req.ipAddr ≠ none) (hs : s ∈ used)
    (hid : m.ident s = (.device mac k, req.key)) (hr : (m.slots s).Readable req) (u : Bool) :
    ∃ ok req' m', m.lookupAttributeEntry add req u = some (ok, req', m') ∧
      Inv size m' (s :: used.erase s) free ∧ m'.ident = m.ident ∧
      (u = false ∨ k.ByName → ok = true) := by
  have hother : req.attributeType ≠ .other := by
    intro he
    simp [he, ReqType.kind] at hk
  have hdev : m.hasDevice mac := h.hasDevice hs hid
  have hfind := h.find_eq_some.mpr ⟨hs, hid⟩
  have hname' : ¬ (req.attrName = none ∧ req.ipAddr = none) := by tauto
  obtain ⟨htree, hfits⟩ := h.slot_of hs hid
  obtain ⟨ok, req1, c, hhit, hreq1, hc, hok⟩ := lookupHit_spec req.withKey hk hfits hr u
  obtain ⟨hinv, hident⟩ := (h.moveToHead hs).setSlot (mem_cons_self ..) htree hc
  have hlookup : m.lookupAttributesTree mac req u =
      some (ok, req1, (m.moveToHead s).setSlot s c) := by
    have hslots : (m.moveToHead s).slots s = m.slots s := rfl
    simp [lookupAttributesTree, lookupAttrTree, hk, hname', hfind, hslots, hhit]
  cases ok with
  | true =>
    refine ⟨true, req1, ((m.moveToHead s).setSlot s c).countRequest mac req1.attributeType, ?_,
      hinv.congr rfl rfl rfl rfl rfl rfl (fun _ => id) rfl, hident, hok⟩
    simp [hmac, hother, hdev, hlookup]
  | false =>
    obtain ⟨req2, hloc, -⟩ := lookupLocationCache_miss add hinv req1
    refine ⟨false, req2, (m.moveToHead s).setSlot s c, ?_, hinv, hident, hok⟩
    simp [hmac, hother, hdev, hlookup, hloc]

theorem lookup_miss
    (hmiss : ∀ k, req.attributeType.kind = some k → (.device mac k, req.key) ∉ used.map m.ident)
    (u : Bool) : ∃ req', m.lookupAttributeEntry add req u = some (false, req', m) ∧
      (req' = req ∨ req' = req.withKey) := by
  by_cases hother : req.attributeType = .other
  · exact ⟨req, by simp [hmac, hother], .inl rfl⟩
  by_cases hdev : m.hasDevice mac
  · have htree : ∃ req1, m.lookupAttributesTree mac req u = some (false, req1, m) ∧
        (req1 = req ∨ req1 = req.withKey) := by
      cases hk : req.attributeType.kind with
      | none => exact ⟨req, by simp [lookupAttributesTree, hk], .inl rfl⟩
      | some k =>
        obtain ⟨req', hlookup, hreq'⟩ := lookupAttrTree_miss (h.find_eq_none.mpr (hmiss k hk)) u
        exact ⟨req', by simp [lookupAttributesTree, hk, hlookup], hreq'⟩
    obtain ⟨req1, htree, hreq1⟩ := htree
    obtain ⟨req2, hloc, hreq2⟩ := lookupLocationCache_miss add h req1
    refine ⟨req2, by simp [hmac, hother, hdev, htree, hloc], ?_⟩
    rcases hreq1 with rfl | rfl
    · exact hreq2
    · exact .inr (by simpa using hreq2)
  · exact ⟨req, by simp [hmac, hdev], .inl rfl⟩

end

section

variable (entry : Req) (h : Inv size m used free) (now : Int)

include h

section

variable (hmac : entry.deviceMac = some mac) (hk : entry.attributeType.kind = some k)
  (hn : entry.Named)

include hmac hk hn

theorem insertKind_hit (hs : s ∈ used) (hid : m.ident s = (.device mac k, entry.key)) :
    ∃ entry' m', m.insertKind add now (.device mac k) k entry = some (false, entry', m') ∧
      Inv size m' (s :: used.erase s) free ∧ m'.ident = m.ident := by
  obtain ⟨htree, hfits⟩ := h.slot_of hs hid
  unfold insertKind
  split
  next hhost =>
    have hfetch := fetch_hit h hmac hk hs hid
    have hslots : (m.moveToHead s).slots s = m.slots s := rfl
    simp only [insertHostName, hfetch, hslots]
    split
    · obtain ⟨hinv, hident⟩ := (h.moveToHead hs).setSlot (mem_cons_self ..) htree
        (c := { m.slots s with cacheTs := now }) ⟨rfl, rfl, hfits⟩
      exact ⟨_, _, rfl, hinv, hident⟩
    · obtain ⟨c, hcount, hc⟩ := countAgain_spec now hk hfits
      obtain ⟨hinv, hident⟩ := (h.moveToHead hs).setSlot (mem_cons_self ..) htree hc
      exact ⟨_, _, by simp [hcount]; rfl, hinv, hident⟩
  next hhost =>
    have hr : (m.slots s).Readable entry := by
      intro hk'
      rw [hk] at hk'
      exact absurd (Option.some.inj hk') hhost
    obtain ⟨ok, entry', m', hlookup, hinv, hident, hok⟩ :=
      lookup_hit add h hmac hk hn.2.1 hs hid hr false
    rw [hok (.inl rfl)] at hlookup
    exact ⟨entry', m', by simp [insertGeneric, hlookup], hinv, hident⟩

/-- What the list of attributes is after a new one. -/
def lruInsert (a : AttrId) (l : List AttrId) (free : Nat) : List AttrId :=
  a :: if free = 0 then l.dropLast else l

omit hmac hk hn in
/-- A new entry takes a free slot, or that of the attribute not used for longest. -/
theorem insertNew_spec (hk : entry.attributeType.kind = some k) (hn : entry.Named)
    (hdev : m.hasDevice mac) (hnew : (.device mac k, entry.key) ∉ used.map m.ident) :
    ∃ m' used' free', m.insertNew now (.device mac k) entry = some (true, m') ∧
      Inv size m' used' free' ∧ used'.map m'.ident =
        lruInsert (.device mac k, entry.key) (used.map m.ident) free.length ∧
      (free ≠ [] → m.Clean → m'.Clean) := by
  cases free with
  | cons s free =>
    obtain ⟨m', hins, hinv, hident, hclean⟩ := h.insertNew_free now hk hn hdev hnew
    exact ⟨m', _, _, hins, hinv, by simpa [lruInsert] using hident, fun _ => hclean⟩
  | nil =>
    -- the list is not empty, since the cache has at least one slot
    have hne : used ≠ [] := by
      rintro rfl
      have := h.perm.length_eq
      have := h.size_eq
      have := h.size_pos
      simp at *
      omega
    obtain ⟨used, s, rfl⟩ := (eq_nil_or_concat' used).resolve_left hne
    obtain ⟨m', hins, hinv, hident⟩ := h.insertNew_full now hk hn hdev hnew
    exact ⟨m', _, _, hins, hinv, by simpa [lruInsert] using hident, fun hne => absurd rfl hne⟩

theorem insertKind_miss (hdev : m.hasDevice mac)
    (hnew : (.device mac k, entry.key) ∉ used.map m.ident) :
    ∃ entry' m' used' free', m.insertKind add now (.device mac k) k entry =
        some (true, entry', m') ∧ Inv size m' used' free' ∧ used'.map m'.ident =
          lruInsert (.device mac k, entry.key) (used.map m.ident) free.length ∧
      (free ≠ [] → m.Clean → m'.Clean) := by
  have hmiss : ∀ k', entry.attributeType.kind = some k' →
      (.device mac k', entry.key) ∉ used.map m.ident := by
    intro k' hk'
    rw [hk] at hk'
    cases hk'
    exact hnew
  unfold insertKind
  split
  · obtain ⟨-, hnone⟩ | hfetch := fetch_miss h hmac hmiss
    · simp [hk] at hnone
    obtain ⟨m', used', free', hins, hinv, hident, hclean⟩ :=
      insertNew_spec entry.withKey h now hk hn hdev (by simpa using hnew)
    exact ⟨_, m', used', free', by simp [insertHostName, hfetch, hins]; rfl, hinv,
      by simpa using hident, hclean⟩
  · obtain ⟨entry', hlookup, hentry'⟩ := lookup_miss add h hmac hmiss false
    have hsame : entry'.attributeType = entry.attributeType ∧ entry'.key = entry.key ∧
        entry'.Named := by
      rcases hentry' with rfl | rfl
      · exact ⟨rfl, rfl, hn⟩
      · exact ⟨rfl, entry.withKey_key, hn⟩
    obtain ⟨m', used', free', hins, hinv, hident, hclean⟩ :=
      insertNew_spec entry' h now (hsame.1 ▸ hk) hsame.2.2 hdev (hsame.2.1 ▸ hnew)
    rw [hsame.2.1] at hident
    exact ⟨entry', m', used', free', by simp [insertGeneric, hlookup, hins], hinv, hident, hclean⟩

end

end

section

variable (h : Inv size m used free)

include h

/-- The categories do not send an addition for a device to the location-wide cache. -/
theorem Inv.addEntry_eq (now : Int) (hmac : entry.deviceMac = some mac)
    (hk : entry.attributeType.kind = some k) (hn : entry.Named) :
    m.addEntry add now entry = m.addDevice add now mac false entry.withKey := by
  have hindex : ∃ i, category2index entry.withKey.categoryId = some i :=
    ⟨_, if_pos hn.2.2.1⟩
  obtain ⟨i, hi⟩ := hindex
  simp [addEntry, hk, hi, h.category i, hmac]

/-- The device is there before the tree is looked up. -/
theorem Inv.withDevice (mac : Mac) :
    ∃ m', m.withDevice mac = some m' ∧ Inv size m' used free ∧ m'.slots = m.slots ∧
      m'.hasDevice mac := by
  unfold Mgr.withDevice
  by_cases hdev : m.hasDevice mac
  · exact ⟨m, if_pos hdev, h, rfl, hdev⟩
  · rw [if_neg hdev]
    exact h.initPerDev hdev

section

variable (now : Int) (hmac : entry.deviceMac = some mac) (hk : entry.attributeType.kind = some k)

include hmac hk

theorem addEntry_hit (hn : entry.Named) (hs : s ∈ used)
    (hid : m.ident s = (.device mac k, entry.key)) :
    ∃ entry' m', m.addEntry add now entry = some (false, entry', m') ∧
      Inv size m' (s :: used.erase s) free ∧ m'.ident = m.ident := by
  obtain ⟨m1, hdev, h1, hslots1, -⟩ := h.withDevice mac
  have hident1 : m1.ident = m.ident := ident_congr hslots1
  obtain ⟨entry', m', hins, hinv, hident⟩ := insertKind_hit add entry.withKey h1 now hmac
    hk hn hs (by rw [hident1, hid, entry.withKey_key])
  refine ⟨entry', m', ?_, hinv, hident.trans hident1⟩
  rw [h.addEntry_eq add now hmac hk hn, addDevice, hdev]
  simp [addAttrTree, hk, hins]

theorem addEntry_miss (hn : entry.Named) (hnew : (.device mac k, entry.key) ∉ used.map m.ident) :
    ∃ entry' m' used' free', m.addEntry add now entry = some (true, entry', m') ∧
      Inv size m' used' free' ∧ used'.map m'.ident =
        lruInsert (.device mac k, entry.key) (used.map m.ident) free.length ∧
      (free ≠ [] → m.Clean → m'.Clean) := by
  obtain ⟨m1, hdev, h1, hslots1, hdev1⟩ := h.withDevice mac
  have hident1 : m1.ident = m.ident := ident_congr hslots1
  obtain ⟨entry', m', used', free', hins, hinv, hident, hclean⟩ :=
    insertKind_miss add entry.withKey h1 now hmac hk hn hdev1
      (by rwa [hident1, entry.withKey_key])
  rw [hident1, entry.withKey_key] at hident
  refine ⟨entry', m'.countAction mac entry', used', free', ?_,
    hinv.congr rfl rfl rfl rfl rfl rfl (fun _ => id) rfl, hident, fun hne hcl => ?_⟩
  · rw [h.addEntry_eq add now hmac hk hn, addDevice, hdev]
    simp [addAttrTree, hk, hins]
  · refine hclean hne fun x => ?_
    rw [hslots1]
    exact hcl x

end

theorem delAttribute_hit (hmac : req.deviceMac = some mac)
    (hk : req.attributeType.kindOrHostname = some k) (hs : s ∈ used)
    (hid : m.ident s = (.device mac k, req.key)) :
    ∃ m', m.delAttribute req = some (true, req.withKey, m') ∧
      Inv size m' (used.erase s) (free ++ [s]) ∧ ∀ x ∈ used.erase s, m'.ident x = m.ident x := by
  obtain ⟨htree, -⟩ := h.slot_of hs hid
  obtain ⟨m', hdel, hinv, hslots, -⟩ := h.deleteEntry hs htree hk
  have hfind := h.find_eq_some.mpr ⟨hs, hid⟩
  refine ⟨m', ?_, hinv, fun x hx => ?_⟩
  · simp [delAttribute, hmac, h.hasDevice hs hid, hk, hfind, hdel]
  · have hne := (((nodup_append.mp h.nodup).1).mem_erase_iff.mp hx).1
    rw [ident, ident, hslots x hne]

end

end Requests

/-! ## Expiry -/

section Expiry

variable {size : Nat} {now : Nat → Int} {m m' m'' : Mgr} {used used' used'' free : List Nat}
  {S S' : Nat → Prop}

/-- The entries of the slots in `S` that are expired are gone. -/
structure Cleaned (now : Nat → Int) (S : Nat → Prop) (m : Mgr) (used : List Nat) (m' : Mgr)
    (used' : List Nat) : Prop where
  sublist : used'.Sublist used
  mem_iff : ∀ s, s ∈ used' ↔ s ∈ used ∧ ¬ (S s ∧ Mgr.ttlExpired (now s) (m.slots s))
  slots_eq : ∀ s ∈ used', m'.slots s = m.slots s
  devices_eq : m'.devices = m.devices

theorem Cleaned.refl (now : Nat → Int) (m : Mgr) (used : List Nat) :
    Cleaned now (fun _ => False) m used m used :=
  ⟨.refl used, by simp, fun _ _ => rfl, rfl⟩

theorem Cleaned.congr (h : Cleaned now S m used m' used') (hS : ∀ s ∈ used, S s ↔ S' s) :
    Cleaned now S' m used m' used' := by
  refine ⟨h.sublist, fun s => ?_, h.slots_eq, h.devices_eq⟩
  rw [h.mem_iff]
  exact and_congr_right fun hs => by rw [hS s hs]

theorem Cleaned.trans (h : Cleaned now S m used m' used')
    (h' : Cleaned now S' m' used' m'' used'') :
    Cleaned now (fun s => S s ∨ S' s) m used m'' used'' := by
  refine ⟨h'.sublist.trans h.sublist, fun s => ?_, fun s hs => ?_, h'.devices_eq.trans h.devices_eq⟩
  · rw [h'.mem_iff]
    constructor
    · rintro ⟨hs, hnot⟩
      rw [h.slots_eq s hs] at hnot
      have hs' := (h.mem_iff s).mp hs
      exact ⟨hs'.1, fun ⟨hS, he⟩ => hS.elim (fun hS => hs'.2 ⟨hS, he⟩) fun hS => hnot ⟨hS, he⟩⟩
    · rintro ⟨hs, hnot⟩
      have hs' := (h.mem_iff s).mpr ⟨hs, fun ⟨hS, he⟩ => hnot ⟨.inl hS, he⟩⟩
      rw [h.slots_eq s hs']
      exact ⟨hs', fun ⟨hS, he⟩ => hnot ⟨.inr hS, he⟩⟩
  · rw [h'.slots_eq s hs, h.slots_eq s (h'.sublist.subset hs)]

/-- The loop over a tree, which has `kept` before and `rest` from here on. -/
theorem cleanupLoop_spec (now : Nat → Int) {mac : Mac} {k : Kind} {type : ReqType}
    (htype : type.kindOrHostname = some k) (kept : List Nat) {rest : List Nat} {fuel : Nat}
    (h : Inv size m used free) (htree : m.trees (.device mac k) = kept ++ rest)
    (hfuel : rest.length ≤ fuel) :
    ∃ m' used' free', Mgr.cleanupLoop now (.device mac k) type fuel rest.head? m = some m' ∧
      Inv size m' used' free' ∧ Cleaned now (· ∈ rest) m used m' used' := by
  induction rest generalizing m used free kept fuel with
  | nil =>
    refine ⟨m, used, free, by simp [cleanupLoop], h, (Cleaned.refl now m used).congr ?_⟩
    simp
  | cons s rest ih =>
    obtain ⟨fuel, rfl⟩ : ∃ f, fuel = f + 1 := ⟨fuel - 1, by simp at hfuel; omega⟩
    have hlen : rest.length ≤ fuel := by simpa using hfuel
    have hnd := h.tree_nodup (.device mac k)
    rw [htree] at hnd
    have hkept : s ∉ kept := fun hs => (nodup_append.mp hnd).2.2 s hs s (by simp) rfl
    obtain ⟨hs, hst⟩ := (h.mem_tree _ s).mp (htree ▸ mem_append_right kept (by simp))
    have hused : used.Nodup := (nodup_append.mp h.nodup).1
    rw [head?_cons, cleanupLoop, htree, Ordered.next_middle hkept]
    by_cases hexp : ttlExpired (now s) (m.slots s)
    · obtain ⟨m1, hdel, h1, hslots1, hdev1, htrees1⟩ := h.deleteEntry hs hst htype
      have htree1 : m1.trees (.device mac k) = kept ++ rest := by
        rw [htrees1]
        simp [treeRemove, setTree, htree, Ordered.remove_middle hkept]
      have h1' : Inv size { m1 with totalEntryCount := m1.totalEntryCount - 1 } (used.erase s)
          (free ++ [s]) := h1.congr rfl rfl rfl rfl rfl rfl (fun _ => id) rfl
      obtain ⟨m', used', free', hloop, hinv, hclean⟩ := ih kept h1' htree1 hlen
      have hfirst : Cleaned now (· = s) m used { m1 with totalEntryCount := m1.totalEntryCount - 1 }
          (used.erase s) := by
        refine ⟨erase_sublist, fun x => ?_, fun x hx => ?_, hdev1⟩
        · rw [hused.mem_erase_iff, and_comm]
          refine and_congr_right fun _ => not_congr ⟨fun he => ⟨he, he ▸ hexp⟩, fun he => he.1⟩
        · exact hslots1 x (hused.mem_erase_iff.mp hx).1
      refine ⟨m', used', free', by simp [hexp, hdel, hloop], hinv, (hfirst.trans hclean).congr ?_⟩
      simp
    · obtain ⟨m', used', free', hloop, hinv, hclean⟩ :=
        ih (kept ++ [s]) h (by simp [htree]) hlen
      refine ⟨m', used', free', by simp [hexp, hloop], hinv, ⟨hclean.sublist, fun x => ?_,
        hclean.slots_eq, hclean.devices_eq⟩⟩
      rw [hclean.mem_iff]
      refine and_congr_right fun _ => not_congr ⟨fun he => ⟨mem_cons_of_mem s he.1, he.2⟩, ?_⟩
      rintro ⟨hx, he⟩
      rcases mem_cons.mp hx with rfl | hx
      · exact absurd he hexp
      · exact ⟨hx, he⟩

theorem cleanupTypes_spec (now : Nat → Int) (mac : Mac) (ts : List (ReqType × Kind))
    (hts : ∀ p ∈ ts, p.1.kindOrHostname = some p.2) (h : Inv size m used free) :
    ∃ m' used' free', ts.foldlM (fun m p =>
        Mgr.cleanupTtlAttributeTree m now (.device mac p.2) p.1) m = some m' ∧
      Inv size m' used' free' ∧ Cleaned now
        (fun s => ∃ p ∈ ts, (m.slots s).attrTree = some (.device mac p.2)) m used m' used' := by
  induction ts generalizing m used free with
  | nil => exact ⟨m, used, free, rfl, h, (Cleaned.refl now m used).congr (by simp)⟩
  | cons p ts ih =>
    obtain ⟨m1, used1, free1, hp, h1, hloop⟩ := cleanupLoop_spec (m := m) now (hts p (by simp)) []
      h rfl le_rfl
    have hclean := hloop.congr fun s hs => (h.mem_tree (.device mac p.2) s).trans (and_iff_right hs)
    obtain ⟨m', used', free', hrest, hinv, hclean'⟩ := ih (fun q hq => hts q (by simp [hq])) h1
    refine ⟨m', used', free', ?_, hinv, ?_⟩
    · rw [foldlM_cons, cleanupTtlAttributeTree, hp]
      exact hrest
    · have hold := hclean'.congr fun s hs => by rw [hclean.slots_eq s hs]
      exact (hclean.trans hold).congr (by simp)

theorem cleanupDevices_spec (now : Nat → Int) (macs : List Mac) (h : Inv size m used free) :
    ∃ m' used' free', macs.foldlM (fun m mac => Mgr.checkTtlPerDevice m now mac) m = some m' ∧
      Inv size m' used' free' ∧ Cleaned now
        (fun s => ∃ mac ∈ macs, ∃ k, (m.slots s).attrTree = some (.device mac k))
        m used m' used' := by
  induction macs generalizing m used free with
  | nil => exact ⟨m, used, free, rfl, h, (Cleaned.refl now m used).congr (by simp)⟩
  | cons mac macs ih =>
    obtain ⟨m1, used1, free1, hmac, h1, hclean⟩ :=
      cleanupTypes_spec now mac ttlTypes (by decide) h
    obtain ⟨m', used', free', hrest, hinv, hclean'⟩ := ih h1
    refine ⟨m', used', free', ?_, hinv, ?_⟩
    · rw [foldlM_cons, checkTtlPerDevice, hmac]
      exact hrest
    have hold := hclean'.congr fun s hs => by rw [hclean.slots_eq s hs]
    have hall : ∀ k, ∃ p ∈ ttlTypes, p.2 = k := by
      intro k
      cases k <;> simp [ttlTypes]
    refine (hclean.trans hold).congr fun s _ => ?_
    simp only [mem_cons, exists_eq_or_imp]
    refine or_congr_left ⟨?_, ?_⟩
    · rintro ⟨p, -, hp⟩
      exact ⟨p.2, hp⟩
    · rintro ⟨k, hk⟩
      obtain ⟨p, hp, rfl⟩ := hall k
      exact ⟨p, hp, hk⟩

/-- `gkc_ttl_cleanup` removes the entries that are expired. -/
theorem ttlCleanup_spec (now : Nat → Int) (h : Inv size m used free) :
    ∃ m' used' free', m.ttlCleanup now = some m' ∧ Inv size m' used' free' ∧
      Cleaned now (fun _ => True) m used m' used' := by
  obtain ⟨m', used', free', hrun, hinv, hclean⟩ := cleanupDevices_spec now m.devices h
  refine ⟨m', used', free', hrun, hinv, hclean.congr fun s hs => iff_true_intro ?_⟩
  obtain ⟨mac, k, htree, -⟩ := h.kind s hs
  refine ⟨mac, ?_, k, htree⟩
  by_contra hmac
  have hmem := (h.mem_tree _ s).mpr ⟨hs, htree⟩
  rw [h.device mac (fun hd => hmac (hasDevice_iff.mp hd)) k] at hmem
  cases hmem

end Expiry

end OpenSync.Gkc
