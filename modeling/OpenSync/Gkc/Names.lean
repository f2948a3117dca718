import OpenSync.Gkc.LruRun

/-!
# Verdicts and names

A request is known to the cache by the kind of its attribute and by a 64-bit key, which is the
hash of the name.  The name itself is stored but not compared.  So a lookup returns the verdict
of another name when the two have the same key, and two names with the same key exist.
-/

namespace OpenSync.Gkc

open OpenSync.Ds OpenSync.Lib

variable {size : Nat} {m : Mgr} {free : List Nat} {mac : Mac} {k : Kind} {r₁ r₂ : Req}

theorem Inv.free_ne_nil (h : Inv size m [] free) : free ≠ [] := by
  rintro rfl
  have hlen := h.perm.length_eq
  have heq := h.size_eq
  have hpos := h.size_pos
  simp at hlen
  omega

/-- After one attribute is added to an empty cache, the lookup of another name of the same kind
succeeds exactly when it has the same key. -/
theorem lookup_other_name_iff (h : Inv size m [] free) (hclean : m.Clean) (hname : k.ByName)
    (hmac₁ : r₁.deviceMac = some mac) (hmac₂ : r₂.deviceMac = some mac)
    (hk₁ : r₁.attributeType.kind = some k) (hk₂ : r₂.attributeType.kind = some k)
    (hn₁ : r₁.Named) (hn₂ : r₂.attrName ≠ none) (now now' : Int) (fuel fuel' : Nat) (u : Bool) :
    ∃ r₁' m₁ ok r₂' m₂, addAttributeEntry now (fuel + 1) r₁ m = some (true, r₁', m₁) ∧
      m₁.lookupAttributeEntry (addAttributeEntry now' fuel') r₂ u = some (ok, r₂', m₂) ∧
      (ok = true ↔ r₁.key = r₂.key) := by
  obtain ⟨r₁', m₁, used, free1, hadd, h1, hident, hclean1⟩ :=
    addEntry_miss (addAttributeEntry now fuel) h now hmac₁ hk₁ hn₁ (by simp)
  have hident : used.map m₁.ident = [(.device mac k, r₁.key)] := by simpa [lruInsert] using hident
  by_cases hkey : r₁.key = r₂.key
  · obtain ⟨s, hs, hid⟩ : ∃ s ∈ used, m₁.ident s = (.device mac k, r₂.key) := by
      rw [← List.mem_map, hident, hkey]
      exact List.mem_singleton_self _
    obtain ⟨ok, r₂', m₂, hlookup, -, -, hok⟩ :=
      lookup_hit (addAttributeEntry now' fuel') h1 hmac₂ hk₂
      (.inl hn₂) hs hid (fun _ _ => hclean1 h.free_ne_nil hclean s) u
    exact ⟨r₁', m₁, ok, r₂', m₂, hadd, hlookup, by simp [hok (.inr hname), hkey]⟩
  · have hmiss : ∀ k', r₂.attributeType.kind = some k' →
        (TreeId.device mac k', r₂.key) ∉ used.map m₁.ident := by
      intro k' hk' hmem
      rw [hident, List.mem_singleton] at hmem
      exact hkey (Prod.mk.inj hmem).2.symm
    obtain ⟨r₂', hlookup, -⟩ := lookup_miss (addAttributeEntry now' fuel') h1 hmac₂ hmiss u
    exact ⟨r₁', m₁, false, r₂', m₁, hadd, hlookup, by simp [hkey]⟩

/-- A request about a hostname, with a verdict. -/
def hostRequest (name : Name) (action : UInt8) : Req where
  deviceMac := some 1
  attributeType := .fqdn
  attrName := some name
  ipAddr := none
  cacheTtl := 60
  action := action
  direction := 1
  gkPolicy := none
  categoryId := 0
  confidenceLevel := 0
  hitCounter := 0
  cacheKey := 0
  fqdnRedirect := none
  categorized := 0
  isPrivateIp := false
  redirectFlag := false
  actionByName := 0
  flowMarker := 0
  networkId := .null

/-- `dagllsna.com`. -/
def nameA : Name := [0x64, 0x61, 0x67, 0x6c, 0x6c, 0x73, 0x6e, 0x61, 0x2e, 0x63, 0x6f, 0x6d]

/-- `iryrfmdm.com`. -/
def nameB : Name := [0x69, 0x72, 0x79, 0x72, 0x66, 0x6d, 0x64, 0x6d, 0x2e, 0x63, 0x6f, 0x6d]

theorem clean_init (size : Nat) : (Mgr.init size).Clean := by
  intro s
  simp [Mgr.init, AttrCache.zero, Ptr.read]

theorem hostRequest_named (name : Name) (action : UInt8) : (hostRequest name action).Named :=
  ⟨.inr (.inr (by simp [hostRequest])), .inl (by simp [hostRequest]),
    show (0 : UInt32).toNat < categoryTableSize by decide, by simp [hostRequest, Ptr.read]⟩

/-- Two names with different keys. -/
theorem lookup_other_name_short : (hostRequest [0x61] 2).key ≠ (hostRequest [0x62] 0).key ∧
    ∃ r₁' m₁ r₂' m₂, addAttributeEntry 0 1 (hostRequest [0x61] 2) (.init 1) = some (true, r₁', m₁) ∧
      m₁.lookupAttributeEntry (addAttributeEntry 0 1) (hostRequest [0x62] 0) true =
        some (false, r₂', m₂) := by
  have hkey : (hostRequest [0x61] 2).key ≠ (hostRequest [0x62] 0).key := by decide +kernel
  have hsome : (hostRequest [0x62] 0).attrName ≠ none := by simp [hostRequest]
  obtain ⟨r₁', m₁, ok, r₂', m₂, hadd, hlookup, hok⟩ := lookup_other_name_iff
    (inv_init (show 0 < 1 by decide)) (clean_init 1) (.inl rfl) rfl rfl rfl rfl
    (hostRequest_named [0x61] 2) hsome 0 0 0 1 true
  have hfalse : ok = false := by simpa [hkey] using hok
  exact ⟨hkey, r₁', m₁, r₂', m₂, hadd, hfalse ▸ hlookup⟩

/-- The verdict to allow `dagllsna.com` is returned for `iryrfmdm.com`. -/
theorem lookup_other_name_collides : nameA ≠ nameB ∧
    ((addAttributeEntry 0 1 (hostRequest nameA actionAllow) (.init 1)).bind fun r =>
      (r.2.2.lookupAttributeEntry (addAttributeEntry 0 1) (hostRequest nameB actionNone) true).map
        fun r' => (r'.1, r'.2.1.action)) = some (true, actionAllow) :=
  ⟨by decide, by decide +kernel⟩

end OpenSync.Gkc
