import OpenSync.Gkc.Cache
import OpenSync.Lib.Recency
import Mathlib.Data.List.Perm.Basic

/-!
# The slots of the gatekeeper cache

`lru_list` has the slots in use in the order of last use, and after them the free ones.  The
results here are for a cache of devices only: there are no entries in the location-wide tree
and no categories to put there.

An entry of a tree is known by the tree and its key.  `Inv size m used free` splits `lru_list`,
and says that the entries that are used make up the trees.
-/

namespace OpenSync.Gkc

open OpenSync.Ds OpenSync.Lib List Mgr Ordered

/-- An attribute in the cache: its tree and its key. -/
abbrev AttrId := TreeId × UInt64

/-- The kinds of attributes that have a name. -/
def Kind.ByName (k : Kind) : Prop := k = .hostname ∨ k = .url ∨ k = .app

/-- The attribute is of a kind. -/
def Attr.Fits : Attr → Kind → Prop
  | .hostName .., k => k = .hostname
  | .generic .., k => k = .url ∨ k = .app
  | .ipAddr .., k => k = .ipv4 ∨ k = .ipv6

/-- The entry has an attribute of a kind. -/
def AttrCache.Fits (c : AttrCache) (k : Kind) : Prop :=
  c.type.kind = some k ∧ ∃ a : Attr, c.attr = .ptr a ∧ a.Fits k

/-- An entry of a kind after an update. -/
structure AttrCache.Same (c c' : AttrCache) (k : Kind) : Prop where
  key_eq : c'.key = c.key
  tree_eq : c'.attrTree = c.attrTree
  fits : c'.Fits k

/-- The entry that a slot is for. -/
def Mgr.ident (m : Mgr) (s : Nat) : AttrId :=
  ((m.slots s).attrTree.getD .locationWide, (m.slots s).key)

variable {m : Mgr} {t : TreeId} {s : Nat}

theorem Mgr.ident_congr {m' : Mgr} (h : m'.slots = m.slots) : m'.ident = m.ident := by
  funext s
  rw [ident, ident, h]

def Mgr.attrs (m : Mgr) : Set AttrId := {a | ∃ s ∈ m.trees a.1, (m.slots s).key = a.2}

/-- No slot has a redirect that has been freed. -/
def Mgr.Clean (m : Mgr) : Prop := ∀ s, (m.slots s).fqdnRedirect.read ≠ none

/-- The list, the free slots and the trees. -/
structure Slots (m : Mgr) (used free : List Nat) : Prop where
  list_eq : m.lruList = used ++ free
  perm : (used ++ free).Perm (List.range m.lruSize)
  free_eq : m.lruFree = free.head?
  avail_eq : m.lruAvailable = free.length
  mem_tree : ∀ t s, s ∈ m.trees t ↔ s ∈ used ∧ (m.slots s).attrTree = some t
  tree_nodup : ∀ t, (m.trees t).Nodup
  has_tree : ∀ s ∈ used, (m.slots s).attrTree ≠ none

structure Inv (size : Nat) (m : Mgr) (used free : List Nat) : Prop extends Slots m used free where
  size_eq : m.lruSize = size
  size_pos : 0 < size
  idents : (used.map m.ident).Nodup
  kind : ∀ s ∈ used, ∃ mac k, (m.slots s).attrTree = some (.device mac k) ∧ (m.slots s).Fits k
  device : ∀ mac, ¬ m.hasDevice mac → ∀ k, m.trees (.device mac k) = []
  category : ∀ i, m.categoryIds i = 0

/-! ## Entries -/

theorem ReqType.kindOrHostname_of_kind {t : ReqType} {k : Kind} (h : t.kind = some k) :
    t.kindOrHostname = some k := by
  cases t <;> simp_all [ReqType.kind, ReqType.kindOrHostname]

section Entries

variable {c c' : AttrCache} {k : Kind} {req entry : Req}

/-- The request can be made into an entry. -/
def Req.Named (r : Req) : Prop :=
  (r.attributeType.kind = some .ipv4 ∨ r.attributeType.kind = some .ipv6 ∨ r.attrName ≠ none) ∧
    (r.attrName ≠ none ∨ r.ipAddr ≠ none) ∧ r.categoryId.toNat < categoryTableSize ∧
    r.networkId.read ≠ none

theorem newAttr_spec (hk : entry.attributeType.kind = some k) (hn : entry.Named) :
    ∃ a, newAttr entry = some a ∧ a.Fits k := by
  obtain ⟨hname, -⟩ := hn
  unfold newAttr
  cases ht : entry.attributeType <;> simp only [ht, ReqType.kind] at hk hname <;> cases hk <;>
    cases ha : entry.attrName <;> simp [ha, Attr.Fits] at hname ⊢

theorem addNewRedirectEntry_spec (entry : Req) (c : AttrCache) :
    (addNewRedirectEntry entry c).attrTree = c.attrTree ∧
      (c.fqdnRedirect.read ≠ none → (addNewRedirectEntry entry c).fqdnRedirect.read ≠ none) := by
  unfold addNewRedirectEntry
  split
  · exact ⟨rfl, id⟩
  · split
    · exact ⟨rfl, fun _ => by simp [Ptr.read]⟩
    · exact ⟨rfl, fun _ => by simp [Ptr.read]⟩

theorem interfaceToAttrCache_spec (now : Int) (c : AttrCache)
    (hk : entry.attributeType.kind = some k) (hn : entry.Named) :
    ∃ c', interfaceToAttrCache now entry c = some c' ∧ c'.key = entry.key ∧
      c'.attrTree = c.attrTree ∧ c'.Fits k ∧
      (c.fqdnRedirect.read ≠ none → c'.fqdnRedirect.read ≠ none) := by
  obtain ⟨a, ha, hfits⟩ := newAttr_spec hk hn
  have hredir := addNewRedirectEntry_spec entry c
  obtain ⟨-, -, -, hnet⟩ := hn
  unfold interfaceToAttrCache
  obtain ⟨name, hname⟩ := Option.ne_none_iff_exists'.mp hnet
  simp only [ha, hname]
  refine ⟨_, rfl, rfl, ?_, ⟨hk, a, rfl, hfits⟩, ?_⟩
  · split
    · exact hredir.1
    · rfl
  · split
    · exact hredir.2
    · exact id

theorem freeAttrEntry_spec (type : ReqType) (hk : type.kindOrHostname = some k) (hc : c.Fits k) :
    ∃ c', freeAttrEntry c type = some c' ∧ c'.key = c.key ∧ c'.attrTree = c.attrTree := by
  obtain ⟨-, a, ha, hfits⟩ := hc
  unfold freeAttrEntry
  cases type <;> simp only [ReqType.kindOrHostname, ReqType.kind, Option.some.injEq, reduceCtorEq]
    at hk <;> subst hk <;> cases a <;>
    simp only [Attr.Fits, reduceCtorEq, or_self, or_true] at hfits <;>
    simp [ha, Ptr.free]

variable {type : ReqType}

theorem countHit_spec (hk : type.kind = some k) {a : Attr} (ha : a.Fits k) :
    ∃ n a', countHit type a = some (n, a') ∧ a'.Fits k := by
  unfold countHit
  cases type <;> simp only [ReqType.kind, Option.some.injEq, reduceCtorEq] at hk <;> subst hk <;>
    cases a <;> simp only [Attr.Fits, reduceCtorEq, or_self, or_true] at ha <;>
    simp [Attr.Fits]

theorem AttrCache.Fits.same (h : c.Fits k) : c.Same c k := ⟨rfl, rfl, h⟩

structure Req.Same (r r' : Req) : Prop where
  mac_eq : r'.deviceMac = r.deviceMac
  type_eq : r'.attributeType = r.attributeType
  key_eq : r'.cacheKey = r.cacheKey

theorem Req.Same.refl (r : Req) : r.Same r := ⟨rfl, rfl, rfl⟩

theorem Req.Same.trans {r r' r'' : Req} (h : r.Same r') (h' : r'.Same r'') : r.Same r'' :=
  ⟨h'.mac_eq.trans h.mac_eq, h'.type_eq.trans h.type_eq, h'.key_eq.trans h.key_eq⟩

theorem AttrCache.Same.trans {c'' : AttrCache} (h : c.Same c' k) (h' : c'.Same c'' k) :
    c.Same c'' k :=
  ⟨h'.key_eq.trans h.key_eq, h'.tree_eq.trans h.tree_eq, h'.fits⟩

section

variable (hk : req.attributeType.kind = some k) (hc : c.Fits k)

include hk hc

theorem lookupCount_spec (u : Bool) :
    ∃ req' c', lookupCount req c u = some (req', c') ∧ req.Same req' ∧ c.Same c' k ∧
      req'.fqdnRedirect = req.fqdnRedirect ∧ c'.fqdnRedirect = c.fqdnRedirect := by
  unfold lookupCount
  split
  · obtain ⟨ht, a, ha, hfits⟩ := hc
    obtain ⟨n, a', hcount, hfits'⟩ := countHit_spec hk hfits
    exact ⟨{ req with hitCounter := throughInt n }, { c with attr := .ptr a' },
      by simp [ha, hcount], ⟨rfl, rfl, rfl⟩, ⟨rfl, rfl, ht, a', rfl, hfits'⟩, rfl, rfl⟩
  · exact ⟨_, _, rfl, ⟨rfl, rfl, rfl⟩, hc.same, rfl, rfl⟩

theorem updateEntryAction_spec :
    ∃ ok req', updateEntryAction req c = some (ok, req') ∧ req.Same req' ∧
      req'.fqdnRedirect = req.fqdnRedirect := by
  obtain ⟨-, a, ha, hfits⟩ := hc
  unfold updateEntryAction
  split
  next hip =>
    rw [ha]
    cases a with
    | ipAddr addr n byName =>
      repeat' split
      all_goals exact ⟨_, _, rfl, ⟨rfl, rfl, rfl⟩, rfl⟩
    | _ =>
      rcases hip with hip | hip <;> simp [hip, ReqType.kind] at hk <;> subst hk <;>
        simp [Attr.Fits] at hfits
  · exact ⟨_, _, rfl, .refl req, rfl⟩

theorem lookupAction_spec (u : Bool) :
    ∃ ok req', lookupAction req c u = some (ok, req') ∧ req.Same req' ∧
      req'.fqdnRedirect = req.fqdnRedirect ∧ (u = false ∨ k.ByName → ok = true) := by
  cases u with
  | false => exact ⟨true, req, rfl, .refl req, rfl, fun _ => rfl⟩
  | true =>
    obtain ⟨ok, req', h, hsame, hredir⟩ := updateEntryAction_spec hk hc
    refine ⟨ok, req', h, hsame, hredir, fun hor => ?_⟩
    have hname : k.ByName := by simpa using hor
    have hip : ¬ (req.attributeType = .ipv4 ∨ req.attributeType = .ipv6) := by
      rintro (he | he) <;> rw [he] at hk <;> cases hk <;> simp [Kind.ByName] at hname
    rw [updateEntryAction, if_neg hip] at h
    cases h
    rfl

end

/-- A lookup can read the redirect of the entry. -/
def AttrCache.Readable (c : AttrCache) (req : Req) : Prop :=
  req.attributeType.kind = some .hostname → req.fqdnRedirect ≠ none → c.fqdnRedirect.read ≠ none

theorem AttrCache.Readable.congr {req' : Req} (h : c.Readable req) (hs : req.Same req')
    (hreq : req'.fqdnRedirect = req.fqdnRedirect) (hc : c'.fqdnRedirect = c.fqdnRedirect) :
    c'.Readable req' := by
  intro hk hne
  rw [hc]
  rw [hs.type_eq] at hk
  rw [hreq] at hne
  exact h hk hne

theorem mergeAction_spec (req : Req) (hc : c.Fits k) :
    req.Same (mergeAction req c).1 ∧ c.Same (mergeAction req c).2 k ∧
      (mergeAction req c).1.fqdnRedirect = req.fqdnRedirect ∧
      (mergeAction req c).2.fqdnRedirect = c.fqdnRedirect := by
  unfold mergeAction
  split
  · exact ⟨⟨rfl, rfl, rfl⟩, ⟨rfl, rfl, hc⟩, rfl, rfl⟩
  · exact ⟨⟨rfl, rfl, rfl⟩, hc.same, rfl, rfl⟩

theorem fillRequest_spec (req : Req) (c : AttrCache) :
    req.Same (fillRequest req c) ∧ (fillRequest req c).fqdnRedirect = req.fqdnRedirect := by
  unfold fillRequest
  dsimp only
  split <;> exact ⟨⟨rfl, rfl, rfl⟩, rfl⟩

theorem lookupRedirectEntry_spec (hr : c.Readable req) :
    ∃ req', lookupRedirectEntry req c = some req' ∧ req.Same req' := by
  unfold lookupRedirectEntry
  split
  next hk =>
    cases hreq : req.fqdnRedirect with
    | none => exact ⟨req, rfl, .refl req⟩
    | some old =>
      obtain ⟨r, hread⟩ := Option.ne_none_iff_exists'.mp (hr hk (by simp [hreq]))
      simp only [hread]
      cases r with
      | none => exact ⟨req, rfl, .refl req⟩
      | some r => exact ⟨_, rfl, rfl, rfl, rfl⟩
  · exact ⟨req, rfl, .refl req⟩

theorem mergePolicy_spec (req : Req) (hc : c.Fits k) :
    req.Same (mergePolicy req c).1 ∧ c.Same (mergePolicy req c).2 k := by
  unfold mergePolicy
  split
  · exact ⟨⟨rfl, rfl, rfl⟩, hc.same⟩
  · exact ⟨⟨rfl, rfl, rfl⟩, ⟨rfl, rfl, hc⟩⟩
  · exact ⟨⟨rfl, rfl, rfl⟩, hc.same⟩

theorem lookupCopy_spec (hc : c.Fits k) (hr : c.Readable req) :
    ∃ req' c', lookupCopy req c = some (req', c') ∧ req.Same req' ∧ c.Same c' k := by
  obtain ⟨hreq1, hc1, hredirReq1, hredir1⟩ := mergeAction_spec req hc
  obtain ⟨hreq2, hredir2⟩ := fillRequest_spec (mergeAction req c).1 (mergeAction req c).2
  obtain ⟨req3, hlookup, hreq3⟩ := lookupRedirectEntry_spec
    (hr.congr (hreq1.trans hreq2) (hredir2.trans hredirReq1) hredir1)
  obtain ⟨hreq4, hc4⟩ := mergePolicy_spec req3 hc1.fits
  refine ⟨(mergePolicy req3 (mergeAction req c).2).1, (mergePolicy req3 (mergeAction req c).2).2,
    ?_, (hreq1.trans hreq2).trans (hreq3.trans hreq4), hc1.trans hc4⟩
  simp [lookupCopy, hlookup]

/-- A hit finds its data, and updates nothing that the trees and the list depend on. -/
theorem lookupHit_spec (req : Req) (hk : req.attributeType.kind = some k) (hc : c.Fits k)
    (hr : c.Readable req) (u : Bool) :
    ∃ ok req' c', lookupHit req c u = some (ok, req', c') ∧ req.Same req' ∧ c.Same c' k ∧
      (u = false ∨ k.ByName → ok = true) := by
  obtain ⟨req1, c1, hcount, hreq1, hc1, hredirReq1, hredir1⟩ := lookupCount_spec hk hc u
  have hk1 : req1.attributeType.kind = some k := hreq1.type_eq ▸ hk
  obtain ⟨ok, req2, haction, hreq2, hredir2, hok⟩ := lookupAction_spec hk1 hc1.fits u
  cases ok with
  | false =>
    refine ⟨false, req2, c1, ?_, hreq1.trans hreq2, hc1, hok⟩
    simp [lookupHit, hcount, haction]
  | true =>
    obtain ⟨req3, c3, hcopy, hreq3, hc3⟩ := lookupCopy_spec hc1.fits
      (hr.congr (hreq1.trans hreq2) (hredir2.trans hredirReq1) hredir1)
    refine ⟨true, req3, c3, ?_, (hreq1.trans hreq2).trans hreq3, hc1.trans hc3, hok⟩
    simp [lookupHit, hcount, haction, hcopy]

theorem countAgain_spec (now : Int) (hk : type.kind = some k) (hc : c.Fits k) :
    ∃ c', Mgr.countAgain now type c = some c' ∧ c.Same c' k := by
  obtain ⟨ht, a, ha, hfits⟩ := hc
  obtain ⟨n, a', hcount, hfits'⟩ := countHit_spec hk hfits
  exact ⟨{ c with attr := .ptr a', cacheTs := now }, by simp [countAgain, ha, hcount], rfl, rfl,
    ht, a', rfl, hfits'⟩

theorem updateByName_spec (hk : entry.attributeType.kind = some k) {a : Attr} (ha : a.Fits k) :
    ∃ a' : Attr, Mgr.updateByName entry (.ptr a) = some (.ptr a') ∧ a'.Fits k := by
  unfold updateByName
  split
  next hip =>
    cases a with
    | ipAddr addr n byName => exact ⟨_, rfl, ha⟩
    | _ =>
      rcases hip.2 with hip | hip <;> simp [hip, ReqType.kind] at hk <;> subst hk <;>
        simp [Attr.Fits] at ha
  · exact ⟨a, rfl, ha⟩

theorem updateEntry_spec (entry : Req) (now : Int) (hk : entry.attributeType.kind = some k)
    (hc : c.Fits k) :
    ∃ c', Mgr.updateEntry now entry c = some c' ∧ c.Same c' k := by
  obtain ⟨ht, a, ha, hfits⟩ := hc
  obtain ⟨a', hupdate, hfits'⟩ := updateByName_spec hk hfits
  rw [updateEntry, ha, hupdate]
  exact ⟨_, rfl, rfl, rfl, ht, a', rfl, hfits'⟩

end Entries

/-! ## The list and the trees -/

theorem uint64Cmp_eq_zero {a b : UInt64} : uint64Cmp a b = 0 ↔ a = b := by
  unfold uint64Cmp
  constructor
  · intro h
    by_contra hne
    rcases UInt64.lt_or_lt_of_ne hne with hlt | hlt
    · simp [hlt] at h
    · simp [hlt, UInt64.lt_asymm hlt] at h
  · rintro rfl
    simp

theorem macAddrCmp_eq_zero {a b : Mac} : macAddrCmp a b = 0 ↔ a = b := by
  unfold macAddrCmp
  constructor
  · intro h
    by_contra hne
    rcases Fin.lt_or_lt_of_ne hne with hlt | hlt
    · simp [hlt] at h
    · simp [hlt, Fin.lt_asymm hlt] at h
  · rintro rfl
    simp

theorem Mgr.hasDevice_iff {mac : Mac} : m.hasDevice mac ↔ mac ∈ m.devices := by
  simp [hasDevice, Ordered.find, macAddrCmp_eq_zero]

attribute [local simp] setTree

variable {t' : TreeId}

theorem Mgr.mem_treeInsert {x : Nat} :
    x ∈ (m.treeInsert t s).trees t' ↔ x = s ∧ t' = t ∨ x ∈ m.trees t' := by
  by_cases ht : t' = t
  · subst ht
    simp [treeInsert, mem_insert]
  · simp [treeInsert, ht]

theorem Mgr.nodup_treeInsert (h : ∀ t, (m.trees t).Nodup) (hs : s ∉ m.trees t) (t' : TreeId) :
    ((m.treeInsert t s).trees t').Nodup := by
  by_cases ht : t' = t
  · subst ht
    simp only [treeInsert, setTree, Function.update_self]
    exact (insert_perm _ _ _ s).nodup_iff.mpr (nodup_cons.mpr ⟨hs, h t'⟩)
  · simpa [treeInsert, ht] using h t'

theorem Mgr.mem_treeRemove {x : Nat} (h : (m.trees t).Nodup) :
    x ∈ (m.treeRemove t s).trees t' ↔ x ∈ m.trees t' ∧ ¬ (x = s ∧ t' = t) := by
  by_cases ht : t' = t
  · subst ht
    simp [treeRemove, remove, h.mem_erase_iff, and_comm]
  · simp [treeRemove, ht]

theorem Mgr.nodup_treeRemove (h : ∀ t, (m.trees t).Nodup) (t' : TreeId) :
    ((m.treeRemove t s).trees t').Nodup := by
  by_cases ht : t' = t
  · subst ht
    simpa [treeRemove, remove] using (h t').erase s
  · simpa [treeRemove, ht] using h t'

theorem Mgr.recycle_eq {old : TreeId} {c : AttrCache} (htree : (m.slots s).attrTree = some old)
    (hfree : freeAttrEntry { m.slots s with attrTree := some t } (m.slots s).type = some c) :
    ∃ m', m.recycle t s = some m' ∧ m'.slots s = c ∧ (∀ x, x ≠ s → m'.slots x = m.slots x) ∧
      m'.trees = (m.treeRemove old s).trees ∧ m'.lruList = s :: m.lruList.erase s ∧
      m'.lruSize = m.lruSize ∧ m'.lruFree = m.lruFree ∧ m'.lruAvailable = m.lruAvailable ∧
      m'.devices = m.devices ∧ m'.categoryIds = m.categoryIds := by
  simp only [recycle, htree, Option.bind_eq_bind, Option.bind_some]
  have hslot : (((m.treeRemove old s).setSlot s
      { (m.treeRemove old s).slots s with attrTree := some t }).moveToHead s).slots s =
        { m.slots s with attrTree := some t } := setSlot_self ..
  rw [hslot, hfree]
  refine ⟨_, rfl, setSlot_self .., fun x hx => ?_, rfl, rfl, rfl, rfl, rfl, rfl, rfl⟩
  exact (setSlot_of_ne _ _ hx).trans (setSlot_of_ne _ _ hx)

namespace Inv

variable {size : Nat} {m m' : Mgr} {used free : List Nat} {s : Nat}

section

variable (h : Inv size m used free)

include h

theorem nodup : (used ++ free).Nodup :=
  h.perm.nodup_iff.mpr nodup_range

variable {key : UInt64}

theorem ident_eq (hs : s ∈ m.trees t) : m.ident s = (t, (m.slots s).key) := by
  simp [ident, ((h.mem_tree t s).mp hs).2]

/-- The attributes in the cache are those of the slots in use. -/
theorem mem_attrs {a : AttrId} : a ∈ m.attrs ↔ a ∈ used.map m.ident := by
  rw [mem_map]
  constructor
  · rintro ⟨s, hs, hkey⟩
    exact ⟨s, ((h.mem_tree _ s).mp hs).1, by rw [h.ident_eq hs, hkey]⟩
  rintro ⟨s, hs, rfl⟩
  obtain ⟨mac, k, htree, -⟩ := h.kind s hs
  have hmem := (h.mem_tree _ s).mpr ⟨hs, htree⟩
  refine ⟨s, ?_, rfl⟩
  rwa [h.ident_eq hmem]

theorem find_eq_some : m.find t key = some s ↔ s ∈ used ∧ m.ident s = (t, key) := by
  have hmem : ∀ {x}, x ∈ m.trees t → x ∈ used ∧ m.ident x = (t, (m.slots x).key) := fun hx =>
    ⟨((h.mem_tree t _).mp hx).1, h.ident_eq hx⟩
  constructor
  · intro hfind
    have hkey := find?_some hfind
    have htree := mem_of_find?_eq_some hfind
    simp only [uint64Cmp_eq_zero, decide_eq_true_eq] at hkey
    exact ⟨(hmem htree).1, hkey ▸ (hmem htree).2⟩
  rintro ⟨hs, hid⟩
  obtain ⟨mac, k, htree, -⟩ := h.kind s hs
  have ht : t = .device mac k := by
    simp only [ident, htree, Option.getD_some, Prod.mk.injEq] at hid
    exact hid.1.symm
  have hst : s ∈ m.trees t := (h.mem_tree t s).mpr ⟨hs, ht ▸ htree⟩
  have hkey : (m.slots s).key = key := by
    rw [h.ident_eq hst] at hid
    exact (Prod.mk.inj hid).2
  refine (Ordered.find_eq_some_iff fun x hx y hy hx' hy' => ?_).mpr
    ⟨hst, uint64Cmp_eq_zero.mpr hkey⟩
  refine inj_on_of_nodup_map h.idents (hmem hx).1 (hmem hy).1 ?_
  rw [(hmem hx).2, (hmem hy).2, uint64Cmp_eq_zero.mp hx', uint64Cmp_eq_zero.mp hy']

theorem find_eq_none : m.find t key = none ↔ (t, key) ∉ used.map m.ident := by
  rw [mem_map, Option.eq_none_iff_forall_not_mem]
  simp only [Option.mem_def, h.find_eq_some]
  push Not
  exact forall_congr' fun s => .rfl

theorem find_locationWide (key : UInt64) : m.find .locationWide key = none := by
  rw [Option.eq_none_iff_forall_not_mem]
  intro s hs
  obtain ⟨hs, hid⟩ := h.find_eq_some.mp hs
  obtain ⟨mac, k, htree, -⟩ := h.kind s hs
  simp [ident, htree] at hid

/-- The invariant does not depend on the counters of the devices. -/
theorem congr (hlist : m'.lruList = m.lruList) (hsize : m'.lruSize = m.lruSize)
    (hfree : m'.lruFree = m.lruFree) (havail : m'.lruAvailable = m.lruAvailable)
    (hslots : m'.slots = m.slots) (htrees : m'.trees = m.trees)
    (hdev : ∀ mac, m.hasDevice mac → m'.hasDevice mac) (hcat : m'.categoryIds = m.categoryIds)
    : Inv size m' used free where
  list_eq := hlist.trans h.list_eq
  perm := hsize ▸ h.perm
  free_eq := hfree.trans h.free_eq
  avail_eq := havail.trans h.avail_eq
  mem_tree := by rw [htrees, hslots]; exact h.mem_tree
  tree_nodup := by rw [htrees]; exact h.tree_nodup
  has_tree := by rw [hslots]; exact h.has_tree
  size_eq := hsize.trans h.size_eq
  size_pos := h.size_pos
  idents := by
    rw [ident_congr hslots]
    exact h.idents
  kind := by rw [hslots]; exact h.kind
  device := by
    intro mac hmac k
    rw [htrees]
    exact h.device mac (fun hm => hmac (hdev mac hm)) k
  category := hcat ▸ h.category

end

variable {mac : Mac} {k : Kind}

section

variable (h : Inv size m used free)

include h

/-- An update of an entry that keeps its key and its tree. -/
theorem setSlot (hs : s ∈ used) (ht : (m.slots s).attrTree = some (.device mac k)) {c : AttrCache}
    (hc : (m.slots s).Same c k) :
    Inv size (m.setSlot s c) used free ∧ (m.setSlot s c).ident = m.ident := by
  have htree : ∀ x, ((m.setSlot s c).slots x).attrTree = (m.slots x).attrTree := by
    intro x
    by_cases hx : x = s
    · subst hx
      simpa [setSlot] using hc.tree_eq
    · simp [Mgr.setSlot, hx]
  have hident : (m.setSlot s c).ident = m.ident := by
    funext x
    by_cases hx : x = s
    · subst hx
      simp [ident, setSlot, hc.tree_eq, hc.key_eq]
    · simp [Mgr.ident, Mgr.setSlot, hx]
  refine ⟨⟨⟨h.list_eq, h.perm, h.free_eq, h.avail_eq, ?_, h.tree_nodup, ?_⟩, h.size_eq, h.size_pos,
    ?_, ?_,
    h.device, h.category⟩, hident⟩
  · intro t x
    rw [htree]
    exact h.mem_tree t x
  · intro x hx
    rw [htree]
    exact h.has_tree x hx
  · rw [hident]
    exact h.idents
  · intro x hx
    by_cases hxs : x = s
    · subst hxs
      refine ⟨mac, k, (htree x).trans ht, ?_⟩
      simpa [setSlot] using hc.fits
    · obtain ⟨mac, k, ht, hfits⟩ := h.kind x hx
      refine ⟨mac, k, (htree x).trans ht, ?_⟩
      simpa [Mgr.setSlot, hxs] using hfits

theorem moveToHead (hs : s ∈ used) : Inv size (m.moveToHead s) (s :: used.erase s) free := by
  have hmem : ∀ x, x ∈ s :: used.erase s ↔ x ∈ used := fun x =>
    ((perm_cons_erase hs).mem_iff).symm
  refine ⟨⟨?_, ?_, h.free_eq, h.avail_eq, ?_, h.tree_nodup, ?_⟩, h.size_eq, h.size_pos, ?_, ?_,
    h.device,
    h.category⟩
  · show s :: m.lruList.erase s = _
    rw [h.list_eq, erase_append_left _ hs, cons_append]
  · exact ((perm_cons_erase hs).symm.append_right free).trans h.perm
  · intro t x
    rw [hmem]
    exact h.mem_tree t x
  · intro x hx
    exact h.has_tree x ((hmem x).mp hx)
  · exact (((perm_cons_erase hs).map m.ident).nodup_iff).mp h.idents
  · intro x hx
    exact h.kind x ((hmem x).mp hx)

/-- A slot becomes the one of a new entry, at the head of the list. -/
theorem insert (m' : Mgr) (s : Nat) (used' free' : List Nat) (mac : Mac) (k : Kind) (key : UInt64)
    (hlist : m'.lruList = s :: used' ++ free') (hperm : (s :: used' ++ free').Perm (used ++ free))
    (hsize : m'.lruSize = m.lruSize) (hfree : m'.lruFree = free'.head?)
    (havail : m'.lruAvailable = free'.length) (hslots : ∀ x, x ≠ s → m'.slots x = m.slots x)
    (htree : (m'.slots s).attrTree = some (.device mac k)) (hkey : (m'.slots s).key = key)
    (hfits : (m'.slots s).Fits k)
    (htrees : ∀ t x, x ∈ m'.trees t ↔ x = s ∧ t = .device mac k ∨ x ≠ s ∧ x ∈ m.trees t)
    (hnodup : ∀ t, (m'.trees t).Nodup) (hused : ∀ x, x ∈ used' ↔ x ∈ used ∧ x ≠ s)
    (hsub : used'.Sublist used) (hdev : m'.devices = m.devices) (hmac : m.hasDevice mac)
    (hcat : m'.categoryIds = m.categoryIds) (hnew : (.device mac k, key) ∉ used.map m.ident) :
    Inv size m' (s :: used') free' ∧
      (s :: used').map m'.ident = (.device mac k, key) :: used'.map m.ident := by
  have hident : (s :: used').map m'.ident = (.device mac k, key) :: used'.map m.ident := by
    rw [map_cons]
    congr 1
    · simp [ident, htree, hkey]
    · exact map_congr_left fun x hx => by rw [ident, ident, hslots x ((hused x).mp hx).2]
  have hdevice : ∀ mac', m'.hasDevice mac' ↔ m.hasDevice mac' := fun mac' => by
    rw [hasDevice_iff, hasDevice_iff, hdev]
  refine ⟨⟨⟨hlist, ?_, hfree, havail, fun t x => ?_, hnodup, fun x hx => ?_⟩,
    hsize.trans h.size_eq, h.size_pos, ?_, fun x hx => ?_,
    fun mac' hmac' k' => ?_, hcat ▸ h.category⟩, hident⟩
  · rw [hsize]
    exact hperm.trans h.perm
  · rw [htrees]
    by_cases hx : x = s
    · subst hx
      simp [htree, eq_comm]
    · simp [hx, hused, hslots x hx, h.mem_tree]
  · by_cases hxs : x = s
    · subst hxs
      simp [htree]
    · rw [hslots x hxs]
      exact h.has_tree x ((hused x).mp ((mem_cons.mp hx).resolve_left hxs)).1
  · rw [hident]
    exact nodup_cons.mpr
      ⟨fun hmem => hnew ((hsub.map _).subset hmem), h.idents.sublist (hsub.map _)⟩
  · by_cases hxs : x = s
    · subst hxs
      exact ⟨mac, k, htree, hfits⟩
    · rw [hslots x hxs]
      exact h.kind x ((hused x).mp ((mem_cons.mp hx).resolve_left hxs)).1
  · refine eq_nil_iff_forall_not_mem.mpr fun x hx => ?_
    rcases (htrees _ x).mp hx with ⟨-, he⟩ | ⟨-, hx⟩
    · cases he
      exact hmac' ((hdevice mac).mpr hmac)
    · rw [h.device mac' (fun hm => hmac' ((hdevice mac').mpr hm)) k'] at hx
      cases hx

variable {entry : Req}

omit h in
/-- The first free slot, with an entry of the tree `t`. -/
theorem insertNew_free (h : Inv size m used (s :: free)) (now : Int)
    (hk : entry.attributeType.kind = some k) (hn : entry.Named) (hmac : m.hasDevice mac)
    (hnew : (.device mac k, entry.key) ∉ used.map m.ident) :
    ∃ m', m.insertNew now (.device mac k) entry = some (true, m') ∧ Inv size m' (s :: used) free ∧
      (s :: used).map m'.ident = (.device mac k, entry.key) :: used.map m.ident ∧
      (m.Clean → m'.Clean) := by
  have hnd := h.nodup
  have hs : s ∉ used := fun hs => (nodup_append.mp hnd).2.2 s hs s (by simp) rfl
  have hst : ∀ t, s ∉ m.trees t := fun t hst => hs ((h.mem_tree t s).mp hst).1
  obtain ⟨c, hc, hkey, htree, hfits, hredir⟩ := interfaceToAttrCache_spec now
    ((m.takeFree (.device mac k) s).slots s) hk hn
  refine ⟨((m.takeFree (.device mac k) s).setSlot s c).treeInsert (.device mac k) s, ?_, ?_⟩
  · have havail : m.lruAvailable ≠ 0 := by simp [h.avail_eq]
    have hfree : m.lruFree = some s := by simp [h.free_eq]
    simp [insertNew, newAttrEntry, hk, havail, hfree, hc]
  refine and_assoc.mp ⟨h.insert
    (((m.takeFree (.device mac k) s).setSlot s c).treeInsert (.device mac k) s) s used free mac k
    entry.key ?_ perm_middle.symm rfl ?_ ?_ (fun x hx => ?_) ?_ ?_ ?_ (fun t x => ?_)
    (nodup_treeInsert h.tree_nodup (hst _)) (fun x => ?_) (.refl used) rfl hmac rfl hnew,
    fun hclean x => ?_⟩
  · show s :: m.lruList.erase s = _
    rw [h.list_eq, erase_append_right _ hs, erase_cons_head, cons_append]
  · show Ordered.next m.lruList s = _
    rw [h.list_eq, next_middle hs]
  · show m.lruAvailable - 1 = _
    rw [h.avail_eq]
    rfl
  · rw [treeInsert_slots, setSlot_of_ne _ _ hx]
    exact Function.update_of_ne hx _ _
  · rw [Mgr.treeInsert_slots, Mgr.setSlot_self, htree]
    simp [Mgr.takeFree, Mgr.moveToHead]
  · rw [treeInsert_slots, setSlot_self, hkey]
  · rwa [treeInsert_slots, setSlot_self]
  · rw [mem_treeInsert]
    show _ ∨ x ∈ m.trees t ↔ _
    grind
  · exact ⟨fun hx => ⟨hx, fun he => hs (he ▸ hx)⟩, fun hx => hx.1⟩
  · by_cases hx : x = s
    · subst hx
      rw [treeInsert_slots, setSlot_self]
      refine hredir ?_
      simpa [Mgr.takeFree, Mgr.moveToHead] using hclean x
    · simpa [Mgr.takeFree, Mgr.moveToHead, Mgr.setSlot, hx] using hclean x

omit h in
/-- The slot at the tail of a full list gives up its entry to one of the tree `t`. -/
theorem insertNew_full (h : Inv size m (used ++ [s]) []) (now : Int)
    (hk : entry.attributeType.kind = some k) (hn : entry.Named) (hmac : m.hasDevice mac)
    (hnew : (.device mac k, entry.key) ∉ (used ++ [s]).map m.ident) :
    ∃ m', m.insertNew now (.device mac k) entry = some (true, m') ∧ Inv size m' (s :: used) [] ∧
      (s :: used).map m'.ident = (.device mac k, entry.key) :: used.map m.ident := by
  have hnd := h.nodup
  rw [append_nil] at hnd
  have hs : s ∉ used := fun hs => (nodup_append.mp hnd).2.2 s hs s (by simp) rfl
  obtain ⟨mac0, k0, htree0, hfits0⟩ := h.kind s (by simp)
  have hst : ∀ t, s ∈ m.trees t ↔ t = .device mac0 k0 := fun t => by
    rw [h.mem_tree, htree0]
    simp [eq_comm]
  obtain ⟨c0, hfree, -, htree1⟩ := freeAttrEntry_spec
    (c := { m.slots s with attrTree := some (.device mac k) }) (m.slots s).type
    (ReqType.kindOrHostname_of_kind hfits0.1) hfits0
  obtain ⟨c, hc, hkey, htree, hfits, -⟩ := interfaceToAttrCache_spec now c0 hk hn
  obtain ⟨m1, hrecycle, hslot, hslots, htrees, hlist, hrest⟩ := recycle_eq (m := m) htree0 hfree
  refine ⟨(m1.setSlot s c).treeInsert (.device mac k) s, ?_, ?_⟩
  · have havail : m.lruAvailable = 0 := by simp [h.avail_eq]
    have hlast : m.lruList.getLast? = some s := by simp [h.list_eq]
    simp [insertNew, newAttrEntry, hk, havail, hlast, hrecycle, hslot, hc]
  have hmem : ∀ t x, x ∈ m1.trees t ↔ x ∈ m.trees t ∧ x ≠ s := by
    intro t x
    rw [htrees, mem_treeRemove (h.tree_nodup _), ← hst]
    exact and_congr_right fun hx => ⟨fun hn he => hn ⟨he, he ▸ hx⟩, fun hne hn => hne hn.1⟩
  have hnodup1 : ∀ t, (m1.trees t).Nodup := by
    rw [htrees]
    exact nodup_treeRemove h.tree_nodup
  refine h.insert ((m1.setSlot s c).treeInsert (.device mac k) s) s used [] mac k
    entry.key ?_ ?_ hrest.1 ?_ ?_ (fun x hx => ?_) ?_ ?_ ?_ (fun t x => ?_)
    (nodup_treeInsert hnodup1 fun hmem' => ((hmem _ s).mp hmem').2 rfl) (fun x => ?_)
    (sublist_append_left ..) hrest.2.2.2.1 hmac hrest.2.2.2.2 hnew
  · show m1.lruList = _
    rw [hlist, h.list_eq, append_nil, erase_append_right _ hs]
    simp
  · simpa using (perm_append_singleton s used).symm
  · exact hrest.2.1.trans h.free_eq
  · exact hrest.2.2.1.trans h.avail_eq
  · rw [treeInsert_slots, setSlot_of_ne _ _ hx, hslots x hx]
  · rw [treeInsert_slots, setSlot_self, htree, htree1]
  · rw [treeInsert_slots, setSlot_self, hkey]
  · rwa [treeInsert_slots, setSlot_self]
  · rw [mem_treeInsert]
    show _ ∨ x ∈ m1.trees t ↔ _
    rw [hmem, and_comm (a := x ∈ m.trees t)]
  · rw [mem_append, mem_singleton]
    constructor
    · exact fun hx => ⟨.inl hx, fun he => hs (he ▸ hx)⟩
    · exact fun hx => hx.1.resolve_right hx.2

/-- An entry goes away, and its slot is the last of the free ones. -/
theorem deleteEntry (hs : s ∈ used) (ht : (m.slots s).attrTree = some (.device mac k))
    {type : ReqType} (htype : type.kindOrHostname = some k) :
    ∃ m', m.deleteEntry (.device mac k) s type = some m' ∧
      Inv size m' (used.erase s) (free ++ [s]) ∧ (∀ x, x ≠ s → m'.slots x = m.slots x) ∧
      m'.devices = m.devices ∧ m'.trees = (m.treeRemove (.device mac k) s).trees := by
  have hfits : (m.slots s).Fits k := by
    obtain ⟨mac', k', ht', hfits⟩ := h.kind s hs
    rw [ht] at ht'
    cases ht'
    exact hfits
  obtain ⟨c, hfree, -, -⟩ := freeAttrEntry_spec type htype hfits
  have hused : used.Nodup := (nodup_append.mp h.nodup).1
  have hslots : ∀ x, x ≠ s → ((m.setSlot s c).removeEntry (.device mac k) s).slots x = m.slots x :=
    fun x hx => (setSlot_of_ne _ _ hx).trans (setSlot_of_ne _ _ hx)
  have hmem : ∀ x, x ∈ used.erase s ↔ x ≠ s ∧ x ∈ used := fun x => hused.mem_erase_iff
  refine ⟨(m.setSlot s c).removeEntry (.device mac k) s, by simp [Mgr.deleteEntry, hfree],
    ⟨⟨?_, ?_, ?_, ?_, fun t x => ?_, ?_, fun x hx => ?_⟩, h.size_eq, h.size_pos, ?_,
      fun x hx => ?_, ?_,
      h.category⟩, hslots, rfl, rfl⟩
  · show m.lruList.erase s ++ [s] = _
    rw [h.list_eq, erase_append_left _ hs, append_assoc]
  · refine .trans ?_ h.perm
    rw [← append_assoc]
    refine (perm_append_singleton s _).trans ?_
    exact ((perm_cons_erase hs).symm.append_right free)
  · show m.lruFree.or (some s) = _
    rw [h.free_eq, head?_append]
    rfl
  · show m.lruAvailable + 1 = _
    rw [h.avail_eq, length_append, length_singleton]
  · show x ∈ (m.treeRemove (.device mac k) s).trees t ↔ _
    rw [mem_treeRemove (h.tree_nodup _), h.mem_tree, hmem]
    by_cases hx : x = s
    · subst hx
      simp [ht, eq_comm]
    · simp [hx, hslots x hx]
  · exact nodup_treeRemove h.tree_nodup
  · rw [hslots x ((hmem x).mp hx).1]
    exact h.has_tree x ((hmem x).mp hx).2
  · have hident : (used.erase s).map ((m.setSlot s c).removeEntry (.device mac k) s).ident =
        (used.erase s).map m.ident :=
      map_congr_left fun x hx => by
        rw [ident, ident, hslots x ((hmem x).mp hx).1]
    rw [hident]
    exact h.idents.sublist (erase_sublist.map _)
  · rw [hslots x ((hmem x).mp hx).1]
    exact h.kind x ((hmem x).mp hx).2
  · intro mac' hmac' k'
    refine eq_nil_iff_forall_not_mem.mpr fun x hx => ?_
    have hx := ((mem_treeRemove (m := m) (h.tree_nodup _)).mp hx).1
    rw [h.device mac' hmac' k'] at hx
    cases hx

theorem initPerDev (hmac : ¬ m.hasDevice mac) :
    ∃ m', m.initPerDev mac = some m' ∧ Inv size m' used free ∧ m'.slots = m.slots ∧
      m'.hasDevice mac := by
  have hids : ((finRange 96).map m.categoryIds).filter (· ≠ 0) = [] := by
    simp [filter_eq_nil_iff, h.category]
  have hcache : m.newCategoryCache = some (replicate m.locationCategories .zero) := by
    simp only [newCategoryCache, hids]
    simp
  rw [Mgr.initPerDev, hcache]
  refine ⟨_, rfl, h.congr rfl rfl rfl rfl rfl (funext fun t => ?_) (fun mac' => ?_) rfl, rfl, ?_⟩
  · cases t with
    | locationWide => rfl
    | device mac' k =>
      dsimp only
      split
      next he => rw [he, h.device mac hmac k]
      · rfl
  · simp only [hasDevice_iff, mem_insert]
    exact .inr
  · simp [hasDevice_iff, mem_insert]

end

end Inv

end OpenSync.Gkc
