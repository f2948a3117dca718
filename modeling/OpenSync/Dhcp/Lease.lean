import Mathlib.Data.List.Nodup
import OpenSync.Dhcp.Message

/-!
# The leases of the clients

A session of the plugin keeps one lease for each client in a tree.  The key of a lease is the
text of the address of the client, and the comparator of the tree is made for an address in
binary: it looks at six bytes, which are the first two octets of the address.  So two clients
whose addresses start with the same two octets have the same key.

`clientStep` says what the leases are for: a record for each address, that the messages of the
client read and change, and no others.  `always_perClient_iff` says in which runs the tree does
this.
-/

namespace OpenSync.Dhcp

open OpenSync.Lib List Ds.Ordered

/-! ## A session -/

/-- `struct dhcp_session`: the leases and the local domains, each in the order of its tree. -/
structure Session where
  leases : List Lease
  domains : List (List UInt8)
deriving DecidableEq

/-- A session after `dhcp_plugin_init`. -/
def Session.init : Session := { leases := [], domains := [] }

/-- `dhcp_lease_cmp`, with `sizeof(os_macaddr_t)`. -/
def leaseCmp (a b : List UInt8) : Int := memcmp (a.take 6) (b.take 6)

def newLease (mac : Mac) : Lease where
  dhcpMsgType := 0
  hwaddr := mac.str
  inetAddr := []
  hostname := []
  vendorClass := []
  fingerprint := []
  leaseTime := 0

/-- The lease for an address, and the tree with it. -/
def lookupLease (leases : List Lease) (mac : Mac) : Lease × List Lease :=
  match Ds.Ordered.find Lease.hwaddr leaseCmp leases mac.str with
  | some lease => (lease, leases)
  | none => (newLease mac, Ds.Ordered.insert Lease.hwaddr leaseCmp leases (newLease mac))

/-- The tree after the lease has been changed in place or removed. -/
def storeLease (leases : List Lease) (lease : Lease) : Option Lease → List Lease
  | some after => leases.map fun l => if l = lease then after else l
  | none => Ds.Ordered.remove leases lease

/-- `DHCP_MAGIC`. -/
def dhcpMagic : Nat := 0x63825363

/-- The client that the message names in `dhcp_chaddr`, if the message is not dropped. -/
def Message.client (m : Message) : Option (Option Mac) :=
  if parseContent m = 0 then some none
  else do
    let magic ← m.read 236 4
    if ofBe32 magic ≠ dhcpMagic then some none
    else do
      let o0 ← m.get 28
      let o1 ← m.get 29
      let o2 ← m.get 30
      let o3 ← m.get 31
      let o4 ← m.get 32
      let o5 ← m.get 33
      some (some ⟨o0, o1, o2, o3, o4, o5⟩)

section

variable (s : Session) (m : Message)

/-- `dhcp_process_message` for a message of a client. -/
def processMessage (mac : Mac) : Option (Session × List Sent) := do
  let h ← handleLease m s.domains (lookupLease s.leases mac).1
  some (⟨storeLease (lookupLease s.leases mac).2 (lookupLease s.leases mac).1 h.kept, h.domains⟩,
    h.sent)

/-- `dhcp_handler`. -/
def handler : Option (Session × List Sent) := do
  match ← m.client with
  | none => some (s, [])
  | some mac => processMessage s m mac

/-! ## One record for each client -/

def Session.record (s : Session) (mac : Mac) : Option Lease :=
  s.leases.find? fun lease => lease.hwaddr = mac.str

/-- What a message does with the record of its client. -/
def clientStep (m : Message) (mac : Mac) (domains : List (List UInt8)) (record : Option Lease) :
    Option Handled :=
  handleLease m domains (record.getD (newLease mac))

/-- Every address in an update is the one of the client. -/
def Sent.OfClient (mac : Mac) : Sent → Prop
  | .report _ => True
  | .delete addr _ => addr = mac.str
  | .upsert addr _ row => addr = mac.str ∧ row.hwaddr = mac.str

/-- A message of `mac` leaves the other records alone, depends on the record of `mac` only, and its
updates carry the address of `mac`. -/
structure Isolated (s : Session) (m : Message) (mac : Mac) (s' : Session) (sent : List Sent) :
    Prop where
  others : ∀ other, other ≠ mac → s'.record other = s.record other
  own : clientStep m mac s.domains (s.record mac) = some ⟨s'.record mac, s'.domains, sent⟩
  updates : ∀ x ∈ sent, x.OfClient mac

/-- The message is processed, and touches the record of its client only. -/
def PerClient : Prop :=
  ∃ s' sent, handler s m = some (s', sent) ∧
    match m.client.join with
    | none => s' = s ∧ sent = []
    | some mac => Isolated s m mac s' sent

/-- No other client whose address starts with the same two octets has a record. -/
def Apart (s : Session) (mac : Mac) : Prop :=
  ∀ other, other ≠ mac → other.o0 = mac.o0 → other.o1 = mac.o1 → s.record other = none

/-- The message does not fault, and the client is apart from the clients with a record. -/
def Fine : Prop :=
  (handler s m).isSome ∧ ∀ mac, m.client = some (some mac) → Apart s mac

end

/-! ## The tree -/

/-- The leases are those of clients, and their keys are distinct. -/
structure Session.WF (s : Session) : Prop where
  ofClient : ∀ lease ∈ s.leases, ∃ mac : Mac, lease.hwaddr = mac.str
  keys : (s.leases.map fun lease => lease.hwaddr.take 6).Nodup

theorem leaseCmp_eq_zero_iff (a b : Mac) :
    leaseCmp a.str b.str = 0 ↔ a.o0 = b.o0 ∧ a.o1 = b.o1 := by
  rw [leaseCmp, memcmp_eq_zero_iff (by rw [take_str]; rfl), take_str_inj]

variable {s s' : Session} {m : Message} {mac : Mac} {lease after : Lease}

theorem Session.init_wf : Session.init.WF where
  ofClient := by simp [Session.init]
  keys := by simp [Session.init]

section

variable (wf : s.WF)

include wf

theorem Session.WF.eq_of_key {a b : Lease} (ha : a ∈ s.leases) (hb : b ∈ s.leases)
    (h : a.hwaddr.take 6 = b.hwaddr.take 6) : a = b :=
  inj_on_of_nodup_map wf.keys ha hb h

theorem Session.WF.record_eq_some_iff :
    s.record mac = some lease ↔ lease ∈ s.leases ∧ lease.hwaddr = mac.str := by
  rw [Session.record, find?_eq_some_iff_mem, decide_eq_true_eq]
  intro a ha b hb hamac hbmac
  rw [decide_eq_true_eq] at hamac hbmac
  exact wf.eq_of_key ha hb (by rw [hamac, hbmac])

/-- The session with the lease for an address in its tree. -/
def Session.withLease (s : Session) (mac : Mac) : Session :=
  { s with leases := (lookupLease s.leases mac).2 }

/-- A lookup finds the lease whose address starts with the same two octets, or adds one for the
client. -/
theorem lookupLease_cases (mac : Mac) :
    (∃ lease, ∃ other : Mac, lookupLease s.leases mac = (lease, s.leases) ∧ lease ∈ s.leases ∧
      lease.hwaddr = other.str ∧ other.o0 = mac.o0 ∧ other.o1 = mac.o1) ∨
    (lookupLease s.leases mac =
        (newLease mac, Ds.Ordered.insert Lease.hwaddr leaseCmp s.leases (newLease mac)) ∧
      ∀ lease ∈ s.leases, lease.hwaddr.take 6 ≠ mac.str.take 6) := by
  cases h : find Lease.hwaddr leaseCmp s.leases mac.str with
  | some lease =>
    have mem : lease ∈ s.leases := mem_of_find?_eq_some h
    have key : leaseCmp lease.hwaddr mac.str = 0 := by simpa using find?_some h
    obtain ⟨other, addr⟩ := wf.ofClient lease mem
    rw [addr, leaseCmp_eq_zero_iff] at key
    exact .inl ⟨lease, other, by rw [lookupLease, h], mem, addr, key⟩
  | none =>
    refine .inr ⟨by rw [lookupLease, h], ?_⟩
    intro lease mem key
    obtain ⟨other, addr⟩ := wf.ofClient lease mem
    have miss := find?_eq_none.mp h lease mem
    rw [addr, take_str_inj, ← leaseCmp_eq_zero_iff, ← addr] at key
    simp [key] at miss

theorem Session.WF.withLease (mac : Mac) : (s.withLease mac).WF := by
  rcases lookupLease_cases wf mac with ⟨lease, other, found, _⟩ | ⟨added, fresh⟩
  · rwa [Session.withLease, found]
  rw [Session.withLease, added]
  constructor
  · intro lease mem
    rcases (mem_insert _ _).mp mem with rfl | mem
    · exact ⟨mac, rfl⟩
    · exact wf.ofClient lease mem
  · have perm := (insert_perm Lease.hwaddr leaseCmp s.leases (newLease mac)).map
      fun lease => lease.hwaddr.take 6
    rw [perm.nodup_iff, map_cons, nodup_cons]
    refine ⟨?_, wf.keys⟩
    intro mem
    obtain ⟨lease, hmem, key⟩ := mem_map.mp mem
    exact fresh lease hmem key

theorem lookupLease_mem (mac : Mac) : (lookupLease s.leases mac).1 ∈ (s.withLease mac).leases := by
  rcases lookupLease_cases wf mac with ⟨lease, other, found, mem, _⟩ | ⟨added, fresh⟩
  · rw [Session.withLease, found]
    exact mem
  · rw [Session.withLease, added]
    exact (mem_insert _ _).mpr (.inl rfl)

/-- A client that is apart gets its own lease, and no other record changes. -/
theorem record_withLease (apart : Apart s mac) :
    (lookupLease s.leases mac).1 = (s.record mac).getD (newLease mac) ∧
      ∀ other, other ≠ mac → (s.withLease mac).record other = s.record other := by
  rcases lookupLease_cases wf mac with ⟨lease, other, found, mem, addr, h0, h1⟩ | ⟨added, fresh⟩
  · have own : other = mac := by
      by_contra hne
      have none := apart other hne h0 h1
      rw [wf.record_eq_some_iff.mpr ⟨mem, addr⟩] at none
      cases none
    rw [own] at addr
    rw [wf.record_eq_some_iff.mpr ⟨mem, addr⟩, Session.withLease, found]
    exact ⟨rfl, fun _ _ => rfl⟩
  have missing : s.record mac = none := by
    rw [Option.eq_none_iff_forall_ne_some]
    intro lease h
    obtain ⟨mem, addr⟩ := wf.record_eq_some_iff.mp h
    exact fresh lease mem (by rw [addr])
  rw [added, missing]
  refine ⟨rfl, ?_⟩
  intro other hne
  apply Option.ext
  intro lease
  rw [(wf.withLease mac).record_eq_some_iff, wf.record_eq_some_iff, Session.withLease, added,
    mem_insert]
  constructor
  · rintro ⟨rfl | mem, addr⟩
    · exact absurd (str_inj addr).symm hne
    · exact ⟨mem, addr⟩
  · rintro ⟨mem, addr⟩
    exact ⟨.inr mem, addr⟩

end

/-- The session with a changed or removed lease. -/
def Session.store (s : Session) (lease : Lease) (kept : Option Lease) : Session :=
  { s with leases := storeLease s.leases lease kept }

section

variable (wf : s.WF) (mem : lease ∈ s.leases)

include wf mem

theorem Session.WF.mem_store (kept : Option Lease) (l : Lease) :
    l ∈ (s.store lease kept).leases ↔ kept = some l ∨ l ∈ s.leases ∧ l ≠ lease := by
  cases kept with
  | none =>
    have nodup : s.leases.Nodup := List.Nodup.of_map _ wf.keys
    rw [Session.store, storeLease, remove, nodup.mem_erase_iff]
    simp [and_comm]
  | some after =>
    rw [Session.store, storeLease, mem_map]
    constructor
    · rintro ⟨x, hx, rfl⟩
      split_ifs with h
      · exact .inl rfl
      · exact .inr ⟨hx, h⟩
    · rintro (h | ⟨hl, hne⟩)
      · cases h
        exact ⟨lease, mem, if_pos rfl⟩
      · exact ⟨l, hl, if_neg hne⟩

variable {kept : Option Lease}

theorem Session.WF.store (addr : ∀ l ∈ kept, l.hwaddr = lease.hwaddr) :
    (s.store lease kept).WF := by
  constructor
  · intro l hl
    rcases (wf.mem_store mem kept l).mp hl with h | h
    · rw [addr l h]
      exact wf.ofClient lease mem
    · exact wf.ofClient l h.1
  cases kept with
  | none => exact wf.keys.sublist (erase_sublist.map _)
  | some after =>
    have same : ∀ l : Lease,
        (if l = lease then after else l).hwaddr.take 6 = l.hwaddr.take 6 := by
      intro l
      split_ifs with h
      · rw [addr after rfl, h]
      · rfl
    have keys := wf.keys
    simpa [Session.store, storeLease, Function.comp_def, same] using keys

/-- A change of a lease changes the record of its client only. -/
theorem record_store (addr : ∀ l ∈ kept, l.hwaddr = lease.hwaddr) (mac : Mac) :
    (s.store lease kept).record mac = if lease.hwaddr = mac.str then kept else s.record mac := by
  apply Option.ext
  intro l
  rw [(wf.store mem addr).record_eq_some_iff, wf.mem_store mem]
  split_ifs with own
  · constructor
    · rintro ⟨h | ⟨hl, hne⟩, hlm⟩
      · exact h
      · exact absurd (wf.eq_of_key hl mem (by rw [hlm, own])) hne
    · intro h
      exact ⟨.inl h, by rw [addr l h, own]⟩
  · rw [wf.record_eq_some_iff]
    constructor
    · rintro ⟨h | ⟨hl, -⟩, hlm⟩
      · exact absurd ((addr l h).symm.trans hlm) own
      · exact ⟨hl, hlm⟩
    · rintro ⟨hl, hlm⟩
      exact ⟨.inr ⟨hl, fun e => own (e ▸ hlm)⟩, hlm⟩

end

/-! ## One message -/

variable {sent : List Sent}

theorem processMessage_eq_some (h : processMessage s m mac = some (s', sent)) :
    ∃ kept, handleLease m s.domains (lookupLease s.leases mac).1 = some ⟨kept, s'.domains, sent⟩ ∧
      s'.leases = ((s.withLease mac).store (lookupLease s.leases mac).1 kept).leases := by
  obtain ⟨out, hout, e⟩ := Option.bind_eq_some_iff.mp h
  cases e
  exact ⟨out.kept, hout, rfl⟩

section

variable (wf : s.WF) (h : processMessage s m mac = some (s', sent))

include wf h

theorem processMessage_wf : s'.WF := by
  obtain ⟨kept, hh, leases⟩ := processMessage_eq_some h
  have addr := (handleLease_hwaddr hh).1
  have wf' := (wf.withLease mac).store (lookupLease_mem wf mac) addr
  exact ⟨leases ▸ wf'.ofClient, leases ▸ wf'.keys⟩

/-- The records after a message of a client, by the lease that the lookup gives. -/
theorem record_processMessage :
    ∃ kept, handleLease m s.domains (lookupLease s.leases mac).1 = some ⟨kept, s'.domains, sent⟩ ∧
      ∀ other, s'.record other =
        if (lookupLease s.leases mac).1.hwaddr = other.str then kept
        else (s.withLease mac).record other := by
  obtain ⟨kept, hh, leases⟩ := processMessage_eq_some h
  refine ⟨kept, hh, ?_⟩
  intro other
  rw [Session.record, leases]
  exact record_store (wf.withLease mac) (lookupLease_mem wf mac) (handleLease_hwaddr hh).1 other

omit wf h in
theorem Sent.Carries.ofClient {x : Sent} (h : x.Carries mac.str) : x.OfClient mac := by
  cases x with
  | report domains => trivial
  | delete addr inet | upsert addr inet row => rwa [Sent.Carries, strTolower_str] at h

omit wf h in
theorem isolated_of_apart (wf : s.WF) (apart : Apart s mac)
    (h : processMessage s m mac = some (s', sent)) : Isolated s m mac s' sent := by
  obtain ⟨kept, hh, records⟩ := record_processMessage wf h
  obtain ⟨own, others⟩ := record_withLease wf apart
  have addr : (lookupLease s.leases mac).1.hwaddr = mac.str := by
    rw [own]
    cases hr : s.record mac with
    | none => rfl
    | some lease => simpa using find?_some hr
  constructor
  · intro other hne
    rw [records, addr, if_neg fun e => hne (str_inj e).symm, others other hne]
  · rw [clientStep, ← own, hh, records, if_pos addr]
  intro x hx
  have carries := (handleLease_hwaddr hh).2 x hx
  rw [addr] at carries
  exact carries.ofClient

/-- With a lease of another client that has the same key, the message goes to that lease: it is
changed, or it is kept and the client of the message gets no record. -/
theorem apart_of_isolated (isolated : Isolated s m mac s' sent) : Apart s mac := by
  intro other hne h0 h1
  by_contra hsome
  obtain ⟨lease, hlease⟩ := Option.ne_none_iff_exists'.mp hsome
  obtain ⟨mem, addr⟩ := wf.record_eq_some_iff.mp hlease
  have key : lease.hwaddr.take 6 = mac.str.take 6 := by rw [addr, take_str_inj.mpr ⟨h0, h1⟩]
  -- the lookup finds the lease of the other client
  have found : lookupLease s.leases mac = (lease, s.leases) := by
    rcases lookupLease_cases wf mac with ⟨l, o, found, lmem, laddr, l0, l1⟩ | ⟨-, fresh⟩
    · have same : l = lease := wf.eq_of_key lmem mem (by
        rw [key, laddr, take_str_inj.mpr ⟨l0, l1⟩])
      rw [found, same]
    · exact absurd key (fresh lease mem)
  have missing : s.record mac = none := by
    rw [Option.eq_none_iff_forall_ne_some]
    intro l hl
    obtain ⟨lmem, laddr⟩ := wf.record_eq_some_iff.mp hl
    have same := wf.eq_of_key lmem mem (by rw [laddr, key])
    rw [same, addr] at laddr
    exact hne (str_inj laddr)
  obtain ⟨kept, hh, records⟩ := record_processMessage wf h
  rw [found] at hh records
  have keptEq : kept = some lease := by
    rw [← hlease, ← isolated.others other hne, records, if_pos addr]
  have ownNone : s'.record mac = none := by
    rw [records, if_neg fun e => hne (str_inj (addr.symm.trans e)), Session.withLease, found,
      ← missing]
  have own := isolated.own
  rw [clientStep, missing, Option.getD_none, ownNone] at own
  have both := handleLease_isSome (m := m) s.domains lease (newLease mac)
  rw [own, hh, keptEq] at both
  simp at both

end

theorem handler_eq_some_iff (h : m.client = some (some mac)) :
    handler s m = some (s', sent) ↔ processMessage s m mac = some (s', sent) := by
  rw [handler, h]
  rfl

theorem handler_wf (wf : s.WF) (h : handler s m = some (s', sent)) : s'.WF := by
  simp only [handler, Option.bind_eq_bind, Option.bind_eq_some_iff] at h
  obtain ⟨c, hc, h⟩ := h
  cases c with
  | none =>
    cases h
    exact wf
  | some mac => exact processMessage_wf wf h

theorem perClient_iff_fine (wf : s.WF) : PerClient s m ↔ Fine s m := by
  constructor
  · rintro ⟨s', sent, hh, h⟩
    refine ⟨by rw [hh]; rfl, ?_⟩
    intro mac hmac
    rw [hmac] at h
    exact apart_of_isolated wf ((handler_eq_some_iff hmac).mp hh) h
  rintro ⟨returns, apart⟩
  obtain ⟨⟨s', sent⟩, hh⟩ := Option.isSome_iff_exists.mp returns
  refine ⟨s', sent, hh, ?_⟩
  cases hc : m.client with
  | none => simp [handler, hc] at hh
  | some c =>
    cases c with
    | none =>
      rw [handler, hc] at hh
      cases hh
      exact ⟨rfl, rfl⟩
    | some mac => exact isolated_of_apart wf (apart mac hc) ((handler_eq_some_iff hc).mp hh)

/-! ## Runs of messages -/

/-- `P` holds of every message of a run, in the session that the message finds. -/
def Always (P : Session → Message → Prop) : Session → List Message → Prop
  | _, [] => True
  | s, m :: ms => P s m ∧ ∀ s' sent, handler s m = some (s', sent) → Always P s' ms

theorem always_perClient_iff (wf : s.WF) (ms : List Message) :
    Always PerClient s ms ↔ Always Fine s ms := by
  induction ms generalizing s with
  | nil => exact Iff.rfl
  | cons m ms ih =>
    refine and_congr (perClient_iff_fine wf) ?_
    refine forall_congr' fun s' => forall_congr' fun sent => forall_congr' fun h => ?_
    exact ih (handler_wf wf h)

/-! ## Two clients of one make -/

/-- A message of a client whose address differs in the last octet only, with the address
192.168.1.x. -/
def message (last : UInt8) (options : List UInt8) : Message where
  ethertype := 0x0800
  ipVersion := 4
  ipProtocol := 17
  source := 67
  dest := 68
  get i :=
    if i < 16 then some 0
    else if i < 28 then [192, 168, 1, last][i - 16]?.or (some 0)
    else if i < 236 then [0xaa, 0xbb, 0xcc, 0xdd, 0xee, last][i - 28]?.or (some 0)
    else ([0x63, 0x82, 0x53, 0x63] ++ options)[i - 236]?
  len := 240 + options.length
  updateOvsdb := some (lit "true")

/-- An acknowledgement with a lease of 3600 seconds. -/
def ack (last : UInt8) : Message := message last [53, 1, 5, 51, 4, 0, 0, 14, 16, 255]

def clientAt (last : UInt8) : Mac := ⟨0xaa, 0xbb, 0xcc, 0xdd, 0xee, last⟩

/-- The lease of a client with the address 192.168.1.x. -/
def granted (client last : UInt8) : Lease :=
  { newLease (clientAt client) with
    dhcpMsgType := 5, inetAddr := lit "192.168.1." ++ decimal last, leaseTime := 3600 }

def grantedUpdate (client last : UInt8) : Sent :=
  .upsert (clientAt client).str (granted client last).inetAddr (granted client last)

/-- The acknowledgement for a second client changes the lease of the first one, the update for it
has the address of the first, and the second client has no record. -/
theorem second_client_shares_lease :
    handler Session.init (ack 1) = some (⟨[granted 1 1], []⟩, [grantedUpdate 1 1]) ∧
      handler ⟨[granted 1 1], []⟩ (ack 2) = some (⟨[granted 1 2], []⟩, [grantedUpdate 1 2]) ∧
      Session.record ⟨[granted 1 2], []⟩ (clientAt 2) = none ∧
      ¬Always PerClient Session.init [ack 1, ack 2] := by
  have first : handler Session.init (ack 1) =
      some (⟨[granted 1 1], []⟩, [grantedUpdate 1 1]) := by decide +kernel
  have second : handler ⟨[granted 1 1], []⟩ (ack 2) =
      some (⟨[granted 1 2], []⟩, [grantedUpdate 1 2]) := by decide +kernel
  refine ⟨first, second, by decide +kernel, ?_⟩
  intro always
  obtain ⟨s', sent, hh, isolated⟩ := (always.2 _ _ first).1
  rw [second] at hh
  cases hh
  have same := isolated.others (clientAt 1) (by decide)
  exact absurd same (by decide +kernel)

end OpenSync.Dhcp
