import OpenSync.Ds.Ordered
import OpenSync.Lib.Bytes
import OpenSync.Lib.CInt
import OpenSync.Lib.CString

/-!
# A DHCP message and the lease it is about

`dhcp_process_message` of `dhcp_parse.c` goes over the options of a message, changes the lease of
the client as it goes, and at the end acts on the type of the message.  Here the lease is an
argument; `OpenSync.Dhcp.Lease` has its lookup.

A message is what a read at an offset of the payload gives.  The code does not check most of its
offsets, so a read behind the end is possible; it gives some byte or it faults, and a fault is
`none`, as is a write behind the end of the domain name buffer.

The text fields of a lease are 129 bytes each, the length that the schema generator gives a
string without a limit.
-/

namespace OpenSync.Dhcp

open OpenSync.Lib List Option

/-- A UDP datagram that the parser is called for. -/
structure Message where
  ethertype : Nat
  ipVersion : Nat
  ipProtocol : Nat
  source : Nat
  dest : Nat
  /-- The byte at an offset of the payload. -/
  get : Nat → Option UInt8
  /-- `dhcp_len`. -/
  len : Nat
  /-- What `get_config` answers for `update_ovsdb`. -/
  updateOvsdb : Option (List UInt8)

def Message.read (m : Message) (pos n : Nat) : Option (List UInt8) :=
  (List.range n).mapM fun i => m.get (pos + i)

/-- `dhcp_parse_content`: the length of the payload, 0 for what is not DHCP. -/
def parseContent (m : Message) : Nat :=
  if m.ethertype ≠ 0x0800 ∨ m.ipVersion ≠ 4 ∨ m.ipProtocol ≠ 17 then 0
  else if (m.source ≠ 68 ∨ m.dest ≠ 67) ∧ (m.source ≠ 67 ∨ m.dest ≠ 68) then 0
  else m.len

/-- `struct dhcp_lease` with its row of `DHCP_leased_IP`. -/
structure Lease where
  dhcpMsgType : UInt8
  hwaddr : List UInt8
  inetAddr : List UInt8
  hostname : List UInt8
  vendorClass : List UInt8
  fingerprint : List UInt8
  leaseTime : Int
deriving DecidableEq

/-- `sizeof` of a text field. -/
def fieldSize : Nat := 129

/-- What the plugin sends. -/
inductive Sent where
  /-- `send_report` with the list of local domains. -/
  | report (domains : List (List UInt8))
  /-- `ovsdb_sync_delete_where` with its two conditions. -/
  | delete (hwaddr inetAddr : List UInt8)
  /-- `ovsdb_sync_upsert_where` with its two conditions and the row. -/
  | upsert (hwaddr inetAddr : List UInt8) (row : Lease)
deriving DecidableEq

/-! ## Texts -/

def hexDigit (n : Nat) : UInt8 := UInt8.ofNat (if n < 10 then 48 + n else 87 + n)

/-- `%02x`. -/
def hex (b : UInt8) : List UInt8 := [hexDigit (b.toNat / 16), hexDigit (b.toNat % 16)]

/-- `%d`. -/
def decimal (b : UInt8) : List UInt8 :=
  (Nat.toDigits 10 b.toNat).map fun c => UInt8.ofNat c.toNat

/-- `os_macaddr_t`. -/
structure Mac where
  o0 : UInt8
  o1 : UInt8
  o2 : UInt8
  o3 : UInt8
  o4 : UInt8
  o5 : UInt8
deriving DecidableEq

/-- `mac_str`: the address in the format `PRI_os_macaddr_lower_t`, with 58 for the colon. -/
def Mac.str (mac : Mac) : List UInt8 :=
  hex mac.o0 ++ 58 :: hex mac.o1 ++ 58 :: hex mac.o2 ++ 58 :: hex mac.o3 ++ 58 :: hex mac.o4 ++
    58 :: hex mac.o5

def tolower (b : UInt8) : UInt8 := if 65 ≤ b ∧ b ≤ 90 then b + 32 else b

def strTolower (s : List UInt8) : List UInt8 := s.map tolower

theorem hexDigit_inj : ∀ m < 16, ∀ n < 16, hexDigit m = hexDigit n → m = n := by decide

theorem tolower_hexDigit : ∀ n < 16, tolower (hexDigit n) = hexDigit n := by decide

theorem hex_inj {a b : UInt8} (h : hex a = hex b) : a = b := by
  have ha := a.toNat_lt
  have hb := b.toNat_lt
  simp only [hex, cons.injEq, and_true] at h
  have high := hexDigit_inj _ (by omega) _ (by omega) h.1
  have low := hexDigit_inj _ (by omega) _ (by omega) h.2
  exact UInt8.toNat_inj.mp (by omega)

theorem strTolower_hex (b : UInt8) : (hex b).map tolower = hex b := by
  have hb := b.toNat_lt
  simp only [hex, map_cons, map_nil, cons.injEq, and_true]
  exact ⟨tolower_hexDigit _ (by omega), tolower_hexDigit _ (by omega)⟩

theorem strTolower_str (mac : Mac) : strTolower mac.str = mac.str := by
  have colon : tolower 58 = 58 := by decide
  simp [strTolower, Mac.str, strTolower_hex, colon]

/-- The bytes of the text that a comparison of six bytes looks at. -/
theorem take_str (mac : Mac) : mac.str.take 6 = hex mac.o0 ++ 58 :: hex mac.o1 ++ [58] := rfl

theorem take_str_inj {a b : Mac} : a.str.take 6 = b.str.take 6 ↔ a.o0 = b.o0 ∧ a.o1 = b.o1 := by
  constructor
  · intro h
    simp only [take_str, hex, cons_append, nil_append, cons.injEq, true_and, and_true] at h
    obtain ⟨h0, h0', h1, h1'⟩ := h
    exact ⟨hex_inj (by simp [hex, h0, h0']), hex_inj (by simp [hex, h1, h1'])⟩
  · rintro ⟨h0, h1⟩
    rw [take_str, take_str, h0, h1]

theorem str_inj {a b : Mac} (h : a.str = b.str) : a = b := by
  simp only [Mac.str, hex, cons_append, nil_append, cons.injEq, true_and, and_true] at h
  obtain ⟨h0, h0', h1, h1', h2, h2', h3, h3', h4, h4', h5, h5'⟩ := h
  have e0 : a.o0 = b.o0 := hex_inj (by simp [hex, h0, h0'])
  have e1 : a.o1 = b.o1 := hex_inj (by simp [hex, h1, h1'])
  have e2 : a.o2 = b.o2 := hex_inj (by simp [hex, h2, h2'])
  have e3 : a.o3 = b.o3 := hex_inj (by simp [hex, h3, h3'])
  have e4 : a.o4 = b.o4 := hex_inj (by simp [hex, h4, h4'])
  have e5 : a.o5 = b.o5 := hex_inj (by simp [hex, h5, h5'])
  cases a
  cases b
  simp_all

/-- The loop of `dp_fingerprint_to_str`, with the text so far. -/
def fingerprintLoop (size : Nat) : List UInt8 → List UInt8 → Bool × List UInt8
  | [], s => (true, s)
  | f :: rest, s =>
    let part := if s = [] then decimal f else 44 :: decimal f
    if size ≤ s.length + part.length then (false, s) else fingerprintLoop size rest (s ++ part)

/-- `dp_fingerprint_to_str`: the numbers of a fingerprint, separated by commas. -/
def dpFingerprintToStr (fin : List UInt8) (size : Nat) : Bool × List UInt8 :=
  fingerprintLoop size fin []

/-! ## The domain search option -/

/-- `MAX_DN_LEN`. -/
def maxDnLen : Nat := 253

/-- One byte to the end of the name, which must not leave the buffer. -/
def putByte (fqdn : List UInt8) (b : UInt8) : Option (List UInt8) :=
  if fqdn.length < maxDnLen then some (fqdn ++ [b]) else none

def copyLabel (m : Message) : Nat → Nat → List UInt8 → Option (List UInt8)
  | _, 0, fqdn => some fqdn
  | pos, n + 1, fqdn => do
    let b ← m.get pos
    let fqdn ← putByte fqdn b
    copyLabel m (pos + 1) n fqdn

def dnBuffer (fqdn : List UInt8) : List UInt8 :=
  fqdn ++ List.replicate (maxDnLen - fqdn.length) 0

/-- The tree of local domains after a name. -/
def addDomain (domains : List (List UInt8)) (fqdn : List UInt8) : List (List UInt8) :=
  match Ds.Ordered.find id memcmp domains (dnBuffer fqdn) with
  | some _ => domains
  | none => Ds.Ordered.insert id memcmp domains (dnBuffer fqdn)

/-- `dhcp_local_domain_option_processing` from a position of the option on. -/
def localDomains (m : Message) (popt optlen npos : Nat) (fqdn : List UInt8)
    (domains : List (List UInt8)) : Option (List (List UInt8)) :=
  if npos < optlen then do
    let labelLen ← m.get (popt + npos)
    let fqdn ← copyLabel m (popt + npos + 1) labelLen.toNat fqdn
    let next ← m.get (popt + (npos + 1 + labelLen.toNat))
    if next ≠ 0 then do
      let fqdn ← putByte fqdn 46
      localDomains m popt optlen (npos + 1 + labelLen.toNat) fqdn domains
    else
      localDomains m popt optlen (npos + 1 + labelLen.toNat + 1) [] (addDomain domains fqdn)
  else some domains
termination_by optlen - npos

/-! ## The options -/

/-- What the loop over the options has so far. -/
structure Scan where
  lease : Lease
  msgType : UInt8
  fin : List UInt8
  domains : List (List UInt8)
  reports : List (List (List UInt8))

/-- The lease with the time in the four bytes, in network order. -/
def Lease.setTime (lease : Lease) (time : List UInt8) : Lease :=
  { lease with leaseTime := toInt (ofBe32 time) }

@[simp] theorem Lease.setTime_hwaddr (lease : Lease) (time : List UInt8) :
    (lease.setTime time).hwaddr = lease.hwaddr := by
  rw [Lease.setTime]

/-- One option.  The flag says that the message is given up here. -/
def handleOption (m : Message) (optid : UInt8) (popt optlen : Nat) (s : Scan) :
    Option (Scan × Bool) :=
  if optid = 50 then do
    -- the requested address is read for the log only
    let _ ← m.read popt 4
    some (s, false)
  else if optid = 51 then do
    let time ← m.read popt 4
    some ({ s with lease := s.lease.setTime time }, false)
  else if optid = 53 then do
    let type ← m.get popt
    some ({ s with lease := { s.lease with dhcpMsgType := type }, msgType := type }, false)
  else if optid = 55 then do
    let params ← m.read popt optlen
    some ({ s with fin := (params.filter (· ≠ 0)).take 256 }, false)
  else if optid = 12 then
    if optlen = 0 then some (s, false)
    else if fieldSize - 1 ≤ optlen then some (s, true)
    else do
      let name ← m.read popt optlen
      some ({ s with lease := { s.lease with hostname := (cstrOf name).1 } }, false)
  else if optid = 60 then
    if optlen = 0 then some (s, false)
    else if fieldSize - 1 ≤ optlen then some (s, false)
    else do
      let name ← m.read popt optlen
      some ({ s with lease := { s.lease with vendorClass := (cstrOf name).1 } }, false)
  else if optid = 119 then do
    let domains ← localDomains m popt optlen 0 [] s.domains
    some ({ s with domains := domains, reports := s.reports ++ [domains] }, false)
  else some (s, false)

/-- The loop over the options, from an offset on. -/
def scanOptions (m : Message) (popt : Nat) (s : Scan) : Option (Scan × Bool) :=
  if popt < m.len then do
    let optid ← m.get popt
    if optid = 255 then some (s, false)
    else if optid = 0 then scanOptions m (popt + 1) s
    else if m.len < popt + 2 then some (s, false)
    else do
      let optlen ← m.get (popt + 1)
      if m.len < popt + 2 + optlen.toNat then some (s, false)
      else do
        let r ← handleOption m optid (popt + 2) optlen.toNat s
        if r.2 then some r else scanOptions m (popt + 2 + optlen.toNat) r.1
  else some (s, false)
termination_by m.len - popt

/-! ## The end of a message -/

/-- The fingerprint of the lease from the parameter list of the message. -/
def Lease.setFingerprint (lease : Lease) (fin : List UInt8) : Lease :=
  { lease with fingerprint :=
      if (dpFingerprintToStr fin fieldSize).1 then (dpFingerprintToStr fin fieldSize).2 else [] }

/-- The address that the message gives to the client. -/
def setInetAddr (m : Message) (lease : Lease) : Option Lease := do
  let a0 ← m.get 16
  let a1 ← m.get 17
  let a2 ← m.get 18
  let a3 ← m.get 19
  some { lease with
    inetAddr := decimal a0 ++ 46 :: decimal a1 ++ 46 :: decimal a2 ++ 46 :: decimal a3 }

/-- `dhcp_lease_update_table`.  The text of an address is in lower case, so the lease itself stays
as it is. -/
def leaseUpdateTable (m : Message) (lease : Lease) : List Sent :=
  if m.updateOvsdb = some (lit "true") then
    if lease.leaseTime = 0 then [.delete (strTolower lease.hwaddr) lease.inetAddr]
    else [.upsert (strTolower lease.hwaddr) lease.inetAddr
      { lease with hwaddr := strTolower lease.hwaddr }]
  else []

/-- What the type of the message asks for: the lease, unless it is dropped, and the updates. -/
def finish (m : Message) (s : Scan) : Option (Option Lease × List Sent) :=
  if s.msgType = 1 then some (some (s.lease.setFingerprint s.fin), [])
  else if s.msgType = 3 then
    some (some (if s.lease.fingerprint = [] then s.lease.setFingerprint s.fin else s.lease), [])
  else if s.msgType = 2 then do
    let lease ← setInetAddr m s.lease
    some (some lease, [])
  else if s.msgType = 5 then do
    let lease ← setInetAddr m s.lease
    some (some lease, leaseUpdateTable m lease)
  else if s.msgType = 6 ∨ s.msgType = 7 then some (none, leaseUpdateTable m s.lease)
  else some (some s.lease, [])

/-- A lease that a message has been applied to. -/
structure Handled where
  /-- `none` when the lease is removed. -/
  kept : Option Lease
  domains : List (List UInt8)
  sent : List Sent

/-- `dhcp_process_message` once it has the lease. -/
def handleLease (m : Message) (domains : List (List UInt8)) (lease : Lease) : Option Handled := do
  let r ← scanOptions m 240
    { lease := lease, msgType := 0, fin := [], domains := domains, reports := [] }
  if r.2 then some ⟨some r.1.lease, r.1.domains, r.1.reports.map .report⟩
  else do
    let e ← finish m r.1
    some ⟨e.1, r.1.domains, r.1.reports.map .report ++ e.2⟩

/-! ## What a message does with any lease

The address of a lease never changes, and everything but the fields of the lease depends on the
message alone. -/

variable {m : Message} {s : Scan} {r : Scan × Bool} {optid : UInt8} {popt optlen : Nat}

def Scan.setLease (s : Scan) (lease : Lease) : Scan := { s with lease := lease }

theorem handleOption_hwaddr (h : handleOption m optid popt optlen s = some r) :
    r.1.lease.hwaddr = s.lease.hwaddr := by
  unfold handleOption at h
  split_ifs at h <;>
    simp only [bind_eq_bind, bind_eq_some_iff, some.injEq] at h <;>
    obtain ⟨_, _, rfl⟩ := h <;> simp only [Lease.setTime_hwaddr]

theorem handleOption_setLease (m : Message) (optid : UInt8) (popt optlen : Nat) (s : Scan)
    (lease : Lease) : ∃ lease',
    handleOption m optid popt optlen (s.setLease lease) =
      (handleOption m optid popt optlen s).map fun r => (r.1.setLease lease', r.2) := by
  unfold handleOption
  split_ifs
  · exact ⟨lease, by cases m.read popt 4 <;> rfl⟩
  · cases h : m.read popt 4 with
    | none => exact ⟨lease, rfl⟩
    | some time => exact ⟨lease.setTime time, rfl⟩
  · cases h : m.get popt with
    | none => exact ⟨lease, rfl⟩
    | some type => exact ⟨{ lease with dhcpMsgType := type }, rfl⟩
  · exact ⟨lease, by cases m.read popt optlen <;> rfl⟩
  · exact ⟨lease, rfl⟩
  · exact ⟨lease, rfl⟩
  · cases h : m.read popt optlen with
    | none => exact ⟨lease, rfl⟩
    | some name => exact ⟨{ lease with hostname := (cstrOf name).1 }, rfl⟩
  · exact ⟨lease, rfl⟩
  · exact ⟨lease, rfl⟩
  · cases h : m.read popt optlen with
    | none => exact ⟨lease, rfl⟩
    | some name => exact ⟨{ lease with vendorClass := (cstrOf name).1 }, rfl⟩
  · refine ⟨lease, ?_⟩
    simp only [Scan.setLease]
    cases localDomains m popt optlen 0 [] s.domains <;> rfl
  · exact ⟨lease, rfl⟩

theorem scanOptions_hwaddr (h : scanOptions m popt s = some r) :
    r.1.lease.hwaddr = s.lease.hwaddr := by
  fun_induction scanOptions m popt s generalizing r with
  | case1 popt s lt ih1 ih2 =>
    simp only [bind_eq_bind, bind_eq_some_iff] at h
    obtain ⟨optid, hid, h⟩ := h
    split_ifs at h with h255 h0 hlen
    · cases h
      rfl
    · exact ih1 h
    · cases h
      rfl
    · simp only [bind_eq_some_iff] at h
      obtain ⟨optlen, hoptlen, h⟩ := h
      split_ifs at h with hend
      · cases h
        rfl
      simp only [bind_eq_some_iff] at h
      obtain ⟨q, hq, h⟩ := h
      have keep := handleOption_hwaddr hq
      split_ifs at h with discard
      · cases h
        exact keep
      · rw [← keep]
        exact ih2 hlen optlen hend q h
  | case2 popt s ge =>
    cases h
    rfl

theorem scanOptions_setLease (m : Message) (popt : Nat) (s : Scan) (lease : Lease) : ∃ lease',
    scanOptions m popt (s.setLease lease) =
      (scanOptions m popt s).map fun r => (r.1.setLease lease', r.2) := by
  fun_induction scanOptions m popt s generalizing lease with
  | case1 popt s lt ih1 ih2 =>
    rw [scanOptions, if_pos lt]
    cases hid : m.get popt with
    | none => exact ⟨lease, rfl⟩
    | some optid =>
      simp only [bind_eq_bind, bind_some]
      split_ifs with h255 h0 hlen
      · exact ⟨lease, rfl⟩
      · exact ih1 lease
      · exact ⟨lease, rfl⟩
      · cases hoptlen : m.get (popt + 1) with
        | none => exact ⟨lease, rfl⟩
        | some optlen =>
          simp only [bind_some]
          split_ifs with hend
          · exact ⟨lease, rfl⟩
          obtain ⟨lease1, step⟩ :=
            handleOption_setLease m optid (popt + 2) optlen.toNat s lease
          rw [step]
          cases hq : handleOption m optid (popt + 2) optlen.toNat s with
          | none => exact ⟨lease, rfl⟩
          | some q =>
            simp only [map_some, bind_some]
            split_ifs with discard
            · exact ⟨lease1, rfl⟩
            · exact ih2 hlen optlen hend q lease1
  | case2 popt s ge =>
    rw [scanOptions, if_neg ge]
    exact ⟨lease, rfl⟩

/-- Every address in an update is the lower case of `hwaddr`. -/
def Sent.Carries (hwaddr : List UInt8) : Sent → Prop
  | .report _ => True
  | .delete addr _ => addr = strTolower hwaddr
  | .upsert addr _ row => addr = strTolower hwaddr ∧ row.hwaddr = strTolower hwaddr

theorem setInetAddr_hwaddr {lease lease' : Lease} (h : setInetAddr m lease = some lease') :
    lease'.hwaddr = lease.hwaddr := by
  simp only [setInetAddr, bind_eq_bind, bind_eq_some_iff, some.injEq] at h
  obtain ⟨_, _, _, _, _, _, _, _, rfl⟩ := h
  rfl

theorem leaseUpdateTable_carries {lease : Lease} :
    ∀ x ∈ leaseUpdateTable m lease, x.Carries lease.hwaddr := by
  intro x hx
  rw [leaseUpdateTable] at hx
  split_ifs at hx
  · rw [mem_singleton.mp hx]
    rfl
  · rw [mem_singleton.mp hx]
    exact ⟨rfl, rfl⟩
  · cases hx

theorem Lease.setFingerprint_hwaddr (lease : Lease) (fin : List UInt8) :
    (lease.setFingerprint fin).hwaddr = lease.hwaddr := rfl

/-- The end of a message keeps the address of the lease and sends it only. -/
theorem finish_hwaddr {e : Option Lease × List Sent} (h : finish m s = some e) :
    (∀ lease ∈ e.1, lease.hwaddr = s.lease.hwaddr) ∧ ∀ x ∈ e.2, x.Carries s.lease.hwaddr := by
  unfold finish at h
  split_ifs at h with h1 h3 h3' h2 h5 h67
  · cases h
    simp [Lease.setFingerprint_hwaddr]
  · cases h
    simp [Lease.setFingerprint_hwaddr]
  · cases h
    simp
  · simp only [bind_eq_bind, bind_eq_some_iff, some.injEq] at h
    obtain ⟨lease, hl, rfl⟩ := h
    simp [setInetAddr_hwaddr hl]
  · simp only [bind_eq_bind, bind_eq_some_iff, some.injEq] at h
    obtain ⟨lease, hl, rfl⟩ := h
    have keep := setInetAddr_hwaddr hl
    refine ⟨by simp [keep], ?_⟩
    rw [← keep]
    exact leaseUpdateTable_carries
  · cases h
    exact ⟨by simp, leaseUpdateTable_carries⟩
  · cases h
    simp

attribute [local simp] Scan.setLease finish

/-- Whether the end of a message faults or drops the lease does not depend on the lease. -/
theorem finish_setLease (lease : Lease) :
    (finish m (s.setLease lease)).map (fun e => e.1.isSome) =
      (finish m s).map fun e => e.1.isSome := by
  have addr : ∀ lease, (setInetAddr m lease).map (fun _ => true) =
      (setInetAddr m s.lease).map fun _ => true := by
    intro lease
    unfold setInetAddr
    cases m.get 16 <;> cases m.get 17 <;> cases m.get 18 <;> cases m.get 19 <;> rfl
  have bound : ∀ f : Lease → List Sent, ∀ lease,
      ((setInetAddr m lease).bind fun l => some (some l, f l)).map (fun e => e.1.isSome) =
        (setInetAddr m s.lease).map fun _ => true := by
    intro f lease
    rw [← addr lease]
    cases setInetAddr m lease <;> rfl
  by_cases h1 : s.msgType = 1
  · simp [h1]
  by_cases h3 : s.msgType = 3
  · simp [h3]
  by_cases h2 : s.msgType = 2
  · simp [h2, bound]
  by_cases h5 : s.msgType = 5
  · simp [h5, bound]
  by_cases h67 : s.msgType = 6 ∨ s.msgType = 7
  · simp [h1, h3, h2, h5, h67]
  · simp [h1, h3, h2, h5, h67]

theorem handleLease_hwaddr {domains : List (List UInt8)} {lease : Lease} {h : Handled}
    (hh : handleLease m domains lease = some h) :
    (∀ l ∈ h.kept, l.hwaddr = lease.hwaddr) ∧ ∀ x ∈ h.sent, x.Carries lease.hwaddr := by
  simp only [handleLease, bind_eq_bind, bind_eq_some_iff] at hh
  obtain ⟨r, hr, hh⟩ := hh
  have keep : r.1.lease.hwaddr = lease.hwaddr := scanOptions_hwaddr hr
  have reports : ∀ x ∈ r.1.reports.map Sent.report, x.Carries lease.hwaddr := by
    intro x hx
    obtain ⟨d, _, rfl⟩ := mem_map.mp hx
    trivial
  split_ifs at hh with discard
  · cases hh
    exact ⟨by simpa using keep, reports⟩
  simp only [bind_eq_some_iff, some.injEq] at hh
  obtain ⟨e, he, rfl⟩ := hh
  have fin := finish_hwaddr he
  rw [keep] at fin
  refine ⟨fin.1, ?_⟩
  intro x hx
  rcases mem_append.mp hx with hx | hx
  · exact reports x hx
  · exact fin.2 x hx

/-- Two leases fault together on a message, and are dropped together by it. -/
theorem handleLease_isSome (domains : List (List UInt8)) (lease lease' : Lease) :
    (handleLease m domains lease').map (fun h => h.kept.isSome) =
      (handleLease m domains lease).map fun h => h.kept.isSome := by
  obtain ⟨after, hscan⟩ := scanOptions_setLease m 240
    { lease := lease, msgType := 0, fin := [], domains := domains, reports := [] } lease'
  have hkept : ∀ (o : Option (Option Lease × List Sent)) domains (f : List Sent → List Sent),
      (o.bind fun e => some (Handled.mk e.1 domains (f e.2))).map (fun h => h.kept.isSome) =
        o.map fun e => e.1.isSome := by
    intro o domains f
    cases o <;> rfl
  rw [Scan.setLease] at hscan
  simp only [handleLease, hscan]
  cases scanOptions m 240
      { lease := lease, msgType := 0, fin := [], domains := domains, reports := [] } with
  | none => rfl
  | some r =>
    simp only [map_some, bind_eq_bind, bind_some]
    split_ifs with discard
    · rfl
    · have same := finish_setLease (m := m) (s := r.1) after
      exact (hkept _ _ _).trans (same.trans (hkept _ _ _).symm)

end OpenSync.Dhcp
