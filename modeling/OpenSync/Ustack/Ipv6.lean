import Mathlib.Algebra.Order.Ring.Int

/-!
# The extension headers of IPv6 in `net_header_parse.c`

The parser skips a header whose id a binary search finds in a table.  The table is one of
`int`, and the search goes over it as over a table of `int16_t`.  On a little-endian host it
sees the ids with zeros between them, which is not a sorted table.
-/

namespace OpenSync.Ustack

open List Option

/-! ## The parser -/

/-- `ipv6_extensions_ids`. -/
def ipv6ExtensionsIds : List Nat := [0, 43, 44, 50, 51, 60, 135, 139, 140, 253, 254]

/-- The table as the search reads it. -/
def halves : List Nat := ipv6ExtensionsIds.flatMap fun id => [id % 2 ^ 16, id / 2 ^ 16]

/-- `bsearch` with `cmphdr`, between two elements. -/
def bsearch (key : Nat) : Nat → Nat → Nat → Bool
  | 0, _, _ => false
  | fuel + 1, lo, hi =>
    if hi ≤ lo then false
    else
      let id := halves.getD ((lo + hi) / 2) 0
      if key < id then bsearch key fuel lo ((lo + hi) / 2)
      else if id < key then bsearch key fuel ((lo + hi) / 2 + 1) hi
      else true

/-- `is_ipv6_extension`. -/
def isIpv6Extension (id : UInt8) : Bool := bsearch id.toNat 11 0 11

/-- `struct net_header_parser`, with the packet from `data` on. -/
structure Parser where
  ethertype : Nat
  packetLen : Nat
  parsed : Nat
  ipVersion : Nat
  ipProtocol : UInt8
  data : List UInt8
deriving DecidableEq

/-- The loop of `net_header_get_ipv6_payload`: `none` when it reads outside the packet, `some none`
for the result 0. -/
def hopExtensions (p : Parser) (nextHeader : UInt8) : Nat → Option (Option Parser)
  | 0 => none
  | fuel + 1 =>
    if isIpv6Extension nextHeader then do
      let nextHeader ← p.data[0]?
      let extLen ← p.data[1]?
      let len := 8 * (extLen.toNat + 1)
      if p.packetLen < p.parsed + len then some none
      else
        hopExtensions { p with data := p.data.drop len, parsed := p.parsed + len } nextHeader fuel
    else some (some { p with ipProtocol := nextHeader })

/-- `net_header_get_ipv6_payload`, with the header that the parser has recorded. -/
def getIpv6Payload (p : Parser) (hdr : List UInt8) : Option (Option Parser) :=
  if p.ethertype ≠ 0x86dd ∨ p.ipVersion ≠ 6 then some none
  else do
    let nextHeader ← hdr[6]?
    hopExtensions p nextHeader (p.packetLen + 1)

/-- `net_header_parse_ipv6`.  The Ethernet header may end behind the packet, which makes the length
a large number. -/
def parseIpv6 (p : Parser) : Option (Option Parser) :=
  let len := (p.packetLen + 2 ^ 64 - p.parsed) % 2 ^ 64
  if len < 40 then some none
  else do
    let hi ← p.data[4]?
    let lo ← p.data[5]?
    let dlen := hi.toNat * 256 + lo.toNat
    if len - 40 < dlen then some none
    else
      getIpv6Payload { p with
        parsed := p.parsed + 40
        data := p.data.drop 40
        ipVersion := 6
        packetLen := p.parsed + 40 + dlen } p.data

/-! ## Packets -/

/-- The extension headers that a packet may carry. -/
inductive ExtKind where
  | hopByHop
  | routing
  | fragment
  | destination
deriving DecidableEq

/-- The id of a header. -/
def ExtKind.id : ExtKind → UInt8
  | .hopByHop => 0
  | .routing => 43
  | .fragment => 44
  | .destination => 60

/-- A header after its first two bytes, the id of the next header and the length in units of eight
bytes.  A fragment header has the length 0. -/
structure Ext where
  kind : ExtKind
  len : UInt8
  body : List UInt8
  length_body : body.length = 8 * len.toNat + 6
  fragment_len : kind = .fragment → len = 0

/-- The id of the first header of a chain before the upper layer. -/
def nextId (upper : UInt8) : List Ext → UInt8
  | [] => upper
  | e :: _ => e.kind.id

/-- The bytes of a chain. -/
def encode (upper : UInt8) : List Ext → List UInt8
  | [] => []
  | e :: exts => nextId upper exts :: e.len :: (e.body ++ encode upper exts)

/-- A well-formed packet, `parsed` bytes into the capture.  Behind its payload there may be
padding. -/
structure Packet where
  parsed : Nat
  version : List UInt8
  addresses : List UInt8
  exts : List Ext
  upper : UInt8
  payload : List UInt8
  padding : List UInt8
  length_version : version.length = 4
  length_addresses : addresses.length = 33
  upper_notMem : upper.toNat ∉ ipv6ExtensionsIds
  length_lt : (encode upper exts ++ payload).length < 2 ^ 16
  capture_lt : parsed + 40 + (encode upper exts ++ (payload ++ padding)).length < 2 ^ 64

namespace Packet

def bytes (k : Packet) : List UInt8 :=
  let dlen := (encode k.upper k.exts ++ k.payload).length
  k.version ++ [.ofNat (dlen / 256), .ofNat (dlen % 256), nextId k.upper k.exts] ++ k.addresses ++
    (encode k.upper k.exts ++ (k.payload ++ k.padding))

/-- The parser before the packet. -/
def parser (k : Packet) (ipVersion : Nat) (ipProtocol : UInt8) : Parser :=
  { ethertype := 0x86dd, packetLen := k.parsed + k.bytes.length, parsed := k.parsed, ipVersion
    ipProtocol, data := k.bytes }

/-- The parser ends at the header of the upper layer. -/
def Skipped (k : Packet) (ipVersion : Nat) (ipProtocol : UInt8) : Prop :=
  ∃ p, parseIpv6 (k.parser ipVersion ipProtocol) = some (some p) ∧
    p.ipProtocol = k.upper ∧ p.parsed = k.parsed + 40 + (encode k.upper k.exts).length

end Packet

/-! ## What is skipped -/

/-- The search finds three ids only: the middle element is a zero, and what is to its left is never
looked at. -/
theorem isIpv6Extension_iff (id : UInt8) :
    isIpv6Extension id = true ↔ id = 0 ∨ id = 51 ∨ id = 60 := by
  have h : ∀ n < 256, bsearch n 11 0 11 = true ↔ n = 0 ∨ n = 51 ∨ n = 60 := by
    decide +kernel
  rw [isIpv6Extension, h _ id.toNat_lt]
  simp only [← UInt8.toNat_inj]
  rfl

/-- The headers that the search finds. -/
def ExtKind.Found (kind : ExtKind) : Prop := kind = .hopByHop ∨ kind = .destination

theorem isIpv6Extension_id (kind : ExtKind) : isIpv6Extension kind.id = true ↔ kind.Found := by
  cases kind <;> simp [isIpv6Extension_iff, ExtKind.id, ExtKind.Found]

theorem hopExtensions_spec {upper : UInt8} (hupper : upper.toNat ∉ ipv6ExtensionsIds)
    (exts : List Ext) {p : Parser} {rest : List UInt8} {fuel : Nat}
    (hdata : p.data = encode upper exts ++ rest)
    (hlen : p.parsed + (encode upper exts).length ≤ p.packetLen) (hfuel : exts.length < fuel) :
    ∃ p', hopExtensions p (nextId upper exts) fuel = some (some p') ∧
      (p'.ipProtocol = upper ∧ p'.parsed = p.parsed + (encode upper exts).length ↔
        ∀ e ∈ exts, e.kind.Found) := by
  obtain ⟨fuel, rfl⟩ : ∃ k, fuel = k + 1 := ⟨fuel - 1, by omega⟩
  induction exts generalizing p fuel with
  | nil =>
    have hnot : isIpv6Extension upper = false := by
      rw [Bool.eq_false_iff, ne_eq, isIpv6Extension_iff]
      rintro (rfl | rfl | rfl) <;> simp [ipv6ExtensionsIds] at hupper
    simp [hopExtensions, nextId, hnot, encode]
  | cons e exts ih =>
    by_cases hfound : e.kind.Found
    · have hbody := e.length_body
      simp only [encode, length_cons, length_append] at hdata hlen hfuel ⊢
      obtain ⟨fuel, rfl⟩ : ∃ k, fuel = k + 1 := ⟨fuel - 1, by omega⟩
      have hdrop : p.data.drop (8 * (e.len.toNat + 1)) = encode upper exts ++ rest := by
        rw [hdata, show 8 * (e.len.toNat + 1) = e.body.length + 2 by omega]
        simp
      obtain ⟨p', hp', hiff⟩ := ih
        (p := { p with
          data := p.data.drop (8 * (e.len.toNat + 1))
          parsed := p.parsed + 8 * (e.len.toNat + 1) }) hdrop (by dsimp only; omega) fuel
        (by omega)
      refine ⟨p', ?_, ?_⟩
      · rw [nextId, hopExtensions, if_pos ((isIpv6Extension_id _).mpr hfound)]
        have hnext : p.data[0]? = some (nextId upper exts) := by simp [hdata]
        have hext : p.data[1]? = some e.len := by simp [hdata]
        simp only [hnext, hext, bind_eq_bind, bind_some]
        rw [if_neg (by omega)]
        exact hp'
      · rw [forall_mem_cons, ← hiff]
        simp only [hfound, true_and]
        rw [show p.parsed + 8 * (e.len.toNat + 1) + (encode upper exts).length =
          p.parsed + (e.body.length + (encode upper exts).length + 1 + 1) by omega]
    · -- The header is taken for the upper layer.
      have hnot : isIpv6Extension e.kind.id = false :=
        Bool.eq_false_iff.mpr fun h => hfound ((isIpv6Extension_id _).mp h)
      have hne : e.kind.id ≠ upper := by
        rintro rfl
        revert hupper
        cases e.kind <;> decide
      refine ⟨{ p with ipProtocol := e.kind.id }, by simp [hopExtensions, nextId, hnot], ?_⟩
      simp [hne, hfound]

theorem length_le_encode (upper : UInt8) (exts : List Ext) :
    exts.length ≤ (encode upper exts).length := by
  induction exts with
  | nil => exact Nat.le_refl _
  | cons e exts ih =>
    simp only [encode, length_cons, length_append]
    omega

/-- The parser gets to the upper layer exactly when there is no routing and no fragment
header. -/
theorem skipped_iff (k : Packet) (ipVersion : Nat) (ipProtocol : UInt8) :
    k.Skipped ipVersion ipProtocol ↔
      ∀ e ∈ k.exts, e.kind = .hopByHop ∨ e.kind = .destination := by
  have hlt := k.length_lt
  have hcapture := k.capture_lt
  have hversion := k.length_version
  have haddresses := k.length_addresses
  have hfuel := length_le_encode k.upper k.exts
  simp only [length_append] at hlt hcapture
  set n := (encode k.upper k.exts).length with hn
  have hlen : k.bytes.length = 40 + (n + k.payload.length) + k.padding.length := by
    simp only [Packet.bytes, length_append, length_cons, length_nil]
    omega
  have hdrop : k.bytes.drop 40 = encode k.upper k.exts ++ (k.payload ++ k.padding) := by
    simp [Packet.bytes, hversion, drop_append, haddresses]
  obtain ⟨p, hp, hiff⟩ := hopExtensions_spec k.upper_notMem k.exts
    (p := ⟨0x86dd, k.parsed + 40 + (n + k.payload.length), k.parsed + 40, 6, ipProtocol,
      k.bytes.drop 40⟩) hdrop (by dsimp only; omega)
    (show k.exts.length < k.parsed + 40 + (n + k.payload.length) + 1 by omega)
  have hparse : parseIpv6 (k.parser ipVersion ipProtocol) = some (some p) := by
    have hhi : k.bytes[4]? = some (.ofNat ((n + k.payload.length) / 256)) := by
      simp [Packet.bytes, hversion, hn]
    have hlo : k.bytes[5]? = some (.ofNat ((n + k.payload.length) % 256)) := by
      simp [Packet.bytes, getElem?_append, hversion, hn]
    have hnext : k.bytes[6]? = some (nextId k.upper k.exts) := by
      simp [Packet.bytes, getElem?_append, hversion]
    have hdiff : (k.parsed + k.bytes.length + 2 ^ 64 - k.parsed) % 2 ^ 64 = k.bytes.length := by
      omega
    rw [parseIpv6, Packet.parser]
    simp only [hdiff, hhi, hlo, bind_eq_bind, bind_some, UInt8.toNat_ofNat']
    rw [if_neg (by omega), Nat.mod_eq_of_lt (by omega), Nat.mod_eq_of_lt (by omega),
      Nat.div_add_mod', if_neg (by omega)]
    simpa [getIpv6Payload, hnext] using hp
  rw [Packet.Skipped, hparse]
  simpa [ExtKind.Found] using hiff

/-- A packet with a routing header, and nothing of the TCP header that should follow. -/
def routed : Packet where
  parsed := 14
  version := [0x60, 0, 0, 0]
  addresses := .replicate 33 0
  exts := [⟨.routing, 0, .replicate 6 0, by decide, by decide⟩]
  upper := 6
  payload := []
  padding := []
  length_version := by decide
  length_addresses := by decide
  upper_notMem := by decide
  length_lt := by decide
  capture_lt := by decide

/-- The routing header is taken for the upper layer. -/
theorem not_skipped_routed : ¬routed.Skipped 0 0 := by
  rintro ⟨p, hp, hprotocol, -⟩
  have hparse : (parseIpv6 (routed.parser 0 0)).map (·.map Parser.ipProtocol) =
      some (some 43) := by decide
  rw [hp, map_some, map_some, hprotocol] at hparse
  exact absurd hparse (by decide)

end OpenSync.Ustack
