import OpenSync.Osw.Ies

/-!
# Parsing of an association request

`osw_parse_assoc_req_ies` of `osw_util.c` goes over the elements of an association request and
fills in `struct osw_assoc_req_info`.  It remembers where the HE and EHT capabilities are, copies
a multi-link element with its fragments into a buffer, and parses these after the loop.  A
multi-link element has per-station profiles, sequences of elements that the function is called for.

A function returns `none` where the code reads outside of the buffer, or computes an unsigned
length below zero.  The band of an operating class is a parameter.
-/

namespace OpenSync.Osw.AssocReq

open OpenSync.Lib Option

/-- `enum osw_channel_width`. -/
inductive ChannelWidth where
  | w20
  | w40
  | w80
  | w160
  | w80p80
  | w320
deriving DecidableEq

/-- The place of a width in the enumeration. -/
def ChannelWidth.rank : ChannelWidth → Nat
  | .w20 => 0
  | .w40 => 1
  | .w80 => 2
  | .w160 => 3
  | .w80p80 => 4
  | .w320 => 5

/-- `MAX` of two widths. -/
def ChannelWidth.max (a b : ChannelWidth) : ChannelWidth := if b.rank < a.rank then a else b

/-- `enum osw_sta_cell_cap`. -/
inductive CellCap where
  | unknown
  | available
  | notAvailable
deriving DecidableEq

/-- `enum osw_band`. -/
inductive Band where
  | undefined
  | ghz2
  | ghz5
  | ghz6
deriving DecidableEq

/-- `struct osw_assoc_req_info`. -/
structure Info where
  wnmBssTrans : Bool := false
  rrmNeighborLinkMeas : Bool := false
  rrmNeighborBcnPasMeas : Bool := false
  rrmNeighborBcnActMeas : Bool := false
  rrmNeighborBcnTabMeas : Bool := false
  rrmNeighborLciMeas : Bool := false
  rrmNeighborFtmRangeRep : Bool := false
  opClassList : List UInt8 := []
  opClassParseErrors : Nat := 0
  channelList : List UInt8 := []
  minTxPower : Int8 := 0
  maxTxPower : Int8 := 0
  htCapsPresent : Bool := false
  htCaps40 : Bool := false
  htCapsSmps : UInt8 := 0
  htCapsRxMcs : List UInt8 := List.replicate 10 0
  vhtCapsPresent : Bool := false
  vhtCapsSupChanWSet : Nat := 0
  vhtCapsMuBeamformee : Bool := false
  vhtCapsRxMcsMap : Nat := 0
  heCapsPresent : Bool := false
  heCaps2ghz40 : Bool := false
  heCaps4080 : Bool := false
  heCaps160 : Bool := false
  heCaps1608080 : Bool := false
  heCapsRxMcsMapLe80 : Nat := 0
  heCapsRxMcsMap160Present : Bool := false
  heCapsRxMcsMap160 : Nat := 0
  heCapsRxMcsMap8080Present : Bool := false
  heCapsRxMcsMap8080 : Nat := 0
  ehtOpChwidthPresent : Bool := false
  ehtCapMcs : Nat := 0
  ehtCapNss : Nat := 0
  ehtCapChwidth : ChannelWidth := .w20
  ehtOpChwidth : ChannelWidth := .w20
  perStaProfiles : UInt8 := 0
  mboCapable : Bool := false
  mboCellCapability : CellCap := .unknown
deriving DecidableEq

/-- Whether a bit of a byte is set. -/
def bit (b : UInt8) (k : Nat) : Bool := b.toNat.testBit k

/-- Two bytes, the first one low. -/
def le16 (lo hi : UInt8) : Nat := hi.toNat <<< 8 ||| lo.toNat

/-! ## Elements with a fixed layout -/

section

variable (r : List UInt8) (e : Elem) (info : Info)

def parseExtendedCaps : Option Info :=
  (rd r (e.off + 2)).bind fun b2 => some { info with wnmBssTrans := bit b2 3 }

def parseRmEnabledCaps : Option Info :=
  (rd r e.off).bind fun b0 => (rd r (e.off + 1)).bind fun b1 => (rd r (e.off + 4)).bind fun b4 =>
    some { info with
      rrmNeighborLinkMeas := bit b0 0
      rrmNeighborBcnPasMeas := bit b0 4
      rrmNeighborBcnActMeas := bit b0 5
      rrmNeighborBcnTabMeas := bit b0 6
      rrmNeighborLciMeas := bit b1 4
      rrmNeighborFtmRangeRep := bit b4 2 }

/-- `osw_parse_supported_op_classes`.  There are at most 255 classes without 0 and duplicates, so
the list never reaches its size of 256. -/
def parseSupportedOpClasses : Option Info :=
  (rdN r e.off e.len).bind fun data =>
    some { info with
      opClassParseErrors :=
        if (data.drop 1).any (fun b => b = 0 ∨ b = 130) then info.opClassParseErrors + 1
        else info.opClassParseErrors
      opClassList :=
        data.foldl (fun classes b => if b = 0 ∨ b ∈ classes then classes else classes ++ [b]) [] }

/-- The loop over pairs of a first channel and a count; the list has room for 512 channels. -/
def addChannels : List UInt8 → List UInt8 → List UInt8
  | start :: count :: rest, channels =>
    let n := min count.toNat (512 - channels.length)
    let added := (List.range n).map fun j =>
      start + UInt8.ofNat (j * if start < 36 then 1 else 4)
    if n < count.toNat then channels ++ added else addChannels rest (channels ++ added)
  | _, channels => channels

/-- `osw_parse_supported_channels`. -/
def parseSupportedChannels : Option Info :=
  (rdN r e.off e.len).bind fun data => some { info with channelList := addChannels data [] }

def parsePowerCap : Option Info :=
  (rd r e.off).bind fun b0 => (rd r (e.off + 1)).bind fun b1 =>
    some { info with minTxPower := b0.toInt8, maxTxPower := b1.toInt8 }

/-- `osw_parse_ht_caps`. -/
def parseHtCaps : Option Info :=
  (rd r e.off).bind fun b0 => (rdN r (e.off + 3) 10).bind fun mcs =>
    some { info with
      htCapsPresent := true
      htCaps40 := bit b0 1
      htCapsSmps := (b0 &&& 0x0c) >>> 2
      htCapsRxMcs := mcs }

/-- `osw_parse_vht_caps`. -/
def parseVhtCaps : Option Info :=
  (rdN r e.off 6).bind fun b =>
    some { info with
      vhtCapsPresent := true
      vhtCapsSupChanWSet := (ofLe32 (b.take 4) &&& 0x0c) >>> 2
      vhtCapsMuBeamformee := (ofLe32 (b.take 4)).testBit 20
      vhtCapsRxMcsMap := le16 (b.getD 4 0) (b.getD 5 0) }

/-- Two bytes of the element. -/
def mcsMap (k : Nat) : Option Nat :=
  (rd r (e.off + k)).bind fun lo => (rd r (e.off + k + 1)).bind fun hi => some (le16 lo hi)

/-- The first part of `osw_parse_he_caps`, with the byte of the PHY capabilities. -/
def setHePhy (info : Info) (phy : UInt8) (le80 : Nat) : Info :=
  { info with
    heCapsPresent := true
    heCaps2ghz40 := bit phy 1
    heCaps4080 := bit phy 2
    heCaps160 := bit phy 3
    heCaps1608080 := bit phy 4
    heCapsRxMcsMapLe80 := le80 }

def setMcs160 (info : Info) (map : Nat) : Info :=
  { info with heCapsRxMcsMap160Present := true, heCapsRxMcsMap160 := map }

def setMcs8080 (info : Info) (map : Nat) : Info :=
  { info with heCapsRxMcsMap8080Present := true, heCapsRxMcsMap8080 := map }

/-- `osw_parse_he_caps` for an element with the HE capabilities. -/
def parseHeCaps : Option Info :=
  (rd r (e.off + 7)).bind fun phy =>
    (mcsMap r e 18).bind fun le80 =>
      if bit phy 3 then
        (mcsMap r e 22).bind fun m160 =>
          if bit phy 4 then
            (mcsMap r e 26).bind fun m8080 =>
              some (setMcs8080 (setMcs160 (setHePhy info phy le80) m160) m8080)
          else some (setMcs160 (setHePhy info phy le80) m160)
      else if bit phy 4 then
        (mcsMap r e 22).bind fun m8080 => some (setMcs8080 (setHePhy info phy le80) m8080)
      else some (setHePhy info phy le80)

/-! ## The vendor element -/

/-- An attribute of `osw_parse_wfa_ie_mbo`. -/
def parseMboAttr (info : Info) (a : Elem) : Option Info :=
  if a.id = 3 then
    (rd r a.off).bind fun v =>
      some { info with mboCellCapability :=
        if v = 1 then .available else if v = 2 then .notAvailable else .unknown }
  else some info

/-- `osw_parse_wfa_ie_mbo` on the part of the buffer from `off` on. -/
def parseWfaIeMbo (off len : Nat) : Option Info :=
  if len < 2 then some info
  else forEachIe r (off + len) (parseMboAttr r) off { info with mboCapable := true }

/-- `osw_parse_vendor_specific_ie`.  The length without the OUI wraps for an element that is
shorter than an OUI. -/
def parseVendorSpecificIe : Option Info :=
  if e.len < 3 then none
  else
    (rdN r e.off 3).bind fun oui =>
      if e.len - 3 ≤ 2 then some info
      else
        (rd r (e.off + 3)).bind fun type =>
          if oui = [0x50, 0x6f, 0x9a] ∧ type = 0x16 then
            parseWfaIeMbo r info (e.off + 4) (e.len - 4)
          else some info

end

/-! ## The loop over the elements -/

/-- The variables of `osw_parse_assoc_req_ies`.  A pointer into the buffer is an offset, beside its
length. -/
structure Vars where
  info : Info := {}
  heCap : Option (Nat × Nat) := none
  ehtOp : Option (Nat × Nat) := none
  ehtCap : Option (Nat × Nat) := none
  /-- The copy of the multi-link element. -/
  mle : Option (List UInt8) := none
  /-- A fragment that comes now belongs to the multi-link element. -/
  frag : Bool := false

section

variable (r : List UInt8) (v : Vars) (e : Elem)

/-- The first part of the loop body: a fragment is added to the multi-link element. -/
def takeFragment : Option Vars :=
  if v.frag ∧ e.id = 0xf2 then
    (rdN r e.off e.len).bind fun data =>
      some { v with mle := v.mle.map (· ++ data), frag := decide (255 ≤ e.len) }
  else some { v with frag := false }

/-- An extended element, once its identifier has been read. -/
def parseExt (extId : UInt8) : Option Vars :=
  if extId = 0x23 then
    (parseHeCaps r e v.info).bind fun info =>
      some { v with info := info, heCap := some (e.off + 1, e.len - 1) }
  else if extId = 106 then some { v with ehtOp := some (e.off + 1, e.len - 1) }
  else if extId = 108 then some { v with ehtCap := some (e.off + 1, e.len - 1) }
  else if extId = 107 then
    (rdN r (e.off + 1) (e.len - 1)).bind fun data =>
      some { v with mle := some data, frag := decide (e.len - 1 = 254) }
  else some v

/-- The `switch` of the loop body. -/
def parseElem : Option Vars :=
  if e.id = 0x7f then (parseExtendedCaps r e v.info).map fun info => { v with info := info }
  else if e.id = 0x46 then (parseRmEnabledCaps r e v.info).map fun info => { v with info := info }
  else if e.id = 0x3b then
    (parseSupportedOpClasses r e v.info).map fun info => { v with info := info }
  else if e.id = 0x24 then
    (parseSupportedChannels r e v.info).map fun info => { v with info := info }
  else if e.id = 0x21 then (parsePowerCap r e v.info).map fun info => { v with info := info }
  else if e.id = 0x2d then (parseHtCaps r e v.info).map fun info => { v with info := info }
  else if e.id = 0xbf then (parseVhtCaps r e v.info).map fun info => { v with info := info }
  else if e.id = 0xdd then
    (parseVendorSpecificIe r e v.info).map fun info => { v with info := info }
  else if e.id = 0xff then
    if e.len < 1 then some v
    else (rd r e.off).bind fun extId => parseExt r v e extId
  else some v

def loopBody : Option Vars :=
  (takeFragment r v e).bind fun v => parseElem r v e

end

/-! ## EHT -/

/-- `osw_assoc_req_is_2ghz`. -/
def is2ghz (opClassToBand : UInt8 → Band) (info : Info) : Bool :=
  let band := match info.opClassList with
    | [] => Band.undefined
    | opClass :: _ => opClassToBand opClass
  band = .ghz2 ∨
    (band = .undefined ∧ info.htCapsPresent ∧ info.heCapsPresent ∧ !info.vhtCapsPresent)

/-- `mcs_set` and `len` of `osw_parse_eht_cap`. -/
structure McsSet where
  pos : Nat
  len : Nat

/-- A set of `n` bytes, if it is wanted.  The outer `none` is the `return` of the source for a
set that is missing. -/
def McsSet.take (c : McsSet) (want : Bool) (n : Nat) : Option (Option Nat × McsSet) :=
  if want then if c.len < n then none else some (some c.pos, ⟨c.pos + n, c.len - n⟩)
  else some (none, c)

/-- The set for 20 MHz only is skipped if it is missing. -/
def McsSet.take20 (c : McsSet) (want : Bool) : Option Nat × McsSet :=
  if want ∧ 4 ≤ c.len then (some c.pos, ⟨c.pos + 4, c.len - 4⟩) else (none, c)

/-- The bytes of a set that is there. -/
def readMcs (r : List UInt8) (set : Option Nat) (n : Nat) : Option (List UInt8) :=
  match set with
  | none => some []
  | some pos => rdN r pos n

/-- The largest MCS of a set, where each byte stands for one. -/
def maxMcs (levels : List Nat) (set : List UInt8) : Nat :=
  (List.zipWith (fun l (b : UInt8) => if b ≠ 0 then l else 0) levels set).foldl max 0

/-- The largest number of streams in the half bytes of a set. -/
def maxNss (set : List UInt8) : Nat :=
  (set.map fun b => max (b.toNat % 16) (b.toNat / 16)).foldl max 0

/-- The sets of `osw_parse_eht_cap`, from the first byte behind the PHY capabilities on. -/
def ehtSets (c : McsSet) (only20 mcs80 mcs160 mcs320 : Bool) :
    Option (Option Nat × Option Nat × Option Nat × Option Nat) :=
  ((c.take20 only20).2.take mcs80 3).bind fun s80 =>
    (s80.2.take mcs160 3).bind fun s160 =>
      (s160.2.take mcs320 3).bind fun s320 =>
        some ((c.take20 only20).1, s80.1, s160.1, s320.1)

section

variable (r : List UInt8) (info : Info)

/-- The end of `osw_parse_eht_cap`: the bytes of the sets that have been found. -/
def readEhtSets (wide : Bool) (sets : Option Nat × Option Nat × Option Nat × Option Nat)
    : Option Info :=
  (readMcs r sets.1 4).bind fun b20 =>
    (readMcs r sets.2.1 3).bind fun b80 =>
      (readMcs r sets.2.2.1 3).bind fun b160 =>
        (readMcs r sets.2.2.2 3).bind fun b320 =>
          some { info with
            ehtCapMcs := max (maxMcs [7, 9, 11, 13] b20) (max (maxMcs [9, 11, 13] b80)
              (max (maxMcs [9, 11, 13] b160) (maxMcs [9, 11, 13] b320)))
            ehtCapNss := max (maxNss b20) (max (maxNss b80) (max (maxNss b160) (maxNss b320)))
            ehtCapChwidth := if wide then .w320 else .w20 }

/-- `osw_parse_eht_cap`.  `DOT11_AS_LE32` shifts each byte down, so that only the first one is left.
The length of the sets wraps for capabilities that end within the PHY capabilities. -/
def parseEhtCap (is2ghz isNonAp : Bool) (heCap ehtCap : Option (Nat × Nat)) : Option Info :=
  match ehtCap with
  | none => some info
  | some (ehtOff, ehtLen) =>
    if ehtLen < 2 + 4 then some info
    else (rdN r (ehtOff + 2) 4).bind fun phyCap0 =>
      match heCap with
      | none => some info
      | some (heOff, heLen) =>
        if heLen < 7 then some info
        else (rd r (heOff + 6)).bind fun he =>
          if ehtLen < 11 then none
          else
            let wide := bit (phyCap0.getD 0 0) 1
            let only2 := is2ghz && !bit he 1
            let only5 := !(!is2ghz && bit he 2) && !(!is2ghz && bit he 3) && !(!is2ghz && bit he 4)
            let mcs80 := if isNonAp then is2ghz && bit he 1 else true
            let mcs160 := !is2ghz && bit he 3
            match ehtSets ⟨ehtOff + 11, ehtLen - 11⟩ (only2 || only5) mcs80 mcs160 wide with
            | none => some info
            | some sets => readEhtSets r info wide sets

/-- The width of the EHT operation information. -/
def ehtOpWidth (control : UInt8) : ChannelWidth :=
  match (control &&& 7).toNat with
  | 1 => .w40
  | 2 => .w80
  | 3 => .w160
  | 4 => .w320
  | _ => .w20

/-- `osw_parse_eht_op`. -/
def parseEhtOp (ehtOp : Option (Nat × Nat)) : Option Info :=
  match ehtOp with
  | none => some info
  | some (off, len) =>
    if len < 1 then some info
    else (rd r off).bind fun params =>
      if len - 1 < 4 then some info
      else if bit params 0 then
        if len - 5 < 3 then some info
        else (rdN r (off + 5) 3).bind fun control =>
          some { info with
            ehtOpChwidthPresent := true
            ehtOpChwidth := ehtOpWidth (control.getD 0 0) }
      else some info

end

/-! ## Multi-link -/

/-- The body of a per-station profile, behind control and information fields.  The inner `none` is
the `return` for a profile that is too short. -/
def profileBody (mle : List UInt8) (off len : Nat) : Option (Option (Nat × Nat)) :=
  if len < 2 then some none
  else (rdN mle off 2).bind fun _ =>
    if len - 2 < 1 then some none
    else (rd mle (off + 2)).bind fun infoLen =>
      if len - 2 < infoLen.toNat then some none
      else if len - 2 - infoLen.toNat < 2 then some none
      else (rdN mle (off + 2 + infoLen.toNat) 2).bind fun _ =>
        some (some (off + 2 + infoLen.toNat + 2, len - 2 - infoLen.toNat - 2))

/-- What the elements of a profile say about the station. -/
def addPartner (info partner : Info) : Info :=
  { info with
    ehtCapMcs := max info.ehtCapMcs partner.ehtCapMcs
    ehtCapNss := max info.ehtCapNss partner.ehtCapNss
    ehtCapChwidth := info.ehtCapChwidth.max partner.ehtCapChwidth
    perStaProfiles := info.perStaProfiles + 1 }

/-- A profile reaches to the end of its subelement. -/
theorem profileBody_inside {mle : List UInt8} {off len : Nat} {p : Nat × Nat}
    (h : profileBody mle off len = some (some p)) : p.2 < len ∧ p.1 + p.2 = off + len := by
  unfold profileBody at h
  split at h
  · cases h
  obtain ⟨_, _, h⟩ := bind_eq_some_iff.mp h
  split at h
  · cases h
  obtain ⟨infoLen, _, h⟩ := bind_eq_some_iff.mp h
  split at h
  · cases h
  split at h
  · cases h
  obtain ⟨_, _, h⟩ := bind_eq_some_iff.mp h
  simp only [some.injEq] at h
  rw [← h]
  omega

/-- The loop of `osw_parse_mle` over the subelements, with `len` bytes left from `pos` on.  `parse`
is the call for a part of the multi-link element, which is shorter than `bound`. -/
def mleLoop (mle : List UInt8) (bound : Nat)
    (parse : (off len : Nat) → len < bound → Option (Option Info)) (pos len : Nat)
    (hlen : len < bound) (info : Info) : Option Info :=
  if h2 : 2 ≤ len then
    (rd mle pos).bind fun id => (rd mle (pos + 1)).bind fun subLen =>
      if hsub : len - 2 < subLen.toNat then some info
      else if id = 0 then
        match hp : profileBody mle (pos + 2) subLen.toNat with
        | none => none
        | some none => some info
        | some (some p) =>
          (parse p.1 p.2 (by have := (profileBody_inside hp).1; omega)).bind fun partner =>
            mleLoop mle bound parse (pos + 2 + subLen.toNat) (len - 2 - subLen.toNat) (by omega)
              (partner.elim info (addPartner info))
      else
        mleLoop mle bound parse (pos + 2 + subLen.toNat) (len - 2 - subLen.toNat) (by omega) info
  else some info
termination_by len

/-- `osw_parse_mle`. -/
def parseMle (mle : List UInt8) (bound : Nat)
    (parse : (off len : Nat) → len < bound → Option (Option Info)) (hlen : mle.length < bound)
    (info : Info) : Option Info :=
  if mle.length < 2 then some info
  else (rdN mle 0 2).bind fun _ =>
    if mle.length - 2 < 1 then some info
    else (rd mle 2).bind fun commonLen =>
      if mle.length - 2 < commonLen.toNat then some info
      else mleLoop mle bound parse (2 + commonLen.toNat) (mle.length - 2 - commonLen.toNat)
        (by omega) info

/-! ## The whole request -/

/-- The variables after the loop over the elements. -/
def loopVars (r : List UInt8) (off len : Nat) : Option Vars :=
  forEachIe r (off + len) (loopBody r) off {}

theorem rdN_length {r data : List UInt8} {i n : Nat} (h : rdN r i n = some data) :
    data.length = n := by
  rw [rdN] at h
  split_ifs at h with hle
  cases h
  exact length_seg_of_le hle

/-- A step of the loop goes over more bytes than it adds to the multi-link element. -/
theorem loopBody_mle {r : List UInt8} {v v' : Vars} {e : Elem} (h : loopBody r v e = some v') :
    ∀ mle ∈ v'.mle, mle.length ≤ e.len ∨ ∃ old ∈ v.mle, mle.length ≤ old.length + e.len := by
  obtain ⟨v1, h1, h2⟩ := bind_eq_some_iff.mp h
  have frag : ∀ mle ∈ v1.mle, ∃ old ∈ v.mle, mle.length ≤ old.length + e.len := by
    unfold takeFragment at h1
    split_ifs at h1 with hf
    · obtain ⟨data, hdata, h1⟩ := bind_eq_some_iff.mp h1
      cases h1
      intro mle hmle
      obtain ⟨old, hold, rfl⟩ := map_eq_some_iff.mp hmle
      exact ⟨old, hold, by simp [rdN_length hdata]⟩
    · cases h1
      exact fun mle hmle => ⟨mle, hmle, Nat.le_add_right _ _⟩
  have keep : v'.mle = v1.mle → ∀ mle ∈ v'.mle,
      mle.length ≤ e.len ∨ ∃ old ∈ v.mle, mle.length ≤ old.length + e.len := by
    intro same mle hmle
    rw [same] at hmle
    exact .inr (frag mle hmle)
  have mapped : ∀ o : Option Info, (o.map fun info => { v1 with info := info }) = some v' →
      v'.mle = v1.mle := by
    intro o ho
    obtain ⟨info, -, rfl⟩ := map_eq_some_iff.mp ho
    rfl
  unfold parseElem at h2
  split_ifs at h2 with _ _ _ _ _ _ _ _ hext hshort
  all_goals first
    | exact keep (mapped _ h2)
    | (cases h2; exact keep rfl)
    | skip
  obtain ⟨extId, -, h2⟩ := bind_eq_some_iff.mp h2
  unfold parseExt at h2
  split_ifs at h2
  · obtain ⟨info, -, h2⟩ := bind_eq_some_iff.mp h2
    cases h2
    exact keep rfl
  · cases h2
    exact keep rfl
  · cases h2
    exact keep rfl
  · obtain ⟨data, hdata, h2⟩ := bind_eq_some_iff.mp h2
    cases h2
    rintro mle ⟨⟩
    have := rdN_length hdata
    exact .inl (by omega)
  · cases h2
    exact keep rfl

theorem loopVars_mle_lt {r : List UInt8} {off len : Nat} {v : Vars}
    (h : loopVars r off len = some v) : ∀ mle ∈ v.mle, mle.length < len := by
  have inv := forEachIe_inv
    (I := fun pos (v : Vars) => off ≤ pos ∧ ∀ mle ∈ v.mle, off + mle.length + 2 ≤ pos)
    ?_ (Nat.le_add_right off len) ⟨Nat.le_refl _, by simp⟩ h
  · obtain ⟨pos, hpos, -, hv⟩ := inv
    intro mle hmle
    have := hv mle hmle
    omega
  · rintro pos v e v' ⟨hpos, hv⟩ _ - hbody
    refine ⟨by omega, fun mle hmle => ?_⟩
    rcases loopBody_mle hbody mle hmle with hle | ⟨old, hold, hle⟩
    · omega
    · have := hv old hold
      omega

/-- `osw_parse_assoc_req_ies` on the part of a buffer from `off` on.  The inner `none` is the
answer `false`. -/
def parseAssocReqIes (opClassToBand : UInt8 → Band) (r : List UInt8) (off len : Nat) :
    Option (Option Info) :=
  if len = 0 then some none
  else
    match hv : loopVars r off len with
    | none => none
    | some v =>
      (parseEhtCap r v.info (is2ghz opClassToBand v.info) false v.heCap v.ehtCap).bind fun info =>
        (parseEhtOp r info v.ehtOp).bind fun info =>
          match hm : v.mle with
          | none => some (some info)
          | some mle =>
            (parseMle mle len (fun off' len' _ => parseAssocReqIes opClassToBand mle off' len')
              (loopVars_mle_lt hv mle hm) info).map some
termination_by len

end OpenSync.Osw.AssocReq
