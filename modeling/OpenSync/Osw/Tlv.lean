import OpenSync.Lib.Bytes

/-!
# TLV buffers of `osw_tlv.c`

A buffer is a sequence of attributes.  An attribute has a header of four 32-bit words
(identifier, type, length of the data, flags) and its data, and the next one starts at
a multiple of four bytes.  The data of a nested attribute are again such a sequence.

A header is named by its offset, so that a pointer stays what it is when the buffer is
extended in place.  Whether `REALLOC` has moved the buffer is part of the result of `put`.

Bytes behind the used part are zero, as `osw_tlv_grow` clears what it adds.  `osw_tlv_ok`
may look at a header behind the end of the data; a zero there changes nothing, because a
header needs 16 bytes.
-/

namespace OpenSync.Osw.Tlv

open OpenSync.Lib

/-! ## Attributes -/

/-- `enum osw_tlv_type`. -/
inductive TlvType where
  | unspec
  | u32
  | float
  | string
  | nested
  | hwaddr
deriving DecidableEq

def TlvType.code : TlvType → Nat
  | .unspec => 0
  | .u32 => 1
  | .float => 2
  | .string => 3
  | .nested => 4
  | .hwaddr => 5

/-- `OSW_TLV_ALIGN`. -/
def align (x : Nat) : Nat := (x + 3) / 4 * 4

/-- `OSW_TLV_TAILROOM`. -/
def tailroom : Nat := 4096

/-- `osw_tlv_hdr_len`. -/
def hdrLen : Nat := 16

section

variable (b : List UInt8) (o : Nat)

/-- The 32-bit word at an offset. -/
def u32At : Nat := ofLe32 (seg b o 4)

def idAt : Nat := u32At b o

def typeAt : Nat := u32At b (o + 4)

def lenAt : Nat := u32At b (o + 8)

def flagsAt : Nat := u32At b (o + 12)

/-- The data of the attribute at an offset (`osw_tlv_get_data`). -/
def dataAt : List UInt8 := seg b (o + hdrLen) (lenAt b o)

/-- An attribute, with its data. -/
structure Attr where
  id : Nat
  type : Nat
  flags : Nat
  data : List UInt8

def attrAt : Attr :=
  ⟨idAt b o, typeAt b o, flagsAt b o, dataAt b o⟩

/-! ## Iteration and parsing -/

/-- `osw_tlv_len`. -/
def tlvLen : Nat := hdrLen + lenAt b o

end

/-- `osw_tlv_ok` of a header that is not `NULL`. -/
def tlvOk (b : List UInt8) (o remaining : Nat) : Bool := tlvLen b o ≤ remaining

/-- `osw_tlv_next`: the next header and the bytes that remain from it on. -/
def tlvNext (b : List UInt8) (o remaining : Nat) : Option (Nat × Nat) :=
  let offset := tlvLen b o
  let padding := align offset - offset
  if offset > remaining then none
  else if padding > remaining - offset then none
  else some (o + offset + padding, remaining - offset - padding)

/-- `struct osw_tlv_policy`, with or without a `nested` policy. -/
inductive TPolicy where
  | flat (type : TlvType) (minLen maxLen tbSize : Nat)
  | nest (type : TlvType) (minLen maxLen tbSize : Nat) (nested : Nat → TPolicy)

namespace TPolicy

def type : TPolicy → TlvType
  | .flat t _ _ _ => t
  | .nest t _ _ _ _ => t

def minLen : TPolicy → Nat
  | .flat _ m _ _ => m
  | .nest _ m _ _ _ => m

def maxLen : TPolicy → Nat
  | .flat _ _ m _ => m
  | .nest _ _ m _ _ => m

def tbSize : TPolicy → Nat
  | .flat _ _ _ n => n
  | .nest _ _ _ n _ => n

def nested : TPolicy → Option (Nat → TPolicy)
  | .flat _ _ _ _ => none
  | .nest _ _ _ _ ps => some ps

end TPolicy

/-- `osw_tlv_policy_ok` of a header with this identifier, type and length. -/
def policyOk (policy : Option (Nat → TPolicy)) (id type len : Nat) : Bool :=
  match policy with
  | none => true
  | some ps =>
    if type ≠ (ps id).type.code then false
    else
      match (ps id).type with
      | .hwaddr => len == 6
      | .u32 => len == 4
      | .float => len == 4
      | .string => len ≥ (ps id).minLen && ((ps id).maxLen == 0 || (ps id).maxLen ≥ len)
      | .unspec => len ≥ (ps id).minLen && ((ps id).maxLen == 0 || (ps id).maxLen ≥ len)
      | .nested => true

/-- The array `tb` of `osw_tlv_parse`: header offsets by their identifiers. -/
abbrev Table := Nat → Option Nat

/-- The loop of `osw_tlv_parse`. -/
def parseFrom (b : List UInt8) (policy : Option (Nat → TPolicy)) (size : Nat) :
    Nat → Nat → Nat → Table → Table
  | 0, _, _, tb => tb
  | fuel + 1, o, remaining, tb =>
    if !tlvOk b o remaining then tb
    else
      let tb :=
        if idAt b o ≥ size then tb
        else if !policyOk policy (idAt b o) (typeAt b o) (lenAt b o) then tb
        else fun i => if i = idAt b o then some o else tb i
      match tlvNext b o remaining with
      | none => tb
      | some (o, remaining) => parseFrom b policy size fuel o remaining tb

/-- `osw_tlv_parse` into an empty table.  An attribute has at least 16 bytes, which bounds
the number of steps. -/
def parse (b : List UInt8) (policy : Option (Nat → TPolicy)) (size : Nat) : Table :=
  parseFrom b policy size (b.length + 1) 0 b.length (fun _ => none)

/-! ## Building -/

/-- `struct osw_tlv`; the used bytes, and the size of the memory. -/
structure Buf where
  bytes : List UInt8
  size : Nat

/-- A zero-initialised `struct osw_tlv`. -/
def Buf.empty : Buf := ⟨[], 0⟩

/-- `osw_tlv_grow`: the new size, and whether memory that existed has moved. -/
def grow (t : Buf) (needed : Nat) : Nat × Bool :=
  if needed ≤ t.size - align t.bytes.length then (t.size, false)
  else (t.size + align (needed + tailroom), t.size ≠ 0)

/-- The header words of an attribute that `osw_tlv_put` writes. -/
def header (id type len : Nat) : List UInt8 := le32 id ++ le32 type ++ le32 len ++ le32 0

/-- `osw_tlv_put` with the data that the caller copies in: the buffer, the offset of the header, and
whether it has moved. -/
def put (t : Buf) (id type : Nat) (data : List UInt8) : Buf × Nat × Bool :=
  let aused := align t.bytes.length
  let r := grow t (hdrLen + data.length)
  (⟨t.bytes ++ List.replicate (aused - t.bytes.length) 0 ++ header id type data.length ++ data,
    r.1⟩, aused, r.2)

end OpenSync.Osw.Tlv
