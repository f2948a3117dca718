import OpenSync.Osw.Tlv

/-!
# Writing and reading TLV buffers

A buffer is written with `osw_tlv_put`, `osw_tlv_put_nested` and `osw_tlv_end_nested`.  An
attribute is padded when the next one is put behind it, and the length of a nested attribute is
filled in at its end.  The reader, `osw_tlv_for_each`, finds the padding from the lengths.

`Seq` is what a properly bracketed sequence of calls puts, and `encodeFrom` the bytes it leaves.
They do not depend on where a nested sequence stands (`encodeFrom_append`).
-/

namespace OpenSync.Osw.Tlv

open OpenSync.Lib List Option

/-! ## The writer -/

/-- The attributes that a sequence of calls puts. -/
inductive Seq where
  | nil
  | put (id : UInt32) (type : TlvType) (data : List UInt8) (rest : Seq)
  | nested (id : UInt32) (inner rest : Seq)

/-- A call; the data of `osw_tlv_put` are those that the caller writes behind the header. -/
inductive Op where
  | put (id : UInt32) (type : TlvType) (data : List UInt8)
  | putNested (id : UInt32)
  | endNested

/-- The calls that put a sequence. -/
def Seq.ops : Seq → List Op
  | .nil => []
  | .put id type data rest => .put id type data :: rest.ops
  | .nested id inner rest => .putNested id :: (inner.ops ++ .endNested :: rest.ops)

/-- A buffer, and the offsets from `osw_tlv_put_nested` not yet given to `osw_tlv_end_nested`. -/
structure Writer where
  buf : Buf
  opened : List Nat

/-- An empty buffer. -/
def Writer.start : Writer := ⟨.empty, []⟩

/-- The assignment of a length to the header before the data at `off`. -/
def setLen (b : List UInt8) (off len : Nat) : List UInt8 :=
  b.take (off - 8) ++ le32 len ++ b.drop (off - 4)

def Writer.step (w : Writer) : Op → Option Writer
  | .put id type data => some { w with buf := (Tlv.put w.buf id.toNat type.code data).1 }
  | .putNested id =>
    let r := Tlv.put w.buf id.toNat TlvType.nested.code []
    some ⟨r.1, (r.2.1 + hdrLen) :: w.opened⟩
  | .endNested =>
    match w.opened with
    | [] => none
    | off :: opened =>
      some ⟨{ w.buf with bytes := setLen w.buf.bytes off (w.buf.bytes.length - off) }, opened⟩

def Writer.run (w : Writer) (ops : List Op) : Option Writer := ops.foldlM Writer.step w

theorem Writer.run_cons (w : Writer) (op : Op) (ops : List Op) :
    w.run (op :: ops) = (w.step op).bind fun w => w.run ops :=
  foldlM_cons

theorem Writer.run_append (w : Writer) (ops ops' : List Op) :
    w.run (ops ++ ops') = (w.run ops).bind fun w => w.run ops' :=
  foldlM_append

/-! ## Space -/

theorem le_align (x : Nat) : x ≤ align x := by
  unfold align
  omega

theorem align_mod (x : Nat) : align x % 4 = 0 := by
  unfold align
  omega

theorem align_le {x n : Nat} (h : x ≤ n) (hn : n % 4 = 0) : align x ≤ n := by
  unfold align
  omega

/-- The used bytes are inside the memory, and its size is a multiple of four. -/
structure Buf.Inv (t : Buf) : Prop where
  used : t.bytes.length ≤ t.size
  aligned : t.size % 4 = 0

/-- The room behind the used bytes, as `osw_tlv_grow` computes it, is not below zero. -/
theorem Buf.Inv.align_le {t : Buf} (h : t.Inv) : align t.bytes.length ≤ t.size :=
  Tlv.align_le h.used h.aligned

theorem length_put (t : Buf) (id type : Nat) (data : List UInt8) :
    (put t id type data).1.bytes.length = align t.bytes.length + hdrLen + data.length := by
  have := le_align t.bytes.length
  simp [put, header, hdrLen]
  omega

theorem put_inv {t : Buf} (h : t.Inv) (id type : Nat) (data : List UInt8) :
    (put t id type data).1.Inv := by
  have hroom := h.align_le
  have haligned := h.aligned
  have hgrown := align_mod (hdrLen + data.length + tailroom)
  have hgrow := le_align (hdrLen + data.length + tailroom)
  have hsize : (put t id type data).1.size = (grow t (hdrLen + data.length)).1 := rfl
  refine ⟨?_, ?_⟩
  · rw [length_put, hsize, grow]
    split <;> simp only <;> omega
  · rw [hsize, grow]
    split <;> simp only <;> omega

variable {b : List UInt8} {o remaining : Nat}

theorem length_setLen {off : Nat} (h : off ≤ b.length) (h8 : 8 ≤ off) (n : Nat) :
    (setLen b off n).length = b.length := by
  simp [setLen]
  omega

/-- The offsets of open attributes lie behind a header. -/
structure Writer.Inv (w : Writer) : Prop where
  buf : w.buf.Inv
  opened : ∀ off ∈ w.opened, hdrLen ≤ off ∧ off ≤ w.buf.bytes.length

variable {w' : Writer} {p data : List UInt8} {policy : Option (Nat → TPolicy)}

theorem Writer.step_inv {w : Writer} {op : Op} (h : w.Inv) (hs : w.step op = some w') : w'.Inv := by
  cases op with
  | put id type data =>
    cases hs
    refine ⟨put_inv h.buf .., fun off hoff => ?_⟩
    have hle := h.opened off hoff
    have := le_align w.buf.bytes.length
    simp only [length_put]
    omega
  | putNested id =>
    cases hs
    refine ⟨put_inv h.buf .., fun off hoff => ?_⟩
    have := le_align w.buf.bytes.length
    simp only [length_put]
    rcases mem_cons.mp hoff with rfl | hoff
    · simp only [put]
      omega
    · have hle := h.opened off hoff
      omega
  | endNested =>
    rw [Writer.step] at hs
    split at hs
    · cases hs
    next off opened hopened =>
    cases hs
    have hopen := h.opened
    rw [hopened, forall_mem_cons] at hopen
    have hlen := length_setLen hopen.1.2 (Nat.le_trans (by decide) hopen.1.1)
      (w.buf.bytes.length - off)
    refine ⟨⟨?_, h.buf.aligned⟩, fun off' hoff' => ?_⟩
    · simp only [hlen]
      exact h.buf.used
    · simp only [hlen]
      exact hopen.2 off' hoff'

theorem Writer.run_inv {w : Writer} {ops : List Op} (h : w.Inv) (hr : w.run ops = some w') :
    w'.Inv := by
  induction ops generalizing w with
  | nil =>
    cases hr
    exact h
  | cons op ops ih =>
    obtain ⟨w1, hstep, hr⟩ := bind_eq_some_iff.mp hr
    exact ih (Writer.step_inv h hstep) hr

/-! ## The bytes of a sequence -/

/-- The padding behind some bytes. -/
def pad (b : List UInt8) : List UInt8 := List.replicate (align b.length - b.length) 0

def attr (id type : Nat) (data : List UInt8) : List UInt8 := header id type data.length ++ data

/-- The bytes after a sequence has been put behind `b`. -/
def encodeFrom : Seq → List UInt8 → List UInt8
  | .nil, b => b
  | .put id type data rest, b => encodeFrom rest (b ++ pad b ++ attr id.toNat type.code data)
  | .nested id inner rest, b =>
    encodeFrom rest (b ++ pad b ++ attr id.toNat TlvType.nested.code (encodeFrom inner []))

def encode (s : Seq) : List UInt8 := encodeFrom s []

theorem put_bytes (t : Buf) (id type : Nat) (data : List UInt8) :
    (put t id type data).1.bytes = t.bytes ++ pad t.bytes ++ attr id type data := by
  simp [put, pad, attr]

theorem length_append_pad (b : List UInt8) : (b ++ pad b).length = align b.length := by
  have := le_align b.length
  simp [pad]
  omega

theorem length_attr (id type : Nat) (data : List UInt8) :
    (attr id type data).length = 16 + data.length := by
  rw [attr, length_append]
  rfl

theorem pad_append (hp : p.length % 4 = 0) (q : List UInt8) : pad (p ++ q) = pad q := by
  unfold pad align
  rw [length_append]
  congr 1
  omega

/-- What is put behind an aligned prefix does not depend on it. -/
theorem encodeFrom_append (hp : p.length % 4 = 0) (s : Seq) (q : List UInt8) :
    encodeFrom s (p ++ q) = p ++ encodeFrom s q := by
  induction s generalizing q with
  | nil => rfl
  | put id type data rest ih | nested id inner rest _ ih =>
    rw [encodeFrom, encodeFrom, ← ih, pad_append hp]
    simp

/-- A sequence that is not empty starts behind the padding. -/
theorem encodeFrom_eq {s : Seq} (hs : s ≠ .nil) (b : List UInt8) :
    encodeFrom s b = b ++ pad b ++ encode s := by
  have hp : (b ++ pad b).length % 4 = 0 := by
    rw [length_append_pad]
    exact align_mod _
  cases s with
  | nil => exact absurd rfl hs
  | put id type data rest | nested id inner rest =>
    exact encodeFrom_append hp rest _

/-- The length of a nested attribute at its end is the number of bytes put since its start. -/
theorem setLen_attr (b : List UInt8) (id type : Nat) (data : List UInt8) :
    setLen (b ++ attr id type [] ++ data) (b.length + hdrLen)
        ((b ++ attr id type [] ++ data).length - (b.length + hdrLen)) =
      b ++ attr id type data := by
  have hlen : (b ++ attr id type [] ++ data).length - (b.length + hdrLen) = data.length := by
    simp only [length_append, length_attr, length_nil, hdrLen]
    omega
  have hsplit : b ++ attr id type [] ++ data =
      (b ++ (le32 id ++ le32 type)) ++ (le32 0 ++ (le32 0 ++ data)) := by
    simp [attr, header]
  have htake : (b ++ attr id type [] ++ data).take (b.length + hdrLen - 8) =
      b ++ (le32 id ++ le32 type) := by
    rw [hsplit, take_left']
    simp [hdrLen]
  have hdrop : (b ++ attr id type [] ++ data).drop (b.length + hdrLen - 4) = le32 0 ++ data := by
    rw [hsplit, ← append_assoc, drop_left']
    simp [hdrLen]
  rw [hlen, setLen, htake, hdrop]
  simp [attr, header]

/-- The calls for a sequence leave its bytes, and no attribute open that was not before. -/
theorem Writer.run_ops (s : Seq) (w : Writer) :
    ∃ size, w.run s.ops = some ⟨⟨encodeFrom s w.buf.bytes, size⟩, w.opened⟩ := by
  induction s generalizing w with
  | nil => exact ⟨w.buf.size, rfl⟩
  | put id type data rest ih =>
    obtain ⟨size, hrest⟩ := ih { w with buf := (Tlv.put w.buf id.toNat type.code data).1 }
    refine ⟨size, ?_⟩
    rw [encodeFrom, ← put_bytes]
    exact hrest
  | nested id inner rest ihInner ih =>
    let r := Tlv.put w.buf id.toNat TlvType.nested.code []
    obtain ⟨size, hinner⟩ := ihInner ⟨r.1, (r.2.1 + hdrLen) :: w.opened⟩
    have hbytes : r.1.bytes = w.buf.bytes ++ pad w.buf.bytes ++
        attr id.toNat TlvType.nested.code [] := put_bytes ..
    have hoff : r.2.1 = (w.buf.bytes ++ pad w.buf.bytes).length := (length_append_pad _).symm
    have haligned : r.1.bytes.length % 4 = 0 := by
      have := align_mod w.buf.bytes.length
      rw [hbytes, length_append, length_append_pad, length_attr, length_nil]
      omega
    have hdata : encodeFrom inner r.1.bytes = r.1.bytes ++ encode inner := by
      have := encodeFrom_append haligned inner []
      rwa [append_nil] at this
    rw [hbytes] at hdata
    have hend := setLen_attr (w.buf.bytes ++ pad w.buf.bytes) id.toNat TlvType.nested.code
      (encode inner)
    obtain ⟨size', hrest⟩ := ih ⟨⟨w.buf.bytes ++ pad w.buf.bytes ++
      attr id.toNat TlvType.nested.code (encode inner), size⟩, w.opened⟩
    refine ⟨size', ?_⟩
    rw [encodeFrom, ← encode, ← hrest]
    change Writer.run ⟨r.1, (r.2.1 + hdrLen) :: w.opened⟩ (inner.ops ++ .endNested :: rest.ops) = _
    rw [Writer.run_append, hinner, bind_some, Writer.run_cons]
    simp only [Writer.step, bind_some, hdata, hbytes, hoff, hend]

/-! ## The reader -/

theorem tlvNext_lt {o' remaining' : Nat} (h : tlvNext b o remaining = some (o', remaining')) :
    remaining' < remaining := by
  unfold tlvNext at h
  simp only at h
  split_ifs at h with h1 h2
  cases h
  have : 16 ≤ tlvLen b o := Nat.le_add_right ..
  omega

/-- The headers that `osw_tlv_for_each` goes over. -/
def forEach (b : List UInt8) (o remaining : Nat) : List Nat :=
  if tlvOk b o remaining then
    o :: match h : tlvNext b o remaining with
      | none => []
      | some (o', remaining') => forEach b o' remaining'
  else []
termination_by remaining
decreasing_by exact tlvNext_lt h

theorem seg_seg {n i k : Nat} (h : i + k ≤ n) : seg (seg b o n) i k = seg b (o + i) k := by
  simp only [seg, drop_take, take_take, drop_drop]
  congr 1
  omega

theorem attrAt_eq {id type : Nat} (hid : id < 2 ^ 32) (htype : type < 2 ^ 32)
    (hlen : data.length < 2 ^ 32) (h : seg b o (16 + data.length) = attr id type data) :
    idAt b o = id ∧ typeAt b o = type ∧ lenAt b o = data.length ∧ flagsAt b o = 0 ∧
      dataAt b o = data := by
  have word : ∀ (pre post : List UInt8) (n : Nat), n < 2 ^ 32 →
      attr id type data = pre ++ (le32 n ++ post) → u32At b (o + pre.length) = n := by
    intro pre post n hn hattr
    have hle : pre.length + 4 ≤ 16 + data.length := by
      rw [← length_attr id type, hattr]
      simp
    have hmid := seg_append_middle pre (le32 n) post
    rw [length_le32] at hmid
    rw [u32At, ← seg_seg hle, h, hattr, hmid, ofLe32_le32_of_lt hn]
  have hl : lenAt b o = data.length :=
    word (le32 id ++ le32 type) (le32 0 ++ data) _ hlen (by simp [attr, header])
  refine ⟨?_, ?_, hl, ?_, ?_⟩
  · exact word [] (le32 type ++ (le32 data.length ++ (le32 0 ++ data))) _ hid
      (by simp [attr, header])
  · exact word (le32 id) (le32 data.length ++ (le32 0 ++ data)) _ htype (by simp [attr, header])
  · exact word (le32 id ++ le32 type ++ le32 data.length) data 0 (by decide)
      (by simp [attr, header])
  · have hmid := seg_append_middle (header id type data.length) data []
    rw [append_nil] at hmid
    rw [dataAt, hl, hdrLen, ← seg_seg le_rfl, h]
    exact hmid

theorem forEach_zero (b : List UInt8) (o : Nat) : forEach b o 0 = [] := by
  have hno : ¬tlvOk b o 0 := by simp [tlvOk, tlvLen, hdrLen]
  rw [forEach, if_neg hno]

theorem forEach_cons (h : tlvOk b o remaining) :
    forEach b o remaining =
      o :: ((tlvNext b o remaining).map fun p => forEach b p.1 p.2).getD [] := by
  rw [forEach, if_pos h]
  congr 1
  split
  · next hnext => rw [hnext]; rfl
  · next hnext => rw [hnext]; rfl

/-- The loop goes from a header that is there to the next multiple of four behind it. -/
theorem forEach_eq (h : tlvLen b o ≤ remaining) :
    forEach b o remaining =
      o :: forEach b (o + align (tlvLen b o)) (remaining - align (tlvLen b o)) := by
  have hle := le_align (tlvLen b o)
  rw [forEach_cons (decide_eq_true h)]
  congr 1
  by_cases hpad : align (tlvLen b o) - tlvLen b o > remaining - tlvLen b o
  · have hend : remaining - align (tlvLen b o) = 0 := by omega
    have hnext : tlvNext b o remaining = none := by
      simp [tlvNext, hpad]
    rw [hend, forEach_zero, hnext]
    rfl
  · have hnext : tlvNext b o remaining =
        some (o + align (tlvLen b o), remaining - align (tlvLen b o)) := by
      simp only [tlvNext, if_neg (Nat.not_lt.mpr h), if_neg hpad]
      congr 2 <;> omega
    rw [hnext]
    rfl

/-- Reading goes from an attribute to the rest of the sequence. -/
theorem forEach_attr {a : List UInt8} (rest : Seq) (hlen : tlvLen b o = a.length) :
    forEach b o (encodeFrom rest a).length =
      o :: forEach b (o + align a.length) (encode rest).length := by
  have hle := le_align a.length
  have hrest : a.length ≤ (encodeFrom rest a).length ∧
      (encodeFrom rest a).length - align a.length = (encode rest).length := by
    by_cases h : rest = .nil
    · rw [h, encodeFrom, encode, encodeFrom, length_nil]
      omega
    · rw [encodeFrom_eq h, length_append, length_append_pad]
      omega
  rw [forEach_eq (hlen ▸ hrest.1), hlen, hrest.2]

/-- The headers of a loop are those of the attributes of a sequence, and so on inside of the nested
ones. -/
def Matches (b : List UInt8) : Seq → List Nat → Prop
  | .nil, hs => hs = []
  | .put id type data rest, hs =>
    ∃ h hs', hs = h :: hs' ∧ attrAt b h = ⟨id.toNat, type.code, 0, data⟩ ∧
      lenAt b h = data.length ∧ Matches b rest hs'
  | .nested id inner rest, hs =>
    ∃ h hs', hs = h :: hs' ∧ attrAt b h = ⟨id.toNat, TlvType.nested.code, 0, encode inner⟩ ∧
      lenAt b h = (encode inner).length ∧ Matches b inner (forEach b (h + hdrLen) (lenAt b h)) ∧
      Matches b rest hs'

/-- An attribute and the sequence behind it, in the bytes and for the loop. -/
theorem read_attr {id type : Nat} {rest : Seq} (hid : id < 2 ^ 32) (htype : type < 2 ^ 32)
    (hlen : (encodeFrom rest (attr id type data)).length < 2 ^ 32)
    (hb : seg b o (encodeFrom rest (attr id type data)).length =
      encodeFrom rest (attr id type data)) :
    attrAt b o = ⟨id, type, 0, data⟩ ∧ lenAt b o = data.length ∧
      forEach b o (encodeFrom rest (attr id type data)).length =
        o :: forEach b (o + align (16 + data.length)) (encode rest).length ∧
      data.length < 2 ^ 32 ∧ (encode rest).length < 2 ^ 32 ∧
      seg b (o + align (16 + data.length)) (encode rest).length = encode rest := by
  set a := attr id type data
  obtain ⟨tail, htail⟩ :
      ∃ tail, encodeFrom rest a = attr id type data ++ tail := by
    by_cases h : rest = .nil
    · exact ⟨[], by rw [h, encodeFrom, append_nil]⟩
    · exact ⟨_, by rw [encodeFrom_eq h, append_assoc]⟩
  have hdata : 16 + data.length ≤ (encodeFrom rest a).length := by
    rw [htail, length_append, length_attr]
    omega
  have hfirst : seg b o (16 + data.length) = attr id type data := by
    have := seg_seg (b := b) (o := o) (i := 0) (k := 16 + data.length)
      (n := (encodeFrom rest a).length) (by omega)
    rw [hb, add_zero] at this
    rw [← this, htail, ← length_attr id type data, seg]
    simp
  obtain ⟨hId, hType, hLen, hFlags, hData⟩ := attrAt_eq hid htype (by omega) hfirst
  refine ⟨by rw [attrAt, hId, hType, hFlags, hData], hLen, ?_, by omega, ?_⟩
  · rw [← length_attr id type data]
    exact forEach_attr rest (by rw [tlvLen, hLen, length_attr]; rfl)
  by_cases h : rest = .nil
  · rw [h]
    exact ⟨by decide, rfl⟩
  rw [encodeFrom_eq h] at hb hlen
  have hlength := hlen
  rw [length_append, length_append_pad] at hlength
  refine ⟨by omega, ?_⟩
  have := seg_seg (b := b) (o := o) (n := (attr id type data ++ pad a ++
    encode rest).length) (i := align (16 + data.length)) (k := (encode rest).length)
    (Nat.le_of_eq (by rw [length_append, length_append_pad, length_attr]))
  rw [← this, hb, ← length_attr id type data, ← length_append_pad]
  have hmid := seg_append_middle (attr id type data ++ pad a) (encode rest) []
  rwa [append_nil] at hmid

/-- A buffer that has the bytes of a sequence somewhere is read as that sequence. -/
theorem forEach_encode (s : Seq) (hlen : (encode s).length < 2 ^ 32)
    (hb : seg b o (encode s).length = encode s) : Matches b s (forEach b o (encode s).length) := by
  induction s generalizing o with
  | nil => exact forEach_zero b o
  | put id type data rest ih =>
    have htype : type.code < 2 ^ 32 := by cases type <;> decide
    obtain ⟨hattr, hl, hloop, -, hlen', hrest⟩ := read_attr id.toNat_lt htype hlen hb
    exact ⟨o, _, hloop, hattr, hl, ih hlen' hrest⟩
  | nested id inner rest ihInner ih =>
    obtain ⟨hattr, hl, hloop, hinner, hlen', hrest⟩ :=
      read_attr id.toNat_lt (by decide) hlen hb
    refine ⟨o, _, hloop, hattr, hl, ?_, ih hlen' hrest⟩
    have hdata : dataAt b o = encode inner := congrArg Attr.data hattr
    rw [dataAt, hl] at hdata
    rw [hl]
    exact ihInner hinner hdata

/-! ## Parsing -/

/-- The header is one that `osw_tlv_parse` takes. -/
def accepts (b : List UInt8) (policy : Option (Nat → TPolicy)) (size h : Nat) : Bool :=
  idAt b h < size && policyOk policy (idAt b h) (typeAt b h) (lenAt b h)

/-- The last one of the headers with an identifier that is taken. -/
def lastAccepted (b : List UInt8) (policy : Option (Nat → TPolicy)) (size : Nat) (hs : List Nat)
    (id : Nat) : Option Nat :=
  (hs.filter fun h => accepts b policy size h && idAt b h = id).getLast?

theorem lastAccepted_cons {size : Nat} (h : Nat) (hs : List Nat) (id : Nat) :
    lastAccepted b policy size (h :: hs) id = (lastAccepted b policy size hs id).or
        (if accepts b policy size h ∧ idAt b h = id then some h else none) := by
  unfold lastAccepted
  by_cases hh : accepts b policy size h ∧ idAt b h = id
  · rw [filter_cons_of_pos (by simpa using hh), if_pos hh, getLast?_cons]
    cases (hs.filter _).getLast? <;> rfl
  · rw [filter_cons_of_neg (by simpa using hh), if_neg hh, or_none]

/-- The loop of `osw_tlv_parse` keeps the last header for each identifier. -/
theorem parseFrom_eq {size : Nat} {fuel : Nat} (hfuel : remaining < fuel) (tb : Table) (id : Nat) :
    parseFrom b policy size fuel o remaining tb id =
      (lastAccepted b policy size (forEach b o remaining) id).or (tb id) := by
  induction fuel generalizing o remaining tb with
  | zero => omega
  | succ fuel ih =>
    rw [parseFrom]
    by_cases hok : tlvOk b o remaining
    · -- The table after this header.
      have htb : (if idAt b o ≥ size then tb
          else if !policyOk policy (idAt b o) (typeAt b o) (lenAt b o) then tb
          else fun i => if i = idAt b o then some o else tb i) id =
          (if accepts b policy size o ∧ idAt b o = id then some o else none).or (tb id) := by
        by_cases hsize : idAt b o ≥ size
        · simp [accepts, hsize, Nat.not_lt.mpr hsize]
        by_cases hpolicy : policyOk policy (idAt b o) (typeAt b o) (lenAt b o)
        · have haccepts : accepts b policy size o := by
            simp [accepts, hpolicy, Nat.not_le.mp hsize]
          by_cases hid : id = idAt b o
          · rw [if_neg hsize, if_neg (by simp [hpolicy]), if_pos hid, if_pos ⟨haccepts, hid.symm⟩]
            rfl
          · simp [hsize, hpolicy, hid, Ne.symm hid]
        · simp [accepts, hpolicy]
      simp only [hok]
      rw [forEach_cons hok, lastAccepted_cons, Option.or_assoc, ← htb]
      generalize (if idAt b o ≥ size then tb
          else if !policyOk policy (idAt b o) (typeAt b o) (lenAt b o) then tb
          else fun i => if i = idAt b o then some o else tb i) = tb'
      cases hnext : tlvNext b o remaining with
      | none => rfl
      | some p =>
        have hlt := tlvNext_lt hnext
        exact ih (by omega) tb'
    · simp only [hok]
      rw [forEach, if_neg hok]
      rfl

theorem parse_eq (b : List UInt8) (policy : Option (Nat → TPolicy)) (size id : Nat) :
    parse b policy size id = lastAccepted b policy size (forEach b 0 b.length) id := by
  rw [parse, parseFrom_eq (by omega), or_none]

/-- What is put is what is read: a properly bracketed sequence of calls leaves a buffer that is
read as the attributes put, nested ones as the sequences put in them.  In all states on the way
the used bytes fit in the memory, with the padding behind them.  `osw_tlv_parse` finds the last
attribute with an identifier that satisfies the policy. -/
theorem tlv_codec (s : Seq) :
    ∃ t : Buf, Writer.start.run s.ops = some ⟨t, []⟩ ∧
      (t.bytes.length < 2 ^ 32 → Matches t.bytes s (forEach t.bytes 0 t.bytes.length)) ∧
      (∀ ops, ops <+: s.ops → ∃ w, Writer.start.run ops = some w ∧
        w.buf.bytes.length ≤ w.buf.size ∧ w.buf.size % 4 = 0 ∧
        align w.buf.bytes.length ≤ w.buf.size) ∧
      ∀ policy size id, parse t.bytes policy size id =
        ((forEach t.bytes 0 t.bytes.length).filter fun h =>
          idAt t.bytes h < size && policyOk policy (idAt t.bytes h) (typeAt t.bytes h)
            (lenAt t.bytes h) && idAt t.bytes h = id).getLast? := by
  obtain ⟨size, hrun⟩ := Writer.run_ops s .start
  refine ⟨⟨encode s, size⟩, hrun, ?_, ?_, fun policy size id => parse_eq ..⟩
  · intro hlen
    refine forEach_encode s hlen ?_
    simp [seg]
  · rintro ops ⟨ops', hops⟩
    rw [← hops, Writer.run_append] at hrun
    obtain ⟨w, hw, -⟩ := bind_eq_some_iff.mp hrun
    have hinv := (Writer.run_inv ⟨⟨le_rfl, rfl⟩, by simp [Writer.start]⟩ hw).buf
    exact ⟨w, hw, hinv.used, hinv.aligned, hinv.align_le⟩

end OpenSync.Osw.Tlv
