import OpenSync.Lib.Bytes
import OpenSync.Lib.CInt
import OpenSync.Lib.CString
import Mathlib.Data.List.OfFn

/-!
# Requests of `qm_conn.c`

A client sends a request as the little-endian memory image of its `qm_request_t`, the topic with
its NUL, and the data.

`writeReq` is the writer.  The result of the `k`-th `send` is a parameter, so a send may fail or
be short; the function gives its own result and the bytes that went out.  The sum that the split
path adds up in `total` is only printed and left out.

`parseReq` is the parser of the server.  The source sets `complete` when the buffer holds the
whole request, which is here a result other than `none`.  A copy from behind the end of the
buffer gives fewer bytes here.
-/

namespace OpenSync.Qm

open OpenSync.Lib List

/-- `qm_request_t`. -/
@[ext]
structure Request where
  tag : Fin 4 → UInt8
  ver : UInt32
  seq : UInt32
  cmd : UInt32
  flags : UInt32
  sender : Fin 16 → UInt8
  setQos : UInt8
  qosVal : UInt8
  compress : UInt8
  dataType : UInt8
  interval : UInt32
  topicLen : UInt32
  dataSize : UInt32
  reserved : UInt32

/-- `sizeof(qm_request_t)`. -/
def reqSize : Nat := 56

/-! ## The memory image -/

/-- The bytes of a `uint32_t`. -/
def wordBytes (v : UInt32) : List UInt8 := le32 v.toNat

/-- The `uint32_t` at a position. -/
def wordAt (b : List UInt8) (off : Nat) : UInt32 := UInt32.ofNat (ofLe32 (seg b off 4))

section

variable (r : Request)

/-- The fields between `tag` and `sender`. -/
def imageWords : List UInt8 :=
  wordBytes r.ver ++ wordBytes r.seq ++ wordBytes r.cmd ++ wordBytes r.flags

/-- The fields behind `sender`. -/
def imageRest : List UInt8 :=
  [r.setQos, r.qosVal, r.compress, r.dataType] ++ wordBytes r.interval ++
    wordBytes r.topicLen ++ wordBytes r.dataSize ++ wordBytes r.reserved

/-- The memory of a request. -/
def image : List UInt8 :=
  ofFn r.tag ++ imageWords r ++ ofFn r.sender ++ imageRest r

/-- The request in the first bytes of a buffer. -/
def ofImage (b : List UInt8) : Request where
  tag := fun i => b.getD i 0
  ver := wordAt b 4
  seq := wordAt b 8
  cmd := wordAt b 12
  flags := wordAt b 16
  sender := fun i => b.getD (20 + i) 0
  setQos := b.getD 36 0
  qosVal := b.getD 37 0
  compress := b.getD 38 0
  dataType := b.getD 39 0
  interval := wordAt b 40
  topicLen := wordAt b 44
  dataSize := wordAt b 48
  reserved := wordAt b 52

theorem length_image : (image r).length = reqSize := by
  simp [image, imageWords, imageRest, wordBytes, reqSize]

theorem wordAt_eq {b : List UInt8} {off : Nat} {v : UInt32} (h : seg b off 4 = wordBytes v) :
    wordAt b off = v := by
  rw [wordAt, h, wordBytes, ofLe32_le32_of_lt v.toNat_lt]
  exact UInt32.ofNat_toNat

/-- What is read at the place of an array of the image. -/
theorem getD_append_ofFn {n : Nat} (pre post : List UInt8) (f : Fin n → UInt8) (i : Fin n) :
    (pre ++ (ofFn f ++ post)).getD (pre.length + i) 0 = f i := by
  rw [getD_eq_getElem?_getD, getElem?_append_right (Nat.le_add_right _ _),
    getElem?_append_left (by simp)]
  simp

/-- The image of a request at the start of a buffer is read back. -/
theorem ofImage_image (rest : List UInt8) : ofImage (image r ++ rest) = r := by
  apply Request.ext
  · funext i
    have htag := getD_append_ofFn [] (imageWords r ++ ofFn r.sender ++ imageRest r ++ rest)
      r.tag i
    simpa [ofImage, image] using htag
  · exact wordAt_eq (v := r.ver) rfl
  · exact wordAt_eq (v := r.seq) rfl
  · exact wordAt_eq (v := r.cmd) rfl
  · exact wordAt_eq (v := r.flags) rfl
  · funext i
    have hsender := getD_append_ofFn (ofFn r.tag ++ imageWords r) (imageRest r ++ rest)
      r.sender i
    have hlen : (ofFn r.tag ++ imageWords r).length = 20 := by simp [imageWords, wordBytes]
    rw [hlen] at hsender
    simpa [ofImage, image] using hsender
  · rfl
  · rfl
  · rfl
  · rfl
  · exact wordAt_eq (v := r.interval) rfl
  · exact wordAt_eq (v := r.topicLen) rfl
  · exact wordAt_eq (v := r.dataSize) rfl
  · exact wordAt_eq (v := r.reserved) rfl

end

/-- The image needs only the bytes of the request. -/
theorem ofImage_take (b : List UInt8) : ofImage (b.take reqSize) = ofImage b := by
  have hget : ∀ i < reqSize, (b.take reqSize).getD i 0 = b.getD i 0 := by
    intro i hi
    rw [getD_eq_getElem?_getD, getD_eq_getElem?_getD, getElem?_take_of_lt hi]
  have hword : ∀ off, off + 4 ≤ reqSize → wordAt (b.take reqSize) off = wordAt b off := by
    intro off hoff
    rw [wordAt, wordAt, seg, seg, drop_take, take_take, Nat.min_eq_left (by omega)]
  unfold reqSize at hget hword
  simp only [ofImage]
  congr 1
  · funext i
    exact hget i (by omega)
  · exact hword 4 (by decide)
  · exact hword 8 (by decide)
  · exact hword 12 (by decide)
  · exact hword 16 (by decide)
  · funext i
    exact hget (20 + i) (by omega)
  · exact hget 36 (by decide)
  · exact hget 37 (by decide)
  · exact hget 38 (by decide)
  · exact hget 39 (by decide)
  · exact hword 40 (by decide)
  · exact hword 44 (by decide)
  · exact hword 48 (by decide)
  · exact hword 52 (by decide)

/-! ## Writing -/

/-- `QM_COMPACT_SEND_SIZE`. -/
def compactSendSize : Int := 64 * 1024

/-- The bytes of a topic that is sent: none without a topic or with an empty one. -/
def topicBytes : Option CStr → List UInt8
  | none => []
  | some t => if t.1 = [] then [] else t.1 ++ [0]

section

variable (req : Request) (topic : Option CStr) (data : List UInt8)

/-- The header that `qm_conn_write_req` sends. -/
def header : Request :=
  { req with
    topicLen := UInt32.ofNat (topicBytes topic).length
    dataSize := UInt32.ofNat data.length }

/-- The buffers that `qm_conn_write_req` hands to `send`, one after the other. -/
def sendBufs : List (List UInt8) :=
  let req := header req topic data
  let topic := (topicBytes topic).take req.topicLen.toNat
  let data := data.take req.dataSize.toNat
  if toInt (reqSize + req.topicLen.toNat + req.dataSize.toNat) ≤ compactSendSize then
    [image req ++ topic ++ data]
  else
    [image req] ++ (if req.topicLen = 0 then [] else [topic]) ++
      (if req.dataSize = 0 then [] else [data])

/-- A sequence of `send` calls that ends with the first one that is not complete; `ret k`
is the result of the `k`-th call. -/
def sendAll (ret : Nat → Int) : Nat → List (List UInt8) → Bool × List UInt8
  | _, [] => (true, [])
  | k, b :: bs =>
    if ret k = b.length then
      let (ok, out) := sendAll ret (k + 1) bs
      (ok, b ++ out)
    else (false, b.take (ret k).toNat)

/-- `qm_conn_write_req`: its result and the bytes that went out. -/
def writeReq (ret : Nat → Int) (req : Request) (topic : Option CStr) (data : List UInt8) :
    Bool × List UInt8 :=
  sendAll ret 0 (sendBufs req topic data)

/-- The bytes of a request on the connection. -/
def frame : List UInt8 :=
  image (header req topic data) ++ topicBytes topic ++ data

theorem length_frame :
    (frame req topic data).length = reqSize + (topicBytes topic).length + data.length := by
  rw [frame, length_append, length_append, length_image]

end

theorem sendAll_true {ret : Nat → Int} {k : Nat} {bs : List (List UInt8)} {out : List UInt8}
    (h : sendAll ret k bs = (true, out)) : out = bs.flatten := by
  induction bs generalizing k out with
  | nil => exact (Prod.mk.inj h).2.symm
  | cons b bs ih =>
    rw [sendAll] at h
    split_ifs at h with hret
    · obtain ⟨hok, hout⟩ := Prod.mk.inj h
      have hrest : (sendAll ret (k + 1) bs).2 = bs.flatten := ih (k := k + 1) (Prod.ext hok rfl)
      rw [← hout, hrest, flatten_cons]
    · exact absurd (Prod.mk.inj h).1 (by decide)

section

variable {req : Request} {topic : Option CStr} {data : List UInt8}

section

variable (h : (frame req topic data).length < 2 ^ 31)

include h

theorem topicLen_header : (header req topic data).topicLen.toNat = (topicBytes topic).length := by
  rw [length_frame] at h
  exact UInt32.toNat_ofNat_of_lt' (by show _ < 2 ^ 32; omega)

theorem dataSize_header : (header req topic data).dataSize.toNat = data.length := by
  rw [length_frame] at h
  exact UInt32.toNat_ofNat_of_lt' (by show _ < 2 ^ 32; omega)

/-- The merged and the split path send the same bytes. -/
theorem flatten_sendBufs : (sendBufs req topic data).flatten = frame req topic data := by
  have htopic := topicLen_header h
  have hdata := dataSize_header h
  simp only [sendBufs]
  rw [htopic, hdata, take_length]
  split_ifs with hsmall ht hd hd
  · simp [frame]
  · rw [← UInt32.toNat_inj, htopic] at ht
    rw [← UInt32.toNat_inj, hdata] at hd
    simp [frame, length_eq_zero_iff.mp ht, length_eq_zero_iff.mp hd]
  · rw [← UInt32.toNat_inj, htopic] at ht
    simp [frame, length_eq_zero_iff.mp ht]
  · rw [← UInt32.toNat_inj, hdata] at hd
    simp [frame, length_eq_zero_iff.mp hd]
  · simp [frame]

end

end

/-! ## Parsing -/

/-- `qm_item_t`, without its list node. -/
structure Item where
  req : Request
  topic : Option (List UInt8)
  size : Nat
  buf : Option (List UInt8)
  timestamp : Nat

/-- The size of a request that the parser computes. -/
def totalOf (r : Request) : Int := toInt (reqSize + r.topicLen.toNat + r.dataSize.toNat)

/-- The memory with a copy of the topic: `CALLOC(size + 1, 1)` and `memcpy`. -/
def copyTopic (buf : List UInt8) (r : Request) : Option (List UInt8) :=
  if r.topicLen = 0 then none else some (seg buf reqSize r.topicLen.toNat ++ [0])

/-- The memory with a copy of the data. -/
def copyData (buf : List UInt8) (r : Request) : Option (List UInt8) :=
  if r.dataSize = 0 then none
  else some (seg buf (reqSize + r.topicLen.toNat) r.dataSize.toNat)

/-- `qm_conn_parse_req` on an item from `CALLOC`. -/
def parseReq (buf : List UInt8) (bufSize : Int) : Option Item :=
  if bufSize < reqSize then none
  else
    let r := ofImage (buf.take reqSize)
    if bufSize < totalOf r then none
    else some ⟨r, copyTopic buf r, 0, copyData buf r, 0⟩

/-- The item of a request that was written: the header, the topic as a string, and the data.  An
empty topic arrives as no topic. -/
structure Carries (req : Request) (topic : Option CStr) (data : List UInt8) (qi : Item) :
    Prop where
  header : qi.req = header req topic data
  topic : qi.topic.map cstrOf = topic.filter (fun t => t.1 ≠ [])
  buf : qi.buf.getD [] = data

section

variable {req : Request} {topic : Option CStr} {data : List UInt8}

section

variable (h : (frame req topic data).length < 2 ^ 31)

include h

theorem totalOf_header : totalOf (header req topic data) = (frame req topic data).length := by
  have hlen := length_frame req topic data
  have hsum : ((reqSize : Int) + (topicBytes topic).length + data.length) =
      ((frame req topic data).length : Nat) := by omega
  rw [totalOf, topicLen_header h, dataSize_header h, hsum]
  exact toInt_of_lt h

theorem copyTopic_frame (rest : List UInt8) :
    (copyTopic (frame req topic data ++ rest) (header req topic data)).map cstrOf =
      topic.filter (fun t => t.1 ≠ []) := by
  have hlen := topicLen_header h
  have hseg : seg (frame req topic data ++ rest) reqSize (topicBytes topic).length =
      topicBytes topic := by
    rw [frame, append_assoc, append_assoc]
    exact seg_append_middle _ _ _
  have hzero : (header req topic data).topicLen = 0 ↔ topicBytes topic = [] := by
    rw [← UInt32.toNat_inj, hlen]
    exact length_eq_zero_iff
  rw [copyTopic, hlen, hseg]
  cases topic with
  | none => rw [if_pos (hzero.mpr rfl)]; rfl
  | some t =>
    by_cases ht : t.1 = []
    · rw [if_pos (hzero.mpr (by simp [topicBytes, ht]))]
      simp [Option.filter, ht]
    rw [if_neg (fun hz => by simpa [topicBytes, ht] using hzero.mp hz)]
    have hstr : cstrOf (topicBytes (some t) ++ [0]) = t := by
      have happ := cstrOf_append t [0]
      simpa [topicBytes, ht] using happ
    simp [Option.filter, ht, hstr]

theorem copyData_frame (rest : List UInt8) :
    (copyData (frame req topic data ++ rest) (header req topic data)).getD [] = data := by
  have hseg : seg (frame req topic data ++ rest) (reqSize + (topicBytes topic).length)
      data.length = data := by
    have hmid := seg_append_middle (image (header req topic data) ++ topicBytes topic) data rest
    rw [length_append] at hmid
    rwa [frame, append_assoc]
  rw [copyData, topicLen_header h, dataSize_header h, hseg]
  split_ifs with hd
  · rw [← UInt32.toNat_inj, dataSize_header h] at hd
    exact (length_eq_zero_iff.mp hd).symm
  · rfl

/-- A buffer that starts with a whole request is parsed to this request. -/
theorem parseReq_frame (rest : List UInt8) {size : Int}
    (hsize : ((frame req topic data).length : Int) ≤ size) :
    ∃ qi, parseReq (frame req topic data ++ rest) size = some qi ∧
      Carries req topic data qi ∧ qi.size = 0 := by
  set buf := frame req topic data ++ rest
  have hofImage : ofImage (buf.take reqSize) =
      header req topic data := by
    exact ofImage_image _ _
  have hlen := length_frame req topic data
  refine ⟨⟨header req topic data, copyTopic buf _, 0,
    copyData buf _, 0⟩, ?_,
    ⟨rfl, copyTopic_frame h rest, copyData_frame h rest⟩, rfl⟩
  rw [parseReq, if_neg (by omega)]
  simp only [hofImage]
  rw [totalOf_header h, if_neg (by omega)]

/-- A buffer with only a part of a request is left alone. -/
theorem parseReq_part {p : List UInt8} (hp : p <+: frame req topic data)
    (hlt : p.length < (frame req topic data).length) : parseReq p p.length = none := by
  rw [parseReq]
  split_ifs with hhdr
  · rfl
  have htake : p.take reqSize = (frame req topic data).take reqSize := by
    obtain ⟨q, hq⟩ := hp
    rw [← hq, take_append_of_le_length (by omega)]
  have hofImage : ofImage (p.take reqSize) = header req topic data := by
    rw [htake, frame]
    exact ofImage_image _ _
  simp only [hofImage]
  rw [totalOf_header h, if_pos (by omega)]

end

end

end OpenSync.Qm
