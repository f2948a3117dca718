import OpenSync.Lib.Bytes
import OpenSync.Lib.CString
import OpenSync.Lib.Crc

/-!
# The record format of the `psfs` journal

A record starts at a multiple of four and has a magic number, a size, a key with its
terminating NUL, the data of the key, a CRC over all of this, and padding up to the next
multiple of four.  This module has `psfs_record_write`, `psfs_record_read` and the CRC they
share.

A file is its bytes.  A read at the end of the file is short and every other read is complete;
`fstat` and `lseek` succeed.  A write is given its outcome from outside, because the callers of
`psfs_record_write` have to be followed through a short or failed write.
-/

namespace OpenSync.Psfs

open OpenSync.Lib List

/-! ## Constants -/

/-- `PSFS_MAGIC`, as `htonl` lays it out. -/
def magic : List UInt8 := be32 0x50534653

@[simp] theorem length_magic : magic.length = 4 := rfl

/-- `PSFS_PADDING`. -/
def padding : UInt8 := 0xFF

/-- `PSFS_CRC32_POLY`. -/
def crc32Poly : BitVec 32 := 0xEDB88320#32

/-- `PSFS_CRC32_VERIFY`. -/
def crc32Verify : BitVec 32 := 0x2144DF1C#32

/-! ## The CRC -/

/-- `psfs_crc32`: the register is complemented before and after. -/
def crc32 (crc : BitVec 32) (buf : List UInt8) : BitVec 32 :=
  ~~~ buf.foldl (Crc.update crc32Poly) (~~~ crc)

variable (crc : BitVec 32) (key : CStr) (file : List UInt8)

/-- The CRC of two buffers in turn is the CRC of their concatenation. -/
theorem crc32_append (a b : List UInt8) : crc32 crc (a ++ b) = crc32 (crc32 crc a) b := by
  simp [crc32]

/-- The four bytes `wcrc[0..3]`.  The source calls this order big-endian; the
least significant byte comes first. -/
def crcBytes (crc : BitVec 32) : List UInt8 := Crc.leBytes 4 crc

@[simp] theorem length_crcBytes : (crcBytes crc).length = 4 :=
  Crc.length_leBytes 4 crc

/-- A buffer followed by its own CRC has the CRC `PSFS_CRC32_VERIFY`. -/
theorem crc32_crcBytes : crc32 crc (crcBytes crc) = crc32Verify := by
  have h := Crc.foldl_update_complement crc32Poly 4 (by decide) (~~~ crc)
  rw [BitVec.not_not] at h
  rw [crc32, crcBytes, h]
  decide +kernel

/-- A CRC can be computed in pieces, a buffer with its CRC behind it has the CRC
`PSFS_CRC32_VERIFY`, and a buffer with any other four bytes behind it has not. -/
theorem crc32_residue :
    (∀ pieces : List (List UInt8), pieces.foldl crc32 0 = crc32 0 pieces.flatten) ∧
    ∀ m : List UInt8, crc32 0 (m ++ crcBytes (crc32 0 m)) = crc32Verify ∧
      ∀ tail : List UInt8, tail.length = 4 → tail ≠ crcBytes (crc32 0 m) →
        crc32 0 (m ++ tail) ≠ crc32Verify := by
  refine ⟨fun pieces => ?_, fun m => ?_⟩
  · have run : ∀ crc, pieces.foldl crc32 crc = crc32 crc pieces.flatten := by
      induction pieces with
      | nil => simp [crc32]
      | cons m pieces ih => simp [ih, crc32_append]
    exact run 0
  have residue : crc32 0 (m ++ crcBytes (crc32 0 m)) = crc32Verify := by
    rw [crc32_append, crc32_crcBytes]
  refine ⟨residue, fun tail len ne h => ne ?_⟩
  rw [← residue, crc32_append, crc32_append] at h
  exact Crc.foldl_update_inj crc32Poly (by decide) _ (by omega) (by simp [len])
    (BitVec.not_inj.mp h)

/-! ## Records -/

/-- `struct psfs_record`.  `pr_data` and `pr_datasz` are one byte string. -/
structure Record where
  key : CStr
  data : List UInt8
  /-- `pr_dirty`: the record is not in the file yet. -/
  dirty : Bool
  /-- `pr_used`: the bytes of the record in the file, padding included. -/
  used : Nat
deriving DecidableEq

/-- The key with its terminating NUL and the data, as one buffer. -/
def payload (key : CStr) (data : List UInt8) : List UInt8 := key.1 ++ 0 :: data

variable (data : List UInt8)

theorem length_payload : (payload key data).length = key.1.length + 1 + data.length := by
  simp [payload]
  omega

/-- `psfs_record_init`. -/
def recordInit (key : CStr) (data : List UInt8) : Record where
  key := key
  data := data
  dirty := false
  used :=
    let used := key.1.length + 1 + data.length + 3 * 4
    used + padLen used

/-- A record of at most this size has a size field that fits 32 bits. -/
def Fits (key : CStr) (data : List UInt8) : Prop := (payload key data).length < 2 ^ 32

instance (key : CStr) (data : List UInt8) : Decidable (Fits key data) :=
  inferInstanceAs (Decidable (_ < _))

/-- The magic number, the size and the payload: what the CRC covers. -/
def recordBody (key : CStr) (data : List UInt8) : List UInt8 :=
  magic ++ be32 (payload key data).length ++ payload key data

/-- A record without its padding. -/
def recordContent (key : CStr) (data : List UInt8) : List UInt8 :=
  recordBody key data ++ crcBytes (crc32 0 (recordBody key data))

/-- A complete record, as it stands at a multiple of four. -/
def recordBytes (key : CStr) (data : List UInt8) : List UInt8 :=
  recordContent key data ++
    replicate (padLen (recordContent key data).length) padding

theorem length_recordContent :
    (recordContent key data).length = (payload key data).length + 12 := by
  simp only [recordContent, recordBody, length_append, length_magic, length_be32,
    length_crcBytes]
  omega

theorem length_recordBytes_mod : (recordBytes key data).length % 4 = 0 := by
  rw [recordBytes, length_append, length_replicate]
  exact add_padLen_mod _

/-! ## Writing -/

/-- `writev` writes everything, or fewer bytes than asked for, or returns `-1`. -/
inductive Writev where
  | all
  | short (n : Nat)
  | failed
deriving DecidableEq

/-- The return value of `writev` for `total` bytes. -/
def Writev.rc (total : Nat) : Writev → Int
  | .all => total
  | .short n => (min n (total - 1) : Nat)
  | .failed => -1

/-- The outcomes of the two system calls of `psfs_record_write`. -/
structure WriteIo where
  fstat : Bool
  writev : Writev
deriving DecidableEq

/-- Both system calls succeed. -/
def WriteIo.ok : WriteIo := ⟨true, .all⟩

/-- `psfs_record_write` on a file opened with `O_APPEND`: the file and the record after it, and the
return value. -/
def recordWrite (file : List UInt8) (pr : Record) (io : WriteIo) :
    List UInt8 × Record × Int :=
  if io.fstat = false then (file, pr, -1)
  else
    let bpadlen := padLen file.length
    let wmagic := magic
    let ksz := pr.key.1.length + 1
    let wsz := be32 (ksz + pr.data.length)
    let crc := crc32 0 wmagic
    let crc := crc32 crc wsz
    let crc := crc32 crc (pr.key.1 ++ [0])
    let crc := crc32 crc pr.data
    let retval := 4 + 4 + ksz + pr.data.length + 4
    let epadlen := padLen retval
    let iov :=
      replicate bpadlen padding ++ wmagic ++ wsz ++ (pr.key.1 ++ [0]) ++ pr.data ++
        crcBytes crc ++ replicate epadlen padding
    let rc := io.writev.rc (retval + epadlen + bpadlen)
    if rc < (retval + epadlen + bpadlen : Nat) then (file ++ iov.take rc.toNat, pr, -1)
    else (file ++ iov, { pr with dirty := false }, retval)

/-- What one write adds to a file: padding up to a multiple of four, and the record. -/
def writeBytes (file : List UInt8) (pr : Record) : List UInt8 :=
  replicate (padLen file.length) padding ++ recordBytes pr.key pr.data

/-- The CRC that the write computes piece by piece is the CRC of the body. -/
theorem crc32_pieces :
    crc32 (crc32 (crc32 (crc32 0 magic) (be32 (key.1.length + 1 + data.length)))
      (key.1 ++ [0])) data = crc32 0 (recordBody key data) := by
  rw [← crc32_append, ← crc32_append, ← crc32_append, ← length_payload key data, recordBody,
    payload]
  simp

/-- How many bytes a failed write may leave in the file; `none` if the write is
complete. -/
def WriteIo.cut (io : WriteIo) : Option Nat :=
  if io.fstat = false then some 0
  else match io.writev with
    | .all => none
    | .short n => some n
    | .failed => some 0

/-- `psfs_record_write` in terms of the bytes of the record: all are written and the record is
clean, or the write fails, leaves the record as it was and adds a strict prefix of its bytes. -/
theorem recordWrite_eq (pr : Record) (io : WriteIo) :
    recordWrite file pr io =
      match io.cut with
      | none => (file ++ writeBytes file pr, { pr with dirty := false },
          ((recordContent pr.key pr.data).length : Int))
      | some n =>
        (file ++ (writeBytes file pr).take (min n ((writeBytes file pr).length - 1)), pr, -1) := by
  have hlen : 4 + 4 + (pr.key.1.length + 1) + pr.data.length + 4 =
      (recordContent pr.key pr.data).length := by
    rw [length_recordContent, length_payload]
    omega
  have hiov : replicate (padLen file.length) padding ++ magic ++
      be32 (pr.key.1.length + 1 + pr.data.length) ++ (pr.key.1 ++ [0]) ++ pr.data ++
      crcBytes (crc32 0 (recordBody pr.key pr.data)) ++
      replicate (padLen (recordContent pr.key pr.data).length) padding =
      writeBytes file pr := by
    rw [← length_payload pr.key pr.data]
    simp [writeBytes, recordBytes, recordContent, recordBody, payload]
  have htotal : (recordContent pr.key pr.data).length +
      padLen (recordContent pr.key pr.data).length + padLen file.length =
      (writeBytes file pr).length := by
    simp [writeBytes, recordBytes]
    omega
  simp only [recordWrite, crc32_pieces, hlen, hiov, htotal]
  rcases io with ⟨fstat, writev⟩
  cases fstat with
  | false => simp [WriteIo.cut]
  | true =>
    cases writev with
    | all => simp [WriteIo.cut, Writev.rc]
    | failed =>
      have hlt : (-1 : Int) < ((writeBytes file pr).length : Int) := by omega
      simp [WriteIo.cut, Writev.rc, hlt]
    | short n =>
      have hlt : ((min n ((writeBytes file pr).length - 1) : Nat) : Int) <
          ((writeBytes file pr).length : Int) := by omega
      exact if_pos hlt

/-! ## Reading -/

/-- What `psfs_record_read` reports: the end of the file, an error, or a record with the number of
bytes read. -/
inductive ReadResult where
  | eof
  | error
  | record (pr : Record) (retval : Nat)
deriving DecidableEq

/-- `psfs_record_read` from the aligned offset `coff` on: the result and the new position, `coff +
4` for the jump to `seek_on_error`. -/
def recordReadAt (file : List UInt8) (coff : Nat) : ReadResult × Nat :=
  let prMagic := seg file coff 4
  if prMagic = [] then (.eof, coff)
  else if prMagic.length < 4 then (.error, coff + prMagic.length)
  else if prMagic ≠ magic then (.error, coff + 4)
  else
    let crc := crc32 0 prMagic
    let rawSize := seg file (coff + 4) 4
    if rawSize.length < 4 then (.error, coff + 4 + rawSize.length)
    else
      let crc := crc32 crc rawSize
      let prSize := ofBe32 rawSize
      if file.length < coff + 4 + 4 + prSize + 4 then (.error, coff + 4)
      else
        let buf := seg file (coff + 8) prSize
        if buf.length < prSize then (.error, coff + 4)
        else
          let crc := crc32 crc buf
          let prCrc := seg file (coff + 8 + prSize) 4
          if prCrc.length < 4 then (.error, coff + 4)
          else if crc32 crc prCrc ≠ crc32Verify then (.error, coff + 4)
          else
            let doff := strnlen buf
            if prSize ≤ doff then (.error, coff + 4)
            else
              let retval := 4 + 4 + prSize + 4
              (.record
                { key := cstrOf buf
                  data := buf.drop (doff + 1)
                  dirty := false
                  used := retval + padLen retval }
                retval, coff + 8 + prSize + 4)

/-- `psfs_record_read`: the position is aligned to four bytes first. -/
def recordRead (file : List UInt8) (pos : Nat) : ReadResult × Nat :=
  let padlen := padLen pos
  if padlen ≠ 0 then
    let wdata := seg file pos padlen
    if wdata = [] then (.eof, pos)
    else if wdata.length < padlen then (.error, pos + wdata.length)
    else recordReadAt file (pos + padlen)
  else recordReadAt file pos

theorem recordRead_aligned {pos : Nat} (h : pos % 4 = 0) (file : List UInt8) :
    recordRead file pos = recordReadAt file pos := by
  simp [recordRead, padLen_of_aligned h]

/-- A read at an aligned offset can report the end of the file, stop at a magic number or a size
that the file cuts short, go on four bytes later, or accept a record. -/
theorem recordReadAt_cases (coff : Nat) :
    (seg file coff 4 = [] ∧ recordReadAt file coff = (.eof, coff)) ∨
    (seg file coff 4 ≠ [] ∧ (seg file coff 4).length < 4 ∧
      recordReadAt file coff = (.error, coff + (seg file coff 4).length)) ∨
    (seg file coff 4 = magic ∧ (seg file (coff + 4) 4).length < 4 ∧
      recordReadAt file coff = (.error, coff + 4 + (seg file (coff + 4) 4).length)) ∨
    ((seg file coff 4).length = 4 ∧ recordReadAt file coff = (.error, coff + 4)) ∨
    (seg file coff 4 = magic ∧ coff + 12 + ofBe32 (seg file (coff + 4) 4) ≤ file.length ∧
      ∃ pr n, recordReadAt file coff =
        (.record pr n, coff + 12 + ofBe32 (seg file (coff + 4) 4))) := by
  have hlen := length_seg file coff 4
  by_cases hnil : seg file coff 4 = []
  · refine .inl ⟨hnil, ?_⟩
    simp [recordReadAt, if_pos hnil]
  by_cases hshort : (seg file coff 4).length < 4
  · refine .inr (.inl ⟨hnil, hshort, ?_⟩)
    simp [recordReadAt, if_neg hnil, if_pos hshort]
  have hfour : (seg file coff 4).length = 4 := by omega
  by_cases hmagic : seg file coff 4 = magic
  · by_cases hsize : (seg file (coff + 4) 4).length < 4
    · refine .inr (.inr (.inl ⟨hmagic, hsize, ?_⟩))
      simp [recordReadAt, if_neg hnil, if_neg hshort, if_neg (not_not_intro hmagic), if_pos hsize]
    by_cases hend : file.length < coff + 4 + 4 + ofBe32 (seg file (coff + 4) 4) + 4
    · refine .inr (.inr (.inr (.inl ⟨hfour, ?_⟩)))
      simp [recordReadAt, if_neg hnil, if_neg hshort, if_neg hsize,
        if_pos hend]
    have hnext : coff + 8 + ofBe32 (seg file (coff + 4) 4) + 4 =
        coff + 12 + ofBe32 (seg file (coff + 4) 4) := by omega
    refine .inr (.inr (.inr ?_))
    simp only [recordReadAt, if_neg (not_not_intro hmagic),
      if_neg hend]
    split_ifs
    · exact .inl ⟨hfour, rfl⟩
    · exact .inl ⟨hfour, rfl⟩
    · exact .inl ⟨hfour, rfl⟩
    · exact .inl ⟨hfour, rfl⟩
    · exact .inr ⟨hmagic, by omega, _, _, congrArg (Prod.mk _) hnext⟩
  · refine .inr (.inr (.inr (.inl ⟨hfour, ?_⟩)))
    simp [recordReadAt, if_neg hnil, if_neg hshort, if_pos hmagic]

/-! ## A read looks only at what follows its position -/

/-- A read result whose position is counted from `a` on. -/
def shiftPos (a : Nat) (r : ReadResult × Nat) : ReadResult × Nat := (r.1, a + r.2)

/-- A read behind a prefix is the read of the rest, moved by the prefix. -/
theorem recordReadAt_append (pre post : List UInt8) (coff : Nat) :
    recordReadAt (pre ++ post) (pre.length + coff) =
      shiftPos pre.length (recordReadAt post coff) := by
  have hend : ∀ n, (pre ++ post).length < pre.length + (coff + 4 + 4 + n + 4) ↔
      post.length < coff + 4 + 4 + n + 4 := by
    intro n
    rw [length_append]
    omega
  simp only [recordReadAt, Nat.add_assoc pre.length, hend, seg_append_right,
    apply_ite (shiftPos pre.length)]
  rfl

/-- The same for the whole `psfs_record_read`, behind a prefix that ends at a
multiple of four. -/
theorem recordRead_append {pre : List UInt8} (hpre : pre.length % 4 = 0)
    (post : List UInt8) (pos : Nat) :
    recordRead (pre ++ post) (pre.length + pos) =
      shiftPos pre.length (recordRead post pos) := by
  simp only [recordRead, padLen_add_aligned hpre, seg_append_right, Nat.add_assoc pre.length,
    recordReadAt_append, apply_ite (shiftPos pre.length)]
  rfl

/-! ## Reading back a record -/

/-- The record that `psfs_record_read` makes of a key and its data. -/
def readBack (key : CStr) (data : List UInt8) : Record where
  key := key
  data := data
  dirty := false
  used :=
    let retval := (recordContent key data).length
    retval + padLen retval

/-- A record at the start of a file is read back, whatever follows it. -/
theorem recordReadAt_content {key : CStr} {data : List UInt8} (hfits : Fits key data)
    (post : List UInt8) :
    recordReadAt (recordContent key data ++ post) 0 =
      (.record (readBack key data) (recordContent key data).length,
        (recordContent key data).length) := by
  set size := (payload key data).length with hsize
  set crc := crcBytes (crc32 0 (recordBody key data)) with hcrc
  set file := recordContent key data ++ post with hfile
  have hfile' : file = magic ++ (be32 size ++ (payload key data ++ (crc ++ post))) := by
    simp [hfile, recordContent, recordBody, hcrc, hsize]
  have hmagic : seg file 0 4 = magic := by
    exact seg_append_middle [] magic _
  have hraw : seg file 4 4 = be32 size := by
    exact seg_append_middle magic (be32 size) _
  have hbuf : seg file 8 size = payload key data := by
    rw [hfile']
    exact seg_append_middle (magic ++ be32 size) (payload key data) _
  have hprcrc : seg file (8 + size) 4 = crc := by
    have hlen : (magic ++ be32 size ++ payload key data).length = 8 + size := by
      simp only [length_append, length_magic, length_be32, ← hsize]
    rw [hfile', ← hlen]
    have := seg_append_middle (magic ++ be32 size ++ payload key data) crc post
    simpa [hcrc] using this
  have hlenfile : file.length = size + 12 + post.length := by
    rw [length_append, length_recordContent]
  have hofBe : ofBe32 (be32 size) = size := ofBe32_be32_of_lt hfits
  have hverify : crc32 (crc32 (crc32 (crc32 0 magic) (be32 size)) (payload key data)) crc =
      crc32Verify := by
    have hbody : magic ++ be32 size ++ payload key data = recordBody key data := rfl
    rw [← crc32_append 0 magic, ← crc32_append 0 _ (payload key data), hbody, crc32_crcBytes]
  have hdoff : strnlen (payload key data) = key.1.length := by
    rw [payload, strnlen, takeWhile_cstr]
  have hkey : cstrOf (payload key data) = key := cstrOf_append key data
  have hdata : (payload key data).drop (key.1.length + 1) = data := by
    simp [payload]
  have hlt : ¬ size ≤ key.1.length := by
    rw [hsize, length_payload]
    omega
  have hlencrc : crc.length = 4 := length_crcBytes _
  have hcontent : (recordContent key data).length = 4 + 4 + size + 4 := by
    rw [length_recordContent]
    omega
  simp only [recordReadAt, hmagic, hraw, hofBe, hbuf, hprcrc, hverify, hdoff,
    hkey, hdata, hcontent, readBack]
  rw [if_neg (by simp [← length_eq_zero_iff]), if_neg (by rw [length_magic]; omega),
    if_neg (not_not_intro rfl), if_neg (by rw [length_be32]; omega),
    if_neg (by omega), if_neg (by omega), if_neg (by omega), if_neg (by simp), if_neg hlt]

/-- What `psfs_record_write` appends has the length that `psfs_record_init` computed. -/
theorem length_recordBytes : (recordBytes key data).length = (recordInit key data).used := by
  simp [recordBytes, recordInit, length_recordContent, length_payload]

/-- The padding behind a record is there to be skipped by the next read. -/
theorem recordRead_next {pre : List UInt8} (hpre : pre.length % 4 = 0) (key : CStr)
    (data post : List UInt8) :
    recordRead (pre ++ recordBytes key data ++ post)
        (pre.length + (recordContent key data).length) =
      recordReadAt (pre ++ recordBytes key data ++ post)
        (pre.length + (recordBytes key data).length) := by
  set n := (recordContent key data).length with hn
  set pad := replicate (padLen n) padding with hpad
  have hfile : pre ++ recordBytes key data ++ post =
      pre ++ recordContent key data ++ (pad ++ post) := by
    simp [recordBytes, ← hn, ← hpad]
  have hlen : pre.length + (recordBytes key data).length = pre.length + n + padLen n := by
    rw [recordBytes, length_append, length_replicate, Nat.add_assoc]
  have hskip : seg (pre ++ recordBytes key data ++ post) (pre.length + n) (padLen n) = pad := by
    have := seg_append_middle (pre ++ recordContent key data) pad post
    rwa [length_append, hpad, length_replicate, ← hfile] at this
  rw [recordRead, padLen_add_aligned hpre, hlen]
  by_cases hzero : padLen n = 0
  · rw [if_neg (not_not_intro hzero), hzero, add_zero]
  have hne : pad ≠ [] := by
    rw [Ne, replicate_eq_nil_iff]
    exact hzero
  rw [if_pos hzero, hskip, if_neg hne, if_neg (by simp [hpad])]

/-- The codec: at an aligned end of a file the write of a record appends `pr_used` bytes, and a
read from there gives back the key, the data, `pr_used` and the byte count of the write, whatever
follows.  The read after that starts at the end of the appended bytes. -/
theorem record_codec {pre : List UInt8} (hpre : pre.length % 4 = 0) {key : CStr}
    {data : List UInt8} (hfits : Fits key data) (post : List UInt8) :
    ∃ (bytes : List UInt8) (n pos : Nat),
      recordWrite pre (recordInit key data) .ok = (pre ++ bytes, recordInit key data, (n : Int)) ∧
      bytes.length = (recordInit key data).used ∧
      recordRead (pre ++ bytes ++ post) pre.length = (.record (recordInit key data) n, pos) ∧
      recordRead (pre ++ bytes ++ post) pos =
        recordReadAt (pre ++ bytes ++ post) (pre ++ bytes).length := by
  refine ⟨recordBytes key data, (recordContent key data).length,
    pre.length + (recordContent key data).length, ?_, length_recordBytes key data, ?_, ?_⟩
  · rw [recordWrite_eq]
    have hbytes : writeBytes pre (recordInit key data) = recordBytes key data := by
      rw [writeBytes, padLen_of_aligned hpre]
      rfl
    simp only [hbytes]
    rfl
  · have hinit : readBack key data = recordInit key data := by
      have hused := length_recordBytes key data
      rw [recordBytes, length_append, length_replicate] at hused
      rw [readBack, hused]
      rfl
    have hread := recordReadAt_content hfits
      (replicate (padLen (recordContent key data).length) padding ++ post)
    rw [hinit] at hread
    have happend := recordReadAt_append pre (recordBytes key data ++ post) 0
    rw [add_zero, recordBytes, append_assoc, hread] at happend
    rw [recordRead_aligned hpre, recordBytes, append_assoc, append_assoc, happend]
    rfl
  · rw [recordRead_next hpre, length_append]

/-- A key of two bytes and five bytes of data behind eight bytes of a file. -/
theorem record_codec_twoByteKey :
    let pre : List UInt8 := [4, 1, 0, 0, 9, 9, 9, 9]
    let pr := recordInit ⟨[97, 98], by decide⟩ [1, 0, 3, 0, 5]
    pre.length % 4 = 0 ∧ Fits pr.key pr.data ∧
    ∃ (bytes : List UInt8) (n pos : Nat),
      recordWrite pre pr .ok = (pre ++ bytes, pr, (n : Int)) ∧ bytes.length = pr.used ∧
      recordRead (pre ++ bytes ++ [7, 7]) pre.length = (.record pr n, pos) ∧
      recordRead (pre ++ bytes ++ [7, 7]) pos =
        recordReadAt (pre ++ bytes ++ [7, 7]) (pre ++ bytes).length :=
  ⟨rfl, by decide, record_codec rfl (by decide) [7, 7]⟩

end OpenSync.Psfs
