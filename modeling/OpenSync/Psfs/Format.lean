import OpenSync.Psfs.Journal

/-!
# What the reader accepts

The converse of the codec: wherever `psfs_record_read` accepts a record, its bytes stand in the
file as `psfs_record_write` writes them.
-/

namespace OpenSync.Psfs

open OpenSync.Lib List

variable {file : List UInt8} {coff n p : Nat} {pr : Record}

theorem ofBe32_spec {l : List UInt8} (h : l.length = 4) :
    be32 (ofBe32 l) = l ∧ ofBe32 l < 2 ^ 32 := by
  rcases l with _ | ⟨a, _ | ⟨b, _ | ⟨c, _ | ⟨d, _ | _⟩⟩⟩⟩ <;> simp at h
  have ha := a.toNat_lt
  have hb := b.toNat_lt
  have hc := c.toNat_lt
  have hd := d.toNat_lt
  simp only [be32, ofBe32, cons.injEq, ← UInt8.toNat_inj, UInt8.toNat_ofNat', and_true]
  omega

/-- The four bytes that complete the check are the CRC. -/
theorem eq_crcBytes {m tail : List UInt8} (len : tail.length = 4)
    (h : crc32 (crc32 0 m) tail = crc32Verify) : tail = crcBytes (crc32 0 m) := by
  rw [← crc32_crcBytes (crc32 0 m)] at h
  exact Crc.foldl_update_inj crc32Poly (by decide) _ (by omega) (by simp [len])
    (BitVec.not_inj.mp h)

theorem eq_payload {buf : List UInt8} (h : strnlen buf < buf.length) :
    buf = payload (cstrOf buf) (buf.drop (strnlen buf + 1)) := by
  simp only [payload, cstrOf, strnlen] at h ⊢
  induction buf with
  | nil => simp at h
  | cons b buf ih =>
    by_cases hb : b = 0
    · simp [hb]
    · rw [takeWhile_cons_of_pos (by simpa using hb), length_cons, length_cons] at h
      rw [takeWhile_cons_of_pos (by simpa using hb), length_cons, drop_succ_cons, cons_append,
        ← ih (by omega)]

theorem drop_eq_seg (file : List UInt8) (pos n : Nat) :
    file.drop pos = seg file pos n ++ file.drop (pos + n) := by
  rw [seg, ← drop_drop, take_append_drop]

/-- A record that is read at an aligned offset stands there. -/
theorem recordReadAt_record (h : recordReadAt file coff = (.record pr n, p)) :
    Fits pr.key pr.data ∧ pr = readBack pr.key pr.data ∧
      n = (recordContent pr.key pr.data).length ∧ p = coff + n ∧
      ∃ post, file.drop coff = recordContent pr.key pr.data ++ post := by
  unfold recordReadAt at h
  simp only at h
  split_ifs at h with hnil hshort hmagic hraw hend hbuf hcrc hverify hdoff
  all_goals simp only [Prod.mk.injEq, ReadResult.record.injEq, reduceCtorEq, false_and] at h
  obtain ⟨⟨rfl, rfl⟩, rfl⟩ := h
  set raw := seg file (coff + 4) 4 with hr
  set buf := seg file (coff + 8) (ofBe32 raw) with hb
  obtain ⟨hsize, hlt⟩ := ofBe32_spec (show raw.length = 4 by rw [hr, length_seg] at *; omega)
  have hlen : buf.length = ofBe32 raw := length_seg_of_le (by omega)
  have hpay := eq_payload (show strnlen buf < buf.length by omega)
  set key := cstrOf buf
  set data := buf.drop (strnlen buf + 1)
  have hbody : recordBody key data = seg file coff 4 ++ raw ++ buf := by
    rw [recordBody, ← hpay, hlen, hsize, not_not.mp hmagic]
  rw [← crc32_append 0, ← crc32_append 0, ← hbody] at hverify
  have hcontent : recordContent key data =
      seg file coff 4 ++ raw ++ buf ++ seg file (coff + 8 + ofBe32 raw) 4 := by
    rw [recordContent, ← hbody, eq_crcBytes (length_seg_of_le (by omega)) (not_not.mp hverify)]
  have hn : (recordContent key data).length = 4 + 4 + ofBe32 raw + 4 := by
    rw [length_recordContent, ← hpay, hlen]
    omega
  refine ⟨?_, ?_, hn.symm, by omega, file.drop (coff + 8 + ofBe32 raw + 4), ?_⟩
  · rw [Fits, ← hpay, hlen]
    exact hlt
  · simp [readBack, hn]
  · rw [hcontent, append_assoc, append_assoc, append_assoc, ← drop_eq_seg, hb, ← drop_eq_seg,
      hr, ← drop_eq_seg, ← drop_eq_seg]

/-- `psfs_record_read` accepts a record exactly where, behind the padding, the bytes of the record
stand as `psfs_record_write` writes them. -/
theorem recordRead_accepts_iff (file : List UInt8) (pos n p : Nat) (pr : Record) :
    recordRead file pos = (.record pr n, p) ↔
      Fits pr.key pr.data ∧ pr = readBack pr.key pr.data ∧
        n = (recordContent pr.key pr.data).length ∧ p = pos + padLen pos + n ∧
        recordContent pr.key pr.data <+: file.drop (pos + padLen pos) := by
  constructor
  · intro h
    rcases recordRead_cases file pos with heof | ⟨_, herr, _⟩ | ⟨hat, -⟩
    · simp [heof] at h
    · simp [herr] at h
    · obtain ⟨hfits, hpr, hn, hp, post, hdrop⟩ := recordReadAt_record (hat ▸ h)
      exact ⟨hfits, hpr, hn, hp, post, hdrop.symm⟩
  rintro ⟨hfits, hpr, rfl, rfl, post, hdrop⟩
  have hlen := congrArg length hdrop
  rw [length_append, length_recordContent, length_drop] at hlen
  have hread := recordReadAt_append (file.take (pos + padLen pos))
    (recordContent pr.key pr.data ++ post) 0
  rw [recordReadAt_content hfits, hdrop, take_append_drop, length_take_of_le (by omega),
    shiftPos, ← hpr] at hread
  rw [recordRead_skip (by omega)]
  exact hread

end OpenSync.Psfs
