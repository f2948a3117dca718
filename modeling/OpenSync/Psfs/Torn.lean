import OpenSync.Psfs.Replay

/-!
# A torn record at the end of a journal

A write that is cut short leaves a prefix of a record behind the journal.  The reader tries
every multiple of four, so the prefix is harmless as long as nothing is accepted inside it:
`scanFrom_of_none_accepted` at the end of the file, `scanFrom_skip_to` before another record.
A read is accepted only where the magic number stands and the size field stays inside the file
(`Accepts.header`).

The reader accepts a record that misses only its padding, so a tear there loses nothing
(`load_torn_padding`).
-/

namespace OpenSync.Psfs

open OpenSync.Lib List

/-! ## Where a record is accepted -/

/-- A read at this offset returns a record. -/
def Accepts (file : List UInt8) (off : Nat) : Prop :=
  ∃ pr n, (recordReadAt file off).1 = .record pr n

variable {file : List UInt8} {off : Nat} {data torn : List UInt8}

/-- A record is accepted only at the magic number and with a size inside the file. -/
theorem Accepts.header (h : Accepts file off) :
    seg file off 4 = magic ∧ off + 12 + ofBe32 (seg file (off + 4) 4) ≤ file.length := by
  obtain ⟨pr, n, h⟩ := h
  rcases recordReadAt_cases file off with ⟨_, hr⟩ | ⟨_, _, hr⟩ | ⟨_, _, hr⟩ | ⟨_, hr⟩ |
    ⟨hmagic, hlen, _⟩
  · simp [hr] at h
  · simp [hr] at h
  · simp [hr] at h
  · simp [hr] at h
  · exact ⟨hmagic, hlen⟩

/-- With eight bytes to read, a read that accepts nothing goes on four bytes
later. -/
theorem recordReadAt_of_not_accepts (h : ¬ Accepts file off) (hlen : off + 8 ≤ file.length) :
    recordReadAt file off = (.error, off + 4) := by
  have hm : (seg file off 4).length = 4 := length_seg_of_le (by omega)
  have hs : (seg file (off + 4) 4).length = 4 := length_seg_of_le (by omega)
  rcases recordReadAt_cases file off with ⟨hnil, _⟩ | ⟨_, hlt, _⟩ | ⟨_, hlt, _⟩ | ⟨_, hr⟩ |
    ⟨_, _, pr, n, hr⟩
  · rw [hnil] at hm
    simp at hm
  · omega
  · omega
  · exact hr
  · exact absurd ⟨pr, n, congrArg Prod.fst hr⟩ h

/-! ## Scanning where nothing is accepted -/

/-- A file in which no offset is accepted has no records. -/
theorem scanFrom_of_none_accepted (h : ∀ off, off % 4 = 0 → ¬ Accepts file off) (pos : Nat) :
    scanFrom file pos = [] := by
  have hread : ∀ pos pr n, (recordRead file pos).1 ≠ .record pr n := by
    intro pos pr n he
    rw [recordRead] at he
    dsimp only at he
    split at he
    · split at he
      · simp at he
      · split at he
        · simp at he
        · exact h _ (add_padLen_mod pos) ⟨pr, n, he⟩
    · rename_i hpad
      have hpos : pos % 4 = 0 := by
        have := add_padLen_mod pos
        rw [not_not.mp hpad] at this
        exact this
      exact h pos hpos ⟨pr, n, he⟩
  have hscan : ∀ fuel pos, scan fuel file pos = [] := by
    intro fuel
    induction fuel with
    | zero => intro pos; rfl
    | succ fuel ih =>
      intro pos
      rw [scan]
      cases hr : recordRead file pos with
      | mk r p =>
        cases r with
        | eof => rfl
        | error => exact ih p
        | record pr n => exact absurd (congrArg Prod.fst hr) (hread pos pr n)
  exact hscan _ _

/-- A scan passes `m` words in which nothing is accepted. -/
theorem scanFrom_skip_to (m : Nat) (h : ∀ off, off % 4 = 0 → off < 4 * m → ¬ Accepts file off)
    (hlen : 4 * m + 4 ≤ file.length) : scanFrom file 0 = scanFrom file (4 * m) := by
  induction m with
  | zero => rfl
  | succ m ih =>
    have hacc : ¬ Accepts file (4 * m) := h (4 * m) (by omega) (by omega)
    rw [ih (fun off h4 hlt => h off h4 (by omega)) (by omega),
      scanFrom_skip (by omega) (recordReadAt_of_not_accepts hacc (by omega))]
    rfl

/-! ## A prefix of a record -/

/-- A prefix of a record that ends before the end of its CRC, without the magic
number in its size, key or data. -/
structure TornRecord (key : CStr) (data : List UInt8) (torn : List UInt8) : Prop where
  fits : Fits key data
  isPrefix : torn <+: recordBytes key data
  length_lt : torn.length < (recordContent key data).length
  no_magic : ∀ off, off % 4 = 0 → 4 ≤ off → off + 4 ≤ torn.length →
    off + 4 ≤ (recordBody key data).length → seg torn off 4 ≠ magic

variable {key : CStr}

theorem TornRecord.size_eq (h : TornRecord key data torn) (hlen : 8 ≤ torn.length) :
    ofBe32 (seg torn 4 4) = (payload key data).length := by
  obtain ⟨rest, hrest⟩ := h.isPrefix
  have hseg : seg torn 4 4 = be32 (payload key data).length := by
    rw [← seg_append_left torn rest hlen, hrest]
    exact seg_append_middle magic (be32 _) _
  rw [hseg]
  exact ofBe32_be32_of_lt h.fits

/-- Nothing is accepted in a torn record at the end of a file. -/
theorem TornRecord.not_accepts (h : TornRecord key data torn) (hoff : off % 4 = 0) :
    ¬ Accepts torn off := by
  intro hacc
  obtain ⟨hmagic, hlen⟩ := hacc.header
  have hlt := h.length_lt
  rw [length_recordContent] at hlt
  by_cases hzero : off = 0
  · -- at the record itself the size points behind the tear
    subst hzero
    have hsize := h.size_eq (by omega)
    rw [hsize] at hlen
    omega
  · refine h.no_magic off hoff (by omega) (by omega) ?_ hmagic
    simp only [recordBody, length_append, length_magic, length_be32]
    omega

/-- The last word of a padded file is not the magic number. -/
theorem seg_align_ne_magic (hoff : off % 4 = 0) (hlt : off < torn.length)
    (hge : torn.length < off + 4) (post : List UInt8) : seg (align torn ++ post) off 4 ≠ magic := by
  intro hmagic
  have hpad : torn.length + padLen torn.length = off + 4 := by
    have hmod := add_padLen_mod torn.length
    have hpadlt := padLen_lt torn.length
    omega
  have hlast : (seg (align torn ++ post) off 4)[3]? = some padding := by
    rw [seg, getElem?_take_of_lt (by omega), getElem?_drop, align, append_assoc,
      getElem?_append_right (by omega), getElem?_append_left, getElem?_replicate,
      if_pos (by omega)]
    rw [length_replicate]
    omega
  rw [hmagic] at hlast
  exact absurd hlast (by decide)

theorem align_append {pre : List UInt8} (hpre : pre.length % 4 = 0) (file : List UInt8) :
    align (pre ++ file) = pre ++ align file := by
  rw [align, align, length_append, padLen_add_aligned hpre, append_assoc]

/-- What follows a torn record is read on its own, unless a CRC check inside the
torn record succeeds by accident. -/
theorem TornRecord.scanFrom_align (h : TornRecord key data torn) {post : List UInt8}
    (hpost : 4 ≤ post.length)
    (hcrc : ∀ off, off % 4 = 0 → off < torn.length →
      (off = 0 ∨ (recordBody key data).length < off + 4) → ¬ Accepts (align torn ++ post) off) :
    scanFrom (align torn ++ post) 0 = scanFrom post 0 := by
  have hmod := length_align_mod torn
  have hlen : (align torn).length = torn.length + padLen torn.length := by
    rw [align, length_append, length_replicate]
  have hpadlt := padLen_lt torn.length
  have hnone : ∀ off, off % 4 = 0 → off < 4 * ((align torn).length / 4) →
      ¬ Accepts (align torn ++ post) off := by
    intro off hoff hlt hacc
    by_cases hcase : off = 0 ∨ (recordBody key data).length < off + 4
    · exact hcrc off hoff (by omega) hcase hacc
    by_cases hin : off + 4 ≤ torn.length
    · refine h.no_magic off hoff (by omega) hin (by omega) ?_
      rw [← hacc.header.1, align, append_assoc, seg_append_left _ _ hin]
    · exact seg_align_ne_magic hoff (by omega) (by omega) _ hacc.header.1
  have hskip := scanFrom_skip_to ((align torn).length / 4) hnone (by
    rw [length_append]
    omega)
  have hend : 4 * ((align torn).length / 4) = (align torn).length + 0 := by omega
  rw [hskip, hend, scanFrom_append hmod]

/-- Torn tail recovery.  A prefix of a record that ends before the end of its CRC
and has no magic number in its size, key and data adds nothing to a journal.
A record written behind it comes on top of the journal, unless a CRC check
succeeds by accident at the torn record or where the last bytes of its data
and the first bytes of its CRC make up the magic number. -/
theorem load_torn {rs : List (CStr × List UInt8)} (hrs : ∀ r ∈ rs, Fits r.1 r.2)
    {key : CStr} {data torn : List UInt8} (htorn : TornRecord key data torn)
    (fd : Nat) (flags : Flags) :
    (psfsLoad (psfsOpen fd flags) (journal rs ++ torn)).values =
        (psfsLoad (psfsOpen fd flags) (journal rs)).values ∧
      ∀ pr : Record, Fits pr.key pr.data →
        let file := (recordWrite (journal rs ++ torn) pr .ok).1
        (∀ off, off % 4 = 0 → off < torn.length →
          (off = 0 ∨ (recordBody key data).length < off + 4) →
          ¬ Accepts file ((journal rs).length + off)) →
        (psfsLoad (psfsOpen fd flags) file).values =
          (psfsLoad (psfsOpen fd flags) (journal rs)).values.apply pr.key pr.data := by
  constructor
  · rw [psfsLoad_values, psfsLoad_values, diskMap_journal_append hrs, diskMap_journal hrs,
      scanFrom_of_none_accepted (fun off hoff => htorn.not_accepts hoff)]
    rfl
  intro pr hfits file hcrc
  have hfile : file = journal rs ++ (align torn ++ recordBytes pr.key pr.data) := by
    have hwrite : file = journal rs ++ torn ++ writeBytes (journal rs ++ torn) pr :=
      congrArg Prod.fst (recordWrite_eq _ pr .ok)
    rw [hwrite, append_writeBytes, align_append (length_journal_mod rs), append_assoc]
  have hpost : 4 ≤ (recordBytes pr.key pr.data).length := by
    rw [recordBytes, length_append, length_recordContent]
    omega
  have hscan : scanFrom (align torn ++ recordBytes pr.key pr.data) 0 =
      [readBack pr.key pr.data] := by
    have hone := scanFrom_recordBytes hfits []
    rw [append_nil, scanFrom_nil] at hone
    rw [htorn.scanFrom_align hpost, hone]
    intro off hoff hlt hcase hacc
    refine hcrc off hoff hlt hcase ?_
    rw [hfile]
    rwa [Accepts, recordReadAt_append]
  rw [psfsLoad_values, psfsLoad_values, hfile, diskMap_journal_append hrs, hscan,
    diskMap_journal hrs]
  rfl

/-- A tear in the data of `b = 02 03`, behind a record of `a` and before a record
of `c`. -/
theorem load_torn_data :
    let a : CStr := ⟨[97], by decide⟩
    let b : CStr := ⟨[98], by decide⟩
    let c : Record := recordInit ⟨[99], by decide⟩ [4]
    let torn := (recordBytes b [2, 3]).take 11
    let open0 := psfsOpen 0 ⟨true, true, false⟩
    (psfsLoad open0 (journal [(a, [1])] ++ torn)).values =
        (psfsLoad open0 (journal [(a, [1])])).values ∧
      (psfsLoad open0 (recordWrite (journal [(a, [1])] ++ torn) c .ok).1).values =
        (psfsLoad open0 (journal [(a, [1])])).values.apply c.key c.data := by
  have htorn : TornRecord ⟨[98], by decide⟩ [2, 3]
      ((recordBytes ⟨[98], by decide⟩ [2, 3]).take 11) := by
    refine ⟨by decide, take_prefix _ _, by decide +kernel, ?_⟩
    intro off hoff hge hlen _
    have hlen' : off + 4 ≤ 11 := hlen.trans (length_take_le _ _)
    obtain rfl : off = 4 := by omega
    decide +kernel
  have hrs : ∀ r ∈ [((⟨[97], by decide⟩, [1]) : CStr × List UInt8)], Fits r.1 r.2 := by
    intro r hr
    obtain rfl := mem_singleton.mp hr
    decide
  have h := load_torn hrs htorn 0 ⟨true, true, false⟩
  refine ⟨h.1, h.2 (recordInit ⟨[99], by decide⟩ [4]) (by decide) ?_⟩
  intro off hoff hlt hcase
  have hlt' : off < 11 := hlt.trans_le (length_take_le _ _)
  have hbody : (recordBody ⟨[98], by decide⟩ [2, 3]).length = 12 := by decide +kernel
  obtain rfl : off = 0 := by omega
  rintro ⟨pr, n, hacc⟩
  have herr : (recordReadAt (recordWrite (journal [(⟨[97], by decide⟩, [1])] ++
      (recordBytes ⟨[98], by decide⟩ [2, 3]).take 11)
      (recordInit ⟨[99], by decide⟩ [4]) .ok).1
      ((journal [(⟨[97], by decide⟩, [1])]).length + 0)).1 = .error := by decide +kernel
  rw [herr] at hacc
  simp at hacc

/-- A record that misses only its padding is a strict prefix of the record, and it
is loaded. -/
theorem load_torn_padding :
    let a : CStr := ⟨[97], by decide⟩
    let torn := recordContent a [1]
    let open0 := psfsOpen 0 ⟨true, true, false⟩
    torn <+: recordBytes a [1] ∧ torn.length < (recordBytes a [1]).length ∧
      (∀ off < (recordBody a [1]).length, off % 4 = 0 → 8 ≤ off →
        off + 4 ≤ (recordBody a [1]).length → seg (recordBytes a [1]) off 4 ≠ magic) ∧
      (psfsLoad open0 (journal [] ++ torn)).values a = some [1] ∧
      (psfsLoad open0 (journal [])).values a = none := by
  refine ⟨prefix_append _ _, by decide +kernel, by decide +kernel, by decide +kernel,
    by decide +kernel⟩

end OpenSync.Psfs
