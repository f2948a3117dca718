import OpenSync.Psfs.Record

/-!
# Scanning a journal

`psfs_load` calls `psfs_record_read` until it reports the end of the file.  `scan` is the list
of the records that this loop accepts, and `scanFrom` the same without fuel, because every other
read moves the position (`recordRead_progress`).

* `scanFrom_append`: the scan behind an aligned prefix is the scan of the rest;
* `scanFrom_recordBytes`: a complete record is accepted, and the scan goes on behind its padding;
* `scanFrom_skip`: an aligned position where no record is accepted costs four bytes.

A journal of complete records is scanned to its records (`scanFrom_journal`).
-/

namespace OpenSync.Psfs

open OpenSync.Lib List

/-! ## Every read moves the position -/

variable {file : List UInt8} {pos : Nat}

theorem recordReadAt_progress (file : List UInt8) (coff : Nat) :
    recordReadAt file coff = (.eof, coff) ∨
    coff < (recordReadAt file coff).2 ∧ (recordReadAt file coff).2 ≤ file.length := by
  have hmagic := length_seg file coff 4
  have hsize := length_seg file (coff + 4) 4
  rcases recordReadAt_cases file coff with ⟨_, hr⟩ | ⟨hne, _, hr⟩ | ⟨hm, _, hr⟩ | ⟨_, hr⟩ |
    ⟨_, hlen, pr, n, hr⟩
  · exact .inl hr
  · have hpos : 0 < (seg file coff 4).length := length_pos_of_ne_nil hne
    rw [hr]
    omega
  · rw [hm, length_magic] at hmagic
    rw [hr]
    omega
  · rw [hr]
    omega
  · rw [hr]
    omega

/-- A read stops in the padding in front of a record, or goes on at the aligned offset. -/
theorem recordRead_cases (file : List UInt8) (pos : Nat) :
    recordRead file pos = (.eof, pos) ∨
    (∃ n, recordRead file pos = (.error, pos + n) ∧ 0 < n ∧ n < padLen pos ∧
      pos + n ≤ file.length) ∨
    recordRead file pos = recordReadAt file (pos + padLen pos) ∧
      pos + padLen pos ≤ max pos file.length := by
  have hseg := length_seg file pos (padLen pos)
  by_cases hpad : padLen pos = 0
  · simp [recordRead, hpad]
  by_cases hnil : seg file pos (padLen pos) = []
  · simp [recordRead, hpad, hnil]
  have hpos : 0 < (seg file pos (padLen pos)).length := length_pos_of_ne_nil hnil
  by_cases hlen : (seg file pos (padLen pos)).length < padLen pos
  · exact .inr (.inl ⟨_, by simp [recordRead, hpad, hnil, hlen], hpos, hlen, by omega⟩)
  · exact .inr (.inr ⟨by simp [recordRead, hpad, hnil, hlen], by omega⟩)

/-- A read that does not report the end of the file moves the position
forward, and not past the end. -/
theorem recordRead_progress (h : (recordRead file pos).1 ≠ .eof) :
    pos < (recordRead file pos).2 ∧ (recordRead file pos).2 ≤ file.length := by
  rcases recordRead_cases file pos with heof | ⟨n, hr, hpos, _, hle⟩ | ⟨hat, _⟩
  · simp [heof] at h
  · rw [hr]
    omega
  · rw [hat] at h ⊢
    rcases recordReadAt_progress file (pos + padLen pos) with heof | ⟨hlt, hle⟩
    · simp [heof] at h
    · omega

/-- The position moves until the end of the file, and a failed read skips no aligned offset
unless its `read` of the size was short. -/
theorem recordRead_terminates (file : List UInt8) (pos : Nat) :
    ((recordRead file pos).1 = .eof ∨ pos < (recordRead file pos).2) ∧
    (recordRead file pos).2 ≤ max pos file.length ∧
    ((recordRead file pos).1 = .error →
      (recordRead file pos).2 ≤ pos + padLen pos + 4 ∧
        (∀ off, off % 4 = 0 → pos + padLen pos < off → (recordRead file pos).2 ≤ off) ∨
      seg file (pos + padLen pos) 4 = magic ∧ (seg file (pos + padLen pos + 4) 4).length < 4) ∧
    ∃ n, (recordRead file ((fun p => (recordRead file p).2)^[n] pos)).1 = .eof := by
  refine ⟨or_iff_not_imp_left.mpr fun h => (recordRead_progress h).1, ?_, fun herr => ?_, ?_⟩
  · rcases recordRead_cases file pos with heof | ⟨n, hr, _, _, hle⟩ | ⟨hat, hle⟩
    · simp [heof]
    · rw [hr]
      exact le_max_of_le_right hle
    · rw [hat]
      rcases recordReadAt_progress file (pos + padLen pos) with heof | ⟨_, hend⟩
      · rwa [heof]
      · exact le_max_of_le_right hend
  · suffices h : (recordRead file pos).2 ≤ pos + padLen pos + 4 ∨
        seg file (pos + padLen pos) 4 = magic ∧ (seg file (pos + padLen pos + 4) 4).length < 4 by
      have aligned : (pos + padLen pos) % 4 = 0 := add_padLen_mod pos
      exact h.imp_left fun hle => ⟨hle, fun off hoff hlt => by omega⟩
    rcases recordRead_cases file pos with heof | ⟨n, hr, _, hlt, _⟩ | ⟨hat, _⟩
    · simp [heof] at herr
    · rw [hr]
      exact .inl (by omega)
    · rw [hat] at herr ⊢
      rcases recordReadAt_cases file (pos + padLen pos) with ⟨_, hr⟩ | ⟨_, hlt, hr⟩ |
        ⟨hmagic, hsize, _⟩ | ⟨_, hr⟩ | ⟨_, _, pr, n, hr⟩
      · simp [hr] at herr
      · rw [hr]
        exact .inl (by omega)
      · exact .inr ⟨hmagic, hsize⟩
      · rw [hr]
        exact .inl le_rfl
      · simp [hr] at herr
  · -- every read but the last one comes closer to the end of the file
    induction h : file.length - pos using Nat.strong_induction_on generalizing pos with
    | _ d ih =>
      by_cases heof : (recordRead file pos).1 = .eof
      · exact ⟨0, heof⟩
      have := recordRead_progress heof
      obtain ⟨n, hn⟩ := ih _ (by omega) (recordRead file pos).2 rfl
      exact ⟨n + 1, hn⟩

/-! ## The scan -/

/-- The records that the read loop accepts from position `pos` on. -/
def scan : Nat → List UInt8 → Nat → List Record
  | 0, _, _ => []
  | fuel + 1, file, pos =>
    match recordRead file pos with
    | (.eof, _) => []
    | (.error, p) => scan fuel file p
    | (.record pr _, p) => pr :: scan fuel file p

private theorem scan_fuel_aux (file : List UInt8) :
    ∀ (fuel pos extra : Nat), file.length < pos + fuel →
      scan (fuel + extra) file pos = scan fuel file pos := by
  intro fuel
  induction fuel with
  | zero =>
    intro pos extra h
    -- behind the end of the file the first read reports it
    cases extra with
    | zero => rfl
    | succ extra =>
      have heof : (recordRead file pos).1 = .eof := by
        by_contra hne
        have := recordRead_progress hne
        omega
      rw [zero_add, scan, scan]
      split <;> simp_all
  | succ fuel ih =>
    intro pos extra h
    rw [Nat.succ_add, scan, scan]
    have hprog := @recordRead_progress file pos
    split
    · rfl
    · rename_i p heq
      rw [heq] at hprog
      have := hprog (by simp)
      exact ih p extra (by omega)
    · rename_i pr n p heq
      rw [heq] at hprog
      have := hprog (by simp)
      rw [ih p extra (by omega)]

section

variable (file : List UInt8) (pos : Nat)

/-- Extra fuel changes nothing, as soon as the fuel passes the end of the
file. -/
theorem scan_fuel {fuel fuel' : Nat} (hfuel : file.length < pos + fuel) (hle : fuel ≤ fuel') :
    scan fuel' file pos = scan fuel file pos := by
  obtain ⟨extra, rfl⟩ := Nat.exists_eq_add_of_le hle
  exact scan_fuel_aux file fuel pos extra hfuel

/-- The scan with enough fuel. -/
def scanFrom : List Record :=
  scan (file.length + 1) file pos

theorem scanFrom_eq : scanFrom file pos =
      match recordRead file pos with
      | (.eof, _) => []
      | (.error, p) => scanFrom file p
      | (.record pr _, p) => pr :: scanFrom file p := by
  have hprog := @recordRead_progress file pos
  rw [scanFrom, scan]
  split
  · rfl
  · rename_i p heq
    rw [heq] at hprog
    have := hprog (by simp)
    exact (scan_fuel file p (by omega) (Nat.le_succ _)).symm
  · rename_i pr n p heq
    rw [heq] at hprog
    have := hprog (by simp)
    rw [scanFrom, scan_fuel file p (by omega) (Nat.le_succ _)]

end

/-! ## The scan behind a prefix -/

private theorem scan_append_aux {pre : List UInt8} (hpre : pre.length % 4 = 0) (post : List UInt8) :
    ∀ (fuel pos : Nat), scan fuel (pre ++ post) (pre.length + pos) = scan fuel post pos := by
  intro fuel
  induction fuel with
  | zero =>
    intro pos
    rfl
  | succ fuel ih =>
    intro pos
    rw [scan, scan, recordRead_append hpre]
    rcases recordRead post pos with ⟨r, p⟩
    cases r with
    | eof => rfl
    | error => exact ih p
    | record pr n => exact congrArg (pr :: ·) (ih p)

/-- The scan behind a prefix that ends at a multiple of four is the scan of
the rest. -/
theorem scanFrom_append {pre : List UInt8} (hpre : pre.length % 4 = 0)
    (post : List UInt8) (pos : Nat) :
    scanFrom (pre ++ post) (pre.length + pos) = scanFrom post pos := by
  rw [scanFrom, scan_append_aux hpre]
  refine scan_fuel post pos ?_ ?_
  · omega
  · simp

/-- The padding is skipped if the file goes on behind it. -/
theorem recordRead_skip (h : pos + padLen pos ≤ file.length) :
    recordRead file pos = recordReadAt file (pos + padLen pos) := by
  have hlen := length_seg_of_le h
  by_cases hpad : padLen pos = 0
  · simp [recordRead, hpad]
  have hnil : seg file pos (padLen pos) ≠ [] := ne_nil_of_length_pos (by omega)
  simp [recordRead, hpad, hnil, hlen]

/-- An unaligned position is scanned from the next multiple of four on. -/
theorem scanFrom_align (h : pos + padLen pos ≤ file.length) :
    scanFrom file pos = scanFrom file (pos + padLen pos) := by
  rw [scanFrom_eq, recordRead_skip h, ← recordRead_aligned (add_padLen_mod pos), ← scanFrom_eq]

theorem scanFrom_end (h : file.length ≤ pos) : scanFrom file pos = [] := by
  have heof : (recordRead file pos).1 = .eof := by
    by_contra hne
    have := recordRead_progress hne
    omega
  rw [scanFrom_eq]
  split <;> simp_all

@[simp] theorem scanFrom_nil : scanFrom [] 0 = [] := scanFrom_end (Nat.le_refl 0)

/-- At an aligned position where the read fails and goes on four bytes
later. -/
theorem scanFrom_skip (hpos : pos % 4 = 0) (h : recordReadAt file pos = (.error, pos + 4)) :
    scanFrom file pos = scanFrom file (pos + 4) := by
  have hread : recordRead file pos = (.error, pos + 4) := by
    rw [recordRead_aligned hpos, h]
  rw [scanFrom_eq, hread]

/-! ## Complete records -/

/-- A complete record is accepted, and the scan goes on behind it. -/
theorem scanFrom_recordBytes {key : CStr} {data : List UInt8} (hfits : Fits key data)
    (post : List UInt8) :
    scanFrom (recordBytes key data ++ post) 0 = readBack key data :: scanFrom post 0 := by
  set content := recordContent key data with hcontent
  set pad := replicate (padLen content.length) padding with hpad
  have hfile : recordBytes key data ++ post = content ++ (pad ++ post) := by
    rw [recordBytes, append_assoc]
  have hread : recordRead (recordBytes key data ++ post) 0 =
      (.record (readBack key data) content.length, content.length) := by
    rw [hfile, recordRead_aligned (Nat.zero_mod 4), recordReadAt_content hfits]
  have hbytes : (recordBytes key data).length = content.length + padLen content.length := by
    rw [recordBytes, length_append, length_replicate]
  have hlen : content.length + padLen content.length ≤ (recordBytes key data ++ post).length := by
    rw [length_append]
    omega
  rw [scanFrom_eq, hread]
  dsimp only
  rw [scanFrom_align hlen, ← hbytes]
  exact congrArg _ (scanFrom_append (length_recordBytes_mod key data) post 0)

/-- The journal of a list of records: their bytes, one after another. -/
def journal (rs : List (CStr × List UInt8)) : List UInt8 :=
  rs.flatMap (fun r => recordBytes r.1 r.2)

@[simp] theorem journal_cons (r : CStr × List UInt8) (rs : List (CStr × List UInt8)) :
    journal (r :: rs) = recordBytes r.1 r.2 ++ journal rs := by
  simp [journal]

@[simp] theorem journal_append (rs rs' : List (CStr × List UInt8)) :
    journal (rs ++ rs') = journal rs ++ journal rs' := by
  simp [journal]

theorem length_journal_mod (rs : List (CStr × List UInt8)) : (journal rs).length % 4 = 0 := by
  induction rs with
  | nil => rfl
  | cons r rs ih =>
    have := length_recordBytes_mod r.1 r.2
    rw [journal_cons, length_append]
    omega

/-- The scan of a journal is the list of its records, and then what follows. -/
theorem scanFrom_journal {rs : List (CStr × List UInt8)} (hfits : ∀ r ∈ rs, Fits r.1 r.2)
    (post : List UInt8) :
    scanFrom (journal rs ++ post) 0 = rs.map (fun r => readBack r.1 r.2) ++ scanFrom post 0 := by
  induction rs with
  | nil => rfl
  | cons r rs ih =>
    rw [journal_cons, append_assoc, scanFrom_recordBytes (hfits r (by simp)),
      ih (fun r' hr' => hfits r' (by simp [hr']))]
    rfl

end OpenSync.Psfs
