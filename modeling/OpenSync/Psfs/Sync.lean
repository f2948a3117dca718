import OpenSync.Psfs.Cache

/-!
# What a sync does

One specification for each function of the sync path, with every outcome of its system calls:

* `appendLoop_eq`: an append writes the dirty records up to the first write that fails
  (`written`), cleans those, and may leave a torn record behind them (`torn`);
* `pruneLoop_eq`: a prune drops the deleted records, tries every other one and cleans those
  that were written (`prunedRoot`);
* the lemmas on `psfsSyncPrune`: the store and the directory at each `PruneStage`.

Nothing after this module unfolds a sync.
-/

namespace OpenSync.Psfs

open OpenSync.Lib List Record

/-! ## Records and files -/

/-- The key and the data of a record: what the journal keeps of it. -/
def Record.pair (pr : Record) : CStr × List UInt8 := (pr.key, pr.data)

/-- A record that is in the file. -/
def Record.clean (pr : Record) : Record := { pr with dirty := false }

/-- A record that is not a deletion. -/
def Record.isLive (pr : Record) : Bool := pr.data ≠ []

/-- A file with the padding that the next record puts in front of itself. -/
def align (file : List UInt8) : List UInt8 :=
  file ++ List.replicate (padLen file.length) padding

variable (file : List UInt8) {pre post : List Record} {pr : Record} {ps : Store} {rs : List Record}
  {d : Dir} {io : SyncIo}

theorem length_align_mod : (align file).length % 4 = 0 := by
  rw [align, length_append, length_replicate]
  exact add_padLen_mod _

theorem append_writeBytes (pr : Record) :
    file ++ writeBytes file pr = align file ++ recordBytes pr.key pr.data := by
  rw [writeBytes, align, append_assoc]

/-- A file after complete writes of some records. -/
def appendRecords (file : List UInt8) (rs : List Record) : List UInt8 :=
  rs.foldl (fun file pr => file ++ writeBytes file pr) file

/-- Behind an aligned file, complete writes add a journal. -/
theorem appendRecords_of_aligned {file : List UInt8} (h : file.length % 4 = 0)
    (rs : List Record) : appendRecords file rs = file ++ journal (rs.map Record.pair) := by
  induction rs generalizing file with
  | nil => simp [appendRecords, journal]
  | cons pr rs ih =>
    have hpr := length_recordBytes_mod pr.key pr.data
    have hstep : file ++ writeBytes file pr = file ++ recordBytes pr.key pr.data := by
      rw [append_writeBytes, align, padLen_of_aligned h, replicate_zero, append_nil]
    rw [appendRecords, foldl_cons, ← appendRecords, hstep, ih, map_cons, append_assoc]
    · rfl
    · rw [length_append]
      omega

theorem appendRecords_cons (pr : Record) (rs : List Record) :
    appendRecords file (pr :: rs) = align file ++ journal ((pr :: rs).map Record.pair) := by
  have hmod := length_align_mod file
  have hpr := length_recordBytes_mod pr.key pr.data
  rw [appendRecords, foldl_cons, ← appendRecords, append_writeBytes,
    appendRecords_of_aligned, map_cons, append_assoc]
  · rfl
  · rw [length_append]
    omega

/-- The part of a record that a failed write leaves in the file. -/
def torn (file : List UInt8) (pr : Record) (io : WriteIo) : List UInt8 :=
  match io.cut with
  | none => []
  | some n => (writeBytes file pr).take (min n ((writeBytes file pr).length - 1))

/-! ## A record of the cache changed in place -/

theorem keysNodup_middle (h : KeysNodup (pre ++ pr :: post)) :
    ∀ r ∈ pre ++ post, r.key ≠ pr.key := by
  intro r hr he
  have hperm : (pre ++ pr :: post).Perm (pr :: (pre ++ post)) := perm_middle
  have hcons := nodup_cons.mp ((hperm.map key).nodup_iff.mp h)
  exact hcons.1 (mem_map.mpr ⟨r, hr, he⟩)

section

variable {pr' : Record}
  (hroot : ps.root = pre ++ pr :: post) (h : KeysNodup ps.root) (hkey : pr'.key = pr.key)

include hroot h hkey

theorem setRecord_middle : ps.setRecord pr' = { ps with root := (pre ++ [pr']) ++ post } := by
  rw [hroot] at h
  have hid : ∀ l : List Record, (∀ r ∈ l, r ∈ pre ++ post) →
      l.map (fun r => if r.key = pr'.key then pr' else r) = l := by
    intro l hl
    refine (map_congr_left ?_).trans (map_id l)
    intro r hr
    exact if_neg (hkey ▸ keysNodup_middle h r (hl r hr))
  rw [Store.setRecord, hroot, map_append, map_cons, if_pos hkey.symm,
    hid pre (fun r hr => by simp [hr]), hid post (fun r hr => by simp [hr])]
  simp

theorem setRecord_keysNodup : KeysNodup (ps.setRecord pr').root := by
  have hkeys : ((pre ++ [pr']) ++ post).map key = ps.root.map key := by
    simp [hroot, hkey]
  rw [setRecord_middle hroot h hkey, KeysNodup, hkeys]
  exact h

end

theorem remove_middle (h : KeysNodup (pre ++ pr :: post)) :
    Ds.Ordered.remove (pre ++ pr :: post) pr = pre ++ post := by
  have hnot : pr ∉ pre := by
    intro hmem
    have hnodup : (pre ++ pr :: post).Nodup := List.Nodup.of_map _ h
    exact (nodup_append.mp hnodup).2.2 pr hmem pr (by simp) rfl
  exact Ds.Ordered.remove_middle hnot

/-! ## The append loop -/

/-- The records that an append writes before a write fails. -/
def written (write : CStr → WriteIo) (rs : List Record) : List Record :=
  rs.takeWhile (fun pr => (write pr.key).cut.isNone)

/-- The records from the first failed write of an append on. -/
def unwritten (write : CStr → WriteIo) (rs : List Record) : List Record :=
  rs.dropWhile (fun pr => (write pr.key).cut.isNone)

section

variable (write : CStr → WriteIo)

include write

theorem written_append_unwritten (rs : List Record) : written write rs ++ unwritten write rs = rs :=
  takeWhile_append_dropWhile

/-- The file after an append. -/
def appendFile (write : CStr → WriteIo) (rs : List Record) (file : List UInt8) : List UInt8 :=
  let done := appendRecords file (written write rs)
  match unwritten write rs with
  | [] => done
  | pr :: _ => done ++ torn done pr (write pr.key)

/-- The cache after an append: the written records are clean. -/
def appendRoot (write : CStr → WriteIo) : List Record → List Record
  | [] => []
  | pr :: rest =>
    if pr.dirty = false then pr :: appendRoot write rest
    else if (write pr.key).cut.isNone then pr.clean :: appendRoot write rest
    else pr :: rest

theorem appendLoop_eq (rest pre : List Record) (file : List UInt8) (ps : Store)
    (hroot : ps.root = pre ++ rest) (hnodup : KeysNodup ps.root) : appendLoop write rest file ps =
      (appendFile write (rest.filter Record.dirty) file,
        { ps with root := pre ++ appendRoot write rest },
        (unwritten write (rest.filter Record.dirty)).isEmpty) := by
  induction rest generalizing pre file ps with
  | nil =>
    rw [appendRoot, ← hroot]
    rfl
  | cons pr rest ih =>
    rw [appendLoop, appendRoot]
    by_cases hdirty : pr.dirty = false
    · have hpre : ps.root = (pre ++ [pr]) ++ rest := by simp [hroot]
      rw [if_pos hdirty, if_pos hdirty, ih (pre ++ [pr]) file ps hpre hnodup,
        filter_cons_of_neg (by simp [hdirty])]
      simp
    rw [if_neg hdirty, if_neg hdirty, filter_cons_of_pos (by simpa using hdirty), recordWrite_eq]
    cases hcut : (write pr.key).cut with
    | some n =>
      -- the write fails: the record stays as it was and the loop ends
      have hset : ps.setRecord pr = { ps with root := pre ++ pr :: rest } := by
        rw [setRecord_middle hroot hnodup rfl]
        simp
      simp [hset, appendFile, written, unwritten, hcut, torn, appendRecords]
    | none =>
      have hset : ps.setRecord pr.clean = { ps with root := (pre ++ [pr.clean]) ++ rest } :=
        setRecord_middle hroot hnodup rfl
      have hnodup' := setRecord_keysNodup hroot hnodup (rfl : pr.clean.key = pr.key)
      have hrec := ih (pre ++ [pr.clean]) (file ++ writeBytes file pr)
        (ps.setRecord pr.clean) (by rw [hset]) hnodup'
      dsimp only
      change appendLoop write rest _ (ps.setRecord pr.clean) = _
      rw [hrec, hset]
      simp [appendFile, written, unwritten, hcut, appendRecords]

/-! ## The prune loop -/

/-- The file after a prune loop over live records. -/
def pruneFile (write : CStr → WriteIo) (rs : List Record) (file : List UInt8) : List UInt8 :=
  rs.foldl (fun file pr => (recordWrite file pr (write pr.key)).1) file

/-- The cache after a prune loop: deletions are gone and what was written is
clean. -/
def prunedRoot (write : CStr → WriteIo) (rs : List Record) : List Record :=
  (rs.filter Record.isLive).map
    (fun pr => if (write pr.key).cut.isNone then pr.clean else pr)

theorem pruneLoop_live (h : pr.data ≠ []) (rest : List Record) (file : List UInt8) (ps : Store) :
    pruneLoop write (pr :: rest) file ps =
      pruneLoop write rest (recordWrite file pr (write pr.key)).1
        (ps.setRecord (if (write pr.key).cut.isNone then pr.clean else pr)) := by
  rw [pruneLoop, if_neg h, recordWrite_eq]
  cases (write pr.key).cut with
  | none =>
    dsimp only
    rfl
  | some n => rfl

theorem pruneLoop_eq (rest pre : List Record) (file : List UInt8) (ps : Store)
    (hroot : ps.root = pre ++ rest) (hnodup : KeysNodup ps.root) :
    (pruneLoop write rest file ps).1 = pruneFile write (rest.filter Record.isLive) file ∧
      (pruneLoop write rest file ps).2.root = pre ++ prunedRoot write rest ∧
      (pruneLoop write rest file ps).2.fd = ps.fd ∧
      (pruneLoop write rest file ps).2.flags = ps.flags := by
  induction rest generalizing pre file ps with
  | nil => simp [pruneLoop, pruneFile, prunedRoot, hroot]
  | cons pr rest ih =>
    by_cases hdata : pr.data = []
    · have hdrop : (ps.dropRecord pr).root = pre ++ rest := by
        rw [hroot] at hnodup
        rw [Store.dropRecord, hroot]
        exact remove_middle hnodup
      have hrec := ih pre file (ps.dropRecord pr) hdrop (remove_keysNodup hnodup pr)
      rw [pruneLoop, if_pos hdata, prunedRoot, filter_cons_of_neg (by simp [isLive, hdata])]
      exact hrec
    · set pr' := if (write pr.key).cut.isNone then pr.clean else pr with hpr'
      have hkey : pr'.key = pr.key := by
        rw [hpr']
        split <;> rfl
      have hset := setRecord_middle hroot hnodup hkey
      have hrec := ih (pre ++ [pr']) (recordWrite file pr (write pr.key)).1 (ps.setRecord pr')
        (by rw [hset]) (setRecord_keysNodup hroot hnodup hkey)
      rw [pruneLoop_live write hdata]
      have hlive : (pr :: rest).filter isLive = pr :: rest.filter isLive :=
        filter_cons_of_pos (by simp [isLive, hdata])
      rw [prunedRoot, hlive, map_cons, append_cons]
      exact ⟨hrec.1, hrec.2.1, by rw [hrec.2.2.1, hset], by rw [hrec.2.2.2, hset]⟩

end

/-! ## The loops and the map of the store -/

section

variable {rs' : List Record} (h : rs'.map Record.pair = rs.map Record.pair) (hnodup : KeysNodup rs)

include h hnodup

theorem keysNodup_of_pairs : KeysNodup rs' := by
  have hkeys := congrArg (map Prod.fst) h
  rw [map_map, map_map] at hkeys
  exact (hkeys ▸ hnodup : (rs'.map (Prod.fst ∘ pair)).Nodup)

/-- The map of a cache depends on the keys and the data only. -/
theorem live_of_pairs : live rs' = live rs := by
  rw [live_eq_replay hnodup, live_eq_replay (keysNodup_of_pairs h hnodup)]
  exact congrArg replay h

end

theorem filter_keysNodup (h : KeysNodup rs) (p : Record → Bool) : KeysNodup (rs.filter p) :=
  h.sublist (filter_sublist.map _)

/-- Deletions do not show in the map. -/
theorem live_filter_isLive (h : KeysNodup rs) : live (rs.filter Record.isLive) = live rs := by
  funext k
  by_cases hk : ∃ pr ∈ rs, pr.key = k
  · obtain ⟨pr, hmem, rfl⟩ := hk
    rw [live_of_mem h hmem]
    by_cases hdata : pr.data = []
    · rw [if_pos hdata, live_of_not_mem]
      intro r hr he
      obtain ⟨hr, hlive⟩ := mem_filter.mp hr
      rw [inj_on_of_nodup_map h hr hmem he] at hlive
      simp [isLive, hdata] at hlive
    · have hmem' : pr ∈ rs.filter isLive :=
        mem_filter.mpr ⟨hmem, by simp [isLive, hdata]⟩
      rw [live_of_mem (filter_keysNodup h _) hmem']
  · have hnone : ∀ pr ∈ rs, pr.key ≠ k := fun pr hpr he => hk ⟨pr, hpr, he⟩
    rw [live_of_not_mem hnone, live_of_not_mem]
    intro pr hpr
    exact hnone pr (mem_of_mem_filter hpr)

section

variable (write : CStr → WriteIo)

include write

theorem appendRoot_pairs (rs : List Record) :
    (appendRoot write rs).map Record.pair = rs.map Record.pair := by
  induction rs with
  | nil => rfl
  | cons pr rest ih =>
    rw [appendRoot]
    split
    · rw [map_cons, ih, map_cons]
    split
    · rw [map_cons, ih]
      rfl
    · rfl

/-- After an append the records that were not written are the dirty ones. -/
theorem appendRoot_dirty (rs : List Record) :
    (appendRoot write rs).filter Record.dirty = unwritten write (rs.filter Record.dirty) := by
  induction rs with
  | nil => rfl
  | cons pr rest ih =>
    rw [appendRoot]
    by_cases hdirty : pr.dirty = false
    · rw [if_pos hdirty, filter_cons_of_neg (by simp [hdirty]),
        filter_cons_of_neg (by simp [hdirty]), ih]
    rw [if_neg hdirty, filter_cons_of_pos (l := rest) (by simpa using hdirty)]
    cases hcut : (write pr.key).cut with
    | none => simp [clean, unwritten, hcut, ih]
    | some n => simp [unwritten, hcut, hdirty]

theorem prunedRoot_pairs (rs : List Record) :
    (prunedRoot write rs).map Record.pair = (rs.filter Record.isLive).map Record.pair := by
  rw [prunedRoot, map_map]
  refine map_congr_left ?_
  intro pr _
  simp only [Function.comp_apply]
  split <;> rfl

theorem prunedRoot_keysNodup (h : KeysNodup rs) : KeysNodup (prunedRoot write rs) :=
  keysNodup_of_pairs (prunedRoot_pairs write rs) (filter_keysNodup h _)

end

/-- A prune whose writes are all complete writes the journal of the live
records. -/
theorem pruneFile_complete {write : CStr → WriteIo} (h : ∀ pr ∈ rs, (write pr.key).cut = none)
    (file : List UInt8) : pruneFile write rs file = appendRecords file rs := by
  induction rs generalizing file with
  | nil => rfl
  | cons pr rs ih =>
    have hwrite : (recordWrite file pr (write pr.key)).1 = file ++ writeBytes file pr := by
      rw [recordWrite_eq, h pr (by simp)]
    rw [pruneFile, foldl_cons, ← pruneFile, hwrite, ih (fun r hr => h r (by simp [hr]))]
    rfl

/-- A prune whose failed writes leave no bytes writes the journal of the records
that were written. -/
theorem pruneFile_of_cut_zero {write : CStr → WriteIo}
    (h : ∀ pr ∈ rs, (write pr.key).cut = none ∨ (write pr.key).cut = some 0) (file : List UInt8) :
    pruneFile write rs file =
      appendRecords file (rs.filter (fun pr => (write pr.key).cut.isNone)) := by
  induction rs generalizing file with
  | nil => rfl
  | cons pr rs ih =>
    have hrest := ih (fun r hr => h r (by simp [hr])) (recordWrite file pr (write pr.key)).1
    rw [pruneFile, foldl_cons, ← pruneFile, hrest]
    rcases h pr (by simp) with hcut | hcut
    · rw [filter_cons_of_pos (by simp [hcut]), recordWrite_eq, hcut]
      rfl
    · rw [filter_cons_of_neg (by simp [hcut]), recordWrite_eq, hcut]
      simp

/-! ## The stages of a prune -/

/-- No key is cached twice, and the temporary file is neither the named file nor the open one. -/
structure Placed (ps : Store) (d : Dir) : Prop where
  nodup : KeysNodup ps.root
  name_lt : d.name < d.fresh
  fd_lt : ps.fd < d.fresh
  tmp : ∀ ino, d.tmp = some ino → ino < d.fresh ∧ ino ≠ d.name ∧ ino ≠ ps.fd

/-- A store that is open for writing. -/
structure Opened (ps : Store) (d : Dir) : Prop extends Placed ps d where
  writable : ps.flags.write = true

/-- How far a prune comes. -/
inductive PruneStage where
  /-- The temporary file is not there or not locked: nothing was written. -/
  | created
  /-- The temporary file is written and does not take the name. -/
  | written
  /-- The temporary file has the name, and the last `fsync` fails. -/
  | renamed
  | done
deriving DecidableEq

/-- The stage that the system calls let a prune reach. -/
def SyncIo.stage (io : SyncIo) : PruneStage :=
  if io.openat = false ∨ io.lock = false then .created
  else if io.fsync = false ∨ io.rename = false then .written
  else if io.fsyncDir = false then .renamed
  else .done

theorem tmpInode_ne (h : Opened ps d) (unlink : Bool) :
    tmpInode d unlink ≠ d.name ∧ tmpInode d unlink ≠ ps.fd := by
  have hname := h.name_lt
  have hfd := h.fd_lt
  rw [tmpInode]
  split
  · rename_i ino htmp
    obtain ⟨_, hne, hne'⟩ := h.tmp ino htmp
    split
    · omega
    · exact ⟨hne, hne'⟩
  · omega

/-- The directory once the temporary file holds `tmp`. -/
def Dir.withTmp (d : Dir) (ino : Nat) (tmp : List UInt8) : Dir where
  files := Function.update d.files ino tmp
  fresh := max d.fresh (ino + 1)
  name := d.name
  tmp := some ino

theorem Dir.withTmp_files {ino i : Nat} (h : ino ≠ i) (tmp : List UInt8) :
    (d.withTmp ino tmp).files i = d.files i := by
  simp [Dir.withTmp, h.symm]

theorem Opened.withTmp {ps' : Store} (h : Opened ps d) {ino : Nat} (hname : ino ≠ d.name)
    (hfd : ino ≠ ps.fd) (hflags : ps'.flags = ps.flags) (hnodup : KeysNodup ps'.root)
    (hfd' : ps'.fd = ps.fd) (tmp : List UInt8) :
    Opened ps' (d.withTmp ino tmp) where
  nodup := hnodup
  name_lt := lt_of_lt_of_le h.name_lt (le_max_left _ _)
  fd_lt := hfd' ▸ lt_of_lt_of_le h.fd_lt (le_max_left _ _)
  tmp := by
    rintro i hi
    obtain rfl : ino = i := Option.some.inj hi
    exact ⟨lt_of_lt_of_le (Nat.lt_succ_self _) (le_max_right _ _), hname, hfd' ▸ hfd⟩
  writable := hflags ▸ h.writable

/-- The store after the loop of a prune. -/
def pruneStore (ps : Store) (io : SyncIo) : Store := (pruneLoop io.write ps.root [] ps).2

/-- The temporary file after the loop of a prune. -/
def pruneTmp (ps : Store) (io : SyncIo) : List UInt8 :=
  pruneFile io.write (ps.root.filter Record.isLive) []

section

variable (h : KeysNodup ps.root) (io : SyncIo)

include h

theorem pruneStore_root : (pruneStore ps io).root = prunedRoot io.write ps.root :=
  (pruneLoop_eq io.write ps.root [] [] ps rfl h).2.1

theorem pruneStore_fd : (pruneStore ps io).fd = ps.fd :=
  (pruneLoop_eq io.write ps.root [] [] ps rfl h).2.2.1

theorem pruneStore_flags : (pruneStore ps io).flags = ps.flags :=
  (pruneLoop_eq io.write ps.root [] [] ps rfl h).2.2.2

end

section

variable (h : Opened ps d)

include h

/-- A prune that does not get its temporary file leaves the store and both files
as they were. -/
theorem psfsSyncPrune_created (hstage : io.stage = .created) :
    ∃ d', psfsSyncPrune ps d io = (ps, d', false) ∧ d'.name = d.name ∧
      d'.files d.name = d.files d.name ∧ d'.files ps.fd = d.files ps.fd ∧ Opened ps d' := by
  obtain ⟨hname, hfd⟩ := tmpInode_ne h io.unlink
  by_cases hopen : io.openat = false
  · refine ⟨{ d with tmp := if io.unlink then none else d.tmp }, ?_, rfl, rfl, rfl,
      ⟨⟨h.nodup, h.name_lt, h.fd_lt, ?_⟩, h.writable⟩⟩
    · rw [psfsSyncPrune, if_neg (by simp [h.writable]), if_pos hopen]
    intro ino hino
    split at hino
    · simp at hino
    · exact h.tmp ino hino
  · have hlock : io.lock = false := by
      rw [SyncIo.stage] at hstage
      split_ifs at hstage with h1
      exact h1.resolve_left hopen
    refine ⟨d.withTmp (tmpInode d io.unlink) [], ?_, rfl, Dir.withTmp_files hname _,
      Dir.withTmp_files hfd _, h.withTmp hname hfd rfl h.nodup rfl []⟩
    rw [psfsSyncPrune, if_neg (by simp [h.writable]), if_neg hopen]
    rw [if_pos hlock]
    rfl

/-- What a prune does once it has its temporary file. -/
theorem psfsSyncPrune_eq (hopen : ¬ io.openat = false) (hlock : ¬ io.lock = false) :
    psfsSyncPrune ps d io =
      let tfd := tmpInode d io.unlink
      let d := d.withTmp tfd (pruneTmp ps io)
      if io.fsync = false then (pruneStore ps io, d, false)
      else if io.rename = false then (pruneStore ps io, d, false)
      else if io.fsyncDir = false then
        (pruneStore ps io, { d with name := tfd, tmp := none }, false)
      else ({ pruneStore ps io with fd := tfd, wasted := 0 },
        { d with name := tfd, tmp := none }, true) := by
  have hwrite : ∀ (d : Dir) (i : Nat) (c : List UInt8),
      (({ d with tmp := some i, fresh := max d.fresh (i + 1) } : Dir).write i []).write i c =
        d.withTmp i c := by
    intro d i c
    simp [Dir.write, Dir.withTmp]
  rw [psfsSyncPrune, if_neg (by simp [h.writable]), if_neg hopen]
  rw [if_neg hlock, show pruneLoop _ _ _ _ = (pruneTmp ps io, pruneStore ps io) from
    Prod.ext (pruneLoop_eq io.write ps.root [] [] ps rfl h.nodup).1 rfl]
  dsimp only
  rw [hwrite]

/-- A prune whose temporary file does not take the name leaves both files as
they were, but not the cache. -/
theorem psfsSyncPrune_written (hstage : io.stage = .written) :
    ∃ d', psfsSyncPrune ps d io = (pruneStore ps io, d', false) ∧ d'.name = d.name ∧
      d'.files d.name = d.files d.name ∧ d'.files ps.fd = d.files ps.fd ∧
      Opened (pruneStore ps io) d' := by
  obtain ⟨hname, hfd⟩ := tmpInode_ne h io.unlink
  have hio : ¬ io.openat = false ∧ ¬ io.lock = false ∧ (io.fsync = false ∨ io.rename = false) := by
    rw [SyncIo.stage] at hstage
    split_ifs at hstage with h1 h2
    exact ⟨fun hc => h1 (.inl hc), fun hc => h1 (.inr hc), h2⟩
  refine ⟨d.withTmp (tmpInode d io.unlink) (pruneTmp ps io), ?_, rfl,
    Dir.withTmp_files hname _, Dir.withTmp_files hfd _, ?_⟩
  · rw [psfsSyncPrune_eq h hio.1 hio.2.1]
    rcases hio.2.2 with hc | hc
    · simp [hc]
    · simp [hc]
  · refine h.withTmp hname hfd (pruneStore_flags h.nodup io) ?_ (pruneStore_fd h.nodup io) _
    rw [pruneStore_root h.nodup]
    exact prunedRoot_keysNodup io.write h.nodup

omit h in
theorem SyncIo.of_renamed (h : io.stage = .renamed ∨ io.stage = .done) :
    ¬ io.openat = false ∧ ¬ io.lock = false ∧ ¬ io.fsync = false ∧ ¬ io.rename = false ∧
      (io.fsyncDir = false ↔ io.stage = .renamed) := by
  unfold SyncIo.stage at h ⊢
  split_ifs at h ⊢ <;> simp_all

/-- A prune that fails after the rename has put the temporary file in place, and
the store goes on with the old one. -/
theorem psfsSyncPrune_renamed (hstage : io.stage = .renamed) :
    ∃ d', psfsSyncPrune ps d io = (pruneStore ps io, d', false) ∧ d'.name ≠ ps.fd ∧
      d'.files d'.name = pruneTmp ps io ∧ d'.files ps.fd = d.files ps.fd ∧
      Opened (pruneStore ps io) d' := by
  obtain ⟨hname, hfd⟩ := tmpInode_ne h io.unlink
  obtain ⟨hopen, hlock, hfsync, hrename, hdir⟩ := SyncIo.of_renamed (.inl hstage)
  refine ⟨{ d.withTmp (tmpInode d io.unlink) (pruneTmp ps io) with
    name := tmpInode d io.unlink, tmp := none }, ?_, hfd, ?_, Dir.withTmp_files hfd _, ?_⟩
  · rw [psfsSyncPrune_eq h hopen hlock]
    rw [if_neg hfsync, if_neg hrename, if_pos (hdir.mpr hstage)]
  · simp [Dir.withTmp]
  refine ⟨⟨?_, lt_of_lt_of_le (Nat.lt_succ_self _) (le_max_right _ _), ?_, by simp⟩, ?_⟩
  · rw [pruneStore_root h.nodup]
    exact prunedRoot_keysNodup io.write h.nodup
  · rw [pruneStore_fd h.nodup]
    exact lt_of_lt_of_le h.fd_lt (le_max_left _ _)
  · rw [pruneStore_flags h.nodup]
    exact h.writable

/-- A prune that succeeds has put the temporary file in place and goes on with
it. -/
theorem psfsSyncPrune_done (hstage : io.stage = .done) :
    ∃ ps' d', psfsSyncPrune ps d io = (ps', d', true) ∧
      ps'.root = prunedRoot io.write ps.root ∧ ps'.flags = ps.flags ∧ ps'.fd = d'.name ∧
      d'.files d'.name = pruneTmp ps io ∧ Opened ps' d' := by
  obtain ⟨hopen, hlock, hfsync, hrename, hdir⟩ := SyncIo.of_renamed (.inr hstage)
  have hlt : tmpInode d io.unlink < max d.fresh (tmpInode d io.unlink + 1) :=
    lt_of_lt_of_le (Nat.lt_succ_self _) (le_max_right _ _)
  refine ⟨{ pruneStore ps io with fd := tmpInode d io.unlink, wasted := 0 },
    { d.withTmp (tmpInode d io.unlink) (pruneTmp ps io) with
      name := tmpInode d io.unlink, tmp := none }, ?_, pruneStore_root h.nodup io,
    pruneStore_flags h.nodup io, rfl, ?_, ⟨⟨?_, hlt, hlt, by simp⟩, ?_⟩⟩
  · rw [psfsSyncPrune_eq h hopen hlock]
    rw [if_neg hfsync, if_neg hrename, if_neg (by simp [hdir, hstage])]
  · simp [Dir.withTmp]
  · rw [pruneStore_root h.nodup]
    exact prunedRoot_keysNodup io.write h.nodup
  · rw [pruneStore_flags h.nodup]
    exact h.writable

/-! ## An append -/

/-- An append leaves the name alone and adds to the open file. -/
theorem psfsSyncAppend_eq : psfsSyncAppend ps d io =
      ({ ps with root := appendRoot io.write ps.root }, d.write ps.fd
          (appendFile io.write (ps.root.filter Record.dirty) (d.files ps.fd)),
        (unwritten io.write (ps.root.filter Record.dirty)).isEmpty) := by
  have hloop := appendLoop_eq io.write ps.root [] (d.files ps.fd) ps rfl h.nodup
  rw [psfsSyncAppend, if_neg (by simp [h.writable]), hloop]
  rfl

theorem Opened.append (write : CStr → WriteIo) (file : List UInt8) :
    Opened { ps with root := appendRoot write ps.root } (d.write ps.fd file) where
  nodup := keysNodup_of_pairs (appendRoot_pairs write ps.root) h.nodup
  name_lt := h.name_lt
  fd_lt := h.fd_lt
  tmp := h.tmp
  writable := h.writable

end

end OpenSync.Psfs
