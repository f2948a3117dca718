import OpenSync.Psfs.Sync
import Mathlib.Data.List.Induction

/-!
# The journal replays the history

A store that was opened on an empty file and then changed and synced, in any order and mode,
leaves a file from which a fresh `psfs_load` reads the last value of each key.

The invariant is `Consistent`: the cache always has the map of the history, and the file has it
for every key that has no dirty record (`Agrees`).  A sync leaves no dirty record: an append adds
them behind what is there (`diskMap_append`), a prune starts again from the live records
(`live_eq_replay`).
-/

namespace OpenSync.Psfs

open OpenSync.Lib List Record Ds.Ordered

/-! ## The map of a file -/

def diskMap (file : List UInt8) : Map := replay ((scanFrom file 0).map Record.pair)

/-- The values of the records in the cache, deletions included. -/
def Store.values (ps : Store) : Map := fun k => (ps.find k).map Record.data

/-- The store that `psfs_open` makes, before anything is loaded. -/
def psfsOpen (fd : Nat) (flags : Flags) : Store where
  fd := fd
  flags := flags
  root := []
  next := none
  used := 0
  wasted := 0

theorem loadRecord_live (ps : Store) (h : ∀ r ∈ ps.root, r.data ≠ []) (pr : Record) :
    ∀ r ∈ (loadRecord ps pr).root, r.data ≠ [] := by
  have hdrop : ∀ r ∈ (ps.dropKey pr.key).root, r.data ≠ [] := by
    rw [Store.dropKey]
    split
    · intro r hr
      exact h r (mem_of_mem_erase hr)
    · exact h
  rw [loadRecord]
  split
  · exact hdrop
  rename_i hdata
  intro r hr
  rcases (mem_insert _ _).mp hr with rfl | hmem
  · exact hdata
  · exact hdrop r hmem

theorem psfsLoad_values (fd : Nat) (flags : Flags) (file : List UInt8) :
    (psfsLoad (psfsOpen fd flags) file).values = diskMap file := by
  set ps := (scanFrom file 0).foldl loadRecord (psfsOpen fd flags) with hps
  have hempty : KeysNodup (psfsOpen fd flags).root := nodup_nil
  have hload : (psfsLoad (psfsOpen fd flags) file).root = ps.root := by
    rw [psfsLoad, loadLoop_eq]
    rfl
  have hdata : ∀ r ∈ ps.root, r.data ≠ [] :=
    foldlRecOn _ _ (by simp [psfsOpen]) fun ps h pr _ => loadRecord_live ps h pr
  have hlive : live ps.root = diskMap file := (foldl_loadRecord_root _ _ hempty).2
  rw [← hlive]
  funext k
  rw [Store.values, Store.find, hload, live]
  cases hf : find key strcmp ps.root k with
  | none => rfl
  | some pr =>
    have hnodup := (foldl_loadRecord_root (scanFrom file 0) _ hempty).1
    have hmem := ((find_eq_some_iff hnodup).mp hf).1
    dsimp only
    rw [if_neg (hdata pr hmem)]
    rfl

/-- What a fresh load of a file, in read-only mode, finds. -/
def freshLoad (file : List UInt8) : Map :=
  (psfsLoad (psfsOpen 0 ⟨true, false, false⟩) file).values

theorem freshLoad_eq (file : List UInt8) : freshLoad file = diskMap file :=
  psfsLoad_values 0 _ file

variable {rs : List (CStr × List UInt8)} {root : List Record} {file : List UInt8} {d : Dir}

/-- A journal holds the map of its records, and what follows it comes on top. -/
theorem diskMap_journal_append (hfits : ∀ r ∈ rs, Fits r.1 r.2) (post : List UInt8) :
    diskMap (journal rs ++ post) = replayFrom (replay rs) ((scanFrom post 0).map Record.pair) := by
  have hpairs : (rs.map (fun r => readBack r.1 r.2)).map pair = rs := by
    rw [map_map]
    exact map_id _
  rw [diskMap, scanFrom_journal hfits, map_append, hpairs, replay, replayFrom_append]
  rfl

theorem diskMap_journal (hfits : ∀ r ∈ rs, Fits r.1 r.2) : diskMap (journal rs) = replay rs := by
  have happ := diskMap_journal_append hfits []
  rwa [append_nil] at happ

/-! ## The file and the cache -/

/-- The file has the value of every key that has no dirty record. -/
def Agrees (root : List Record) (file : List UInt8) : Prop :=
  ∀ k, (∀ r ∈ root, r.key = k → r.dirty = false) → diskMap file k = live root k

/-- The dirty records on top of the file make the map of the cache. -/
theorem Agrees.replay_dirty (h : Agrees root file) (hnodup : KeysNodup root) :
    replayFrom (diskMap file) ((root.filter Record.dirty).map Record.pair) = live root := by
  funext k
  by_cases hk : ∃ r ∈ root, r.key = k ∧ r.dirty = true
  · obtain ⟨r, hmem, rfl, hdirty⟩ := hk
    have hkeys : (((root.filter dirty).map pair).map Prod.fst).Nodup := by
      rw [map_map]
      exact filter_keysNodup hnodup _
    have hpair : (r.key, r.data) ∈ (root.filter dirty).map pair :=
      mem_map.mpr ⟨r, mem_filter.mpr ⟨hmem, hdirty⟩, rfl⟩
    rw [replayFrom_of_mem hkeys hpair, live_of_mem hnodup hmem]
  · have hclean : ∀ r ∈ root, r.key = k → r.dirty = false := by
      intro r hr he
      by_contra hd
      exact hk ⟨r, hr, he, by simpa using hd⟩
    rw [replayFrom_of_not_mem, h k hclean]
    intro p hp he
    obtain ⟨r, hr, rfl⟩ := mem_map.mp hp
    obtain ⟨hr, hdirty⟩ := mem_filter.mp hr
    rw [hclean r hr he] at hdirty
    exact Bool.false_ne_true hdirty

/-- A cache without dirty records has the map of the file. -/
theorem Agrees.of_clean (h : diskMap file = live root) : Agrees root file := fun k _ => congrFun h k

/-! ## Histories -/

/-- The calls that a user of the store makes. -/
inductive Op where
  | set (key : CStr) (value : Option (List UInt8))
  | sync (forcePrune : Bool) (io : SyncIo)

/-- The key and the value of a set; a NULL pointer is the empty value. -/
def Op.setOf : Op → Option (CStr × List UInt8)
  | .set key value => some (key, value.getD [])
  | .sync _ _ => none

/-- The last value set for each key.  A key whose last set was a delete is
absent. -/
def lastSet (ops : List Op) : Map := fun k =>
  match ((ops.filterMap Op.setOf).reverse.find? (fun s => s.1 = k)) with
  | some s => if s.2 = [] then none else some s.2
  | none => none

section

variable (encrypt : List UInt8 → Option (List UInt8)) (cfg : Config)

def step (s : Store × Dir) : Op → Store × Dir
  | .set key value => ((psfsSet encrypt s.1 key value).1, s.2)
  | .sync forcePrune io =>
    let r := psfsSync cfg s.1 s.2 forcePrune io
    (r.1, r.2.1)

def run (s : Store × Dir) (ops : List Op) : Store × Dir := ops.foldl (step encrypt cfg) s

end

/-- The system calls of a sync succeed, but for `fstat`, `fstatvfs` and `unlinkat`, whose failure
the source ignores. -/
structure SyncIo.Ok (io : SyncIo) : Prop where
  openat : io.openat = true
  lock : io.lock = true
  write : ∀ k, io.write k = .ok
  fsync : io.fsync = true
  rename : io.rename = true
  fsyncDir : io.fsyncDir = true

/-- A call as the history makes it: a record fits its size field, and a sync
meets no error. -/
def Op.Ok : Op → Prop
  | .set key value => Fits key (value.getD [])
  | .sync _ io => io.Ok

variable {io : SyncIo} {ps : Store}

theorem SyncIo.Ok.stage_eq (h : io.Ok) : io.stage = .done := by
  simp [SyncIo.stage, h.openat, h.lock, h.fsync, h.rename, h.fsyncDir]

theorem SyncIo.Ok.cut (h : io.Ok) (k : CStr) : (io.write k).cut = none := by
  rw [h.write k]
  rfl

theorem SyncIo.Ok.unwritten (h : io.Ok) (rs : List Record) : unwritten io.write rs = [] := by
  simp [Psfs.unwritten, h.cut]

theorem SyncIo.Ok.written (h : io.Ok) (rs : List Record) : written io.write rs = rs := by
  have happ := written_append_unwritten io.write rs
  rwa [h.unwritten, append_nil] at happ

/-- The last value is what the sets leave one after another. -/
theorem replay_eq_last (rs : List (CStr × List UInt8)) (k : CStr) :
    replay rs k =
      match rs.reverse.find? (fun s => s.1 = k) with
      | some s => if s.2 = [] then none else some s.2
      | none => none := by
  induction rs using reverseRecOn with
  | nil => rfl
  | append_singleton rs r ih =>
    rw [replay, replayFrom_append, ← replay]
    change (replay rs).apply r.1 r.2 k = _
    by_cases hk : k = r.1
    · subst hk
      simp
    · rw [Map.apply_of_ne _ hk, ih]
      simp [Ne.symm hk]

theorem mem_dropKey (h : KeysNodup ps.root) {key : CStr} {r : Record} (hr : r ∈ ps.root)
    (hne : r.key ≠ key) : r ∈ (ps.dropKey key).root := by
  rw [Store.dropKey]
  cases hf : ps.find key with
  | none => exact hr
  | some pr =>
    obtain ⟨hmem, rfl⟩ := (find_eq_some_iff h).mp hf
    exact (mem_remove h hmem).mpr ⟨hr, hne⟩

/-! ## The invariant -/

/-- A store over its named file, with the map `m`.  The file is a journal of
complete records. -/
structure Consistent (ps : Store) (d : Dir) (m : Map) : Prop extends Opened ps d where
  plain : ps.flags.encryption = false
  fd_eq : ps.fd = d.name
  live_eq : live ps.root = m
  fits : ∀ r ∈ ps.root, Fits r.key r.data
  file : ∃ rs, d.files d.name = journal rs ∧ ∀ r ∈ rs, Fits r.1 r.2
  agrees : Agrees ps.root (d.files d.name)

theorem Opened.set {ps' : Store} (h : Opened ps d) (hfd : ps'.fd = ps.fd)
    (hflags : ps'.flags = ps.flags) (hnodup : KeysNodup ps'.root) : Opened ps' d where
  nodup := hnodup
  name_lt := h.name_lt
  fd_lt := hfd ▸ h.fd_lt
  tmp := hfd ▸ h.tmp
  writable := hflags ▸ h.writable

theorem Consistent.set (encrypt : List UInt8 → Option (List UInt8)) {m : Map}
    (h : Consistent ps d m) {key : CStr} {value : Option (List UInt8)}
    (hfits : Fits key (value.getD [])) :
    Consistent (psfsSet encrypt ps key value).1 d (m.apply key (value.getD [])) := by
  rcases psfsSet_outcome encrypt ps key value with
    ⟨-, hw⟩ | ⟨hps, hnil, hnone⟩ | ⟨-, henc⟩ | ⟨v, hset, hv⟩
  · simp [h.writable] at hw
  · have hm : m.apply key [] = m := by
      rw [← h.live_eq, Map.apply, if_pos rfl, ← live_of_not_mem (find_eq_none_iff.mp hnone),
        Function.update_eq_self]
    rw [hps, hnil, hm]
    exact h
  · simp [h.plain] at henc
  have hps : (psfsSet encrypt ps key value).1 = ((ps.dropKey key).put key (value.getD [])).1 := by
    rw [hset, hv h.plain]
  obtain ⟨hnodup, hnew, hlive⟩ := dropKey_root ps h.nodup key
  obtain ⟨hfd, hflags, hsub⟩ : (ps.dropKey key).fd = ps.fd ∧ (ps.dropKey key).flags = ps.flags ∧
      ∀ r ∈ (ps.dropKey key).root, r ∈ ps.root := by
    rw [Store.dropKey]
    split
    · exact ⟨rfl, rfl, fun r hr => mem_of_mem_erase hr⟩
    · exact ⟨rfl, rfl, fun r hr => hr⟩
  set pr : Record := { recordInit key (value.getD []) with dirty := true } with hpr
  have hroot : (psfsSet encrypt ps key value).1.root =
      insert Record.key strcmp (ps.dropKey key).root pr := by
    rw [hps]
    rfl
  have hmem : ∀ r, r ∈ (psfsSet encrypt ps key value).1.root ↔
      r = pr ∨ r ∈ (ps.dropKey key).root := by
    intro r
    rw [hroot]
    exact mem_insert _ _
  have hlive' : live (psfsSet encrypt ps key value).1.root = m.apply key (value.getD []) := by
    rw [hroot, live_insert hnodup hnew, hlive, h.live_eq]
    exact Map.apply_apply m key [] (value.getD [])
  refine
    { toOpened := h.toOpened.set (by rw [hps]; exact hfd) (by rw [hps]; exact hflags)
        (hroot ▸ insert_keysNodup hnodup hnew)
      plain := by
        rw [hps]
        exact (congrArg Flags.encryption hflags).trans h.plain
      fd_eq := by
        rw [hps]
        exact hfd.trans h.fd_eq
      live_eq := hlive'
      fits := ?_
      file := h.file
      agrees := ?_ }
  · intro r hr
    rcases (hmem r).mp hr with rfl | hr
    · exact hfits
    · exact h.fits r (hsub r hr)
  intro k hk
  have hne : k ≠ key := by
    rintro rfl
    have := hk pr ((hmem pr).mpr (.inl rfl)) rfl
    simp [hpr] at this
  rw [hlive', Map.apply_of_ne _ hne, ← h.live_eq]
  refine h.agrees k ?_
  intro r hr he
  exact hk r ((hmem r).mpr (.inr (mem_dropKey h.nodup hr (he ▸ hne)))) he

/-! ## One sync -/

section

variable {ps : Store} {d : Dir} {m : Map} {io : SyncIo} (h : Consistent ps d m) (hio : io.Ok)

include h hio

/-- An append without errors brings the file up to date. -/
theorem Consistent.syncAppend :
    ∃ ps' d', psfsSyncAppend ps d io = (ps', d', true) ∧ Consistent ps' d' m ∧
      diskMap (d'.files d'.name) = m := by
  obtain ⟨rs, hfile, hfits⟩ := h.file
  set ds := (ps.root.filter dirty).map pair with hds
  have hfitsAll : ∀ r ∈ rs ++ ds, Fits r.1 r.2 := by
    intro r hr
    rcases mem_append.mp hr with hr | hr
    · exact hfits r hr
    · obtain ⟨pr, hpr, rfl⟩ := mem_map.mp hr
      exact h.fits pr (mem_of_mem_filter hpr)
  have happ : appendFile io.write (ps.root.filter dirty) (d.files ps.fd) = journal (rs ++ ds) := by
    rw [appendFile, hio.unwritten, hio.written, h.fd_eq, hfile,
      appendRecords_of_aligned (length_journal_mod rs), journal_append]
  have hdisk : diskMap (journal (rs ++ ds)) = m := by
    rw [diskMap_journal hfitsAll, replay, replayFrom_append, ← replay,
      ← diskMap_journal hfits, ← hfile, h.agrees.replay_dirty h.nodup, h.live_eq]
  have hlive : live (appendRoot io.write ps.root) = m := by
    rw [live_of_pairs (appendRoot_pairs io.write ps.root) h.nodup, h.live_eq]
  refine ⟨{ ps with root := appendRoot io.write ps.root },
    d.write ps.fd (journal (rs ++ ds)), ?_, ?_, ?_⟩
  · rw [psfsSyncAppend_eq h.toOpened, happ, hio.unwritten]
    rfl
  · have hnamed : (d.write ps.fd (journal (rs ++ ds))).files d.name = journal (rs ++ ds) := by
      simp [Dir.write, h.fd_eq]
    refine
      { toOpened := h.toOpened.append io.write _
        plain := h.plain
        fd_eq := h.fd_eq
        live_eq := hlive
        fits := ?_
        file := ⟨rs ++ ds, hnamed, hfitsAll⟩
        agrees := .of_clean ?_ }
    · intro r hr
      have hpair : r.pair ∈ ps.root.map pair := by
        rw [← appendRoot_pairs io.write ps.root]
        exact mem_map.mpr ⟨r, hr, rfl⟩
      obtain ⟨r', hr', he⟩ := mem_map.mp hpair
      have hf := h.fits r' hr'
      rw [(Prod.mk.inj he).1, (Prod.mk.inj he).2] at hf
      exact hf
    · exact (congrArg diskMap hnamed).trans (hdisk.trans hlive.symm)
  · simpa [Dir.write, h.fd_eq] using hdisk

/-- A prune without errors brings the file up to date. -/
theorem Consistent.syncPrune :
    ∃ ps' d', psfsSyncPrune ps d io = (ps', d', true) ∧ Consistent ps' d' m ∧
      diskMap (d'.files d'.name) = m := by
  obtain ⟨ps', d', hsync, hroot, hflags, hfd, hfile, hopened⟩ :=
    psfsSyncPrune_done h.toOpened hio.stage_eq
  set rs := (ps.root.filter isLive).map pair with hrs
  have hfits : ∀ r ∈ rs, Fits r.1 r.2 := by
    intro r hr
    obtain ⟨pr, hpr, rfl⟩ := mem_map.mp hr
    exact h.fits pr (mem_of_mem_filter hpr)
  have hjournal : d'.files d'.name = journal rs := by
    rw [hfile, pruneTmp, pruneFile_complete (fun pr _ => hio.cut pr.key),
      appendRecords_of_aligned (by rfl), nil_append]
  have hlive : live ps'.root = m := by
    rw [hroot, live_of_pairs (prunedRoot_pairs io.write _) (filter_keysNodup h.nodup _),
      live_filter_isLive h.nodup, h.live_eq]
  have hdisk : diskMap (d'.files d'.name) = m := by
    rw [hjournal, diskMap_journal hfits, ← h.live_eq, ← live_filter_isLive h.nodup,
      live_eq_replay (filter_keysNodup h.nodup _)]
    rfl
  refine ⟨ps', d', hsync, ?_, hdisk⟩
  refine
    { toOpened := hopened
      plain := by rw [hflags]; exact h.plain
      fd_eq := hfd
      live_eq := hlive
      fits := ?_
      file := ⟨rs, hjournal, hfits⟩
      agrees := .of_clean (hdisk.trans hlive.symm) }
  intro r hr
  have hpair : r.pair ∈ rs := by
    rw [hrs, ← prunedRoot_pairs io.write, ← hroot]
    exact mem_map.mpr ⟨r, hr, rfl⟩
  exact hfits _ hpair

/-- A sync without errors that is not refused brings the file up to date. -/
theorem Consistent.sync (cfg : Config) {forcePrune : Bool}
    (hmode : syncMode cfg ps (d.files ps.fd) forcePrune io ≠ .refuse) :
    ∃ ps' d', psfsSync cfg ps d forcePrune io = (ps', d', true) ∧ Consistent ps' d' m ∧
      diskMap (d'.files d'.name) = m := by
  rw [psfsSync, if_neg (by simp [h.writable])]
  cases hm : syncMode cfg ps (d.files ps.fd) forcePrune io with
  | refuse => exact absurd hm hmode
  | append => exact h.syncAppend hio
  | prune => exact h.syncPrune hio

end

/-! ## The whole history -/

section

variable (encrypt : List UInt8 → Option (List UInt8)) (cfg : Config)

variable {s : Store × Dir}

theorem Consistent.step {m : Map} (h : Consistent s.1 s.2 m) {op : Op} (hop : op.Ok) :
    Consistent (step encrypt cfg s op).1 (step encrypt cfg s op).2
      (replayFrom m op.setOf.toList) := by
  cases op with
  | set key value => exact h.set encrypt hop
  | sync forcePrune io =>
    by_cases hmode : syncMode cfg s.1 (s.2.files s.1.fd) forcePrune io = .refuse
    · have hsync : psfsSync cfg s.1 s.2 forcePrune io = (s.1, s.2, false) := by
        rw [psfsSync, if_neg (by simp [h.writable]), hmode]
      rw [Psfs.step, hsync]
      exact h
    · obtain ⟨ps', d', hsync, hcons, -⟩ := h.sync hop cfg hmode
      rw [Psfs.step, hsync]
      exact hcons

theorem Consistent.run {m : Map} (h : Consistent s.1 s.2 m) {ops : List Op}
    (hops : ∀ op ∈ ops, op.Ok) : Consistent (run encrypt cfg s ops).1 (run encrypt cfg s ops).2
      (replayFrom m (ops.filterMap Op.setOf)) := by
  induction ops generalizing s m with
  | nil => exact h
  | cons op ops ih =>
    have hstep := h.step encrypt cfg (hops op (by simp))
    have hrun := ih hstep (fun o ho => hops o (by simp [ho]))
    rw [← replayFrom_append] at hrun
    have hsets : (op :: ops).filterMap Op.setOf = op.setOf.toList ++ ops.filterMap Op.setOf := by
      cases h : op.setOf with
      | none => rw [filterMap_cons_none h]; rfl
      | some r => rw [filterMap_cons_some h]; rfl
    rw [hsets]
    exact hrun

end

/-- A directory in which the store name refers to the empty file `fd`. -/
structure EmptyStore (fd : Nat) (d : Dir) : Prop where
  name_eq : d.name = fd
  empty : d.files fd = []
  fd_lt : fd < d.fresh
  tmp : ∀ ino, d.tmp = some ino → ino < d.fresh ∧ ino ≠ fd

theorem EmptyStore.consistent {fd : Nat} (h : EmptyStore fd d) {flags : Flags}
    (hwrite : flags.write = true) (hplain : flags.encryption = false) :
    Consistent (psfsOpen fd flags) d (fun _ => none) where
  writable := hwrite
  nodup := nodup_nil
  name_lt := h.name_eq ▸ h.fd_lt
  fd_lt := h.fd_lt
  tmp := by
    intro ino hino
    obtain ⟨hlt, hne⟩ := h.tmp ino hino
    exact ⟨hlt, h.name_eq ▸ hne, hne⟩
  plain := hplain
  fd_eq := h.name_eq.symm
  live_eq := rfl
  fits := by simp [psfsOpen]
  file := ⟨[], by rw [h.name_eq, h.empty]; rfl, by simp⟩
  agrees := by
    refine .of_clean ?_
    have hnil := @diskMap_journal [] (by simp)
    rw [h.name_eq, h.empty]
    exact hnil

/-- Journal replay.  After any history of sets and syncs on a store that was
opened on an empty file, a final sync that is not refused for lack of space
succeeds and leaves a file that loads to the last value of each key, whatever
mode each sync took. -/
theorem load_after_sync (encrypt : List UInt8 → Option (List UInt8)) (cfg : Config)
    {fd : Nat} {d : Dir} (hempty : EmptyStore fd d) {flags : Flags}
    (hwrite : flags.write = true) (hplain : flags.encryption = false)
    {ops : List Op} (hops : ∀ op ∈ ops, op.Ok) {forcePrune : Bool} {io : SyncIo} (hio : io.Ok)
    (hmode :
      let s := run encrypt cfg (psfsOpen fd flags, d) ops
      syncMode cfg s.1 (s.2.files s.1.fd) forcePrune io ≠ .refuse) :
    let s := run encrypt cfg (psfsOpen fd flags, d) ops
    ∃ ps' d', psfsSync cfg s.1 s.2 forcePrune io = (ps', d', true) ∧
      ∀ fd' flags', (psfsLoad (psfsOpen fd' flags') d'.named).values = lastSet ops := by
  have hinit := hempty.consistent hwrite hplain
  have hrun := @Consistent.run encrypt cfg (psfsOpen fd flags, d) _ hinit ops hops
  obtain ⟨ps', d', hsync, -, hdisk⟩ := hrun.sync hio cfg hmode
  refine ⟨ps', d', hsync, ?_⟩
  intro fd' flags'
  rw [psfsLoad_values, Dir.named, hdisk]
  exact funext (replay_eq_last _)

theorem SyncIo.allOk_ok : SyncIo.allOk.Ok := ⟨rfl, rfl, fun _ => rfl, rfl, rfl, rfl⟩

/-- A history with a delete of a synced key, a prune, and the key set again. -/
def mixedOps : List Op :=
  [.set (cstrOf [97]) (some [1]), .sync false .allOk, .set (cstrOf [97]) none,
    .set (cstrOf [98]) (some [2, 3]), .sync true .allOk,
    .set (cstrOf [97]) (some [7])]

theorem load_after_sync_mixed :
    let d : Dir := ⟨fun _ => [], 1, 0, none⟩
    let s := run some .default (psfsOpen 0 ⟨true, true, false⟩, d) mixedOps
    ∃ ps' d', psfsSync .default s.1 s.2 false .allOk = (ps', d', true) ∧
      ∀ fd' flags', (psfsLoad (psfsOpen fd' flags') d'.named).values = lastSet mixedOps := by
  have hempty : EmptyStore 0 ⟨fun _ => [], 1, 0, none⟩ := ⟨rfl, rfl, by decide, by simp⟩
  refine load_after_sync some .default hempty rfl rfl ?_ SyncIo.allOk_ok ?_
  · intro op hop
    simp only [mixedOps, mem_cons, not_mem_nil, or_false] at hop
    rcases hop with rfl | rfl | rfl | rfl | rfl | rfl
    · unfold Op.Ok; decide
    · exact SyncIo.allOk_ok
    · unfold Op.Ok; decide
    · unfold Op.Ok; decide
    · exact SyncIo.allOk_ok
    · unfold Op.Ok; decide
  · decide +kernel

end OpenSync.Psfs
