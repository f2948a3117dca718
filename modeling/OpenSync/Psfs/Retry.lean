import OpenSync.Psfs.Prune
import OpenSync.Psfs.Torn

/-!
# A sync that is tried again

This module follows a failed `psfs_sync` and a successful one behind it, for every point of
failure and every mode, and says when the file then has the map of the cache.

An append clears the flag of a record when the record is in the file, so an append is always
safe to retry, but for the bytes of a torn record (`TornHarmless`).  A prune clears the flags
and drops the deletions while it fills its temporary file.  If that file does not take the
name, an append that follows has forgotten them; if it does and the last `fsync` fails, an
append that follows goes to the old file, which has no name.  `RetryOk` is what is left.
-/

namespace OpenSync.Psfs

open OpenSync.Lib List Record

/-! ## The state before the first sync -/

/-- Records appended to a file come on top of its map. -/
def ReadsBehind (file : List UInt8) (rs : List Record) : Prop :=
  diskMap (appendRecords file rs) = replayFrom (diskMap file) (rs.map Record.pair)

/-- A journal of complete records is one such file. -/
theorem readsBehind_journal {rs : List (CStr × List UInt8)} (hrs : ∀ r ∈ rs, Fits r.1 r.2)
    {ds : List Record} (hds : ∀ pr ∈ ds, Fits pr.key pr.data) :
    ReadsBehind (journal rs) ds := by
  have hfits : ∀ r ∈ rs ++ ds.map pair, Fits r.1 r.2 := by
    intro r hr
    rcases mem_append.mp hr with hr | hr
    · exact hrs r hr
    · obtain ⟨pr, hpr, rfl⟩ := mem_map.mp hr
      exact hds pr hpr
  rw [ReadsBehind, appendRecords_of_aligned (length_journal_mod rs), ← journal_append,
    diskMap_journal hfits, diskMap_journal hrs, replay, replayFrom_append]
  rfl

/-- The dirty records of a store, in the order of the tree. -/
def Store.dirtyRecords (ps : Store) : List Record := ps.root.filter Record.dirty

/-- A store over its named file, which has every key without a dirty record; what is appended to it
can be read. -/
structure Recoverable (ps : Store) (d : Dir) : Prop extends Opened ps d where
  fd_eq : ps.fd = d.name
  fits : ∀ pr ∈ ps.root, Fits pr.key pr.data
  agrees : Agrees ps.root d.named
  appends : ∀ ds, ds.Sublist ps.dirtyRecords → ReadsBehind d.named ds

/-! ## The condition -/

/-- A failed append leaves no bytes, or those of a torn record in which nothing is accepted. -/
def TornHarmless (write : CStr → WriteIo) (file : List UInt8) (ds : List Record) : Prop :=
  match unwritten write ds with
  | [] => True
  | pr :: todo =>
    let rest := torn (appendRecords file (written write ds)) pr (write pr.key)
    rest = [] ∨ ((∃ rs, file = journal rs ∧ ∀ r ∈ rs, Fits r.1 r.2) ∧
        TornRecord pr.key pr.data rest ∧
        ∀ off, off % 4 = 0 → off < rest.length →
          (off = 0 ∨ (recordBody pr.key pr.data).length < off + 4) →
          ¬ Accepts (align rest ++ journal ((pr :: todo).map Record.pair)) off)

/-- The file already has what the prune marks as done: every deletion, and every dirty record in the
temporary file. -/
def NothingForgotten (ps : Store) (d : Dir) (io : SyncIo) : Prop :=
  ∀ pr ∈ ps.root, pr.dirty = true → (pr.isLive = false ∨ (io.write pr.key).cut = none) →
    freshLoad d.named pr.key = live ps.root pr.key

/-- When a sync that failed in `mode` with `io` and succeeded in `mode'` with
`io'` leaves the map of the cache in the file. -/
def RetryOk (ps : Store) (d : Dir) (mode : SyncMode) (io : SyncIo) (mode' : SyncMode)
    (io' : SyncIo) : Prop :=
  match mode', mode with
  | .prune, _ => WritesLive ps io'
  | .append, .append => TornHarmless io.write d.named ps.dirtyRecords
  | .append, .prune =>
    match io.stage with
    | .written => NothingForgotten ps d io
    | .renamed => WritesLive ps io
    | _ => True
  | _, _ => True

/-- The failed writes of a sync leave no bytes in the file. -/
def CleanFailures (ps : Store) (io : SyncIo) : Prop :=
  ∀ pr ∈ ps.root, (io.write pr.key).cut = none ∨ (io.write pr.key).cut = some 0

variable {ps : Store} {io : SyncIo} {d : Dir} {ps1 ps2 : Store} {d1 d2 : Dir}

theorem CleanFailures.cleanCuts (h : CleanFailures ps io) :
    CleanCuts ps io := fun pr hpr _ => h pr hpr

/-! ## The live records of a cache -/

/-- The keys and the data of the live records. -/
def livePairs (root : List Record) : List (CStr × List UInt8) :=
  (root.filter Record.isLive).map Record.pair

variable {rs rs' : List Record} {ps' : Store}

theorem livePairs_of_pairs (h : rs'.map Record.pair = rs.map Record.pair) :
    livePairs rs' = livePairs rs := by
  have hpairs : ∀ rs : List Record, livePairs rs = (rs.map pair).filter (fun p => p.2 ≠ []) := by
    intro rs
    rw [filter_map]
    rfl
  rw [hpairs, hpairs, h]

/-- What a prune writes depends on the keys and the data only. -/
theorem pruneFile_of_pairs (write : CStr → WriteIo) (h : rs'.map Record.pair = rs.map Record.pair)
    (file : List UInt8) : pruneFile write rs' file = pruneFile write rs file := by
  have hmap : ∀ rs : List Record, pruneFile write rs file = (rs.map pair).foldl
        (fun file p => (recordWrite file (recordInit p.1 p.2) (write p.1)).1) file := by
    intro rs
    rw [foldl_map, pruneFile]
    congr 1
    funext file pr
    change (recordWrite file pr (write pr.key)).1 =
      (recordWrite file (recordInit pr.key pr.data) (write pr.key)).1
    rw [recordWrite_eq, recordWrite_eq]
    cases (write pr.key).cut with
    | none => rfl
    | some n => rfl
  rw [hmap, hmap, h]

/-! ## The second sync -/

/-- A successful append has added all dirty records to the open file. -/
theorem psfsSyncAppend_true {d' : Dir} (h : Opened ps d)
    (hsync : psfsSyncAppend ps d io = (ps', d', true)) :
    d' = d.write ps.fd (appendRecords (d.files ps.fd) ps.dirtyRecords) := by
  rw [psfsSyncAppend_eq h, Prod.mk.injEq, Prod.mk.injEq] at hsync
  obtain ⟨-, rfl, hempty⟩ := hsync
  have hnil : unwritten io.write (ps.root.filter dirty) = [] :=
    isEmpty_iff.mp hempty
  have hall := written_append_unwritten io.write (ps.root.filter dirty)
  rw [hnil, append_nil] at hall
  rw [appendFile, hnil, hall]
  rfl

/-- A successful prune has put its temporary file in place. -/
theorem psfsSyncPrune_true {d' : Dir} (h : Opened ps d)
    (hsync : psfsSyncPrune ps d io = (ps', d', true)) : d'.named = pruneTmp ps io := by
  cases hstage : io.stage with
  | created =>
    obtain ⟨_, hs, -⟩ := psfsSyncPrune_created h hstage
    simp [hs] at hsync
  | written =>
    obtain ⟨_, hs, -⟩ := psfsSyncPrune_written h hstage
    simp [hs] at hsync
  | renamed =>
    obtain ⟨_, hs, -⟩ := psfsSyncPrune_renamed h hstage
    simp [hs] at hsync
  | done =>
    obtain ⟨ps'', d'', hs, -, -, -, hfile, -⟩ := psfsSyncPrune_done h hstage
    rw [hs] at hsync
    cases hsync
    exact hfile

/-- A prune needs every live record to be written. -/
theorem Recoverable.diskMap_pruneTmp (h : Recoverable ps d) (io : SyncIo) :
    (WritesLive ps io → diskMap (pruneTmp ps io) = live ps.root) ∧
      (CleanFailures ps io → (diskMap (pruneTmp ps io) = live ps.root ↔ WritesLive ps io)) := by
  have hfits : ∀ pr ∈ ps.root, pr.isLive = true → Fits pr.key pr.data :=
    fun pr hpr _ => h.fits pr hpr
  refine ⟨diskMap_pruneTmp_complete h.nodup hfits, fun hclean => ?_⟩
  rw [diskMap_pruneTmp_clean h.nodup hfits hclean.cleanCuts, live_writtenLive_iff h.nodup]

theorem retry_append (hopened : Opened ps1 d1) (hfd : ps1.fd = d1.name)
    (hsync : psfsSyncAppend ps1 d1 io = (ps2, d2, true)) :
    d2.named = appendRecords d1.named ps1.dirtyRecords := by
  rw [psfsSyncAppend_true hopened hsync, Dir.write, hfd]
  simp [Dir.named]

/-! ## After a failed append -/

theorem CleanFailures.tornHarmless (h : CleanFailures ps io) (file : List UInt8) :
    TornHarmless io.write file ps.dirtyRecords := by
  rw [TornHarmless]
  split
  · trivial
  rename_i pr todo hun
  have hmem : pr ∈ ps.dirtyRecords := by
    rw [← written_append_unwritten io.write ps.dirtyRecords, hun]
    simp
  exact .inl (by rcases h pr (mem_of_mem_filter hmem) with h | h <;> simp [torn, h])

section

variable (h : Recoverable ps d)

include h

/-- The dirty records on the file as it was make the map of the cache. -/
theorem Recoverable.diskMap_dirty :
    diskMap (appendRecords d.named ps.dirtyRecords) = live ps.root := by
  rw [h.appends _ (.refl _), Store.dirtyRecords, h.agrees.replay_dirty h.nodup]

/-- The records of the retry are read behind what the failed append left. -/
theorem TornHarmless.diskMap_append {write : CStr → WriteIo}
    (htorn : TornHarmless write d.named ps.dirtyRecords) :
    diskMap (appendRecords (appendFile write ps.dirtyRecords d.named)
      (unwritten write ps.dirtyRecords)) = live ps.root := by
  have hsplit := written_append_unwritten write ps.dirtyRecords
  have hall := h.diskMap_dirty
  rw [TornHarmless] at htorn
  cases hun : unwritten write ps.dirtyRecords with
  | nil =>
    rw [hun, append_nil] at hsplit
    rw [appendFile, hun, hsplit]
    exact hall
  | cons pr todo =>
    rw [hun] at htorn hsplit
    rw [appendFile, hun]
    dsimp only at htorn ⊢
    set done := appendRecords d.named (written write ps.dirtyRecords) with hdone
    rcases htorn with hnil | ⟨⟨rs, hfile, hrs⟩, hrec, hcrc⟩
    · rw [hnil, append_nil, hdone, appendRecords, appendRecords, ← foldl_append, hsplit]
      exact hall
    -- the torn record stands behind a journal, and the retry writes it again
    set rest := torn done pr (write pr.key) with hrest
    set rs' := rs ++ (written write ps.dirtyRecords).map pair with hrs'
    have hmem : ∀ r ∈ written write ps.dirtyRecords ++ pr :: todo, Fits r.key r.data := by
      rw [hsplit]
      intro r hr
      exact h.fits r (mem_of_mem_filter hr)
    have hfits' : ∀ r ∈ rs', Fits r.1 r.2 := by
      intro r hr
      rcases mem_append.mp hr with hr | hr
      · exact hrs r hr
      · obtain ⟨pr', hpr', rfl⟩ := mem_map.mp hr
        exact hmem pr' (by simp [hpr'])
    have htodo : ∀ r ∈ (pr :: todo).map pair, Fits r.1 r.2 := by
      intro r hr
      obtain ⟨pr', hpr', rfl⟩ := mem_map.mp hr
      exact hmem pr' (mem_append_right _ hpr')
    have hdone' : done = journal rs' := by
      rw [hdone, hfile, appendRecords_of_aligned (length_journal_mod rs), journal_append]
    have hpost : 4 ≤ (journal ((pr :: todo).map pair)).length := by
      rw [map_cons, journal_cons, length_append, recordBytes, length_append, length_recordContent]
      omega
    have hscan : (scanFrom (align rest ++ journal ((pr :: todo).map pair)) 0).map
        pair = (pr :: todo).map pair := by
      have hjournal := scanFrom_journal htodo []
      rw [append_nil, scanFrom_nil, append_nil] at hjournal
      rw [hrec.scanFrom_align hpost hcrc, hjournal, map_map]
      exact map_id _
    rw [appendRecords_cons, hdone', align_append (length_journal_mod rs'), append_assoc,
      diskMap_journal_append hfits', hscan, replay, ← replayFrom_append, append_assoc,
      ← map_append, hsplit, replayFrom_append, ← replay, ← diskMap_journal hrs, ← hfile,
      Store.dirtyRecords, h.agrees.replay_dirty h.nodup]

omit h in
/-- The dirty records that a prune leaves: live ones whose write failed. -/
theorem prunedRoot_dirty (write : CStr → WriteIo) (rs : List Record) :
    (prunedRoot write rs).filter Record.dirty = (rs.filter Record.dirty).filter
        (fun pr => pr.isLive && (write pr.key).cut.isSome) := by
  have hpred : ∀ pr ∈ rs,
      ((dirty ∘ fun pr => if (write pr.key).cut.isNone then pr.clean else pr) pr &&
        pr.isLive) = ((pr.isLive && (write pr.key).cut.isSome) && pr.dirty) := by
    intro pr _
    cases hcut : (write pr.key).cut with
    | none => simp [hcut, clean]
    | some n => simp [hcut, Bool.and_comm]
  rw [prunedRoot, filter_map, filter_filter, filter_filter, filter_congr hpred]
  refine (map_congr_left ?_).trans (map_id _)
  -- what is still dirty was not written, so it is as it was
  intro pr hpr
  obtain ⟨-, hleft⟩ := mem_filter.mp hpr
  cases hcut : (write pr.key).cut with
  | none => simp [hcut] at hleft
  | some n => simp

/-- An append behind such a prune brings back only those. -/
theorem retry_written (io : SyncIo) :
    diskMap (appendRecords d.named ((prunedRoot io.write ps.root).filter Record.dirty)) =
      live ps.root ↔ NothingForgotten ps d io := by
  set again := ps.dirtyRecords.filter (fun pr => pr.isLive && (io.write pr.key).cut.isSome)
    with hagain
  have hsub : again.Sublist ps.dirtyRecords := filter_sublist
  have hkeys : ((again.map pair).map Prod.fst).Nodup := by
    rw [map_map]
    exact .sublist (hsub.map key) (filter_keysNodup h.nodup _)
  have hother : ∀ k, (∀ pr ∈ again, pr.key ≠ k) →
      replayFrom (diskMap d.named) (again.map pair) k = diskMap d.named k := by
    intro k hk
    refine replayFrom_of_not_mem ?_ _
    intro r hr
    obtain ⟨pr, hpr, rfl⟩ := mem_map.mp hr
    exact hk pr hpr
  rw [prunedRoot_dirty, ← Store.dirtyRecords, h.appends again hsub]
  constructor
  · intro heq pr hmem hdirty hgone
    rw [freshLoad_eq, ← heq, hother]
    intro r hr he
    -- the record of this key was marked as done, so it is not written again
    obtain ⟨hr, hleft⟩ := mem_filter.mp hr
    rw [inj_on_of_nodup_map h.nodup (mem_of_mem_filter hr) hmem he] at hleft
    rcases hgone with hg | hg
    · simp [hg] at hleft
    · simp [hg] at hleft
  · intro hnf
    funext k
    by_cases hk : ∃ pr ∈ again, pr.key = k
    · obtain ⟨pr, hpr, rfl⟩ := hk
      have hmem := mem_of_mem_filter (hsub.subset hpr)
      rw [replayFrom_of_mem hkeys (mem_map.mpr ⟨pr, hpr, rfl⟩), live_of_mem h.nodup hmem]
    have hnone : ∀ pr ∈ again, pr.key ≠ k := fun pr hpr he => hk ⟨pr, hpr, he⟩
    rw [hother k hnone]
    by_cases hd : ∃ pr ∈ ps.root, pr.key = k ∧ pr.dirty = true
    · obtain ⟨pr, hmem, rfl, hdirty⟩ := hd
      rw [← freshLoad_eq]
      refine hnf pr hmem hdirty ?_
      by_contra hc
      push Not at hc
      refine hnone pr (mem_filter.mpr ⟨mem_filter.mpr ⟨hmem, hdirty⟩, ?_⟩) rfl
      simpa [Option.isSome_iff_ne_none, hc.2] using hc.1
    · refine h.agrees k ?_
      intro pr hpr he
      by_contra hne
      exact hd ⟨pr, hpr, he, by simpa using hne⟩

/-! ## The result -/

omit h in
/-- A failed sync keeps the live records and the order of the directory. -/
theorem psfsSync_failed {cfg : Config} {force : Bool} (h : Opened ps d)
    (hsync : psfsSync cfg ps d force io = (ps1, d1, false)) :
    Opened ps1 d1 ∧ livePairs ps1.root = livePairs ps.root := by
  rw [psfsSync, if_neg (by simp [h.writable])] at hsync
  cases hmode : syncMode cfg ps (d.files ps.fd) force io with
  | refuse =>
    rw [hmode] at hsync
    cases hsync
    exact ⟨h, rfl⟩
  | append =>
    rw [hmode] at hsync
    rw [psfsSyncAppend_eq h, Prod.mk.injEq, Prod.mk.injEq] at hsync
    obtain ⟨rfl, rfl, -⟩ := hsync
    exact ⟨h.append io.write _, livePairs_of_pairs (appendRoot_pairs io.write ps.root)⟩
  | prune =>
    rw [hmode] at hsync
    have hroot : livePairs (pruneStore ps io).root = livePairs ps.root := by
      rw [pruneStore_root h.nodup, livePairs_of_pairs (prunedRoot_pairs ..), livePairs,
        filter_filter]
      simp only [Bool.and_self]
      rfl
    cases hstage : io.stage with
    | created =>
      obtain ⟨d', hs, -, -, -, hopened⟩ := psfsSyncPrune_created h hstage
      rw [hs] at hsync
      cases hsync
      exact ⟨hopened, rfl⟩
    | written =>
      obtain ⟨d', hs, -, -, -, hopened⟩ := psfsSyncPrune_written h hstage
      rw [hs] at hsync
      cases hsync
      exact ⟨hopened, hroot⟩
    | renamed =>
      obtain ⟨d', hs, -, -, -, hopened⟩ := psfsSyncPrune_renamed h hstage
      rw [hs] at hsync
      cases hsync
      exact ⟨hopened, hroot⟩
    | done =>
      obtain ⟨_, _, hs, -⟩ := psfsSyncPrune_done h hstage
      simp [hs] at hsync

variable {io' : SyncIo}

theorem retry_append_append (hopened : Opened ps1 d1)
    (hfirst : psfsSyncAppend ps d io = (ps1, d1, false))
    (hsecond : psfsSyncAppend ps1 d1 io' = (ps2, d2, true))
    (htorn : TornHarmless io.write d.named ps.dirtyRecords) : diskMap d2.named = live ps.root := by
  rw [psfsSyncAppend_eq h.toOpened, Prod.mk.injEq, Prod.mk.injEq] at hfirst
  obtain ⟨rfl, rfl, -⟩ := hfirst
  have hnamed : (d.write ps.fd (appendFile io.write (ps.root.filter dirty)
      (d.files ps.fd))).named = appendFile io.write ps.dirtyRecords d.named := by
    simp [Dir.named, Dir.write, h.fd_eq, Store.dirtyRecords]
  have hdirty : ({ ps with root := appendRoot io.write ps.root } : Store).dirtyRecords =
      unwritten io.write ps.dirtyRecords := appendRoot_dirty io.write ps.root
  rw [retry_append hopened h.fd_eq hsecond, hnamed, hdirty]
  exact htorn.diskMap_append h

theorem retry_prune_append (hopened : Opened ps1 d1)
    (hfirst : psfsSyncPrune ps d io = (ps1, d1, false))
    (hsecond : psfsSyncAppend ps1 d1 io' = (ps2, d2, true)) :
    let ok := RetryOk ps d .prune io .append io'
    (ok → diskMap d2.named = live ps.root) ∧
      (CleanFailures ps io → (diskMap d2.named = live ps.root ↔ ok)) := by
  rw [RetryOk]
  cases hstage : io.stage with
  | created =>
    obtain ⟨d', hs, hname, hfile, -⟩ := psfsSyncPrune_created h.toOpened hstage
    rw [hs, Prod.mk.injEq, Prod.mk.injEq] at hfirst
    obtain ⟨rfl, rfl, -⟩ := hfirst
    have hnamed : d'.named = d.named := by rw [Dir.named, hname, hfile, ← Dir.named]
    rw [retry_append hopened (h.fd_eq.trans hname.symm) hsecond, hnamed]
    exact ⟨fun _ => h.diskMap_dirty, fun _ => ⟨fun _ => trivial, fun _ => h.diskMap_dirty⟩⟩
  | written =>
    obtain ⟨d', hs, hname, hfile, -⟩ := psfsSyncPrune_written h.toOpened hstage
    rw [hs, Prod.mk.injEq, Prod.mk.injEq] at hfirst
    obtain ⟨rfl, rfl, -⟩ := hfirst
    have hfd : (pruneStore ps io).fd = d'.name := by
      rw [pruneStore_fd h.nodup, h.fd_eq, hname]
    have hnamed : d'.named = d.named := by rw [Dir.named, hname, hfile, ← Dir.named]
    rw [retry_append hopened hfd hsecond, hnamed, Store.dirtyRecords,
      pruneStore_root h.nodup, retry_written h]
    exact ⟨id, fun _ => .rfl⟩
  | renamed =>
    obtain ⟨d', hs, hname, hfile, -⟩ := psfsSyncPrune_renamed h.toOpened hstage
    rw [hs] at hfirst
    cases hfirst
    -- the append goes to the old file, so the name keeps the temporary one
    have hnamed : d2.named = pruneTmp ps io := by
      rw [psfsSyncAppend_true hopened hsecond, Dir.named, Dir.write, pruneStore_fd h.nodup]
      simp [hname, hfile]
    rw [hnamed]
    exact h.diskMap_pruneTmp io
  | done =>
    obtain ⟨_, _, hs, -⟩ := psfsSyncPrune_done h.toOpened hstage
    simp [hs] at hfirst

end

/-- A sync that failed and was then repeated with success.  Under `RetryOk` the file
has the map of the cache, and if the failed writes leave no bytes behind, only
then. -/
theorem psfsSync_retry {cfg : Config} {ps ps1 ps2 : Store} {d d1 d2 : Dir}
    (h : Recoverable ps d) {force force' : Bool} {io io' : SyncIo}
    (hfirst : psfsSync cfg ps d force io = (ps1, d1, false))
    (hsecond : psfsSync cfg ps1 d1 force' io' = (ps2, d2, true)) :
    let ok := RetryOk ps d (syncMode cfg ps (d.files ps.fd) force io) io
      (syncMode cfg ps1 (d1.files ps1.fd) force' io') io'
    (ok → freshLoad d2.named = live ps.root) ∧ (CleanFailures ps io → CleanFailures ps io' →
        (freshLoad d2.named = live ps.root ↔ ok)) := by
  obtain ⟨hopened, hlive⟩ := psfsSync_failed h.toOpened hfirst
  rw [psfsSync, if_neg (by simp [h.writable])] at hfirst
  rw [psfsSync, if_neg (by simp [hopened.writable])] at hsecond
  rw [freshLoad_eq]
  cases hmode' : syncMode cfg ps1 (d1.files ps1.fd) force' io' with
  | refuse => simp [hmode'] at hsecond
  | prune =>
    rw [hmode'] at hsecond
    obtain ⟨hsuff, hiff⟩ := h.diskMap_pruneTmp io'
    rw [psfsSyncPrune_true hopened hsecond,
      show pruneTmp ps1 io' = pruneTmp ps io' from pruneFile_of_pairs io'.write hlive []]
    exact ⟨hsuff, fun _ hclean => hiff hclean⟩
  | append =>
    rw [hmode'] at hsecond
    cases hmode : syncMode cfg ps (d.files ps.fd) force io with
    | refuse =>
      rw [hmode] at hfirst
      cases hfirst
      rw [retry_append hopened h.fd_eq hsecond]
      exact ⟨fun _ => h.diskMap_dirty,
        fun _ _ => ⟨fun _ => trivial, fun _ => h.diskMap_dirty⟩⟩
    | append =>
      rw [hmode] at hfirst
      have hsuff := retry_append_append h hopened hfirst hsecond
      exact ⟨hsuff, fun hclean _ => ⟨fun _ => hclean.tornHarmless _, hsuff⟩⟩
    | prune =>
      rw [hmode] at hfirst
      obtain ⟨hsuff, hiff⟩ := retry_prune_append h hopened hfirst hsecond
      exact ⟨hsuff, fun hclean _ => hiff hclean⟩

/-! ## A record that is forgotten -/

/-- A store with one record that is not in its file yet. -/
def dirtyStore : Store :=
  { oneStore with root := [{ recordInit (cstrOf [97]) [1] with dirty := true }] }

/-- The directory of `dirtyStore`: an empty file. -/
def emptyDir : Dir := { oneDir with files := fun _ => [] }

theorem dirtyStore_recoverable : Recoverable dirtyStore emptyDir where
  nodup := nodup_singleton _
  name_lt := by decide
  fd_lt := by decide
  tmp := by simp [emptyDir, oneDir]
  writable := rfl
  fd_eq := rfl
  fits := by
    intro pr hpr
    obtain rfl := mem_singleton.mp hpr
    decide
  agrees := by
    intro k hk
    have hne : ∀ pr ∈ dirtyStore.root, pr.key ≠ k := by
      intro pr hpr he
      have hclean := hk pr hpr he
      obtain rfl := mem_singleton.mp hpr
      simp at hclean
    rw [live_of_not_mem hne]
    exact congrFun (@diskMap_journal [] (by simp)) k
  appends := by
    intro ds hds
    refine @readsBehind_journal [] (by simp) ds ?_
    intro pr hpr
    obtain rfl := mem_singleton.mp (mem_of_mem_filter (hds.subset hpr))
    decide

/-- An append fails at its only write, and the retry writes the record. -/
theorem psfsSync_retry_append :
    let r := psfsSync .default dirtyStore emptyDir false failedWrite
    let r' := psfsSync .default r.1 r.2.1 false .allOk
    r.2.2 = false ∧ r'.2.2 = true ∧ freshLoad r'.2.1.named = live dirtyStore.root := by
  intro r r'
  have hr : r.2.2 = false := by decide +kernel
  have hr' : r'.2.2 = true := by decide +kernel
  have hfirst : psfsSync .default dirtyStore emptyDir false failedWrite = (r.1, r.2.1, false) :=
    Prod.ext rfl (Prod.ext rfl hr)
  have hsecond : psfsSync .default r.1 r.2.1 false .allOk = (r'.1, r'.2.1, true) :=
    Prod.ext rfl (Prod.ext rfl hr')
  refine ⟨hr, hr', (psfsSync_retry dirtyStore_recoverable hfirst hsecond).1 ?_⟩
  have hclean : CleanFailures dirtyStore failedWrite := fun pr _ => .inr rfl
  exact hclean.tornHarmless _

/-- A prune fails at its rename, and the append that follows reports success and
writes nothing: the record is in no file. -/
theorem psfsSync_retry_forgets :
    let io : SyncIo := { SyncIo.allOk with rename := false }
    let r := psfsSync .default dirtyStore emptyDir true io
    let r' := psfsSync .default r.1 r.2.1 false .allOk
    r.2.2 = false ∧ r'.2.2 = true ∧ live dirtyStore.root ⟨[97], by decide⟩ = some [1] ∧
      freshLoad r'.2.1.named ⟨[97], by decide⟩ = none := by
  refine ⟨by decide +kernel, by decide +kernel, by decide +kernel, by decide +kernel⟩

end OpenSync.Psfs
