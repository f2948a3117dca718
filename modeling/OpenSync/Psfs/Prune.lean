import OpenSync.Psfs.Replay

/-!
# When a prune is all or nothing

The file under the store name should be the old one or a complete new one, and the prune should
report success only for the new one (`AllOrNothing`).

The loop of `psfs_sync_prune` goes on after a record that could not be written, and the rename
then puts an incomplete file in place.  So the property holds as long as the rename is not
reached or every live record was written (`PruneSafe`), and `psfsSyncPrune_allOrNothing` says
how far this condition is needed.
-/

namespace OpenSync.Psfs

open OpenSync.Lib List

/-! ## The property and its condition -/

/-- After a prune the store name has a file with the old map or that of the cache, and success means
the second. -/
def AllOrNothing (ps : Store) (d : Dir) (io : SyncIo) : Prop :=
  let r := psfsSyncPrune ps d io
  (freshLoad r.2.1.named = freshLoad d.named ∨ freshLoad r.2.1.named = live ps.root) ∧
    (r.2.2 = true → freshLoad r.2.1.named = live ps.root)

section

variable (ps : Store) (io : SyncIo)

/-- Every live record is written completely. -/
def WritesLive : Prop :=
  ∀ pr ∈ ps.root, pr.isLive = true → (io.write pr.key).cut = none

/-- The prune does not reach its rename, or writes every live record. -/
def PruneSafe : Prop :=
  ps.flags.write = false ∨ io.stage = .created ∨ io.stage = .written ∨ WritesLive ps io

/-- The writes of live records that fail leave no bytes in the file. -/
def CleanCuts : Prop :=
  ∀ pr ∈ ps.root, pr.isLive = true → (io.write pr.key).cut = none ∨ (io.write pr.key).cut = some 0

/-- The live records that a prune writes. -/
def writtenLive : List Record :=
  (ps.root.filter Record.isLive).filter (fun pr => (io.write pr.key).cut.isNone)

end

/-! ## The map of the temporary file -/

section

variable {ps : Store} (hnodup : KeysNodup ps.root)
  (hfits : ∀ pr ∈ ps.root, pr.isLive = true → Fits pr.key pr.data)

include hnodup hfits

/-- A journal of some of the live records has their map. -/
theorem diskMap_live_sublist {rs : List Record} (hsub : rs.Sublist (ps.root.filter Record.isLive)) :
    diskMap (appendRecords [] rs) = live rs := by
  have hrs : KeysNodup rs :=
    .sublist (hsub.map Record.key) (filter_keysNodup hnodup _)
  have hfits' : ∀ r ∈ rs.map Record.pair, Fits r.1 r.2 := by
    intro r hr
    obtain ⟨pr, hpr, rfl⟩ := mem_map.mp hr
    obtain ⟨hmem, hlive⟩ := mem_filter.mp (hsub.subset hpr)
    exact hfits pr hmem hlive
  rw [appendRecords_of_aligned (by rfl), nil_append, diskMap_journal hfits', live_eq_replay hrs]
  rfl

variable {io : SyncIo}

/-- A temporary file with every live record has the map of the cache. -/
theorem diskMap_pruneTmp_complete (h : WritesLive ps io) :
    diskMap (pruneTmp ps io) = live ps.root := by
  have hcut : ∀ pr ∈ ps.root.filter Record.isLive, (io.write pr.key).cut = none := by
    intro pr hpr
    obtain ⟨hmem, hlive⟩ := mem_filter.mp hpr
    exact h pr hmem hlive
  rw [pruneTmp, pruneFile_complete hcut, diskMap_live_sublist hnodup hfits (.refl _),
    live_filter_isLive hnodup]

/-- If failed writes leave nothing, the temporary file has the map of the written records. -/
theorem diskMap_pruneTmp_clean (h : CleanCuts ps io) :
    diskMap (pruneTmp ps io) = live (writtenLive ps io) := by
  have hcut : ∀ pr ∈ ps.root.filter Record.isLive,
      (io.write pr.key).cut = none ∨ (io.write pr.key).cut = some 0 := by
    intro pr hpr
    obtain ⟨hmem, hlive⟩ := mem_filter.mp hpr
    exact h pr hmem hlive
  rw [pruneTmp, pruneFile_of_cut_zero hcut]
  exact diskMap_live_sublist hnodup hfits filter_sublist

end

variable {ps : Store} {io : SyncIo} {ps' : Store}

/-- A live record that was not written is missing. -/
theorem live_writtenLive_iff (hnodup : KeysNodup ps.root) (io : SyncIo) :
    live (writtenLive ps io) = live ps.root ↔ WritesLive ps io := by
  constructor
  · intro h pr hmem hlive
    by_contra hcut
    have hdata : pr.data ≠ [] := by simpa [Record.isLive] using hlive
    have hnone : live (writtenLive ps io) pr.key = none := by
      refine live_of_not_mem ?_
      intro r hr he
      obtain ⟨hr, hwritten⟩ := mem_filter.mp hr
      have hsame := inj_on_of_nodup_map hnodup (mem_of_mem_filter hr) hmem he
      rw [hsame] at hwritten
      exact hcut (by simpa using hwritten)
    rw [h, live_of_mem hnodup hmem, if_neg hdata] at hnone
    simp at hnone
  · intro h
    have hall : writtenLive ps io = ps.root.filter Record.isLive := by
      refine filter_eq_self.mpr ?_
      intro pr hpr
      obtain ⟨hmem, hlive⟩ := mem_filter.mp hpr
      simp [h pr hmem hlive]
    rw [hall, live_filter_isLive hnodup]

/-! ## The result -/

/-- Before the rename the named file is the old one and the prune fails. -/
theorem allOrNothing_of_unnamed {d d' : Dir} (hsync : psfsSyncPrune ps d io = (ps', d', false))
    (hname : d'.name = d.name) (hfile : d'.files d.name = d.files d.name) :
    AllOrNothing ps d io := by
  have hnamed : d'.named = d.named := by rw [Dir.named, hname, hfile, ← Dir.named]
  rw [AllOrNothing, hsync]
  exact ⟨.inl (by rw [hnamed]), by simp⟩

/-- After the rename the named file is the temporary one. -/
theorem allOrNothing_of_named {d d' : Dir} {ok : Bool}
    (hsync : psfsSyncPrune ps d io = (ps', d', ok)) (hfile : d'.files d'.name = pruneTmp ps io) :
    AllOrNothing ps d io ↔ diskMap (pruneTmp ps io) = live ps.root ∨
        (ok = false ∧ diskMap (pruneTmp ps io) = freshLoad d.named) := by
  have hload : freshLoad d'.named = diskMap (pruneTmp ps io) := by
    rw [freshLoad_eq, Dir.named, hfile]
  rw [AllOrNothing, hsync]
  rw [hload]
  cases ok with
  | false =>
    constructor
    · rintro ⟨h | h, -⟩
      · exact .inr ⟨rfl, h⟩
      · exact .inl h
    · rintro (h | ⟨-, h⟩)
      · exact ⟨.inr h, by simp⟩
      · exact ⟨.inl h, by simp⟩
  | true =>
    constructor
    · rintro ⟨-, h⟩
      exact .inl (h rfl)
    · rintro (h | ⟨h, -⟩)
      · exact ⟨.inr h, fun _ => h⟩
      · simp at h

/-- A prune is all or nothing if it does not reach its rename or writes every live
record.  If the failed writes leave no bytes behind, this is also needed, but
for one case: the last `fsync` fails, and the incomplete file happens to have
the map of the old one. -/
theorem psfsSyncPrune_allOrNothing {ps : Store} {d : Dir} {io : SyncIo} (h : Placed ps d)
    (hfits : ∀ pr ∈ ps.root, pr.isLive = true → Fits pr.key pr.data) :
    (PruneSafe ps io → AllOrNothing ps d io) ∧ (CleanCuts ps io → (AllOrNothing ps d io ↔
          PruneSafe ps io ∨
            (io.stage = .renamed ∧ freshLoad d.named = live (writtenLive ps io)))) := by
  by_cases hwrite : ps.flags.write = false
  · have hsync : psfsSyncPrune ps d io = (ps, d, false) := by rw [psfsSyncPrune, if_pos hwrite]
    have hall := allOrNothing_of_unnamed hsync rfl rfl
    exact ⟨fun _ => hall, fun _ => ⟨fun _ => .inl (.inl hwrite), fun _ => hall⟩⟩
  have hopened : Opened ps d := ⟨h, by simpa using hwrite⟩
  cases hstage : io.stage with
  | created =>
    obtain ⟨d', hsync, hname, hfile, -⟩ := psfsSyncPrune_created hopened hstage
    have hall := allOrNothing_of_unnamed hsync hname hfile
    exact ⟨fun _ => hall, fun _ => ⟨fun _ => .inl (.inr (.inl hstage)), fun _ => hall⟩⟩
  | written =>
    obtain ⟨d', hsync, hname, hfile, -⟩ := psfsSyncPrune_written hopened hstage
    have hall := allOrNothing_of_unnamed hsync hname hfile
    exact ⟨fun _ => hall,
      fun _ => ⟨fun _ => .inl (.inr (.inr (.inl hstage))), fun _ => hall⟩⟩
  | renamed =>
    obtain ⟨d', hsync, -, hfile, -⟩ := psfsSyncPrune_renamed hopened hstage
    have hsafe : PruneSafe ps io ↔ WritesLive ps io := by simp [PruneSafe, hwrite, hstage]
    rw [allOrNothing_of_named hsync hfile, hsafe]
    refine ⟨fun hw => .inl (diskMap_pruneTmp_complete h.nodup hfits hw), fun hclean => ?_⟩
    rw [diskMap_pruneTmp_clean h.nodup hfits hclean, live_writtenLive_iff h.nodup]
    simp [eq_comm]
  | done =>
    obtain ⟨ps', d', hsync, -, -, -, hfile, -⟩ := psfsSyncPrune_done hopened hstage
    have hsafe : PruneSafe ps io ↔ WritesLive ps io := by simp [PruneSafe, hwrite, hstage]
    rw [allOrNothing_of_named hsync hfile, hsafe]
    refine ⟨fun hw => .inl (diskMap_pruneTmp_complete h.nodup hfits hw), fun hclean => ?_⟩
    rw [diskMap_pruneTmp_clean h.nodup hfits hclean, live_writtenLive_iff h.nodup]
    simp

/-! ## A record that is lost -/

/-- A store with one record, which is in its file. -/
def oneStore : Store where
  fd := 0
  flags := ⟨true, true, false⟩
  root := [recordInit (cstrOf [97]) [1]]
  next := none
  used := 16
  wasted := 0

/-- The directory of `oneStore`. -/
def oneDir : Dir where
  files := fun _ => recordBytes (cstrOf [97]) [1]
  fresh := 1
  name := 0
  tmp := none

theorem oneStore_placed : Placed oneStore oneDir :=
  ⟨nodup_singleton _, by decide, by decide, by simp [oneDir]⟩

/-- The write of the record fails and everything else succeeds. -/
def failedWrite : SyncIo := { SyncIo.allOk with write := fun _ => ⟨true, .failed⟩ }

theorem psfsSyncPrune_allOrNothing_one :
    AllOrNothing oneStore oneDir { SyncIo.allOk with fsyncDir := false } ∧
      (AllOrNothing oneStore oneDir failedWrite ↔ PruneSafe oneStore failedWrite ∨
          (failedWrite.stage = .renamed ∧
            freshLoad oneDir.named = live (writtenLive oneStore failedWrite))) := by
  have hfits : ∀ pr ∈ oneStore.root, pr.isLive = true → Fits pr.key pr.data := by
    intro pr hpr _
    obtain rfl := mem_singleton.mp hpr
    decide
  constructor
  · refine (psfsSyncPrune_allOrNothing oneStore_placed hfits).1 ?_
    exact .inr (.inr (.inr (fun pr _ _ => rfl)))
  · refine (psfsSyncPrune_allOrNothing oneStore_placed hfits).2 ?_
    exact fun pr _ _ => .inr rfl

/-- A prune whose only write fails reports success and loses the record, which was
in the file before. -/
theorem psfsSyncPrune_loses_record :
    ¬ AllOrNothing oneStore oneDir failedWrite ∧
      (psfsSyncPrune oneStore oneDir failedWrite).2.2 = true ∧
      freshLoad oneDir.named ⟨[97], by decide⟩ = some [1] ∧
      freshLoad (psfsSyncPrune oneStore oneDir failedWrite).2.1.named ⟨[97], by decide⟩ =
        none := by
  have hok : (psfsSyncPrune oneStore oneDir failedWrite).2.2 = true := by decide +kernel
  have hnone : freshLoad (psfsSyncPrune oneStore oneDir failedWrite).2.1.named
      ⟨[97], by decide⟩ = none := by decide +kernel
  have hlive : live oneStore.root ⟨[97], by decide⟩ = some [1] := by decide +kernel
  refine ⟨?_, hok, by decide +kernel, hnone⟩
  intro h
  rw [h.2 hok, hlive] at hnone
  simp at hnone

end OpenSync.Psfs
