import OpenSync.Psfs.Store

/-!
# The map of a store

Seen from outside, a store is a finite map from keys to non-empty values.  This module reads that
map off the cache (`live`) and off a list of journal records (`replay`), and says what each
operation does to it.

The cache has at most one record for a key (`KeysNodup`).  `find_eq_some_iff` reads a lookup as
membership, so the order of the tree never matters here.
-/

namespace OpenSync.Psfs

open OpenSync.Lib List Ds.Ordered

/-- What a store is for: a map from keys to values. -/
abbrev Map := CStr → Option (List UInt8)

/-- The effect of one set: an empty value deletes the key. -/
def Map.apply (m : Map) (key : CStr) (data : List UInt8) : Map :=
  Function.update m key (if data = [] then none else some data)

variable (m : Map) {k : CStr} {root : List Record} {pr : Record}

@[simp] theorem Map.apply_self (key : CStr) (data : List UInt8) :
    m.apply key data key = if data = [] then none else some data := by
  simp [Map.apply]

theorem Map.apply_of_ne {key : CStr} (h : k ≠ key) (data : List UInt8) :
    m.apply key data k = m k := by
  simp [Map.apply, h]

/-- The map that a list of records leaves, starting from `m`. -/
def replayFrom (m : Map) (rs : List (CStr × List UInt8)) : Map :=
  rs.foldl (fun m r => m.apply r.1 r.2) m

/-- The map that a list of records leaves. -/
def replay (rs : List (CStr × List UInt8)) : Map := replayFrom (fun _ => none) rs

theorem replayFrom_append (rs rs' : List (CStr × List UInt8)) :
    replayFrom m (rs ++ rs') = replayFrom (replayFrom m rs) rs' := by
  simp [replayFrom]

variable {rs : List (CStr × List UInt8)}

theorem replayFrom_of_not_mem (h : ∀ r ∈ rs, r.1 ≠ k) (m : Map) : replayFrom m rs k = m k := by
  induction rs generalizing m with
  | nil => rfl
  | cons r rs ih =>
    rw [replayFrom, foldl_cons, ← replayFrom, ih (fun r' hr' => h r' (by simp [hr'])),
      Map.apply_of_ne m (h r (by simp)).symm]

/-- Among records with distinct keys, the one that names a key decides its
value. -/
theorem replayFrom_of_mem {d : List UInt8} (hnodup : (rs.map Prod.fst).Nodup) (h : (k, d) ∈ rs)
    (m : Map) : replayFrom m rs k = if d = [] then none else some d := by
  induction rs generalizing m with
  | nil => simp at h
  | cons r rs ih =>
    rw [map_cons, nodup_cons] at hnodup
    rw [replayFrom, foldl_cons, ← replayFrom]
    rcases mem_cons.mp h with rfl | hmem
    · rw [replayFrom_of_not_mem, Map.apply_self]
      intro r' hr' he
      exact hnodup.1 (mem_map.mpr ⟨r', hr', he⟩)
    · exact ih hnodup.2 hmem _

/-! ## Lookups in the cache -/

/-- No two records of the cache have the same key. -/
def KeysNodup (root : List Record) : Prop := (root.map Record.key).Nodup

theorem find_eq_find? (root : List Record) (k : CStr) :
    Ds.Ordered.find Record.key strcmp root k = root.find? (fun pr => pr.key = k) := by
  simp only [find, strcmp_eq_zero_iff]

/-- With distinct keys a lookup is membership. -/
theorem find_eq_some_iff (h : KeysNodup root) :
    Ds.Ordered.find Record.key strcmp root k = some pr ↔ pr ∈ root ∧ pr.key = k := by
  rw [find_eq_find?]
  exact Lib.findKey_eq_some_iff h

theorem find_eq_none_iff :
    Ds.Ordered.find Record.key strcmp root k = none ↔ ∀ pr ∈ root, pr.key ≠ k := by
  rw [find_eq_find?]
  simp

/-! ## The live map -/

/-- The map of the live records of a cache. -/
def live (root : List Record) : Map := fun k =>
  match Ds.Ordered.find Record.key strcmp root k with
  | some pr => if pr.data = [] then none else some pr.data
  | none => none

theorem live_of_mem (h : KeysNodup root) (hmem : pr ∈ root) :
    live root pr.key = if pr.data = [] then none else some pr.data := by
  rw [live, (find_eq_some_iff h).mpr ⟨hmem, rfl⟩]

theorem live_of_not_mem (h : ∀ pr ∈ root, pr.key ≠ k) : live root k = none := by
  rw [live, find_eq_none_iff.mpr h]

/-- The records of a key decide its value. -/
theorem live_congr {root' : List Record} (h : KeysNodup root) (h' : KeysNodup root')
    (hmem : ∀ pr : Record, pr.key = k → (pr ∈ root ↔ pr ∈ root')) : live root k = live root' k := by
  unfold live
  congr 1
  ext pr
  rw [find_eq_some_iff h, find_eq_some_iff h']
  exact and_congr_left (hmem pr)

/-- The live map of a cache is the replay of its records. -/
theorem live_eq_replay (h : KeysNodup root) :
    live root = replay (root.map (fun pr => (pr.key, pr.data))) := by
  funext k
  by_cases hk : ∃ pr ∈ root, pr.key = k
  · obtain ⟨pr, hmem, rfl⟩ := hk
    rw [live_of_mem h hmem, replay, replayFrom_of_mem (d := pr.data)]
    · rw [map_map]
      exact h
    · exact mem_map.mpr ⟨pr, hmem, rfl⟩
  · have hnone : ∀ pr ∈ root, pr.key ≠ k := fun pr hpr he => hk ⟨pr, hpr, he⟩
    rw [live_of_not_mem hnone, replay, replayFrom_of_not_mem]
    intro r hr
    obtain ⟨pr, hpr, rfl⟩ := mem_map.mp hr
    exact hnone pr hpr

/-! ## What the operations of the cache do to the map -/

section

variable (h : KeysNodup root)

include h

theorem insert_keysNodup (hnew : ∀ r ∈ root, r.key ≠ pr.key) :
    KeysNodup (Ds.Ordered.insert Record.key strcmp root pr) := by
  have hperm := (insert_perm Record.key strcmp root pr).map Record.key
  refine hperm.nodup_iff.mpr (nodup_cons.mpr ⟨?_, h⟩)
  intro hmem
  obtain ⟨r, hr, he⟩ := mem_map.mp hmem
  exact hnew r hr he

theorem live_insert (hnew : ∀ r ∈ root, r.key ≠ pr.key) :
    live (Ds.Ordered.insert Record.key strcmp root pr) = (live root).apply pr.key pr.data := by
  have hnodup := insert_keysNodup h hnew
  funext k
  by_cases hk : k = pr.key
  · rw [hk, Map.apply_self]
    exact live_of_mem hnodup ((mem_insert _ _).mpr (.inl rfl))
  rw [Map.apply_of_ne _ hk]
  refine live_congr hnodup h fun r hr => ?_
  have hne : r ≠ pr := fun he => hk (he ▸ hr.symm)
  simp [mem_insert, hne]

theorem remove_keysNodup (pr : Record) : KeysNodup (Ds.Ordered.remove root pr) :=
  h.sublist ((erase_sublist).map _)

theorem mem_remove {r : Record} (hpr : pr ∈ root) :
    r ∈ Ds.Ordered.remove root pr ↔ r ∈ root ∧ r.key ≠ pr.key := by
  have hnodup : root.Nodup := List.Nodup.of_map _ h
  rw [remove, hnodup.mem_erase_iff]
  constructor
  · rintro ⟨hne, hmem⟩
    exact ⟨hmem, fun he => hne (inj_on_of_nodup_map h hmem hpr he)⟩
  · rintro ⟨hmem, hne⟩
    exact ⟨fun he => hne (congrArg Record.key he), hmem⟩

theorem live_remove (hpr : pr ∈ root) :
    live (Ds.Ordered.remove root pr) = (live root).apply pr.key [] := by
  have hnodup := remove_keysNodup h pr
  funext k
  by_cases hk : k = pr.key
  · rw [hk, live_of_not_mem]
    · simp
    · intro r hr
      exact ((mem_remove h hpr).mp hr).2
  · rw [Map.apply_of_ne _ hk]
    refine live_congr hnodup h fun r hr => ?_
    rw [mem_remove h hpr, and_iff_left (hr ▸ hk)]

end

theorem Map.apply_apply (key : CStr) (d d' : List UInt8) :
    (m.apply key d).apply key d' = m.apply key d' := by
  simp [Map.apply]

theorem dropKey_root (ps : Store) (h : KeysNodup ps.root) (key : CStr) :
    KeysNodup (ps.dropKey key).root ∧ (∀ r ∈ (ps.dropKey key).root, r.key ≠ key) ∧
      live (ps.dropKey key).root = (live ps.root).apply key [] := by
  rw [Store.dropKey]
  cases hf : ps.find key with
  | none =>
    have hnone := find_eq_none_iff.mp hf
    refine ⟨h, hnone, ?_⟩
    rw [Map.apply, if_pos rfl, ← live_of_not_mem hnone, Function.update_eq_self]
  | some pr =>
    obtain ⟨hmem, rfl⟩ := (find_eq_some_iff h).mp hf
    refine ⟨remove_keysNodup h pr, ?_, live_remove h hmem⟩
    intro r hr
    exact ((mem_remove h hmem).mp hr).2

/-- A set can fail for want of a flag, find nothing to delete, fail in the encryption with the old
record gone already, or replace it by a new one. -/
theorem psfsSet_outcome (encrypt : List UInt8 → Option (List UInt8)) (ps : Store) (key : CStr)
    (value : Option (List UInt8)) :
    (psfsSet encrypt ps key value = (ps, -1) ∧ ps.flags.write = false) ∨
    (psfsSet encrypt ps key value = (ps, 0) ∧ value.getD [] = [] ∧ ps.find key = none) ∨
    (psfsSet encrypt ps key value = (ps.dropKey key, -1) ∧ ps.flags.encryption = true) ∨
    ∃ v, psfsSet encrypt ps key value = (ps.dropKey key).put key v ∧
      (ps.flags.encryption = false → v = value.getD []) := by
  have hdone : ∀ ps' : Store, ps'.flags = ps.flags → ∀ d,
      (ps'.encryptPut encrypt key d = (ps', -1) ∧ ps.flags.encryption = true) ∨
      ∃ v, ps'.encryptPut encrypt key d = ps'.put key v ∧
        (ps.flags.encryption = false → v = d) := by
    intro ps' hflags d
    rw [Store.encryptPut, hflags]
    split_ifs with henc
    · cases encrypt d with
      | none => exact .inl ⟨rfl, henc.1⟩
      | some v => exact .inr ⟨v, rfl, fun h => by simp [henc.1] at h⟩
    · exact .inr ⟨d, rfl, fun _ => rfl⟩
  cases hwrite : ps.flags.write with
  | false => exact .inl ⟨by rw [psfsSet, if_pos hwrite], rfl⟩
  | true =>
    rw [psfsSet, if_neg (by simp [hwrite]), Store.dropKey]
    cases hf : ps.find key with
    | some pr => exact .inr (.inr (hdone (ps.dropRecord pr) rfl (value.getD [])))
    | none =>
      by_cases hnil : value.getD [] = []
      · exact .inr (.inl ⟨if_pos hnil, hnil, rfl⟩)
      · rw [if_neg hnil]
        exact .inr (.inr (hdone ps rfl (value.getD [])))

/-- A set that fails leaves the records and the counters as they were exactly if the store is not
open for writing or has no record of the key: otherwise the old record is gone. -/
theorem psfsSet_failed_iff (encrypt : List UInt8 → Option (List UInt8)) (ps : Store) (key : CStr)
    (value : Option (List UInt8)) (h : (psfsSet encrypt ps key value).2 < 0) :
    ((psfsSet encrypt ps key value).1.root = ps.root ∧
      (psfsSet encrypt ps key value).1.used = ps.used ∧
      (psfsSet encrypt ps key value).1.wasted = ps.wasted) ↔
      ps.flags.write = false ∨ ps.find key = none := by
  rcases psfsSet_outcome encrypt ps key value with
    ⟨hset, hwrite⟩ | ⟨hset, -, -⟩ | ⟨hset, -⟩ | ⟨v, hset, -⟩
  · simp [hset, hwrite]
  · simp [hset] at h
  · constructor
    · rintro ⟨hroot, -, -⟩
      rw [hset, Store.dropKey] at hroot
      cases hf : ps.find key with
      | none => exact .inr rfl
      | some pr =>
        have hmem : pr ∈ ps.root := mem_of_find?_eq_some hf
        simp only [hf, Store.dropRecord, remove] at hroot
        have hlen := length_erase_of_mem hmem
        have hpos := length_pos_of_mem hmem
        rw [hroot] at hlen
        omega
    · rintro (hwrite | hnone)
      · simp [psfsSet, hwrite]
      · simp [hset, Store.dropKey, hnone]
  · rw [hset, Store.put] at h
    exact absurd h (by simp)

/-- The encryption of a new value fails: the key is lost. -/
theorem psfsSet_loses_key :
    let key : CStr := ⟨[97], by decide⟩
    let ps : Store := ⟨0, ⟨true, true, true⟩, [recordInit key [1]], none, 16, 0⟩
    psfsSet (fun _ => none) ps key (some [2]) =
      ({ ps with root := [], used := 0, wasted := 16 }, -1)
      ∧ ps.find key ≠ none := by
  decide +kernel

/-- The encryption of the value of a new key fails: the record of the other key is kept. -/
theorem psfsSet_failed_iff_newKey :
    let key : CStr := ⟨[97], by decide⟩
    let new : CStr := ⟨[98], by decide⟩
    let ps : Store := ⟨0, ⟨true, true, true⟩, [recordInit key [1]], none, 16, 0⟩
    (psfsSet (fun _ => none) ps new (some [2])).2 < 0 ∧
      (psfsSet (fun _ => none) ps new (some [2])).1.root = ps.root :=
  ⟨by decide +kernel,
    ((psfsSet_failed_iff (fun _ => none) _ _ _ (by decide +kernel)).mpr
      (.inr (by decide +kernel))).1⟩

/-! ## Loading -/

/-- `psfs_load` folds its step over the scan of the file. -/
theorem loadLoop_eq (fuel : Nat) (ps : Store) (file : List UInt8) (pos : Nat) :
    loadLoop fuel ps file pos = (scan fuel file pos).foldl loadRecord ps := by
  induction fuel generalizing ps pos with
  | zero => rfl
  | succ fuel ih =>
    rw [loadLoop, scan]
    rcases recordRead file pos with ⟨r, p⟩
    cases r with
    | eof => rfl
    | error => exact ih ps p
    | record pr n => exact ih (loadRecord ps pr) p

theorem loadRecord_root (ps : Store) (h : KeysNodup ps.root) (pr : Record) :
    KeysNodup (loadRecord ps pr).root ∧
      live (loadRecord ps pr).root = (live ps.root).apply pr.key pr.data := by
  obtain ⟨hnodup, hnew, hlive⟩ := dropKey_root ps h pr.key
  rw [loadRecord]
  split
  · rename_i hnil
    rw [hnil]
    exact ⟨hnodup, hlive⟩
  · refine ⟨insert_keysNodup hnodup hnew, ?_⟩
    rw [← Map.apply_apply _ _ [], ← hlive]
    exact live_insert hnodup hnew

theorem foldl_loadRecord_root (rs : List Record) (ps : Store) (h : KeysNodup ps.root) :
    KeysNodup (rs.foldl loadRecord ps).root ∧ live (rs.foldl loadRecord ps).root =
        replayFrom (live ps.root) (rs.map (fun pr => (pr.key, pr.data))) := by
  induction rs generalizing ps with
  | nil => exact ⟨h, rfl⟩
  | cons pr rs ih =>
    obtain ⟨hnodup, hlive⟩ := loadRecord_root ps h pr
    obtain ⟨hnodup', hlive'⟩ := ih (loadRecord ps pr) hnodup
    refine ⟨hnodup', ?_⟩
    rw [foldl_cons, hlive', hlive]
    rfl

end OpenSync.Psfs
