import OpenSync.Psfs.Replay

/-!
# The cursor of a store

`psfs_rewind` and `psfs_next` walk over the keys of a store.  A deleted key stays in the tree as a
record without data until the next prune.  `psfs_next` steps over such records, but `psfs_rewind`
does not: a deleted key at the head of the tree is returned.
-/

namespace OpenSync.Psfs

open OpenSync.Lib List Record

/-! ## The functions -/

/-- The records behind the one of a key: what `ds_tree_next` goes through. -/
def behind : List Record → CStr → List Record
  | [], _ => []
  | pr :: rest, key => if pr.key = key then rest else behind rest key

/-- `psfs_next`: the key that it returns, and the store. -/
def psfsNext (ps : Store) : Option CStr × Store :=
  match ps.next with
  | none => (none, ps)
  | some key =>
    (some key, { ps with next := ((behind ps.root key).find? Record.isLive).map Record.key })

/-- The keys that repeated calls of `psfs_next` return before NULL, in at most `n` calls. -/
def psfsKeys : Nat → Store → List CStr
  | 0, _ => []
  | n + 1, ps =>
    match psfsNext ps with
    | (none, _) => []
    | (some key, ps) => key :: psfsKeys n ps

section

variable (decrypt : List UInt8 → Option (List UInt8))

/-- The value of a record: its data, decrypted in a store with encryption.  `decrypt` is
`osp_sec_decrypt`, with `none` for a negative result. -/
def Store.value (ps : Store) (pr : Record) : List UInt8 :=
  if ps.flags.encryption then (decrypt pr.data).getD pr.data else pr.data

/-- The return value of `psfs_get`. -/
def psfsGet (ps : Store) (key : CStr) : Int :=
  if ps.flags.read = false then -1
  else
    match ps.find key with
    | none => 0
    | some pr => (ps.value decrypt pr).length

end

/-! ## Stores that can be reached -/

/-- The records are in the order of `strcmp`, each key once. -/
def InOrder (root : List Record) : Prop := root.Pairwise fun pr pr' => strcmp pr.key pr'.key < 0

variable {root : List Record} {ps : Store}

theorem InOrder.keysNodup (h : InOrder root) : KeysNodup root := by
  rw [KeysNodup, List.Nodup, pairwise_map]
  refine h.imp fun hlt heq => ?_
  rw [(strcmp_eq_zero_iff _ _).mpr heq] at hlt
  omega

theorem InOrder.keys (h : InOrder root) :
    (root.map Record.key).Pairwise fun k k' => strcmp k k' < 0 := by
  rw [pairwise_map]
  exact h

section

variable (h : InOrder ps.root)

include h

theorem InOrder.dropKey (key : CStr) : InOrder (ps.dropKey key).root := by
  rw [Store.dropKey]
  split
  · exact .sublist erase_sublist h
  · exact h

theorem InOrder.insert {pr : Record} (hnew : ∀ r ∈ ps.root, r.key ≠ pr.key) :
    InOrder (ps.insert pr).root := by
  exact Ds.Ordered.insert_pairwise key strcmp (fun {_ b c} => strcmpBytes_trans b.2 c.2) h
    fun r hr => strcmp_neg_of_not (hnew r hr)

theorem InOrder.loadRecord (pr : Record) : InOrder (loadRecord ps pr).root := by
  rw [Psfs.loadRecord]
  dsimp only
  split
  · exact h.dropKey pr.key
  · exact (h.dropKey pr.key).insert (dropKey_root ps h.keysNodup pr.key).2.1

theorem InOrder.loadLoop (fuel : Nat) (file : List UInt8) (pos : Nat) :
    InOrder (loadLoop fuel ps file pos).root := by
  rw [loadLoop_eq]
  generalize scan fuel file pos = rs
  induction rs generalizing ps with
  | nil => exact h
  | cons pr rs ih => exact ih (h.loadRecord pr)

theorem InOrder.psfsSet (encrypt : List UInt8 → Option (List UInt8)) (key : CStr)
    (value : Option (List UInt8)) : InOrder (psfsSet encrypt ps key value).1.root := by
  rcases psfsSet_outcome encrypt ps key value with ⟨hset, -⟩ | ⟨hset, -⟩ | ⟨hset, -⟩ | ⟨v, hset, -⟩
  · rwa [hset]
  · rwa [hset]
  · rw [hset]
    exact h.dropKey key
  · rw [hset]
    exact (h.dropKey key).insert (dropKey_root ps h.keysNodup key).2.1

end

/-- The records of the cache after a sync: those of before, or without the deleted ones. -/
theorem psfsSync_keys (cfg : Config) (h : KeysNodup ps.root) (d : Dir) (forcePrune : Bool)
    (io : SyncIo) :
    ((psfsSync cfg ps d forcePrune io).1.root.map Record.key).Sublist (ps.root.map Record.key) := by
  have hkeys : ∀ {rs rs' : List Record}, rs'.map pair = rs.map pair →
      rs'.map key = rs.map key := by
    intro rs rs' hpairs
    simpa [Function.comp_def, pair] using congrArg (map Prod.fst) hpairs
  have happend := appendLoop_eq io.write ps.root [] (d.files ps.fd) ps rfl h
  have hprune := (pruneLoop_eq io.write ps.root [] [] ps rfl h).2.1
  have hpruned : ((prunedRoot io.write ps.root).map key).Sublist
      (ps.root.map key) := by
    rw [hkeys (prunedRoot_pairs io.write ps.root)]
    exact filter_sublist.map _
  rw [psfsSync]
  split_ifs
  · exact .refl _
  cases syncMode cfg ps (d.files ps.fd) forcePrune io with
  | refuse => exact .refl _
  | append =>
    dsimp only [psfsSyncAppend]
    split_ifs
    rw [happend]
    exact (hkeys (appendRoot_pairs io.write ps.root)) ▸ .refl _
  | prune =>
    rw [nil_append] at hprune
    rw [← hprune] at hpruned
    dsimp only [psfsSyncPrune]
    split_ifs
    all_goals first | exact .refl _ | exact hpruned

/-- A store that was opened, loaded, set and synced.  A load goes on from where the file was read
last. -/
inductive Reach (encrypt : List UInt8 → Option (List UInt8)) (cfg : Config) :
    Store × Dir → Prop where
  | opened (fd : Nat) (flags : Flags) (d : Dir) : Reach encrypt cfg (psfsOpen fd flags, d)
  | load {s : Store × Dir} (h : Reach encrypt cfg s) (pos : Nat) :
    Reach encrypt cfg
      ((loadLoop ((s.2.files s.1.fd).length + 1) s.1 (s.2.files s.1.fd) pos).rewind, s.2)
  | op {s : Store × Dir} (h : Reach encrypt cfg s) (o : Op) :
    Reach encrypt cfg (step encrypt cfg s o)

theorem Reach.inOrder {encrypt : List UInt8 → Option (List UInt8)} {cfg : Config}
    {s : Store × Dir} (h : Reach encrypt cfg s) : InOrder s.1.root := by
  induction h with
  | opened => exact .nil
  | load _ pos ih => exact ih.loadLoop _ _ pos
  | op _ o ih =>
    cases o with
    | set key value => exact ih.psfsSet encrypt key value
    | sync forcePrune io => 
      exact pairwise_map.mp (ih.keys.sublist (psfsSync_keys cfg ih.keysNodup _ forcePrune io))

/-! ## The walk -/

def liveKeys (rs : List Record) : List CStr := (rs.filter Record.isLive).map Record.key

theorem behind_middle {pre rest : List Record} {pr : Record}
    (h : KeysNodup (pre ++ pr :: rest)) : behind (pre ++ pr :: rest) pr.key = rest := by
  induction pre with
  | nil => simp [behind]
  | cons r pre ih =>
    have hnodup := nodup_cons.mp h
    have hne : r.key ≠ pr.key := fun heq => hnodup.1 (by simp [heq])
    rw [cons_append, behind, if_neg hne, ih hnodup.2]

/-- From the first live record of `rest` on, the walk returns the live keys of `rest`. -/
theorem psfsKeys_live (h : KeysNodup ps.root) {pre rest : List Record}
    (hroot : ps.root = pre ++ rest) {n : Nat} (hn : rest.length < n) :
    psfsKeys n { ps with next := (rest.find? Record.isLive).map Record.key } = liveKeys rest := by
  induction rest generalizing pre n with
  | nil =>
    obtain ⟨n, rfl⟩ := Nat.exists_eq_add_of_lt hn
    rfl
  | cons pr rest ih =>
    have hroot' : ps.root = (pre ++ [pr]) ++ rest := by simp [hroot]
    rw [length_cons] at hn
    by_cases hlive : pr.isLive = true
    · obtain ⟨n, rfl⟩ : ∃ m, n = m + 1 := ⟨n - 1, by omega⟩
      have hbehind : behind ps.root pr.key = rest := by
        rw [hroot] at h ⊢
        exact behind_middle h
      rw [find?_cons_of_pos hlive, Option.map_some, psfsKeys, psfsNext]
      simp only [hbehind]
      rw [ih hroot' (by omega), liveKeys, liveKeys, filter_cons_of_pos hlive, map_cons]
    · rw [find?_cons_of_neg hlive, liveKeys, filter_cons_of_neg hlive]
      exact ih hroot' (by omega)

/-- The keys of a walk from the head: the first one comes in any case. -/
def walkKeys : List Record → List CStr
  | [] => []
  | pr :: rest => pr.key :: liveKeys rest

theorem psfsKeys_rewind (h : KeysNodup ps.root) {n : Nat} (hn : ps.root.length < n) :
    psfsKeys n ps.rewind = walkKeys ps.root := by
  obtain ⟨n, rfl⟩ : ∃ m, n = m + 1 := ⟨n - 1, by omega⟩
  cases hroot : ps.root with
  | nil => simp [psfsKeys, psfsNext, Store.rewind, hroot, walkKeys]
  | cons pr rest =>
    rw [hroot] at h hn
    have hbehind := @behind_middle [] rest pr h
    have hkeys := @psfsKeys_live ps (hroot ▸ h) [pr] rest hroot _ (Nat.lt_of_succ_lt_succ hn)
    rw [nil_append] at hbehind
    simp [psfsKeys, psfsNext, Store.rewind, hroot, head?_cons, hbehind, walkKeys, ← hkeys]

/-- The walk lists the keys that `psfs_get` has a value for, each once and in order. -/
def ListsLive (decrypt : List UInt8 → Option (List UInt8)) (ps : Store) (keys : List CStr) : Prop :=
  (∀ key, key ∈ keys ↔ psfsGet decrypt ps key ≠ 0) ∧ keys.Pairwise fun k k' => strcmp k k' < 0

theorem walkKeys_sublist (rs : List Record) : (walkKeys rs).Sublist (rs.map Record.key) := by
  cases rs with
  | nil => exact .refl _
  | cons pr rest => exact (filter_sublist.map key).cons_cons _

theorem psfsGet_of_mem (hnodup : KeysNodup ps.root) (hread : ps.flags.read = true)
    (decrypt : List UInt8 → Option (List UInt8)) {pr : Record} (hpr : pr ∈ ps.root) :
    psfsGet decrypt ps pr.key = (ps.value decrypt pr).length := by
  have hfind : ps.find pr.key = some pr := (find_eq_some_iff hnodup).mpr ⟨hpr, rfl⟩
  simp [psfsGet, hread, hfind]

theorem psfsGet_of_missing (hread : ps.flags.read = true)
    (decrypt : List UInt8 → Option (List UInt8)) {key : CStr}
    (hkey : ∀ pr ∈ ps.root, pr.key ≠ key) : psfsGet decrypt ps key = 0 := by
  have hfind : ps.find key = none := find_eq_none_iff.mpr hkey
  simp [psfsGet, hread, hfind]

/-- Behind the head the walk lists the records with data. -/
theorem mem_walkKeys_iff {pr r : Record} {rest : List Record} (hnodup : KeysNodup (pr :: rest))
    (hr : r ∈ rest) : r.key ∈ walkKeys (pr :: rest) ↔ r.data ≠ [] := by
  have hne : r.key ≠ pr.key := fun heq => (nodup_cons.mp hnodup).1 (mem_map.mpr ⟨r, hr, heq⟩)
  have hinj := inj_on_of_nodup_map (nodup_cons.mp hnodup).2
  simp only [walkKeys, liveKeys, mem_cons, hne, false_or, mem_map, mem_filter, isLive,
    decide_eq_true_eq]
  constructor
  · rintro ⟨r', ⟨hr', hdata⟩, heq⟩
    exact hinj hr' hr heq ▸ hdata
  · exact fun hdata => ⟨r, ⟨hr, hdata⟩, rfl⟩

theorem listsLive_iff {encrypt : List UInt8 → Option (List UInt8)} {cfg : Config} {d : Dir}
    (h : Reach encrypt cfg (ps, d)) (hread : ps.flags.read = true)
    (decrypt : List UInt8 → Option (List UInt8)) :
    ListsLive decrypt ps (walkKeys ps.root) ↔ (∀ pr ∈ ps.root.head?, ps.value decrypt pr ≠ []) ∧
      ∀ pr ∈ ps.root.tail, ps.value decrypt pr ≠ [] ↔ pr.data ≠ [] := by
  have horder : InOrder ps.root := h.inOrder
  have hnodup := horder.keysNodup
  have hpair : (walkKeys ps.root).Pairwise fun k k' => strcmp k k' < 0 :=
    horder.keys.sublist (walkKeys_sublist ps.root)
  have hget := fun pr => @psfsGet_of_mem ps hnodup hread decrypt pr
  have hmissing := fun key => @psfsGet_of_missing ps hread decrypt key
  rw [ListsLive, and_iff_left hpair]
  cases hroot : ps.root with
  | nil => simp [walkKeys, hmissing, hroot]
  | cons pr rest =>
    rw [hroot] at hnodup hget hmissing
    have hmem := fun r => mem_walkKeys_iff (r := r) hnodup
    constructor
    · intro hall
      refine ⟨?_, fun r hr => ?_⟩
      · rintro r ⟨rfl⟩
        have hhead := (hall pr.key).mp mem_cons_self
        simpa [hget pr mem_cons_self] using hhead
      · rw [← hmem r hr, hall r.key, hget r (mem_cons_of_mem _ hr)]
        simp
    · rintro ⟨hhead, htail⟩ key
      by_cases hkey : ∃ r ∈ pr :: rest, r.key = key
      · obtain ⟨r, hr, rfl⟩ := hkey
        rw [hget r hr]
        rcases mem_cons.mp hr with rfl | hr
        · exact iff_of_true mem_cons_self (by simpa using hhead r rfl)
        · rw [hmem r hr, ← htail r hr]
          simp
      · refine iff_of_false (fun hk => hkey ?_) ?_
        · obtain ⟨r, hr, heq⟩ := mem_map.mp ((walkKeys_sublist _).subset hk)
          exact ⟨r, hr, heq⟩
        · simp [hmissing key fun r hr heq => hkey ⟨r, hr, heq⟩]

/-- A walk over a store that can be reached ends and returns the live keys in order, exactly if
the record at the head has a value, and each other record has a value if and only if it has data.
Without encryption only the head matters: it must not be a deleted record. -/
theorem walk_lists_live_iff {encrypt : List UInt8 → Option (List UInt8)} {cfg : Config} {d : Dir}
    (h : Reach encrypt cfg (ps, d)) (hread : ps.flags.read = true)
    (decrypt : List UInt8 → Option (List UInt8)) :
    (∀ n, ps.root.length < n → psfsKeys n ps.rewind = walkKeys ps.root) ∧
      (ListsLive decrypt ps (walkKeys ps.root) ↔ (∀ pr ∈ ps.root.head?, ps.value decrypt pr ≠ []) ∧
        ∀ pr ∈ ps.root.tail, ps.value decrypt pr ≠ [] ↔ pr.data ≠ []) ∧
      (ps.flags.encryption = false →
        (ListsLive decrypt ps (walkKeys ps.root) ↔ ∀ pr ∈ ps.root.head?, pr.data ≠ [])) := by
  have hlists := listsLive_iff h hread decrypt
  refine ⟨fun n hn => psfsKeys_rewind h.inOrder.keysNodup hn, hlists, fun hplain => ?_⟩
  have hvalue : ∀ pr, ps.value decrypt pr = pr.data := fun pr => by simp [Store.value, hplain]
  simp [hlists, hvalue]

/-- Two keys are set and the second one is deleted. -/
theorem walk_lists_live_iff_deleted :
    let a : CStr := ⟨[97], by decide⟩
    let b : CStr := ⟨[98], by decide⟩
    let d : Dir := ⟨fun _ => [], 1, 0, none⟩
    let ps := (run some .default (psfsOpen 0 ⟨true, true, false⟩, d)
      [.set a (some [1]), .set b (some [2]), .set b none]).1
    psfsKeys 3 ps.rewind = [a] ∧ ListsLive some ps [a] := by
  intro a b d ps
  have hreach : Reach some .default (ps, d) :=
    .op (.op (.op (.opened 0 ⟨true, true, false⟩ d) (.set a (some [1]))) (.set b (some [2])))
      (.set b none)
  obtain ⟨hwalk, hlists⟩ := walk_lists_live_iff hreach (by decide +kernel) some
  have hkeys : walkKeys ps.root = [a] := by decide +kernel
  rw [hwalk 3 (by decide +kernel), ← hkeys]
  exact ⟨rfl, hlists.1.mpr (by decide +kernel)⟩

/-- The first of two keys is deleted and listed all the same. -/
theorem walk_lists_deleted :
    let a : CStr := ⟨[97], by decide⟩
    let b : CStr := ⟨[98], by decide⟩
    let ps := (run some .default (psfsOpen 0 ⟨true, true, false⟩, ⟨fun _ => [], 1, 0, none⟩)
      [.set a (some [1]), .set b (some [2]), .set a none]).1
    psfsKeys 3 ps.rewind = [a, b] ∧ psfsGet some ps a = 0 := by
  decide +kernel

end OpenSync.Psfs
