import OpenSync.Ds.Ordered
import OpenSync.Psfs.Journal

/-!
# The `psfs` store

A store is a cache of records, in a `ds_tree` under `strcmp`, over a file in a directory.
`psfs_set` changes the cache and marks the record dirty; `psfs_sync` appends the dirty records
to the file, or writes all live records to a temporary file that then takes its name.

The store name and the temporary name each refer to an inode, and `psfs_fd` is an inode of its
own: after a prune whose last `fsync` fails, the store keeps writing to one without a name.

Every system call of a sync takes its outcome from `SyncIo`.  The decision between append and
prune divides two byte counts as `double`s; its comparison is a parameter of `Config` and
nothing depends on it.
-/

namespace OpenSync.Psfs

open OpenSync.Lib

/-! ## The store -/

/-- The bits of `psfs_flags` that the library looks at. -/
structure Flags where
  read : Bool
  write : Bool
  encryption : Bool
deriving DecidableEq

/-- `struct psfs`.  `root` is the content of the tree, in its order. -/
structure Store where
  fd : Nat
  flags : Flags
  root : List Record
  /-- `psfs_next`: the record that `psfs_next()` returns, by its key. -/
  next : Option CStr
  used : Int
  wasted : Int
deriving DecidableEq

section

variable (ps : Store)

/-- `ds_tree_find` on the cache. -/
def Store.find (key : CStr) : Option Record :=
  Ds.Ordered.find Record.key strcmp ps.root key

/-- `ds_tree_insert` on the cache. -/
def Store.insert (pr : Record) : Store :=
  { ps with root := Ds.Ordered.insert Record.key strcmp ps.root pr }

/-- `psfs_drop_record`. -/
def Store.dropRecord (pr : Record) : Store :=
  { ps with
    next := if ps.next = some pr.key then (Ds.Ordered.next ps.root pr).map Record.key
      else ps.next
    root := Ds.Ordered.remove ps.root pr
    used := ps.used - pr.used
    wasted := ps.wasted + pr.used }

/-- A record of the cache changed in place. -/
def Store.setRecord (pr : Record) : Store :=
  { ps with root := ps.root.map (fun r => if r.key = pr.key then pr else r) }

/-- `psfs_rewind`. -/
def Store.rewind : Store :=
  { ps with next := ps.root.head?.map Record.key }

/-- The end of `psfs_set`: a new dirty record goes into the cache. -/
def Store.put (key : CStr) (value : List UInt8) : Store × Int :=
  let pr := { recordInit key value with dirty := true }
  let ps := ps.insert pr
  ({ ps with used := ps.used + pr.used }, value.length)

section

variable (encrypt : List UInt8 → Option (List UInt8)) (ps : Store) (key : CStr)

/-- The second half of `psfs_set`: the value is encrypted if the store asks for
it. -/
def Store.encryptPut (value : List UInt8) : Store × Int :=
  if ps.flags.encryption = true ∧ value ≠ [] then
    match encrypt value with
    | none => (ps, -1)
    | some value => ps.put key value
  else ps.put key value

/-- `psfs_set`: the store and the return value.  A NULL `value` is `none`, and `encrypt` is
`osp_sec_encrypt`, with `none` for a negative result. -/
def psfsSet (value : Option (List UInt8)) : Store × Int :=
  if ps.flags.write = false then (ps, -1)
  else
    match ps.find key with
    -- the old record is gone before the encryption can fail
    | some pr => (ps.dropRecord pr).encryptPut encrypt key (value.getD [])
    | none =>
      if value.getD [] = [] then (ps, 0)
      else ps.encryptPut encrypt key (value.getD [])

end

/-! ## Loading -/

/-- The record with this key, if there is one, is removed from the cache. -/
def Store.dropKey (key : CStr) : Store :=
  match ps.find key with
  | some opr => ps.dropRecord opr
  | none => ps

/-- One record of `psfs_load`. -/
def loadRecord (pr : Record) : Store :=
  let ps := ps.dropKey pr.key
  if pr.data = [] then ps
  else
    let ps := ps.insert pr
    { ps with used := ps.used + pr.used }

/-- The loop of `psfs_load` on the file behind `psfs_fd`. -/
def loadLoop : Nat → Store → List UInt8 → Nat → Store
  | 0, ps, _, _ => ps
  | fuel + 1, ps, file, pos =>
    match recordRead file pos with
    | (.eof, _) => ps
    | (.error, p) => loadLoop fuel ps file p
    | (.record pr _, p) => loadLoop fuel (loadRecord ps pr) file p

/-- `psfs_load`, from the start of the file.  The fuel covers every file
(`loadLoop_eq`). -/
def psfsLoad (file : List UInt8) : Store :=
  (loadLoop (file.length + 1) ps file 0).rewind

/-! ## The directory -/

/-- The part of the file system that a store uses. -/
structure Dir where
  /-- The content of each inode. -/
  files : Nat → List UInt8
  /-- The first inode that was never used. -/
  fresh : Nat
  /-- The inode behind the store name. -/
  name : Nat
  /-- The inode behind the temporary name, if there is one. -/
  tmp : Option Nat

/-- A file changed in place. -/
def Dir.write (d : Dir) (ino : Nat) (content : List UInt8) : Dir :=
  { d with files := Function.update d.files ino content }

/-- The content of the file that the store name refers to. -/
def Dir.named (d : Dir) : List UInt8 := d.files d.name

/-! ## Syncing -/

/-- The outcome of every system call of one `psfs_sync`, but the `fsync` in append mode, which the
source only logs. -/
structure SyncIo where
  /-- `fstat` of the store file. -/
  fstat : Bool
  /-- `fstatvfs`: the block size and the free blocks. -/
  statvfs : Option (Nat × Nat)
  /-- `unlinkat` of a stale temporary file. -/
  unlink : Bool
  /-- `openat` of the temporary file. -/
  openat : Bool
  /-- The lock on the temporary file. -/
  lock : Bool
  /-- The write of each record, by its key. -/
  write : CStr → WriteIo
  /-- `fsync` of the temporary file. -/
  fsync : Bool
  /-- `renameat`. -/
  rename : Bool
  /-- `fsync` of the directory. -/
  fsyncDir : Bool

/-- Every system call succeeds, on a file system with four megabytes free. -/
def SyncIo.allOk : SyncIo where
  fstat := true
  statvfs := some (4096, 1024)
  unlink := true
  openat := true
  lock := true
  write := fun _ => .ok
  fsync := true
  rename := true
  fsyncDir := true

/-- The build options of the store (in kilobytes), and the comparison with
`CONFIG_PSFS_SYNC_WASTED_RATIO_MAX`, in floating point in the source. -/
structure Config where
  fsReservedFree : Nat
  syncMin : Nat
  syncWastedMax : Nat
  ratioExceeds : (wasted used : Int) → Bool

/-- The defaults of `Kconfig`, with the ratio compared exactly. -/
def Config.default : Config where
  fsReservedFree := 0
  syncMin := 8
  syncWastedMax := 32
  ratioExceeds := fun wasted used => decide (50 * (used + wasted) < 100 * wasted)

/-- The loop of `psfs_sync_append`: the file, the cache and the result. -/
def appendLoop (write : CStr → WriteIo) :
    List Record → List UInt8 → Store → List UInt8 × Store × Bool
  | [], file, ps => (file, ps, true)
  | pr :: rest, file, ps =>
    if pr.dirty = false then appendLoop write rest file ps
    else
      let (file', pr', rc) := recordWrite file pr (write pr.key)
      if rc ≤ 0 then (file', ps.setRecord pr', false)
      else appendLoop write rest file' (ps.setRecord pr')

/-- `psfs_sync_append`. -/
def psfsSyncAppend (d : Dir) (io : SyncIo) : Store × Dir × Bool :=
  if ps.flags.write = false then (ps, d, false)
  else
    let (file, ps', ok) := appendLoop io.write ps.root (d.files ps.fd) ps
    (ps', d.write ps.fd file, ok)

/-- The loop of `psfs_sync_prune`: the temporary file and the cache.  It goes on after a record that
could not be written. -/
def pruneLoop (write : CStr → WriteIo) :
    List Record → List UInt8 → Store → List UInt8 × Store
  | [], tmp, ps => (tmp, ps)
  | pr :: rest, tmp, ps =>
    if pr.data = [] then pruneLoop write rest tmp (ps.dropRecord pr)
    else
      let (tmp', pr', rc) := recordWrite tmp pr (write pr.key)
      if rc ≤ 0 then pruneLoop write rest tmp' (ps.setRecord pr')
      else pruneLoop write rest tmp' (ps.setRecord { pr' with dirty := false })

/-- The inode of the temporary file after `unlinkat` and `openat`: a stale file
that could not be removed is truncated. -/
def tmpInode (d : Dir) (unlink : Bool) : Nat :=
  match d.tmp with
  | some ino => if unlink then d.fresh else ino
  | none => d.fresh

/-- `psfs_sync_prune`. -/
def psfsSyncPrune (d : Dir) (io : SyncIo) : Store × Dir × Bool :=
  if ps.flags.write = false then (ps, d, false)
  else if io.openat = false then
    (ps, { d with tmp := if io.unlink then none else d.tmp }, false)
  else
    let tfd := tmpInode d io.unlink
    let d := { d with tmp := some tfd, fresh := max d.fresh (tfd + 1) }
    let d := d.write tfd []
    if io.lock = false then (ps, d, false)
    else
      let (tmp, ps) := pruneLoop io.write ps.root [] ps
      let d := d.write tfd tmp
      if io.fsync = false then (ps, d, false)
      else if io.rename = false then (ps, d, false)
      else
        let d := { d with name := tfd, tmp := none }
        if io.fsyncDir = false then (ps, d, false)
        else ({ ps with fd := tfd, wasted := 0 }, d, true)

end

/-- What `psfs_sync` decides to do. -/
inductive SyncMode where
  | refuse
  | append
  | prune
deriving DecidableEq

/-- The decision of `psfs_sync`, for a store that is open for writing. -/
def syncMode (cfg : Config) (ps : Store) (file : List UInt8) (forcePrune : Bool)
    (io : SyncIo) : SyncMode :=
  let size := if io.fstat then file.length else 0
  let prune :=
    if size = 0 ∨ cfg.syncMin * 1024 < size then
      decide ((cfg.syncWastedMax * 1024 : Int) < ps.wasted) ||
        cfg.ratioExceeds ps.wasted ps.used
    else false
  match io.statvfs with
  | some (bsize, bavail) =>
    -- the product is an `unsigned long`, stored in an `intmax_t`
    let fsFree := (BitVec.ofNat 64 (bsize * bavail)).toInt
    let fsReserved : Int := cfg.fsReservedFree * 1024
    let fsAvail := if fsFree < fsReserved then 0 else fsFree - fsReserved
    if fsAvail < ps.used then .refuse
    else if (fsAvail < ps.used * 2 ∧ 0 < ps.wasted) ∨ prune ∨ forcePrune then .prune
    else .append
  | none => .prune

/-- `psfs_sync`. -/
def psfsSync (cfg : Config) (ps : Store) (d : Dir) (forcePrune : Bool) (io : SyncIo) :
    Store × Dir × Bool :=
  if ps.flags.write = false then (ps, d, true)
  else
    match syncMode cfg ps (d.files ps.fd) forcePrune io with
    | .refuse => (ps, d, false)
    | .append => psfsSyncAppend ps d io
    | .prune => psfsSyncPrune ps d io

end OpenSync.Psfs
