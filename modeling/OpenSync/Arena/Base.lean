import OpenSync.Lib.Memory

/-!
# The arena allocator of `arena.c`

An arena hands out memory from a stack of chunks.  A dynamic arena maps a new chunk when the
top one is full and unmaps an empty one; a static arena has one chunk in a buffer of the caller.
Handlers that run when the memory is given back are kept in the arena memory itself, as a
linked list of blocks with a checksum.

Sizes and addresses are natural numbers, and what can wrap is taken modulo `2 ^ 64`.  The stack
of chunks is a list with the top chunk first, and the blocks are read from and written to the
byte memory.  The outcome of `mmap` is a parameter.  Handlers do not use the arena; that one
runs is recorded in the log.  Loops have a bound on their steps, and `none` is a NULL
dereference or the lack of steps.
-/

namespace OpenSync

open OpenSync.Lib

namespace Arena

/-! ## Sizes -/

/-- `SIZE_MAX`. -/
def sizeMax : Nat := 2 ^ 64 - 1

/-- `ARENA_ERROR`. -/
def arenaError : Nat := sizeMax

/-- `ARENA_MAGIC`. -/
def arenaMagic : UInt64 := 0xAA55AA55AA55AA55

/-- `ARENA_GROW_SIZE`. -/
def growSize : Nat := 16 * 1024

/-- `ARENA_ALIGN`. -/
def align : Nat := 16

/-- `sizeof(struct arena_chunk)`. -/
def chunkHdr : Nat := 24

/-- `sizeof(struct arena_defer)`. -/
def deferSz : Nat := 32

/-- `ARENA_STATIC_SZ`: a `struct arena` of 40 bytes and a chunk header. -/
def staticSz : Nat := 64

/-- Addition of `size_t`. -/
def add64 (a b : Nat) : Nat := (a + b) % 2 ^ 64

/-- Subtraction of `size_t`. -/
def sub64 (a b : Nat) : Nat := (a + 2 ^ 64 - b) % 2 ^ 64

/-! ## State -/

/-- `struct arena_chunk`; `data` is the address of `ac_data`. -/
structure Chunk where
  data : Nat
  size : Nat
  pos : Nat
deriving DecidableEq

/-- A handler: a function and its argument. -/
structure Handler where
  fn : UInt64
  data : UInt64
deriving DecidableEq

/-- A handler was registered, ran when its memory was given back, or ran at once because it could
not be registered. -/
inductive Event where
  | registered (h : Handler)
  | ran (h : Handler)
  | refused (h : Handler)
deriving DecidableEq

end Arena

/-- `struct arena`, with the memory and a log of the handlers; `self` is its
address. -/
structure Arena where
  self : Nat
  top : List Arena.Chunk
  pos : Nat
  size : Nat
  defer : Nat
  mem : Mem
  log : List Arena.Event

namespace Arena

/-- `arena_new(0)`. -/
def arenaNew (self : Nat) (mem : Mem) : Arena := ⟨self, [], 0, 0, 0, mem, []⟩

/-- `arena_new_static`. -/
def arenaNewStatic (buf sz : Nat) (mem : Mem) : Option Arena :=
  if sz < staticSz then none
  else some ⟨buf, [⟨buf + staticSz, sz - staticSz, 0⟩], 0, sz - staticSz, 0, mem, []⟩

/-! ## Chunks -/

/-- The number of bytes that `arena_chunk_new` maps. -/
def chunkLen (sz : Nat) : Nat :=
  add64 (add64 sz chunkHdr) (growSize - 1) / growSize * growSize

/-- `arena_chunk_new`.  Mapping zero bytes fails. -/
def chunkNew (sz : Nat) (mmap : Option Nat) : Option Chunk :=
  if chunkLen sz = 0 then none
  else mmap.map (fun addr => ⟨addr + chunkHdr, chunkLen sz - chunkHdr, 0⟩)

/-- `arena_chunk_push` of a chunk: the chunk and the address of the new bytes. -/
def chunkPush (c : Chunk) (sz : Nat) : Option (Chunk × Nat) :=
  if c.pos > sizeMax - sz then none
  else if c.pos + sz > c.size then none
  else some ({ c with pos := c.pos + sz }, c.data + c.pos)

/-- `arena_chunk_pop` of a chunk: the chunk and the number of bytes that it lost. -/
def chunkPop (c : Chunk) (sz : Nat) : Chunk × Nat :=
  if c.pos < sz then ({ c with pos := 0 }, c.pos) else ({ c with pos := c.pos - sz }, sz)

/-- `arena_chunk_push` of the top chunk, which may be `NULL`. -/
def pushTop (cs : List Chunk) (sz : Nat) : Option (List Chunk × Nat) :=
  match cs with
  | [] => none
  | c :: cs => (chunkPush c sz).map (fun r => (r.1 :: cs, r.2))

/-- `arena_chunk_pop` of the top chunk, which may be `NULL`. -/
def popTop (cs : List Chunk) (sz : Nat) : List Chunk × Nat :=
  match cs with
  | [] => ([], 0)
  | c :: cs => ((chunkPop c sz).1 :: cs, (chunkPop c sz).2)

/-- The size of a new chunk for a request: half more, unless that exceeds
`SIZE_MAX`. -/
def grownSize (sz : Nat) : Nat := if sizeMax - sz / 2 < sz then sizeMax else sz + sz / 2

section

variable (a : Arena)

/-- `arena_push`. -/
def arenaPush (sz : Nat) (mmap : Option Nat) : Arena × Option Nat :=
  match pushTop a.top sz with
  | some (cs, ptr) => ({ a with top := cs, pos := add64 a.pos sz }, some ptr)
  | none =>
    if a.size > 0 then (a, none)
    else
      match chunkNew (grownSize sz) mmap with
      | none => (a, none)
      | some new =>
        match chunkPush new sz with
        | none => ({ a with top := new :: a.top }, none)
        | some (c, ptr) => ({ a with top := c :: a.top, pos := add64 a.pos sz }, some ptr)

/-- `arena_malloc`. -/
def arenaMalloc (sz : Nat) (mmap : Option Nat) : Arena × Option Nat :=
  if sz > sizeMax - (align - 1) then (a, none)
  else
    match arenaPush a (sz + align - 1) mmap with
    | (a, none) => (a, none)
    | (a, some ptr) =>
      let popCnt := (ptr - 1) &&& (align - 1)
      let r := popTop a.top popCnt
      ({ a with top := r.1, pos := sub64 a.pos r.2 }, some (ptr + ((align - 1) ^^^ popCnt)))

/-! ## Handlers -/

/-- The checksum of a block of the handler list. -/
def deferMagic (ptr : Nat) (next fn data : UInt64) : UInt64 :=
  arenaMagic ^^^ UInt64.ofNat ptr ^^^ next ^^^ fn ^^^ data

/-- The stores of `arena_defer` to a new block. -/
def writeDefer (m : Mem) (ptr : Nat) (next : UInt64) (h : Handler) : Mem :=
  (((m.store64 (ptr + 8) h.fn).store64 (ptr + 16) h.data).store64 (ptr + 24) next).store64 ptr
    (deferMagic ptr next h.fn h.data)

/-- `arena_defer`. -/
def arenaDefer (h : Handler) (mmap : Option Nat) : Arena × Bool :=
  match arenaMalloc a deferSz mmap with
  | (a, none) => ({ a with log := a.log ++ [.refused h] }, false)
  | (a, some ptr) =>
    ({ a with
        mem := writeDefer a.mem ptr (UInt64.ofNat a.defer) h
        defer := ptr
        log := a.log ++ [.registered h] }, true)

/-- `arena_defer_cleanup`: `false` if a block has a wrong checksum. -/
def deferCleanup (chunk : Chunk) : Nat → Arena → Option (Arena × Bool)
  | 0, _ => none
  | fuel + 1, a =>
    if a.defer = 0 then some (a, true)
    else
      let fn := a.mem.load64 (a.defer + 8)
      let data := a.mem.load64 (a.defer + 16)
      let next := a.mem.load64 (a.defer + 24)
      if a.mem.load64 a.defer ^^^ UInt64.ofNat a.defer ^^^ next ^^^ fn ^^^ data ≠ arenaMagic then
        some ({ a with defer := 0 }, false)
      else if a.defer < chunk.data then some (a, true)
      else if a.defer + deferSz > chunk.data + chunk.size then some (a, true)
      else if a.defer + deferSz ≤ chunk.data + chunk.pos then some (a, true)
      else
        deferCleanup chunk fuel
          { a with defer := next.toNat, log := a.log ++ [.ran ⟨fn, data⟩] }

/-! ## Giving memory back -/

/-- The loop of `arena_pop` for a dynamic arena: the bytes that could not be taken away, or `none`
for an error. -/
def popLoop (steps : Nat) : Nat → Arena → Nat → Option (Arena × Option Nat)
  | 0, _, _ => none
  | fuel + 1, a, psz =>
    match a.top with
    | [] => some (a, some psz)
    | c :: cs => do
      let (c, csz) := chunkPop c psz
      let (a, ok) ← deferCleanup c steps { a with top := c :: cs, pos := sub64 a.pos csz }
      if !ok then return (a, none)
      let a := if c.pos = 0 then { a with top := cs } else a
      if psz - csz = 0 then return (a, some 0)
      popLoop steps fuel a (psz - csz)

/-- Enough steps for the loops of `arena_pop`: a chunk or a handler is taken away in each. -/
def bound : Nat := a.top.length + a.log.length + 1

/-- `arena_pop`. -/
def arenaPop (sz : Nat) : Option (Arena × Nat) :=
  if a.size > 0 then
    match a.top with
    | [] => none
    | c :: cs => do
      let (c, psz) := chunkPop c sz
      let (a, ok) ← deferCleanup c (bound a) { a with top := c :: cs, pos := sub64 a.pos psz }
      return (a, if ok then psz else arenaError)
  else do
    let (a, left) ← popLoop (bound a) (bound a) a sz
    match left with
    | none => return (a, arenaError)
    | some psz => return (a, sz - psz)

/-- `struct arena_frame`, for an arena that is not `NULL`. -/
structure Frame where
  magic : UInt64
  pos : Nat

/-- `arena_save`. -/
def arenaSave : Frame :=
  ⟨arenaMagic ^^^ UInt64.ofNat a.self ^^^ UInt64.ofNat a.pos, a.pos⟩

/-- `__arena_restore`. -/
def arenaRestore (f : Frame) : Option (Arena × Bool) :=
  if f.magic ^^^ UInt64.ofNat a.self ^^^ UInt64.ofNat f.pos ≠ arenaMagic then some (a, false)
  else if f.pos > a.pos then some (a, true)
  else do
    let (a, rc) ← arenaPop a (a.pos - f.pos)
    return (a, rc ≠ arenaError)

/-! ## Resizing -/

/-- `arena_chunk_check_resize`. -/
def checkResize (c : Chunk) (ptr sz : Nat) : Bool :=
  c.pos ≥ sz && c.data + (c.pos - sz) == ptr

/-- `memcpy`, to a pointer that may be `NULL`. -/
def memcpy (m : Mem) (dst : Option Nat) (src n : Nat) : Option Mem :=
  match dst with
  | some dst => some (m.copy dst src n)
  | none => if n = 0 then some m else none

/-- The end of `arena_mresize`: the buffer moves to the new chunk.  `dst` is not checked before the
copy. -/
def moveTo (c : Chunk) (cs : List Chunk) (new : Chunk) (ptr ptrsz newsz : Nat) :
    Option (Arena × Option Nat) := do
  let r := chunkPush new newsz
  let new := (r.map Prod.fst).getD new
  let dst := r.map Prod.snd
  let mem ← memcpy a.mem dst ptr ptrsz
  let c := (chunkPop c ptrsz).1
  let rest := if c.pos = 0 then cs else c :: cs
  return ({ a with top := new :: rest, pos := add64 a.pos (newsz - ptrsz), mem := mem }, dst)

/-- `arena_mresize` of a buffer that is not `NULL`. -/
def arenaMresize (ptr ptrsz newsz : Nat) (mmap : Option Nat) : Option (Arena × Option Nat) :=
  match a.top with
  | [] => some (a, none)
  | c :: cs =>
    if !checkResize c ptr ptrsz then some (a, none)
    else if ptrsz > newsz then do
      let (a, rc) ← arenaPop a (ptrsz - newsz)
      if rc = arenaError then return (a, none)
      if newsz = 0 then return arenaPush a 0 mmap
      return (a, some ptr)
    else
      match chunkPush c (newsz - ptrsz) with
      | some (c, _) =>
        some ({ a with top := c :: cs, pos := add64 a.pos (newsz - ptrsz) }, some ptr)
      | none =>
        if a.size > 0 then some (a, none)
        else
          match chunkNew (grownSize newsz) mmap with
          | none => some (a, none)
          | some new => moveTo a c cs new ptr ptrsz newsz

end

end Arena

end OpenSync
