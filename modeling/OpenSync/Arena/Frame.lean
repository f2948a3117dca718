import OpenSync.Arena.Since

/-!
# Frames

Between `arena_save` and `arena_restore` a program may allocate, resize its buffers, register
handlers, write to its memory, and give back what is above the saved position.  `run_restore_iff`
says when the restore undoes all of it: exactly if no `arena_mresize` moves its buffer to a chunk
whose size has wrapped, which is too small for the buffer.
-/

namespace OpenSync.Arena

open OpenSync.Lib List Option Function UInt64

/-! ## Calls -/

/-- A call of the interface, or a store of the program to its memory. -/
inductive Op where
  | push (sz : Nat) (mmap : Option Nat)
  | malloc (sz : Nat) (mmap : Option Nat)
  | mresize (ptr ptrsz newsz : Nat) (mmap : Option Nat)
  | defer (h : Handler) (mmap : Option Nat)
  | pop (sz : Nat)
  | restore (f : Frame)
  | write (x : Nat) (v : UInt8)

def step : Op → Arena → Option Arena
  | .push sz mmap, a => some (arenaPush a sz mmap).1
  | .malloc sz mmap, a => some (arenaMalloc a sz mmap).1
  | .mresize ptr ptrsz newsz mmap, a => (arenaMresize a ptr ptrsz newsz mmap).map Prod.fst
  | .defer h mmap, a => some (arenaDefer a h mmap).1
  | .pop sz, a => (arenaPop a sz).map Prod.fst
  | .restore f, a => (arenaRestore a f).map Prod.fst
  | .write x v, a => some { a with mem := update a.mem x v }

def run : List Op → Arena → Option Arena
  | [], a => some a
  | op :: ops, a => (step op a).bind (run ops)

def Along (Q : Arena → Op → Prop) : List Op → Arena → Prop
  | [], _ => True
  | op :: ops, a => Q a op ∧ ∀ a', step op a = some a' → Along Q ops a'

/-- The bytes are allocated above the position `P` and not used by the arena. -/
def Buffer (P : Nat) (a : Arena) (ptr sz : Nat) : Prop :=
  ∀ x, ptr ≤ x → x < ptr + sz → Inside a.top x ∧ ¬ Inside (cut P a.top) x ∧
    ∀ bs, Linked a.mem a.defer bs → ∀ b ∈ bs, ¬ b.Covers x

/-- What a call above the position `P` may rely on: `mmap` gives unused memory, and the program
resizes, writes and gives back only what it got above `P`. -/
def Op.Ok (P : Nat) (a : Arena) : Op → Prop
  | .push sz mmap => Fresh a.top (grownSize sz) mmap
  | .malloc sz mmap => Fresh a.top (grownSize (sz + align - 1)) mmap
  | .mresize ptr ptrsz newsz mmap =>
    newsz ≤ sizeMax ∧ Buffer P a ptr ptrsz ∧
      (newsz < ptrsz → ∀ a' n, arenaPop a (ptrsz - newsz) = some (a', n) →
        Fresh a'.top (grownSize 0) mmap) ∧
      (ptrsz ≤ newsz → Fresh a.top (grownSize newsz) mmap)
  | .defer _ mmap => Fresh a.top (grownSize (deferSz + align - 1)) mmap
  | .pop sz => P ≤ a.pos - sz
  | .restore f => P ≤ f.pos
  | .write x _ => Buffer P a x 1

/-- `arena_mresize` comes to the point where it moves the buffer from the chunk `c` to
the chunk `new`. -/
def Moves (a : Arena) (ptr ptrsz newsz : Nat) (mmap : Option Nat) (c : Chunk) (cs : List Chunk)
    (new : Chunk) : Prop :=
  a.top = c :: cs ∧ checkResize c ptr ptrsz ∧ ptrsz ≤ newsz ∧ chunkPush c (newsz - ptrsz) = none ∧
    a.size = 0 ∧ chunkNew (grownSize newsz) mmap = some new

/-- The size of the chunk that a buffer moves to does not wrap. -/
def Op.Fits (a : Arena) : Op → Prop
  | .mresize ptr ptrsz newsz mmap =>
    ∀ c cs new, Moves a ptr ptrsz newsz mmap c cs new → grownSize newsz + chunkHdr ≤ 2 ^ 64
  | _ => True

/-- The arenas that calls can make from a new one, where no buffer moves to a chunk whose size has
wrapped (`Op.Fits`). -/
inductive Reachable : Arena → Prop where
  | dynamic (self : Nat) (mem : Mem) : Reachable (arenaNew self mem)
  | static {buf sz : Nat} {mem : Mem} {a : Arena} (hbuf : buf + sz ≤ 2 ^ 64)
      (h : arenaNewStatic buf sz mem = some a) : Reachable a
  | step {a a' : Arena} {op : Op} (ha : Reachable a) (hok : op.Ok 0 a) (hfits : op.Fits a)
      (h : step op a = some a') : Reachable a'

/-! ## `arena_mresize` -/

variable {a a1 : Arena} {old new : List Block} {ops : List Op}

variable {ptr : Nat} {mmap : Option Nat} {c : Chunk} {cs : List Chunk}

variable {ptrsz newsz : Nat}

theorem Moves.mresize_eq {nw : Chunk} (h : Moves a ptr ptrsz newsz mmap c cs nw) :
    arenaMresize a ptr ptrsz newsz mmap = moveTo a c cs nw ptr ptrsz newsz := by
  obtain ⟨htop, hcheck, hle, hpush, hsize, hnw⟩ := h
  unfold arenaMresize
  simp only [htop, hcheck, Bool.not_true, Bool.false_eq_true, if_false, hpush, hnw]
  rw [if_neg (by omega), if_neg (by omega)]

theorem arenaMresize_cases (a : Arena) (ptr ptrsz newsz : Nat) (mmap : Option Nat) :
    arenaMresize a ptr ptrsz newsz mmap = some (a, none) ∨
      (∃ c cs, a.top = c :: cs ∧ checkResize c ptr ptrsz ∧ newsz < ptrsz) ∨
      (∃ c cs, a.top = c :: cs ∧ checkResize c ptr ptrsz ∧ ptrsz ≤ newsz ∧
        c.pos + (newsz - ptrsz) ≤ c.size ∧
        arenaMresize a ptr ptrsz newsz mmap = some ({ a with
            top := { c with pos := c.pos + (newsz - ptrsz) } :: cs
            pos := add64 a.pos (newsz - ptrsz) }, some ptr)) ∨
      ∃ c cs nw, Moves a ptr ptrsz newsz mmap c cs nw := by
  unfold arenaMresize
  cases htop : a.top with
  | nil => exact .inl rfl
  | cons c cs =>
    by_cases hcheck : checkResize c ptr ptrsz = true
    · by_cases hlt : newsz < ptrsz
      · exact .inr (.inl ⟨c, cs, rfl, hcheck, hlt⟩)
      simp only [hcheck, Bool.not_true, Bool.false_eq_true, if_false]
      rw [if_neg (by omega)]
      rcases chunkPush_cases c (newsz - ptrsz) with hc | ⟨hle, hc⟩
      · simp only [hc]
        split_ifs with hsize
        · exact .inl rfl
        cases hnew : chunkNew (grownSize newsz) mmap with
        | none => exact .inl rfl
        | some nw =>
          exact .inr (.inr (.inr ⟨c, cs, nw, htop, hcheck, by omega, hc, by omega, hnew⟩))
      · simp only [hc]
        exact .inr (.inr (.inl ⟨c, cs, rfl, hcheck, by omega, hle, rfl⟩))
    · exact .inl (by simp [hcheck])

theorem arenaMresize_shrink {n : Nat} (htop : a.top = c :: cs) (hcheck : checkResize c ptr ptrsz)
    (hlt : newsz < ptrsz) (hpop : arenaPop a (ptrsz - newsz) = some (a1, n)) (hn : n ≠ arenaError) :
    arenaMresize a ptr ptrsz newsz mmap =
      some (if newsz = 0 then arenaPush a1 0 mmap else (a1, some ptr)) := by
  unfold arenaMresize
  simp only [htop, hcheck, Bool.not_true, Bool.false_eq_true, if_false, hpop, bind_eq_bind,
    bind_some, hn]
  split_ifs <;> rfl

theorem checkResize_iff {sz : Nat} :
    checkResize c ptr sz = true ↔ sz ≤ c.pos ∧ ptr = c.data + (c.pos - sz) := by
  simp only [checkResize, Bool.and_eq_true, decide_eq_true_eq, beq_iff_eq]
  exact and_congr_right (fun _ => eq_comm)

namespace Since

variable {a a1 : Arena} {old new : List Block} {ptr ptrsz newsz : Nat} {mmap : Option Nat}
  {c : Chunk} {cs : List Chunk}

section

variable (h : Since a old a1 new)

include h

/-- A buffer at the end of the arena lies above the saved position. -/
theorem buffer_le (hbuf : Buffer a.pos a1 ptr ptrsz) (htop : a1.top = c :: cs)
    (hcheck : checkResize c ptr ptrsz) : a.pos + ptrsz ≤ a1.pos := by
  obtain ⟨hle, rfl⟩ := checkResize_iff.mp hcheck
  have hpos := h.inv.pos
  have hP := h.pos
  rw [hpos, htop, total_cons] at hP ⊢
  by_contra hlt
  refine (hbuf (c.data + (c.pos - ptrsz)) le_rfl (by omega)).2.1 ?_
  rw [htop, Arena.cut, if_neg (by omega)]
  exact ⟨_, mem_cons_self, by simp only; omega, by simp only; omega⟩

theorem mresize_shrink (hold : ∀ b ∈ old, Within a.top b) (hbuf : Buffer a.pos a1 ptr ptrsz)
    (htop : a1.top = c :: cs) (hcheck : checkResize c ptr ptrsz) (hlt : newsz < ptrsz)
    (hf : ∀ a' n, Arena.arenaPop a1 (ptrsz - newsz) = some (a', n) →
      Fresh a'.top (grownSize 0) mmap)
    : ∃ a2 r new', arenaMresize a1 ptr ptrsz newsz mmap = some (a2, r) ∧ Since a old a2 new' := by
  have hle := h.buffer_le hbuf htop hcheck
  have hsz : a.pos ≤ a1.pos - (ptrsz - newsz) := by omega
  obtain ⟨a2, new', hres, -, hsince⟩ := h.arenaPop hold hsz
  have herr : min (ptrsz - newsz) a1.pos ≠ arenaError := by
    have := h.inv.pos_lt
    unfold arenaError
    omega
  rw [arenaMresize_shrink htop hcheck hlt hres herr]
  split_ifs with h0
  · exact ⟨_, _, new', rfl, hsince.arenaPush (hf a2 _ hres)⟩
  · exact ⟨a2, _, new', rfl, hsince⟩

section

variable (hold : ∀ b ∈ old, Within a.top b)

include hold

/-- The buffer is taken off its chunk, and the chunk off the stack if it is empty then. -/
theorem mresize_leave (hbuf : Buffer a.pos a1 ptr ptrsz) (htop : a1.top = c :: cs)
    (hcheck : checkResize c ptr ptrsz) (hsize : a1.size = 0) : ∃ new', Since a old { a1 with
      top := if c.pos - ptrsz = 0 then cs else { c with pos := c.pos - ptrsz } :: cs
      pos := a1.pos - ptrsz } new' := by
  have hle := h.buffer_le hbuf htop hcheck
  obtain ⟨hsz, rfl⟩ := checkResize_iff.mp hcheck
  -- no block is in the buffer
  have hquiet : ∀ b ∈ new ++ old, b.In c → b.addr + deferSz ≤ c.data + (c.pos - ptrsz) := by
    rintro b hb ⟨hlo, hhi⟩
    by_contra hcut
    simp only [deferSz] at hhi hcut
    refine (hbuf (b.addr + 31) (by omega) (by omega)).2.2 _ h.inv.linked b hb ⟨by omega, ?_⟩
    simp only [deferSz]
    omega
  have hinv : Inv a1 ([] ++ (new ++ old)) := h.inv
  have hpop := hinv.lowered htop hsz (by simp) h.inv.linked
    ((htop ▸ h.inv.placed).setPos hquiet)
  simp only [map_nil, append_nil] at hpop
  have hpos : a.pos ≤ a1.pos - ptrsz := by omega
  split_ifs with h0
  · exact h.popped hold (hpop.dropTop rfl h0 hsize) hpos
  · exact h.popped hold hpop hpos

theorem mresize_move {nw : Chunk} (hbuf : Buffer a.pos a1 ptr ptrsz) (hnew : newsz ≤ sizeMax)
    (hf : Fresh a1.top (grownSize newsz) mmap) (hmv : Moves a1 ptr ptrsz newsz mmap c cs nw)
    (hfit : grownSize newsz + chunkHdr ≤ 2 ^ 64) :
    ∃ a2 r new', moveTo a1 c cs nw ptr ptrsz newsz = some (a2, r) ∧ Since a old a2 new' := by
  obtain ⟨htop, hcheck, hle, -, hsize, hnw⟩ := hmv
  obtain ⟨hpos0, hlen, hstack⟩ := chunkNew_spec h.inv.stack hf hnw
  rw [htop] at hstack
  have hroom : newsz ≤ nw.size := by
    have := le_of_chunkLen hnew hfit (by simp only [chunkHdr] at hlen; omega)
    omega
  obtain ⟨new', hleave⟩ := h.mresize_leave hold hbuf htop hcheck hsize
  generalize hrest :
    (if c.pos - ptrsz = 0 then cs else { c with pos := c.pos - ptrsz } :: cs) = rest
    at hleave
  -- the new chunk goes on what is left of the stack
  have hst : Stack (nw :: rest) := by
    refine Stack.cons hstack.head (fun d hd => ?_) hleave.inv.stack
    rw [← hrest] at hd
    split_ifs at hd
    · exact hstack.head_apart (mem_cons_of_mem c hd)
    · rcases mem_cons.mp hd with rfl | hd
      · exact hstack.head_apart (d := c) mem_cons_self
      · exact hstack.head_apart (mem_cons_of_mem c hd)
  have hgrow := (hleave.opened (.inr ⟨hsize, nw, rfl, hpos0, hst⟩)).grow (c := nw) (n := newsz)
    (by omega)
  have hlt : a1.pos - ptrsz + newsz < sizeMax := hgrow.inv.pos_lt
  have hbelow : ∀ x, Inside rest x → x < nw.data ∨ nw.data + ptrsz ≤ x := by
    rintro x ⟨d, hd, hx⟩
    have := hst.lt_or_le_of_inside ⟨d, mem_cons_of_mem nw hd, hx⟩
    omega
  have hmem := hgrow.setMem (m := a1.mem.copy nw.data ptr ptrsz)
    (fun x hx => Mem.copy_of_outside _ (hbelow x (hleave.inside hx)))
    (hleave.inv.linked.congr (fun b hb x hx =>
      Mem.copy_of_outside _ (hbelow x ((hleave.inv.placed.within b hb).inside hx))))
  refine ⟨_, some nw.data, new', ?_, hmem⟩
  unfold moveTo
  have hbuf' := h.buffer_le hbuf htop hcheck
  have hadd : add64 a1.pos (newsz - ptrsz) = a1.pos - ptrsz + newsz := by
    simp only [add64, sizeMax] at *
    omega
  have hfits := hst.head.fits
  have hhdr := hst.head.hdr
  have hmax : nw.size ≤ sizeMax := by
    simp only [sizeMax] at *
    omega
  have hpush := chunkPush_eq_some (show nw.pos + newsz ≤ nw.size by omega) hmax
  simp only [hpush, hadd, chunkPop_fst, hrest, hpos0, Arena.grow]
  rfl

/-- A buffer that fits the chunk that it may move to can be resized. -/
theorem mresize (hok : (Op.mresize ptr ptrsz newsz mmap).Ok a.pos a1)
    (hfits : (Op.mresize ptr ptrsz newsz mmap).Fits a1) :
    ∃ a2 r new', arenaMresize a1 ptr ptrsz newsz mmap = some (a2, r) ∧ Since a old a2 new' := by
  obtain ⟨hnew, hbuf, hshrink, hgrow⟩ := hok
  rcases arenaMresize_cases a1 ptr ptrsz newsz mmap with
    hres | ⟨c, cs, htop, hcheck, hlt⟩ | ⟨c, cs, htop, -, -, hle, hres⟩ | ⟨c, cs, nw, hmv⟩
  · exact ⟨a1, none, new, hres, h⟩
  · exact h.mresize_shrink hold hbuf htop hcheck hlt (hshrink hlt)
  · refine ⟨_, _, new, hres, ?_⟩
    rw [add64_grow (htop ▸ h.inv.stack) (htop ▸ h.inv.pos) hle]
    exact grow (by simpa [← htop] using h) hle
  · rw [hmv.mresize_eq]
    exact h.mresize_move hold hbuf hnew (hgrow hmv.2.2.1) hmv (hfits c cs nw hmv)

end

end

end Since

/-- A chunk whose size has wrapped has no room for the buffer: the call crashes in
`memcpy`, or it counts bytes that no chunk holds. -/
theorem mresize_wraps {bs : List Block} {nw : Chunk} (h : Inv a bs) (hnew : newsz ≤ sizeMax)
    (hmv : Moves a ptr ptrsz newsz mmap c cs nw) (hbig : 2 ^ 64 < grownSize newsz + chunkHdr) :
    moveTo a c cs nw ptr ptrsz newsz = none ∨
      ∃ a', moveTo a c cs nw ptr ptrsz newsz = some (a', none) ∧ a'.pos ≠ total a'.top := by
  obtain ⟨htop, hcheck, hle, -, -, hnw⟩ := hmv
  have hpos : a.pos = total (c :: cs) := htop ▸ h.pos
  -- the new chunk has the smallest size
  obtain ⟨h0, hsmall⟩ : nw.pos = 0 ∧ nw.size < newsz := by
    unfold chunkNew at hnw
    split_ifs at hnw with hlen
    obtain ⟨addr, -, rfl⟩ := map_eq_some_iff.mp hnw
    obtain ⟨hmax, hhalf⟩ := grownSize_le newsz
    refine ⟨rfl, ?_⟩
    simp only [chunkLen, add64, growSize, chunkHdr, sizeMax] at *
    omega
  have hpush : chunkPush nw newsz = none := by
    rw [chunkPush]
    split_ifs <;> first | rfl | omega
  unfold moveTo
  by_cases hz : ptrsz = 0
  · right
    subst hz
    have hdrop : total (if c.pos = 0 then cs else c :: cs) = a.pos := by
      rw [hpos]
      split_ifs with hc
      · rw [total_cons, hc, zero_add]
      · rfl
    simp only [hpush, map_none, getD_none, chunkPop_fst, Nat.sub_zero]
    refine ⟨_, rfl, ?_⟩
    simp only [total_cons, hdrop, add64]
    simp only [sizeMax] at *
    omega
  · left
    simp [hpush, memcpy, hz]

/-! ## Runs -/

/-- A call that meets its conditions keeps what was saved. -/
theorem Since.step {op : Op} (h : Since a old a1 new) (hold : ∀ b ∈ old, Within a.top b)
    (hok : op.Ok a.pos a1) (hfits : op.Fits a1) :
    ∃ a2 new', step op a1 = some a2 ∧ Since a old a2 new' := by
  cases op with
  | push sz mmap => exact ⟨_, new, rfl, h.arenaPush hok⟩
  | malloc sz mmap => exact ⟨_, new, rfl, h.arenaMalloc hok⟩
  | mresize ptr ptrsz newsz mmap =>
    obtain ⟨a2, r, new', hres, hsince⟩ := h.mresize hold hok hfits
    exact ⟨a2, new', by simp [Arena.step, hres], hsince⟩
  | defer g mmap =>
    obtain ⟨new', hsince⟩ := h.arenaDefer hok
    exact ⟨_, new', rfl, hsince⟩
  | pop sz =>
    obtain ⟨a2, new', hres, -, hsince⟩ := h.arenaPop hold hok
    exact ⟨a2, new', by simp [Arena.step, hres], hsince⟩
  | restore f =>
    obtain ⟨a2, new', ok, hres, hsince⟩ := h.arenaRestore hold hok
    exact ⟨a2, new', by simp [Arena.step, hres], hsince⟩
  | write x v =>
    obtain ⟨-, hsaved, hblocks⟩ := hok x (Nat.le_refl x) (Nat.lt_succ_self x)
    rw [h.cut, inside_nonempty] at hsaved
    refine ⟨_, new, rfl, h.setMem (fun y hy => ?_) (h.inv.linked.congr (fun b hb y hy => ?_))⟩
    · refine update_of_ne ?_ v a1.mem
      rintro rfl
      exact hsaved hy
    · refine update_of_ne ?_ v a1.mem
      rintro rfl
      exact hblocks _ h.inv.linked b hb hy

/-- A call after which the position counts the allocated bytes has not wrapped. -/
theorem Since.fits_of_counted {a2 : Arena} {op : Op} (h : Since a old a1 new)
    (hok : op.Ok a.pos a1) (hstep : Arena.step op a1 = some a2)
    (hcount : a2.pos = total a2.top) : op.Fits a1 := by
  cases op with
  | mresize ptr ptrsz newsz mmap =>
    intro c cs nw hmv
    by_contra hbig
    simp only [Arena.step, hmv.mresize_eq] at hstep
    rcases mresize_wraps h.inv hok.1 hmv (by omega) with hnone | ⟨a', hsome, hne⟩
    · simp only [hnone, map_none, reduceCtorEq] at hstep
    · simp only [hsome, map_some, some.injEq] at hstep
      exact hne (hstep ▸ hcount)
  | _ => trivial

section

variable
  (h : Since a old a1 new) (hold : ∀ b ∈ old, Within a.top b) (hok : Along (Op.Ok a.pos) ops a1)

include h hold hok

theorem Since.run (hfits : Along Op.Fits ops a1) :
    ∃ a2 new', run ops a1 = some a2 ∧ Since a old a2 new' := by
  induction ops generalizing a1 new with
  | nil => exact ⟨a1, new, rfl, h⟩
  | cons op ops ih =>
    obtain ⟨a2, new', hstep, h'⟩ := h.step hold hok.1 hfits.1
    obtain ⟨a3, new'', hrun, h''⟩ := ih h' (hok.2 a2 hstep) (hfits.2 a2 hstep)
    refine ⟨a3, new'', ?_, h''⟩
    rw [Arena.run, hstep, bind_some, hrun]

/-- If the position counts the allocated bytes throughout then no chunk has wrapped. -/
theorem Since.fits_of_run
    (hcount : ∀ k, ∃ a2, Arena.run (ops.take k) a1 = some a2 ∧ a2.pos = total a2.top) :
    Along Op.Fits ops a1 := by
  induction ops generalizing a1 new with
  | nil => trivial
  | cons op ops ih =>
    -- the first call has not wrapped, because the count is right after it
    obtain ⟨a2, hrun, h2⟩ := hcount 1
    have hstep : Arena.step op a1 = some a2 := by
      obtain ⟨b, hb, hb'⟩ := bind_eq_some_iff.mp hrun
      cases hb'
      exact hb
    have hfits := h.fits_of_counted hok.1 hstep h2
    refine ⟨hfits, fun a3 hstep' => ?_⟩
    obtain ⟨a4, new', hstep'', h'⟩ := h.step hold hok.1 hfits
    cases some.inj (hstep'.symm.trans hstep'')
    refine ih h' (hok.2 a3 hstep') (fun k => ?_)
    obtain ⟨a5, hrun', h5⟩ := hcount (k + 1)
    rw [take_succ_cons, Arena.run, hstep'] at hrun'
    exact ⟨a5, hrun', h5⟩

end

theorem Along.take {Q : Arena → Op → Prop} (h : Along Q ops a) (k : Nat) :
    Along Q (ops.take k) a := by
  induction ops generalizing a k with
  | nil => simpa using h
  | cons op ops ih =>
    cases k with
    | zero => trivial
    | succ k => exact ⟨h.1, fun a' ha' => ih (h.2 a' ha') k⟩

theorem Reachable.inv (h : Reachable a) : ∃ bs, Inv a bs := by
  induction h with
  | dynamic self mem => exact ⟨[], Stack.nil, rfl, by simp [arenaNew], rfl, rfl, rfl⟩
  | @static buf sz mem a hbuf h =>
    unfold arenaNewStatic at h
    split_ifs at h with hsz
    cases h
    refine ⟨[], ?_, by simp, fun _ => ⟨_, rfl⟩, rfl, ⟨[], [], rfl, by simp, .nil, rfl⟩, rfl⟩
    simp only [staticSz] at *
    refine Stack.cons ⟨by simp only [chunkHdr]; omega, by simp only; omega, Nat.zero_le _⟩ (by simp)
      Stack.nil
  | @step a a' op _ hok hfits h ih =>
    obtain ⟨bs, hinv⟩ := ih
    obtain ⟨a2, new', hstep, hsince⟩ := hinv.since_empty.step (by simp) hok hfits
    cases some.inj (h.symm.trans hstep)
    exact ⟨_, hsince.inv⟩

/-! ## The restore -/

/-- What was allocated and registered in `a` is so in `a'`, and nothing else.  The handlers
registered in between have all run, in the reverse order, and no others. -/
structure Restored (a a' : Arena) : Prop where
  pos : a'.pos = a.pos
  count : a'.pos = total a'.top
  chunks : nonempty a'.top = nonempty a.top
  mem : ∀ x, Inside a.top x → a'.mem x = a.mem x
  handlers : ∃ evs, a'.log = a.log ++ evs ∧ lifo [] evs = some []
  pending : ∀ bs, Linked a.mem a.defer bs → Linked a'.mem a'.defer bs

/-- The checksum of a saved frame passes the test of the restore. -/
theorem arenaSave_magic (a : Arena) :
    (arenaSave a).magic ^^^ UInt64.ofNat a.self ^^^ UInt64.ofNat (arenaSave a).pos =
      arenaMagic := by
  have hpairs : (arenaSave a).magic ^^^ ofNat a.self ^^^ ofNat (arenaSave a).pos =
      arenaMagic ^^^ (ofNat a.self ^^^ ofNat a.self) ^^^
        (ofNat a.pos ^^^ ofNat a.pos) := by
    simp only [arenaSave]
    ac_rfl
  simpa using hpairs

/-- An arena at its saved position has no new block. -/
theorem Since.new_eq_nil (h : Since a old a1 new) (hpos : a1.pos = a.pos) : new = [] := by
  refine eq_nil_iff_forall_not_mem.mpr (fun b hb => h.fresh b hb ?_)
  rw [← within_nonempty, ← h.cut, ← hpos, h.inv.pos, cut_total, within_nonempty]
  exact h.inv.placed.within b (mem_append_left _ hb)

/-- The restore of the saved frame brings the arena back. -/
theorem Since.restored (ha : Inv a old) (h : Since a old a1 new) :
    ∃ a2, Arena.arenaRestore a1 (arenaSave a) = some (a2, true) ∧ Restored a a2 := by
  have hle : a.pos ≤ a1.pos - (a1.pos - a.pos) := by
    have := h.pos
    omega
  obtain ⟨a2, new', hres, hpos, h'⟩ := h.arenaPop ha.placed.within hle
  have hpos' : a2.pos = a.pos := by
    omega
  cases h'.new_eq_nil hpos'
  refine ⟨a2, ?_, hpos', h'.inv.pos, ?_, h'.mem, ?_, ?_⟩
  · have hgt : ¬ a.pos > a1.pos := Nat.not_lt.mpr h.pos
    have herr : min (a1.pos - a.pos) a1.pos ≠ arenaError := by
      have := h.inv.pos_lt
      unfold arenaError
      omega
    have hmagic := arenaSave_magic a
    rw [← h.self] at hmagic
    unfold Arena.arenaRestore
    rw [if_neg (not_not.mpr hmagic)]
    simp only [arenaSave, if_neg hgt, hres, bind_eq_bind, bind_some, ne_eq, herr]
    rfl
  · rw [← h'.cut, ← hpos', h'.inv.pos, cut_total]
  · simpa using h'.log
  · intro bs hbs
    rw [hbs.unique ha.linked]
    exact h'.inv.linked

/-- Calls above a saved position are undone by the restore, and the position counts the
allocated bytes throughout, exactly if no buffer moves to a chunk whose size has
wrapped. -/
theorem run_restore_iff {a : Arena} (ha : Reachable a) (ops : List Op)
    (hok : Along (Op.Ok a.pos) ops a) :
    ((∀ k, ∃ a', run (ops.take k) a = some a' ∧ a'.pos = total a'.top) ∧
      ∃ a' a'', run ops a = some a' ∧ arenaRestore a' (arenaSave a) = some (a'', true) ∧
        Restored a a'') ↔ Along Op.Fits ops a := by
  obtain ⟨old, hinv⟩ := ha.inv
  constructor
  · rintro ⟨hcount, -⟩
    exact hinv.since_self.fits_of_run hinv.placed.within hok hcount
  intro hfits
  constructor
  · intro k
    obtain ⟨a', new, hrun, h⟩ :=
      hinv.since_self.run hinv.placed.within (hok.take k) (hfits.take k)
    exact ⟨a', hrun, h.inv.pos⟩
  · obtain ⟨a', new, hrun, h⟩ := hinv.since_self.run hinv.placed.within hok hfits
    obtain ⟨a'', hres, hrest⟩ := h.restored hinv
    exact ⟨a', a'', hrun, hres, hrest⟩

/-- A new dynamic arena at the address 4096. -/
def emptyArena : Arena := arenaNew 4096 (fun _ => 0)

/-- A buffer, a handler, and another buffer that grows. -/
def frameOps : List Op :=
  [.malloc 8 (some 65536), .defer ⟨1, 2⟩ none, .malloc 0 none, .mresize 65616 0 64 none]

theorem run_restore_iff_frameOps :
    Reachable emptyArena ∧ Along (Op.Ok emptyArena.pos) frameOps emptyArena ∧
      ∃ a' a'', run frameOps emptyArena = some a' ∧
        arenaRestore a' (arenaSave emptyArena) = some (a'', true) ∧ Restored emptyArena a'' := by
  have hnone : ∀ cs sz, Fresh cs sz none := fun cs sz addr h => nomatch h
  have hreach : Reachable emptyArena := .dynamic 4096 _
  have hok : Along (Op.Ok emptyArena.pos) frameOps emptyArena := by
    refine ⟨?_, fun a1 _ => ⟨hnone _ _, fun a2 _ =>
      ⟨hnone _ _, fun a3 _ => ⟨?_, fun _ _ => trivial⟩⟩⟩⟩
    · intro addr haddr
      cases haddr
      exact ⟨by decide, by decide +kernel, fun c hc => nomatch hc⟩
    · exact ⟨by decide, fun x hx hx' => absurd hx' (by omega), fun h => absurd h (by decide),
        fun _ => hnone _ _⟩
  have hfits : Along Op.Fits frameOps emptyArena := by
    refine ⟨trivial, fun a1 _ => ⟨trivial, fun a2 _ =>
      ⟨trivial, fun a3 _ => ⟨?_, fun _ _ => trivial⟩⟩⟩⟩
    intro c cs nw _
    decide
  exact ⟨hreach, hok, ((run_restore_iff hreach frameOps hok).mpr hfits).2⟩

/-- A buffer without bytes is resized to `SIZE_MAX`. -/
def wrapOps : List Op := [.malloc 0 (some 65536), .mresize 65568 0 sizeMax (some 131072)]

/-- The new chunk has 16 KiB, the position counts bytes that no chunk holds, and the restore
leaves a byte behind. -/
theorem run_restore_wrapOps :
    Reachable emptyArena ∧ Along (Op.Ok emptyArena.pos) wrapOps emptyArena ∧
      (run wrapOps emptyArena).map (fun a' => (a'.pos, total a'.top)) = some (7, 8) ∧
      ((run wrapOps emptyArena).bind (fun a' => arenaRestore a' (arenaSave emptyArena))).map
        (fun r => (r.1.pos, total r.1.top, r.2)) = some (0, 1, true) := by
  refine ⟨.dynamic 4096 _, ⟨?_, fun a1 h1 => ⟨⟨?_, ?_, ?_, ?_⟩, fun _ _ => trivial⟩⟩, ?_, ?_⟩
  · intro addr haddr
    cases haddr
    exact ⟨by decide, by decide +kernel, fun c hc => nomatch hc⟩
  · exact le_rfl
  · exact fun x hx hx' => absurd hx' (by omega)
  · exact fun h => absurd h (by decide)
  · intro _ addr haddr
    cases haddr
    have htop : a1.top = [⟨65560, 16360, 8⟩] := by
      cases h1
      decide +kernel
    rw [htop]
    exact ⟨by decide, by decide +kernel, by decide +kernel⟩
  · decide +kernel
  · decide +kernel

end OpenSync.Arena
