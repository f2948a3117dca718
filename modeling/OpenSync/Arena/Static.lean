import OpenSync.Arena.Frame

/-!
# Static arenas

`arena_new_static` puts an arena and its only chunk in a buffer of the caller.  The other
functions recognise such an arena by `a_size > 0`, which is not so for a buffer that just holds the
headers: that arena takes memory from `mmap` and unmaps its embedded chunk.
-/

namespace OpenSync.Arena

open OpenSync.Lib Option

/-- The calls that do not register a handler.  `arena_del` is `arena_pop` of `SIZE_MAX`. -/
def Op.Plain : Op → Prop
  | .defer _ _ => False
  | _ => True

/-- The pointer that a call hands out, with its size. -/
def handed : Op → Arena → Option (Nat × Nat)
  | .push sz mmap, a => (arenaPush a sz mmap).2.map (·, sz)
  | .malloc sz mmap, a => (arenaMalloc a sz mmap).2.map (·, sz)
  | .mresize ptr ptrsz newsz mmap, a =>
    ((arenaMresize a ptr ptrsz newsz mmap).bind Prod.snd).map (·, newsz)
  | _, _ => none

/-- What a call hands out lies in the buffer, and is aligned if it comes from `arena_malloc`. -/
def Contained (buf sz : Nat) (op : Op) (a : Arena) : Prop :=
  ∀ p n, handed op a = some (p, n) → buf + staticSz ≤ p ∧ p + n ≤ buf + sz ∧
    ∀ m mmap, op = .malloc m mmap → align ∣ p

/-- The arena has its embedded chunk only, and does not hold more bytes than that. -/
def Embedded (buf sz : Nat) (a : Arena) : Prop :=
  a.top = [⟨buf + staticSz, sz - staticSz, a.pos⟩] ∧ a.pos ≤ sz - staticSz

/-- An arena in a buffer with room behind the headers, without handlers. -/
structure Static (buf sz : Nat) (a : Arena) : Prop where
  buf_pos : 0 < buf
  fits : buf + sz ≤ 2 ^ 64
  room : staticSz < sz
  embedded : Embedded buf sz a
  size : a.size = sz - staticSz
  defer : a.defer = 0

namespace Static

variable {buf sz : Nat} {a : Arena}

section

variable (h : Static buf sz a)

include h

theorem size_pos : a.size > 0 := by
  have hroom := h.room
  have hsize := h.size
  omega

theorem stack : Stack a.top := by
  obtain ⟨hbuf, hfits, hroom, ⟨htop, hpos⟩, -, -⟩ := h
  rw [htop]
  simp only [staticSz] at hroom hpos ⊢
  refine .cons ⟨?_, ?_, hpos⟩ (by simp) .nil
  · simp only [chunkHdr]
    omega
  · simp only
    omega

theorem pos_eq : a.pos = total a.top := by simp [h.embedded.1]

/-- A static arena does not ask for memory. -/
theorem arenaPush_eq (n : Nat) (mmap : Option Nat) : arenaPush a n mmap = arenaPush a n none := by
  unfold arenaPush
  split
  · rfl
  · rw [if_pos h.size_pos, if_pos h.size_pos]

theorem eq_of_opened {cs : List Chunk} (hopen : Opened a cs) : cs = a.top :=
  hopen.resolve_right fun hzero => absurd hzero.1 h.size_pos.ne'

theorem grow {c : Chunk} {cs : List Chunk} {n : Nat} (htop : c :: cs = a.top)
    (hle : c.pos + n ≤ c.size) :
    Static buf sz (a.grow c cs n) ∧ c.data = buf + staticSz ∧ c.data + c.size = buf + sz := by
  have hroom := h.room
  rw [h.embedded.1] at htop
  obtain ⟨rfl, rfl⟩ := List.cons.inj htop
  exact ⟨⟨h.buf_pos, h.fits, hroom, ⟨rfl, hle⟩, h.size, h.defer⟩, rfl, by simp only; omega⟩

/-- The embedded chunk shrinks, and stays when it becomes empty. -/
theorem arenaPop_eq (n : Nat) :
    ∃ a', arenaPop a n = some (a', min a.pos n) ∧ Static buf sz a' ∧ a'.pos = a.pos - n := by
  obtain ⟨hbuf, hfits, hroom, ⟨htop, hpos⟩, hsize, hdefer⟩ := h
  have hlt : sub64 a.pos (min a.pos n) = a.pos - n := by
    rw [sub64_of_le (by omega) (by omega)]
    omega
  unfold arenaPop
  rw [if_pos (by omega), htop]
  simp only [chunkPop_fst, chunkPop_snd, hdefer, hlt]
  exact ⟨_, rfl, ⟨hbuf, hfits, hroom, ⟨rfl, by simp only; omega⟩, hsize, rfl⟩, rfl⟩

end

end Static

/-- The result of an allocation of `n` bytes in a static arena. -/
structure Gives (buf sz n : Nat) (r : Arena × Option Nat) : Prop where
  static : Static buf sz r.1
  inside : ∀ p, r.2 = some p → buf + staticSz ≤ p ∧ p + n ≤ buf + sz

variable {buf sz : Nat} {a : Arena}

theorem Gives.contained {n : Nat} {r : Arena × Option Nat} {op : Op} (h : Gives buf sz n r)
    (hop : handed op a = r.2.map (·, n))
    (halign : ∀ m mmap, op = .malloc m mmap → ∀ p, r.2 = some p → align ∣ p) :
    Contained buf sz op a := by
  intro p m hp
  obtain ⟨q, hq, ⟨⟩⟩ := map_eq_some_iff.mp (hop.symm.trans hp)
  exact ⟨(h.inside p hq).1, (h.inside p hq).2, fun m mmap hm => halign m mmap hm p hq⟩

namespace Static

section

variable (h : Static buf sz a)

include h

theorem push (n : Nat) (mmap : Option Nat) : Gives buf sz n (arenaPush a n mmap) := by
  have hfresh : Fresh a.top (grownSize n) none := by simp [Fresh]
  rw [h.arenaPush_eq]
  obtain ⟨cs, hopen, hres⟩ := arenaPush_spec h.stack h.pos_eq hfresh
  obtain rfl := h.eq_of_opened hopen
  rcases hres with hres | ⟨c, cs, htop, hle, hres⟩
  · exact hres ▸ ⟨h, by simp⟩
  obtain ⟨hgrown, hdata, hend⟩ := h.grow htop.symm hle
  refine hres ▸ ⟨hgrown, fun p hp => ?_⟩
  cases hp
  omega

theorem malloc (n : Nat) (mmap : Option Nat) : Gives buf sz n (arenaMalloc a n mmap) ∧
      ∀ p, (arenaMalloc a n mmap).2 = some p → align ∣ p := by
  have hfresh : Fresh a.top (grownSize (n + align - 1)) none := by simp [Fresh]
  rw [arenaMalloc, h.arenaPush_eq _ mmap, ← arenaMalloc]
  obtain ⟨cs, hopen, hres⟩ := arenaMalloc_spec h.stack h.pos_eq hfresh
  obtain rfl := h.eq_of_opened hopen
  rcases hres with hres | ⟨c, cs, k, htop, hle, halign, hres⟩
  · exact hres ▸ ⟨⟨h, by simp⟩, by simp⟩
  obtain ⟨hgrown, hdata, hend⟩ := h.grow htop.symm hle
  refine hres ▸ ⟨⟨hgrown, fun p hp => ?_⟩, fun p hp => ?_⟩
  · cases hp
    omega
  · cases hp
    exact Nat.dvd_of_mod_eq_zero halign

theorem mresize (ptr ptrsz newsz : Nat) (mmap : Option Nat) :
    ∃ r, arenaMresize a ptr ptrsz newsz mmap = some r ∧ Gives buf sz newsz r := by
  rcases arenaMresize_cases a ptr ptrsz newsz mmap with heq | ⟨c, cs, htop, hcheck, hlt⟩ |
    ⟨c, cs, htop, hcheck, hge, hle, heq⟩ | ⟨c, cs, nw, hmoves⟩
  · exact ⟨_, heq, h, by simp⟩
  · obtain ⟨a1, hpop, hstatic, hpos⟩ := h.arenaPop_eq (ptrsz - newsz)
    have hlow : a.pos < arenaError := h.pos_eq ▸ h.stack.total_lt
    have herr : min a.pos (ptrsz - newsz) ≠ arenaError := by omega
    refine ⟨_, arenaMresize_shrink htop hcheck hlt hpop herr, ?_⟩
    split_ifs with hzero
    · exact hzero ▸ hstatic.push 0 mmap
    refine ⟨hstatic, fun p hp => ?_⟩
    cases hp
    obtain ⟨hptr, rfl⟩ := checkResize_iff.mp hcheck
    have hfilled := (h.stack.valid c (by simp [htop])).filled
    obtain ⟨-, hdata, hend⟩ := h.grow htop.symm (n := 0) hfilled
    omega
  · obtain ⟨hgrown, hdata, hend⟩ := h.grow htop.symm hle
    obtain ⟨hptr, rfl⟩ := checkResize_iff.mp hcheck
    rw [add64_grow (htop ▸ h.stack) (htop ▸ h.pos_eq) hle] at heq
    refine ⟨_, heq, hgrown, fun p hp => ?_⟩
    cases hp
    omega
  · exact absurd hmoves.2.2.2.2.1 h.size_pos.ne'

theorem step {op : Op} (hop : op.Plain) :
    (∃ a', step op a = some a' ∧ Static buf sz a') ∧ Contained buf sz op a := by
  cases op with
  | push n mmap =>
    have hgives := h.push n mmap
    exact ⟨⟨_, rfl, hgives.static⟩, hgives.contained rfl (by simp)⟩
  | malloc n mmap =>
    obtain ⟨hgives, halign⟩ := h.malloc n mmap
    exact ⟨⟨_, rfl, hgives.static⟩, hgives.contained rfl fun _ _ _ => halign⟩
  | mresize ptr ptrsz newsz mmap =>
    obtain ⟨r, heq, hgives⟩ := h.mresize ptr ptrsz newsz mmap
    exact ⟨⟨r.1, by simp [Arena.step, heq], hgives.static⟩,
      hgives.contained (by simp [handed, heq]) (by simp)⟩
  | defer => exact hop.elim
  | pop n =>
    obtain ⟨a', hpop, hstatic, -⟩ := h.arenaPop_eq n
    exact ⟨⟨a', by simp [Arena.step, hpop], hstatic⟩, by simp [Contained, handed]⟩
  | restore f =>
    refine ⟨?_, by simp [Contained, handed]⟩
    obtain ⟨a', hpop, hstatic, -⟩ := h.arenaPop_eq (a.pos - f.pos)
    simp only [Arena.step, arenaRestore]
    split_ifs
    · exact ⟨a, rfl, h⟩
    · exact ⟨a, rfl, h⟩
    · exact ⟨a', by simp [hpop], hstatic⟩
  | write x v =>
    exact ⟨⟨_, rfl, ⟨h.buf_pos, h.fits, h.room, h.embedded, h.size, h.defer⟩⟩,
      by simp [Contained, handed]⟩

theorem run {ops : List Op} (hops : ∀ op ∈ ops, op.Plain) :
    ∃ a', run ops a = some a' ∧ Static buf sz a' := by
  induction ops generalizing a with
  | nil => exact ⟨a, rfl, h⟩
  | cons op ops ih =>
    obtain ⟨hop, hops⟩ := List.forall_mem_cons.mp hops
    obtain ⟨⟨a1, hstep, h1⟩, -⟩ := h.step hop
    obtain ⟨a2, hrun, h2⟩ := ih h1 hops
    exact ⟨a2, by rw [Arena.run, hstep, bind_some, hrun], h2⟩

end

end Static

/-- A static arena stays in its buffer, whatever is called, exactly if there is room behind the
headers. -/
theorem static_stays_iff {buf sz : Nat} {mem : Mem} {a : Arena} (hbuf : 0 < buf)
    (hend : buf + sz ≤ 2 ^ 64) (hnew : arenaNewStatic buf sz mem = some a) :
    (∀ ops : List Op, (∀ op ∈ ops, op.Plain) → ∃ a', run ops a = some a' ∧ Embedded buf sz a' ∧
      ∀ op : Op, op.Plain → Contained buf sz op a') ↔ sz ≠ staticSz := by
  unfold arenaNewStatic at hnew
  split_ifs at hnew with hlt
  cases hnew
  constructor
  · rintro hall rfl
    -- one byte from a new mapping behind the buffer
    obtain ⟨a', hrun, -, hcontained⟩ := hall [] (by simp)
    cases hrun
    have hout := hcontained (.push 1 (some (buf + staticSz))) trivial (buf + staticSz + chunkHdr) 1
      (by simp [handed, arenaPush, pushTop, chunkPush, chunkNew, chunkLen, grownSize, add64,
        growSize, chunkHdr, sizeMax])
    omega
  · intro hne ops hops
    have hstatic : Static buf sz ⟨buf, [⟨buf + staticSz, sz - staticSz, 0⟩], 0, sz - staticSz, 0,
        mem, []⟩ := ⟨hbuf, hend, by omega, ⟨rfl, Nat.zero_le _⟩, rfl, rfl⟩
    obtain ⟨a', hrun, h'⟩ := hstatic.run hops
    exact ⟨a', hrun, h'.embedded, fun op hop => (h'.step hop).2⟩

/-- Sixty-four bytes behind the headers are enough. -/
theorem static_stays_iff_room :
    let a : Arena := ⟨4096, [⟨4160, 64, 0⟩], 0, 64, 0, fun _ => 0, []⟩
    ∀ ops : List Op, (∀ op ∈ ops, op.Plain) → ∃ a', run ops a = some a' ∧ Embedded 4096 128 a' ∧
      ∀ op : Op, op.Plain → Contained 4096 128 op a' :=
  (static_stays_iff (by decide) (by decide) rfl).mpr (by decide)

/-- With a buffer for the headers only, the first byte comes from `mmap`, and giving back nothing
takes the embedded chunk out of the arena. -/
theorem static_headers_only :
    let new := arenaNewStatic 4096 staticSz fun _ => 0
    new.bind (handed (.push 1 (some 8192))) = some (8216, 1) ∧
      (new.bind (step (.pop 0))).map Arena.top = some [] := by
  constructor <;> rfl

end OpenSync.Arena
