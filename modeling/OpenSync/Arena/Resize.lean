import OpenSync.Arena.Frame

/-!
# Growable buffers

What `arena_mresize` and `arena_mappend` promise: the buffer that they return is in the top chunk
and begins with the old contents, and a failed call changes nothing.  `arena_mresize` breaks this
when the size of the chunk that the buffer moves to wraps, and when it gives the last chunk back
and cannot map another.  `arena_mappend` computes sizes with wrapping products, and without a buffer
it makes one first and does not take it back when it fails.
-/

namespace OpenSync.Arena

open OpenSync.Lib Option

/-- Multiplication of `size_t`. -/
def mul64 (a b : Nat) : Nat := a * b % 2 ^ 64

/-- `arena_mappend`, with the outcomes of `mmap` for a new buffer and for the resize. -/
def arenaMappend (a : Arena) (ptr : Option Nat) (membsz cur grow : Nat) (mmap mmap' : Option Nat) :
    Option (Arena × Option Nat) :=
  let r := match ptr with
    | some p => (a, some p)
    | none => arenaMalloc a 0 mmap
  match r with
  | (a, none) => some (a, none)
  | (a, some p) => arenaMresize a p (mul64 membsz cur) (mul64 membsz (add64 cur grow)) mmap'

/-- The bytes at `p` are allocated in the top chunk. -/
def InTop (a : Arena) (p n : Nat) : Prop :=
  ∃ c cs, a.top = c :: cs ∧ c.data ≤ p ∧ p + n ≤ c.data + c.pos

/-- A resize of the buffer at `ptr` from `old` to `new` bytes is as it should be.  `NULL` has no
contents. -/
def Resized (a : Arena) (ptr : Option Nat) (old new : Nat) (r : Option (Arena × Option Nat)) :
    Prop :=
  ∃ a' q, r = some (a', q) ∧ (q = none → a' = a) ∧
    (∀ p, q = some p → InTop a' p new ∧
      ∀ b, ptr = some b → ∀ i < min old new, a'.mem (p + i) = a.mem (b + i)) ∧
    ∀ x, a'.mem x ≠ a.mem x → ∃ c ∈ a'.top, c.data ≤ x ∧ x < c.data + c.size

/-! ## What a call depends on -/

/-- Neither the chunk has room for `n` more bytes, nor can the buffer of `newsz` bytes move. -/
def NoRoom (a : Arena) (c : Chunk) (n newsz : Nat) (mmap : Option Nat) : Prop :=
  c.size < c.pos + n ∧ (0 < a.size ∨ chunkNew (grownSize newsz) mmap = none)

/-- The buffer is not at the end of the arena, or it has to grow and there is no room. -/
def Refused (a : Arena) (ptr ptrsz newsz : Nat) (mmap : Option Nat) : Prop :=
  ∀ c cs, a.top = c :: cs → checkResize c ptr ptrsz →
    ptrsz ≤ newsz ∧ NoRoom a c (newsz - ptrsz) newsz mmap

/-- The buffer is all that the only chunk holds, and there is no memory for another chunk. -/
def Vanishes (a : Arena) (ptr ptrsz newsz : Nat) (mmap : Option Nat) : Prop :=
  newsz = 0 ∧ 0 < ptrsz ∧ mmap = none ∧ a.size = 0 ∧
    ∃ c, a.top = [c] ∧ c.data = ptr ∧ c.pos = ptrsz

/-- The chunk at whose end `arena_malloc` makes an empty buffer: the top chunk, or a new one if it
has no room for the alignment. -/
def openedChunk (a : Arena) (mmap : Option Nat) : Option Chunk :=
  (a.top.head?.filter fun c => c.pos + (align - 1) ≤ c.size).or
    (if a.size > 0 then none else chunkNew (grownSize (align - 1)) mmap)

/-- The chunk whose end is aligned. -/
def Chunk.aligned (c : Chunk) : Chunk := { c with pos := c.pos + c.padding }

/-- An empty buffer at the end of the chunk grows to `newsz` bytes, which should be `size`.  If it
cannot grow, the top chunk was aligned already, so that nothing has to be taken back. -/
def Begins (a : Arena) (c : Chunk) (ptrsz newsz size : Nat) (mmap : Option Nat) : Prop :=
  (ptrsz ≠ 0 ∨ NoRoom a c.aligned newsz newsz mmap → a.top.head? = some c.aligned) ∧
    (ptrsz = 0 → ¬ NoRoom a c.aligned newsz newsz mmap → size ≤ sizeMax ∧
      (c.aligned.size < c.aligned.pos + newsz → grownSize newsz + chunkHdr ≤ 2 ^ 64))

/-! ## `arena_mresize` -/

/-- The buffer at `ptr` has become the last `new` bytes of the top chunk, at `q`. -/
structure Becomes (a : Arena) (ptr old new : Nat) (a' : Arena) (q : Nat) : Prop where
  ends : ∃ c cs, a'.top = c :: cs ∧ c.data ≤ q ∧ q + new = c.data + c.pos
  kept : ∀ i < min old new, a'.mem (q + i) = a.mem (ptr + i)
  frame : ∀ x, a'.mem x ≠ a.mem x → ∃ c ∈ a'.top, c.data ≤ x ∧ x < c.data + c.size

section

variable {a : Arena} {bs : List Block} {ptr ptrsz newsz : Nat} {mmap : Option Nat} {c : Chunk}
  {cs : List Chunk}

theorem Becomes.inTop_iff {a' : Arena} {q n : Nat} (h : Becomes a ptr ptrsz newsz a' q) :
    InTop a' q n ↔ n ≤ newsz := by
  obtain ⟨c, cs, htop, hlo, hend⟩ := h.ends
  constructor
  · rintro ⟨c', cs', htop', -, hle⟩
    obtain ⟨rfl, rfl⟩ := List.cons.inj (htop.symm.trans htop')
    omega
  · exact fun hle => ⟨c, cs, htop, hlo, by omega⟩

theorem Inv.le_sizeMax (h : Inv a bs) (htop : a.top = c :: cs) : c.size ≤ sizeMax := by
  have hc := h.stack.valid c (by simp [htop])
  have hhdr := hc.hdr
  have hfits := hc.fits
  unfold sizeMax
  omega

theorem Inv.arenaPop_top (h : Inv a bs) (htop : a.top = c :: cs) {n : Nat} (hn : n ≤ c.pos) :
    ∃ a' bs', a.arenaPop n = some (a', n) ∧ Inv a' bs' ∧ a'.mem = a.mem ∧ a'.pos = a.pos - n ∧
      a'.top = if a.size = 0 ∧ c.pos = n then cs else { c with pos := c.pos - n } :: cs := by
  have hlen : bs.length < bound a := by
    have := h.length_le
    unfold bound
    omega
  have hpop : chunkPop c n = ({ c with pos := c.pos - n }, n) := if_neg (by omega)
  obtain ⟨a', run, bs', hpopped, htop', hclean⟩ := h.lower htop hn hlen
  unfold Arena.arenaPop
  by_cases hsize : a.size > 0
  · refine ⟨a', bs', ?_, hpopped.inv, hpopped.mem, hpopped.pos, ?_⟩
    · simp [hsize, htop, hpop, hclean]
    · rw [htop', if_neg (by omega)]
  obtain ⟨k, hk⟩ : ∃ k, bound a = k + 1 := ⟨_, rfl⟩
  rw [hk] at hclean ⊢
  by_cases hzero : c.pos - n = 0
  · have hdrop := hpopped.dropTop htop' hzero (by omega)
    rw [hzero] at hclean
    refine ⟨{ a' with top := cs }, bs', ?_, hdrop.inv, hpopped.mem, hpopped.pos, ?_⟩
    · simp [hsize, popLoop, htop, hpop, hclean, hzero]
    · exact (if_pos ⟨by omega, by omega⟩).symm
  · refine ⟨a', bs', ?_, hpopped.inv, hpopped.mem, hpopped.pos, ?_⟩
    · simp [hsize, popLoop, htop, hpop, hclean, hzero]
    · rw [htop', if_neg (by omega)]

/-- The end of an arena, which has to be made if there is no chunk. -/
theorem Inv.arenaPush_zero (h : Inv a bs) (mmap : Option Nat) :
    a.top = [] ∧ mmap = none ∧ a.arenaPush 0 mmap = (a, none) ∨ ¬ (a.top = [] ∧ mmap = none) ∧
        ∃ a' p, a.arenaPush 0 mmap = (a', some p) ∧ Becomes a 0 0 0 a' p := by
  unfold arenaPush
  cases htop : a.top with
  | nil =>
    have hsize : ¬ a.size > 0 := fun hpos => by
      obtain ⟨c, hc⟩ := h.static hpos
      simp [hc] at htop
    cases mmap with
    | none => exact .inl ⟨rfl, rfl, by simp [pushTop, chunkNew]⟩
    | some addr =>
      have hnew : chunkNew (grownSize 0) (some addr) =
          some ⟨addr + chunkHdr, growSize - chunkHdr, 0⟩ := by
        simp [chunkNew, chunkLen, grownSize, add64, growSize, chunkHdr]
      have hpush : chunkPush ⟨addr + chunkHdr, growSize - chunkHdr, 0⟩ 0 = some _ :=
        chunkPush_eq_some (by simp) (show growSize - chunkHdr ≤ sizeMax by decide)
      right
      simp only [hsize, hnew]
      exact ⟨by simp, _, _, rfl, ⟨_, _, rfl, by simp, by simp⟩, by simp, by simp⟩
  | cons c cs =>
    have hpush : chunkPush c 0 = some _ :=
      chunkPush_eq_some (h.stack.valid c (by simp [htop])).filled (h.le_sizeMax htop)
    right
    simp only [pushTop, hpush]
    exact ⟨by simp, _, _, rfl, ⟨_, _, rfl, by simp, by simp⟩, by simp, by simp⟩

theorem Inv.mresize_shrink (h : Inv a bs) (htop : a.top = c :: cs)
    (hcheck : checkResize c ptr ptrsz) (hlt : newsz < ptrsz) :
    Vanishes a ptr ptrsz newsz mmap ∧
        (∃ a', arenaMresize a ptr ptrsz newsz mmap = some (a', none) ∧ a'.pos ≠ a.pos) ∨
      ¬ Vanishes a ptr ptrsz newsz mmap ∧
        ∃ a' q, arenaMresize a ptr ptrsz newsz mmap = some (a', some q) ∧
          Becomes a ptr ptrsz newsz a' q := by
  obtain ⟨hle, rfl⟩ := checkResize_iff.mp hcheck
  have hmax := h.pos_lt
  have htotal : a.pos = c.pos + total cs := by rw [h.pos, htop, total_cons]
  obtain ⟨a1, bs', hpop, hinv, hmem, hpos, htop'⟩ :=
    h.arenaPop_top htop (n := ptrsz - newsz) (by omega)
  rw [arenaMresize_shrink htop hcheck hlt hpop (by unfold arenaError; omega)]
  by_cases hzero : newsz = 0
  · subst hzero
    rw [Nat.sub_zero] at hpos htop'
    -- the stack is empty exactly if its only chunk was
    have hnil : a1.top = [] ↔ a.size = 0 ∧ c.pos = ptrsz ∧ cs = [] := by
      rw [htop']
      split_ifs with hall
      · simp [hall]
      · refine iff_of_false (by simp) fun hcs => hall ⟨hcs.1, hcs.2.1⟩
    have hiff : Vanishes a (c.data + (c.pos - ptrsz)) ptrsz 0 mmap ↔
        a1.top = [] ∧ mmap = none := by
      rw [hnil]
      constructor
      · rintro ⟨-, -, hnone, hsize, d, hd, -, hdpos⟩
        obtain ⟨rfl, rfl⟩ := List.cons.inj (htop.symm.trans hd)
        exact ⟨⟨hsize, hdpos, rfl⟩, hnone⟩
      · rintro ⟨⟨hsize, hcpos, rfl⟩, hnone⟩
        exact ⟨rfl, hlt, hnone, hsize, c, htop, by omega, hcpos⟩
    rw [if_pos rfl, hiff]
    rcases hinv.arenaPush_zero mmap with ⟨hnil, hnone, hpush⟩ | ⟨hsome, a', q, hpush, hends⟩
    · exact .inl ⟨⟨hnil, hnone⟩, a1, by rw [hpush], by omega⟩
    · refine .inr ⟨hsome, a', q, by rw [hpush], hends.ends, by simp, fun x hx => ?_⟩
      exact hends.frame x (hmem ▸ hx)
  · rw [if_neg hzero]
    rw [if_neg (by omega)] at htop'
    refine .inr ⟨fun hv => hzero hv.1, a1, _, rfl, ⟨_, _, htop', by simp, ?_⟩, ?_, ?_⟩
    · simp only
      omega
    · exact fun i _ => by rw [hmem]
    · exact fun x hx => absurd (congrFun hmem x) hx

theorem becomes_move {nw : Chunk} (hmv : Moves a ptr ptrsz newsz mmap c cs nw)
    (hnew : newsz ≤ sizeMax) (hfit : grownSize newsz + chunkHdr ≤ 2 ^ 64) :
    ∃ a' q, moveTo a c cs nw ptr ptrsz newsz = some (a', some q) ∧
      Becomes a ptr ptrsz newsz a' q := by
  obtain ⟨-, -, hle, -, -, hnw⟩ := hmv
  unfold chunkNew at hnw
  split_ifs at hnw with hlen
  obtain ⟨addr, -, rfl⟩ := map_eq_some_iff.mp hnw
  have hroom := le_of_chunkLen hnew hfit hlen
  have hmax : chunkLen (grownSize newsz) < 2 ^ 64 :=
    Nat.lt_of_le_of_lt (Nat.div_mul_le_self _ _) (Nat.mod_lt _ (by decide))
  have hpush : chunkPush ⟨addr + chunkHdr, chunkLen (grownSize newsz) - chunkHdr, 0⟩ newsz =
      some _ :=
    chunkPush_eq_some (by simp only; omega) (by simp only [sizeMax]; omega)
  unfold moveTo
  simp only [hpush, map_some, getD_some, pure_def]
  refine ⟨_, _, rfl, ⟨_, _, rfl, by simp, by simp⟩, fun i hi => ?_, fun x hx => ?_⟩
  · simp only [Mem.copy]
    rw [if_pos (by omega), Nat.add_sub_cancel_left]
  · refine ⟨_, List.mem_cons_self, ?_⟩
    by_contra hout
    simp only at hout
    exact hx (Mem.copy_of_outside _ (by omega))

theorem becomes_grown (htop : a.top = c :: cs) (hcheck : checkResize c ptr ptrsz)
    (hge : ptrsz ≤ newsz)
    (hpush : chunkPush c (newsz - ptrsz) =
      some ({ c with pos := c.pos + (newsz - ptrsz) }, c.data + c.pos)) :
    ∃ a' q, arenaMresize a ptr ptrsz newsz mmap = some (a', some q) ∧
      Becomes a ptr ptrsz newsz a' q := by
  obtain ⟨hle, hptr⟩ := checkResize_iff.mp hcheck
  refine ⟨{ a with
    top := { c with pos := c.pos + (newsz - ptrsz) } :: cs
    pos := add64 a.pos (newsz - ptrsz) }, ptr, ?_, ⟨_, _, rfl, ?_, ?_⟩, fun _ _ => rfl, by simp⟩
  · unfold arenaMresize
    simp only [htop, hcheck, Bool.not_true, Bool.false_eq_true, if_false, hpush]
    rw [if_neg (by omega)]
  · simp only
    omega
  · simp only
    omega

theorem Refused.arenaMresize_eq (h : Refused a ptr ptrsz newsz mmap) :
    arenaMresize a ptr ptrsz newsz mmap = some (a, none) := by
  unfold arenaMresize
  cases htop : a.top with
  | nil => rfl
  | cons c cs =>
    by_cases hcheck : checkResize c ptr ptrsz = true
    · obtain ⟨hle, hroom, hno⟩ := h c cs htop hcheck
      rcases chunkPush_cases c (newsz - ptrsz) with hc | ⟨hfit, -⟩
      · simp only [hcheck, Bool.not_true, Bool.false_eq_true, if_false, hc]
        rw [if_neg (by omega)]
        split_ifs with hsize
        · rfl
        · rw [hno.resolve_left (by omega)]
      · omega
    · simp [hcheck]

/-- A call is refused, or it is not and the buffer is resized, or it vanishes with the last chunk,
or it moves to a chunk whose size has wrapped. -/
theorem Inv.mresize_cases (h : Inv a bs) (hnew : newsz ≤ sizeMax) (ptr ptrsz : Nat)
    (mmap : Option Nat) :
    Refused a ptr ptrsz newsz mmap ∧ arenaMresize a ptr ptrsz newsz mmap = some (a, none) ∨
      ¬ Refused a ptr ptrsz newsz mmap ∧
        ((Op.mresize ptr ptrsz newsz mmap).Fits a ∧ ¬ Vanishes a ptr ptrsz newsz mmap ∧
            (∃ a' q, arenaMresize a ptr ptrsz newsz mmap = some (a', some q) ∧
              Becomes a ptr ptrsz newsz a' q) ∨
          Vanishes a ptr ptrsz newsz mmap ∧
            (∃ a', arenaMresize a ptr ptrsz newsz mmap = some (a', none) ∧ a'.pos ≠ a.pos) ∨
          ¬ (Op.mresize ptr ptrsz newsz mmap).Fits a ∧
            (arenaMresize a ptr ptrsz newsz mmap = none ∨
              ∃ a', arenaMresize a ptr ptrsz newsz mmap = some (a', none) ∧
                a'.pos ≠ total a'.top)) := by
  by_cases href : Refused a ptr ptrsz newsz mmap
  · exact .inl ⟨href, href.arenaMresize_eq⟩
  refine .inr ⟨href, ?_⟩
  obtain ⟨c, cs, htop, hcheck, hroom⟩ : ∃ c cs, a.top = c :: cs ∧ checkResize c ptr ptrsz ∧
      (ptrsz ≤ newsz → ¬ NoRoom a c (newsz - ptrsz) newsz mmap) := by
    simpa [Refused] using href
  obtain ⟨hle, hptr⟩ := checkResize_iff.mp hcheck
  rcases Nat.lt_or_ge newsz ptrsz with hlt | hge
  · have hfits : (Op.mresize ptr ptrsz newsz mmap).Fits a := by
      rintro c' cs' nw ⟨-, -, hle, -⟩
      omega
    rcases h.mresize_shrink htop hcheck hlt with hv | ⟨hv, hres⟩
    · exact .inr (.inl hv)
    · exact .inl ⟨hfits, hv, hres⟩
  have hv : ¬ Vanishes a ptr ptrsz newsz mmap := by
    rintro ⟨hzero, hpos, -⟩
    omega
  rcases chunkPush_cases c (newsz - ptrsz) with hpush | ⟨hfit, hpush⟩
  · -- the chunk is full, and another one can be mapped
    have hfull : c.size < c.pos + (newsz - ptrsz) := by
      by_contra hfit
      rw [chunkPush_eq_some (by omega) (h.le_sizeMax htop)] at hpush
      cases hpush
    have hsize : a.size = 0 := by
      by_contra hsize
      exact hroom hge ⟨hfull, .inl (by omega)⟩
    obtain ⟨nw, hnw⟩ : ∃ nw, chunkNew (grownSize newsz) mmap = some nw :=
      Option.ne_none_iff_exists'.mp fun hnone => hroom hge ⟨hfull, .inr hnone⟩
    have hmv : Moves a ptr ptrsz newsz mmap c cs nw := ⟨htop, hcheck, hge, hpush, hsize, hnw⟩
    rw [hmv.mresize_eq]
    by_cases hgrown : grownSize newsz + chunkHdr ≤ 2 ^ 64
    · exact .inl ⟨fun _ _ _ _ => hgrown, hv, becomes_move hmv hnew hgrown⟩
    · exact .inr (.inr ⟨fun hfits => hgrown (hfits c cs nw hmv),
        mresize_wraps h hnew hmv (by omega)⟩)
  · have hfits : (Op.mresize ptr ptrsz newsz mmap).Fits a := by
      rintro c' cs' nw ⟨htop', -, -, hfull, -⟩
      obtain ⟨rfl, rfl⟩ := List.cons.inj (htop.symm.trans htop')
      rw [hfull] at hpush
      cases hpush
    exact .inl ⟨hfits, hv, becomes_grown htop hcheck hge hpush⟩

theorem Refused.fits (h : Refused a ptr ptrsz newsz mmap) :
    (Op.mresize ptr ptrsz newsz mmap).Fits a := by
  rintro c cs nw ⟨htop, hcheck, -, -, hsize, hnw⟩
  obtain ⟨-, -, hpos | hnone⟩ := h c cs htop hcheck
  · omega
  · rw [hnone] at hnw
    cases hnw

theorem Refused.not_vanishes (h : Refused a ptr ptrsz newsz mmap) :
    ¬ Vanishes a ptr ptrsz newsz mmap := by
  rintro ⟨rfl, hpos, -, -, c, htop, rfl, rfl⟩
  have hle := (h c [] htop (checkResize_iff.mpr ⟨le_rfl, by simp⟩)).1
  omega

/-! ## Promises -/

theorem resized_refl (a : Arena) (ptr : Option Nat) (old new : Nat) :
    Resized a ptr old new (some (a, none)) :=
  ⟨a, none, rfl, fun _ => rfl, by simp, by simp⟩

/-- A failed call that changes the arena is not as it should be. -/
theorem not_resized {a' : Arena} {buf : Option Nat} {old new : Nat} (hne : a' ≠ a) :
    ¬ Resized a buf old new (some (a', none)) := by
  rintro ⟨_, _, heq, hnone, -⟩
  cases heq
  exact hne (hnone rfl)

theorem Inv.ne_of_pos {a' : Arena} (h : Inv a bs) (hpos : a'.pos ≠ total a'.top) : a' ≠ a := by
  rintro rfl
  exact hpos h.pos

/-- `arena_mresize` with the sizes that it is told, which may differ from the sizes that are
meant. -/
theorem Inv.resized_iff (h : Inv a bs) (hnew : newsz ≤ sizeMax) {old new : Nat}
    (hmin : new ≤ newsz → min old new ≤ ptrsz) :
    Resized a (some ptr) old new (arenaMresize a ptr ptrsz newsz mmap) ↔
      Refused a ptr ptrsz newsz mmap ∨ new ≤ newsz ∧ (Op.mresize ptr ptrsz newsz mmap).Fits a ∧
        ¬ Vanishes a ptr ptrsz newsz mmap := by
  rcases h.mresize_cases hnew ptr ptrsz mmap with
    ⟨href, hres⟩ | ⟨href, ⟨hfits, hv, a', q, hres, hb⟩ | ⟨hv, a', hres, hpos⟩ |
      ⟨hfits, hres | ⟨a', hres, hpos⟩⟩⟩
  all_goals rw [hres]
  · exact iff_of_true (resized_refl a _ old new) (.inl href)
  · simp only [href, hfits, hv, false_or, not_false_eq_true, and_true]
    rw [← hb.inTop_iff]
    constructor
    · rintro ⟨_, _, heq, -, hin, -⟩
      cases heq
      exact (hin q rfl).1
    · intro hin
      have hle := hmin (hb.inTop_iff.mp hin)
      refine ⟨a', some q, rfl, by simp, ?_, hb.frame⟩
      rintro _ ⟨⟩
      refine ⟨hin, ?_⟩
      rintro _ ⟨⟩ i hi
      have hnew := hb.inTop_iff.mp hin
      exact hb.kept i (by omega)
  · simp only [href, hv, not_true_eq_false, and_false, or_false, iff_false]
    exact not_resized fun heq => hpos (congrArg Arena.pos heq)
  · simp only [href, hfits, false_and, and_false, or_false, iff_false]
    rintro ⟨_, _, heq, -⟩
    cases heq
  · simp only [href, hfits, false_and, and_false, or_false, iff_false]
    exact not_resized (h.ne_of_pos hpos)

/-! ## `arena_mappend` without a buffer -/

theorem padding_le (c : Chunk) : c.padding ≤ align - 1 := Nat.sub_le _ _

theorem pushTop_eq_none (hfull : ∀ c ∈ a.top.head?, c.size < c.pos + newsz) :
    pushTop a.top newsz = none := by
  cases htop : a.top with
  | nil => rfl
  | cons c cs =>
    rcases chunkPush_cases c newsz with hnone | ⟨hle, -⟩
    · simp [pushTop, hnone]
    · have := hfull c (by simp [htop])
      omega

/-- Aligning the top chunk changes nothing exactly if it is aligned. -/
theorem grow_padding_eq_iff (htop : a.top = c :: cs) :
    a.grow c cs c.padding = a ↔ a.top.head? = some c.aligned := by
  constructor
  · intro heq
    exact congrArg (fun a => a.top.head?) heq.symm
  · intro hhead
    have hpad : c.padding = 0 := by
      have heq : c = c.aligned := by simpa [htop] using hhead
      have hpos : c.pos = c.pos + c.padding := congrArg Chunk.pos heq
      omega
    simp [Arena.grow, hpad, ← htop]

/-- An empty buffer at the aligned end of the top chunk, which has room for any alignment. -/
theorem Inv.arenaMalloc_zero_top (h : Inv a bs) (htop : a.top = c :: cs)
    (hle : c.pos + (0 + align - 1) ≤ c.size) (mmap : Option Nat) :
    Inv (a.grow c cs c.padding) bs ∧
      arenaMalloc a 0 mmap = (a.grow c cs c.padding, some (c.data + c.pos + c.padding)) := by
  have hstack : Stack (c :: cs) := htop ▸ h.stack
  have hpos : a.pos = total (c :: cs) := htop ▸ h.pos
  have hpush : arenaPush a (0 + align - 1) mmap =
      (a.grow c cs (0 + align - 1), some (c.data + c.pos)) := by
    unfold arenaPush
    simp only [htop, pushTop, chunkPush_eq_some hle (h.le_sizeMax htop), Option.map_some,
      add64_grow hstack hpos hle, Arena.grow]
  have hpad := padding_le c
  refine ⟨Inv.grow (by rw [← htop]; exact h) (by omega), ?_⟩
  exact arenaMalloc_of_push hstack hpos (by decide) hle hpush

/-- An empty buffer at the aligned end of a new chunk, as the top chunk has no room. -/
theorem Inv.arenaMalloc_zero_new {nw : Chunk} (h : Inv a bs)
    (hf : Fresh a.top (grownSize (0 + align - 1)) mmap)
    (hfull : ∀ c ∈ a.top.head?, c.size < c.pos + (0 + align - 1)) (hsize : ¬ a.size > 0)
    (hnew : chunkNew (grownSize (0 + align - 1)) mmap = some nw) :
    Inv (a.grow nw a.top nw.padding) bs ∧
      arenaMalloc a 0 mmap =
        (a.grow nw a.top nw.padding, some (nw.data + nw.pos + nw.padding)) ∧
      a.top.head? ≠ some nw.aligned := by
  obtain ⟨hzero, hlen, hstack⟩ := chunkNew_spec h.stack hf hnew
  have hopen : Opened a (nw :: a.top) := .inr ⟨by omega, nw, rfl, hzero, hstack⟩
  have hpos : a.pos = total (nw :: a.top) := h.pos.trans hopen.total_eq.symm
  have hroomy : nw.size = growSize - chunkHdr := by
    have hchunk : chunkLen (grownSize (0 + align - 1)) = growSize := by decide
    rw [← hchunk, ← hlen, Nat.add_sub_cancel]
  have hle : nw.pos + (0 + align - 1) ≤ nw.size := by
    rw [hzero, hroomy]
    decide
  have hmax : nw.size ≤ sizeMax := by
    rw [hroomy]
    decide
  have hpush : arenaPush a (0 + align - 1) mmap =
      (a.grow nw a.top (0 + align - 1), some (nw.data + nw.pos)) := by
    rw [arenaPush, pushTop_eq_none hfull, if_neg hsize, hnew]
    simp only [chunkPush_eq_some hle hmax, add64_grow hstack hpos hle, Arena.grow]
  have hpad := padding_le nw
  refine ⟨(h.opened hopen).grow (by omega),
    arenaMalloc_of_push hstack hpos (by decide) hle hpush, fun hhead => ?_⟩
  -- the old top chunk has no room, the new one has
  have hno := hfull _ hhead
  simp only [Chunk.aligned, hzero, hroomy, growSize, chunkHdr, align] at hno hpad
  omega

/-- `arena_malloc` makes an empty buffer at the aligned end of the chunk that it opens. -/
theorem Inv.arenaMalloc_zero (h : Inv a bs) (hf : Fresh a.top (grownSize (0 + align - 1)) mmap) :
    openedChunk a mmap = none ∧ arenaMalloc a 0 mmap = (a, none) ∨
      ∃ c cs, openedChunk a mmap = some c ∧ Inv (a.grow c cs c.padding) bs ∧
        arenaMalloc a 0 mmap =
          (a.grow c cs c.padding, some (c.data + c.pos + c.padding)) ∧
        (a.grow c cs c.padding = a ↔ a.top.head? = some c.aligned) := by
  by_cases hroom : ∃ c cs, a.top = c :: cs ∧ c.pos + (align - 1) ≤ c.size
  · obtain ⟨c, cs, htop, hle⟩ := hroom
    obtain ⟨hinv, hmalloc⟩ := h.arenaMalloc_zero_top htop (by rw [Nat.zero_add]; exact hle) mmap
    exact .inr ⟨c, cs, by simp [openedChunk, htop, hle], hinv, hmalloc, grow_padding_eq_iff htop⟩
  have hfull : ∀ c ∈ a.top.head?, c.size < c.pos + (0 + align - 1) := by
    intro c hc
    obtain ⟨cs, htop⟩ : ∃ cs, a.top = c :: cs := List.head?_eq_some_iff.mp hc
    by_contra hle
    exact hroom ⟨c, cs, htop, by omega⟩
  have hfilter : a.top.head?.filter (fun c => c.pos + (align - 1) ≤ c.size) = none := by
    rw [Option.filter_eq_none_iff]
    intro c hc
    have := hfull c hc
    simp only [decide_eq_true_eq]
    omega
  unfold openedChunk
  rw [hfilter, Option.none_or]
  have hmalloc : arenaPush a (0 + align - 1) mmap = (a, none) →
      arenaMalloc a 0 mmap = (a, none) := fun hpush => by
    rw [arenaMalloc, if_neg (by decide), hpush]
  by_cases hsize : a.size > 0
  · refine .inl ⟨if_pos hsize, hmalloc ?_⟩
    rw [arenaPush, pushTop_eq_none hfull, if_pos hsize]
  rw [if_neg hsize]
  cases hnew : chunkNew (grownSize (align - 1)) mmap with
  | none =>
    refine .inl ⟨rfl, hmalloc ?_⟩
    rw [arenaPush, pushTop_eq_none hfull, if_neg hsize, Nat.zero_add, hnew]
  | some nw =>
    obtain ⟨hinv, hmalloc, hhead⟩ :=
      h.arenaMalloc_zero_new hf hfull hsize (by rw [Nat.zero_add]; exact hnew)
    refine .inr ⟨nw, a.top, rfl, hinv, hmalloc, iff_of_false (fun heq => ?_) hhead⟩
    have hlength := congrArg (fun a => a.top.length) heq
    simp [Arena.grow] at hlength

/-- A buffer at the end of the arena is empty, and it is refused if it cannot grow. -/
theorem refused_end_iff (cs : List Chunk) :
    Refused (a.grow c cs c.padding) (c.data + c.pos + c.padding) ptrsz newsz mmap ↔
      ptrsz ≠ 0 ∨ NoRoom a c.aligned newsz newsz mmap := by
  have hcheck : checkResize c.aligned (c.data + c.pos + c.padding) ptrsz = true ↔ ptrsz = 0 := by
    rw [checkResize_iff]
    simp only [Chunk.aligned]
    omega
  constructor
  · intro h
    by_cases hzero : ptrsz = 0
    · subst hzero
      exact .inr (h _ cs rfl (hcheck.mpr rfl)).2
    · exact .inl hzero
  · rintro h c' cs' htop' hcheck'
    obtain ⟨rfl, rfl⟩ := List.cons.inj htop'
    obtain rfl := hcheck.mp hcheck'
    exact ⟨Nat.zero_le _, h.resolve_left (by simp)⟩

theorem fits_end_iff (cs : List Chunk) (hmax : c.aligned.size ≤ sizeMax)
    (hroom : ¬ NoRoom a c.aligned newsz newsz mmap) :
    (Op.mresize (c.data + c.pos + c.padding) 0 newsz mmap).Fits (a.grow c cs c.padding) ↔
      (c.aligned.size < c.aligned.pos + newsz → grownSize newsz + chunkHdr ≤ 2 ^ 64) := by
  constructor
  · intro hfits hfull
    have hsize : a.size = 0 := by
      by_contra hsize
      exact hroom ⟨hfull, .inl (by omega)⟩
    obtain ⟨nw, hnw⟩ : ∃ nw, chunkNew (grownSize newsz) mmap = some nw :=
      Option.ne_none_iff_exists'.mp fun hnone => hroom ⟨hfull, .inr hnone⟩
    refine hfits c.aligned cs nw ⟨rfl, ?_, Nat.zero_le _, ?_, hsize, hnw⟩
    · exact checkResize_iff.mpr ⟨Nat.zero_le _, Nat.add_assoc _ _ _⟩
    · rcases chunkPush_cases c.aligned newsz with hnone | ⟨hle, -⟩
      · exact hnone
      · omega
  · rintro hgrown c' cs' nw ⟨htop, -, -, hpush, -⟩
    obtain ⟨rfl, rfl⟩ := List.cons.inj htop
    refine hgrown ?_
    by_contra hfit
    have hfull : chunkPush c.aligned newsz = none := hpush
    rw [chunkPush_eq_some (Nat.le_of_not_lt hfit) hmax] at hfull
    cases hfull

/-- The resize that follows when a buffer was made. -/
theorem Inv.begins_iff (h : Inv a bs) (hinv : Inv (a.grow c cs c.padding) bs)
    (heq : a.grow c cs c.padding = a ↔ a.top.head? = some c.aligned) (ptrsz old size : Nat)
    (mmap : Option Nat) :
    Resized a none old size (arenaMresize (a.grow c cs c.padding) (c.data + c.pos + c.padding)
        ptrsz (size % 2 ^ 64) mmap) ↔
      Begins a c ptrsz (size % 2 ^ 64) size mmap := by
  have hmod := Nat.mod_lt size (show 2 ^ 64 > 0 by decide)
  have htop : (a.grow c cs c.padding).top = c.aligned :: cs := rfl
  have hmax : c.aligned.size ≤ sizeMax := hinv.le_sizeMax htop
  have hsize : size ≤ sizeMax ↔ size ≤ size % 2 ^ 64 := by
    unfold sizeMax
    omega
  rcases hinv.mresize_cases (show size % 2 ^ 64 ≤ sizeMax by unfold sizeMax; omega)
      (c.data + c.pos + c.padding) ptrsz mmap with ⟨href, hres⟩ | ⟨href, hcases⟩
  · -- the empty buffer stays
    rw [hres]
    rw [refused_end_iff] at href
    have hbegins : Begins a c ptrsz (size % 2 ^ 64) size mmap ↔ a.grow c cs c.padding = a := by
      rw [heq]
      refine ⟨fun hb => hb.1 href, fun hhead => ⟨fun _ => hhead, fun hzero hroom => ?_⟩⟩
      exact absurd (href.resolve_left (by simp [hzero])) hroom
    rw [hbegins]
    refine ⟨fun hr => by_contra fun hne => not_resized hne hr, fun hsame => ?_⟩
    rw [hsame]
    exact resized_refl a none old size
  rw [refused_end_iff, not_or, not_not] at href
  obtain ⟨rfl, hroom⟩ := href
  have hbegins : Begins a c 0 (size % 2 ^ 64) size mmap ↔ size ≤ size % 2 ^ 64 ∧
      (Op.mresize (c.data + c.pos + c.padding) 0 (size % 2 ^ 64) mmap).Fits
        (a.grow c cs c.padding) := by
    rw [fits_end_iff cs hmax hroom, ← hsize]
    refine ⟨fun hb => hb.2 rfl hroom, fun hb => ⟨fun hno => ?_, fun _ _ => hb⟩⟩
    exact absurd (hno.resolve_left (by simp)) hroom
  rw [hbegins]
  rcases hcases with ⟨hfits, -, a', q, hres, hb⟩ | ⟨⟨-, hpos, -⟩, -⟩ |
    ⟨hfits, hres | ⟨a', hres, hpos⟩⟩
  · rw [hres, and_iff_left hfits, ← hb.inTop_iff]
    constructor
    · rintro ⟨_, _, hsome, -, hin, -⟩
      cases hsome
      exact (hin q rfl).1
    · intro hin
      refine ⟨a', some q, rfl, by simp, ?_, hb.frame⟩
      rintro _ ⟨⟩
      exact ⟨hin, by simp⟩
  · omega
  · rw [hres]
    simp only [hfits, and_false, iff_false]
    rintro ⟨_, _, hsome, -⟩
    cases hsome
  · rw [hres]
    simp only [hfits, and_false, iff_false]
    exact not_resized (h.ne_of_pos hpos)

end

theorem mul64_add64 (membsz cur grow : Nat) :
    mul64 membsz (add64 cur grow) = membsz * (cur + grow) % 2 ^ 64 := by
  rw [mul64, add64, Nat.mul_mod_mod]

/-- The promise of the two functions in every arena that calls can make, as long as no earlier
buffer has moved to a chunk whose size has wrapped.

`arena_mappend` keeps it with a buffer that it refuses to resize, and otherwise exactly if the new
size is a `size_t` and the chunk that it may need does not wrap.  With `NULL` it depends on the
chunk in which `arena_malloc` makes a buffer, and it is kept if there is none. -/
theorem resize_iff {a : Arena} (ha : Reachable a) (ptr : Nat) (mmap mmap' : Option Nat) :
    (∀ ptrsz newsz, newsz ≤ sizeMax →
      (Resized a (some ptr) ptrsz newsz (arenaMresize a ptr ptrsz newsz mmap') ↔
        (Op.mresize ptr ptrsz newsz mmap').Fits a ∧ ¬ Vanishes a ptr ptrsz newsz mmap')) ∧
    ∀ membsz cur grow,
      (Resized a (some ptr) (membsz * cur) (membsz * (cur + grow))
          (arenaMappend a (some ptr) membsz cur grow mmap mmap') ↔
        Refused a ptr (mul64 membsz cur) (mul64 membsz (add64 cur grow)) mmap' ∨
          membsz * (cur + grow) ≤ sizeMax ∧
            (Op.mresize ptr (membsz * cur) (membsz * (cur + grow)) mmap').Fits a) ∧
      ((Op.malloc 0 mmap).Ok 0 a →
        (Resized a none (membsz * cur) (membsz * (cur + grow))
            (arenaMappend a none membsz cur grow mmap mmap') ↔
          ∀ c, openedChunk a mmap = some c →
            Begins a c (mul64 membsz cur) (mul64 membsz (add64 cur grow))
              (membsz * (cur + grow)) mmap')) := by
  obtain ⟨bs, h⟩ := ha.inv
  refine ⟨fun ptrsz newsz hnew => ?_, fun membsz cur grow => ⟨?_, fun hok => ?_⟩⟩
  · rw [h.resized_iff hnew fun _ => Nat.min_le_left _ _]
    refine ⟨?_, fun hfit => .inr ⟨le_rfl, hfit⟩⟩
    rintro (href | ⟨-, hfit⟩)
    · exact ⟨href.fits, href.not_vanishes⟩
    · exact hfit
  · have hcur : membsz * cur ≤ membsz * (cur + grow) :=
      Nat.mul_le_mul_left _ (Nat.le_add_right _ _)
    have hmod := Nat.mod_lt (membsz * (cur + grow)) (show 2 ^ 64 > 0 by decide)
    have hsize : membsz * (cur + grow) ≤ mul64 membsz (add64 cur grow) ↔
        membsz * (cur + grow) ≤ sizeMax := by
      rw [mul64_add64]
      unfold sizeMax
      omega
    have hexact : membsz * (cur + grow) ≤ sizeMax → mul64 membsz cur = membsz * cur ∧
        mul64 membsz (add64 cur grow) = membsz * (cur + grow) := by
      rw [mul64_add64, mul64]
      unfold sizeMax
      omega
    rw [arenaMappend, h.resized_iff (by rw [mul64_add64]; unfold sizeMax; omega), hsize]
    · refine or_congr_right (and_congr_right fun hle => ?_)
      obtain ⟨hold, hnew⟩ := hexact hle
      rw [hold, hnew]
      refine and_iff_left fun hv => ?_
      have hzero := hv.1
      have hpos := hv.2.1
      omega
    · intro hle
      have hold := (hexact (hsize.mp hle)).1
      omega
  · rcases h.arenaMalloc_zero hok with ⟨hnone, hmalloc⟩ | ⟨c, cs, hsome, hinv, hmalloc, heq⟩
    · rw [arenaMappend, hmalloc, hnone]
      exact iff_of_true (resized_refl a none _ _) (by simp)
    · rw [arenaMappend, hmalloc, hsome, mul64_add64]
      simp only [some.injEq, forall_eq']
      exact h.begins_iff hinv heq _ _ _ _

/-- A dynamic arena with a buffer of eight bytes at the address 65560. -/
def oneBuffer : Arena := (arenaPush emptyArena 8 (some 65536)).1

/-- The only buffer is given back where there is memory for another chunk, it grows by eight bytes,
and a second buffer is made behind it. -/
theorem resize_iff_oneBuffer :
    Resized oneBuffer (some 65560) 8 0 (arenaMresize oneBuffer 65560 8 0 (some 65536)) ∧
      Resized oneBuffer (some 65560) (8 * 1) (8 * (1 + 1))
        (arenaMappend oneBuffer (some 65560) 8 1 1 none none) ∧
      Resized oneBuffer none (8 * 0) (8 * (0 + 2))
        (arenaMappend oneBuffer none 8 0 2 none none) := by
  have hreach : Reachable oneBuffer := by
    refine @.step _ _ (.push 8 (some 65536)) (.dynamic 4096 _) ?_ trivial rfl
    rintro _ ⟨⟩
    exact ⟨by decide, by decide +kernel, by simp [arenaNew]⟩
  refine ⟨((resize_iff hreach 65560 none (some 65536)).1 8 0 (by decide)).mpr ⟨?_, ?_⟩,
    ((resize_iff hreach 65560 none none).2 8 1 1).1.mpr (.inr ⟨by decide, ?_⟩),
    (((resize_iff hreach 65560 none none).2 8 0 2).2 (by rintro _ ⟨⟩)).mpr ?_⟩
  · rintro c cs nw ⟨-, -, hle, -⟩
    omega
  · rintro ⟨-, -, hnone, -⟩
    simp at hnone
  · rintro c cs nw ⟨-, -, -, -, -, hnw⟩
    simp [chunkNew] at hnw
  · intro c hc
    obtain rfl : (⟨65560, 16360, 8⟩ : Chunk) = c := some.inj hc
    exact ⟨fun hno => (hno.resolve_left (by decide)).elim fun hfull => absurd hfull (by decide),
      fun _ _ => ⟨by decide, fun hfull => absurd hfull (by decide)⟩⟩

/-- A product that wraps is a success without a new byte.  A buffer that is resized to nothing is
gone although the call fails.  A failed `arena_mappend` without a buffer leaves the bytes in front
of the one it wanted to make. -/
theorem resize_breaks :
    (arenaMappend oneBuffer (some 65560) 8 1 (2 ^ 61) none none).map (fun r => (r.1.pos, r.2)) =
        some (8, some 65560) ∧
      (arenaMresize oneBuffer 65560 8 0 none).map (fun r => (r.1.pos, r.2)) = some (0, none) ∧
      (arenaMappend emptyArena none 1 0 65536 (some 65536) none).map (fun r => (r.1.pos, r.2)) =
        some (8, none) := by
  decide +kernel

end OpenSync.Arena
