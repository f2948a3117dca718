import OpenSync.Arena.Chunks

/-!
# The list of handlers

The handlers of an arena are a linked list of blocks in its own memory, the newest first.
`Linked` reads the list from the memory, and `Placed` says where its blocks are: those in the top
chunk first, from the highest address to the lowest, then those in the next chunk, and so on.
`arena_defer_cleanup` relies on this order, because it stops at the first block that is outside of
the top chunk or below its fill level.

`lifo` replays a log of events on a stack of handlers and fails if a handler runs that is not on
top.
-/

namespace OpenSync.Arena

open OpenSync.Lib List UInt64

/-! ## The log -/

/-- The registered handlers after the events, newest first, or `none` if one ran out
of turn. -/
def lifo : List Handler → List Event → Option (List Handler)
  | hs, [] => some hs
  | hs, .registered h :: es => lifo (h :: hs) es
  | hs, .refused _ :: es => lifo hs es
  | [], .ran _ :: _ => none
  | h' :: hs, .ran h :: es => if h' = h then lifo hs es else none

theorem lifo_append (hs : List Handler) (es es' : List Event) :
    lifo hs (es ++ es') = (lifo hs es).bind (fun hs' => lifo hs' es') := by
  fun_induction lifo hs es with
  | case1 hs => rfl
  | case2 hs h es ih | case3 hs h es ih | case5 hs h es ih => simpa [lifo] using ih
  | case4 h es => simp [lifo]
  | case6 h' hs h es hne => simp [lifo, hne]

theorem lifo_ran (hs hs' : List Handler) : lifo (hs ++ hs') (hs.map .ran) = some hs' := by
  induction hs with
  | nil => rfl
  | cons h hs ih => simpa [lifo] using ih

theorem lifo_length {hs hs' : List Handler} {es : List Event} (h : lifo hs es = some hs') :
    hs'.length ≤ hs.length + es.length := by
  fun_induction lifo hs es with
  | case1 hs =>
    cases h
    exact le_rfl
  | case2 hs g es ih =>
    have hle := ih h
    simp only [length_cons] at hle ⊢
    omega
  | case3 hs g es ih | case5 hs g es ih =>
    have hle := ih h
    simp only [length_cons]
    omega
  | case4 g es => cases h
  | case6 g' hs g es hne => cases h

/-! ## Blocks in the memory -/

/-- A block of the list: its address and the handler in it. -/
structure Block where
  addr : Nat
  handler : Handler

/-- The byte at `x` belongs to the block. -/
def Block.Covers (b : Block) (x : Nat) : Prop := b.addr ≤ x ∧ x < b.addr + deferSz

/-- The list that starts at `d` has these blocks, with right checksums. -/
def Linked (m : Mem) : Nat → List Block → Prop
  | d, [] => d = 0
  | d, b :: bs =>
    d = b.addr ∧ 0 < d ∧ m.load64 (d + 8) = b.handler.fn ∧ m.load64 (d + 16) = b.handler.data ∧
      m.load64 d = deferMagic d (m.load64 (d + 24)) b.handler.fn b.handler.data ∧
      Linked m (m.load64 (d + 24)).toNat bs

variable {m : Mem} {d : Nat} {bs : List Block}

/-- The list is not touched by a change of the memory outside of its blocks. -/
theorem Linked.congr {m' : Mem} (h : Linked m d bs) (hm : ∀ b ∈ bs, ∀ x, b.Covers x → m' x = m x) :
    Linked m' d bs := by
  induction bs generalizing d with
  | nil => exact h
  | cons b bs ih =>
    obtain ⟨rfl, hpos, hfn, hdata, hmagic, hrest⟩ := h
    have hload : ∀ k, k + 8 ≤ deferSz → m'.load64 (b.addr + k) = m.load64 (b.addr + k) :=
      fun k hk => Mem.load64_congr
        (fun x hx hx' => hm b mem_cons_self x ⟨by omega, by omega⟩)
    have hload0 := hload 0 (by decide)
    rw [add_zero] at hload0
    refine ⟨rfl, hpos, (hload 8 (by decide)).trans hfn, (hload 16 (by decide)).trans hdata, ?_, ?_⟩
    · rw [hload0, hload 24 (by decide)]
      exact hmagic
    · rw [hload 24 (by decide)]
      exact ih hrest (fun b' hb' => hm b' (mem_cons_of_mem b hb'))

/-- The memory determines the list. -/
theorem Linked.unique {bs' : List Block} (h : Linked m d bs) (h' : Linked m d bs') : bs = bs' := by
  induction bs generalizing d bs' with
  | nil =>
    have h0 : d = 0 := h
    cases bs' with
    | nil => rfl
    | cons b' bs' => exact absurd h'.2.1 (by omega)
  | cons b bs ih =>
    cases bs' with
    | nil =>
      have h0 : d = 0 := h'
      exact absurd h.2.1 (by omega)
    | cons b' bs' =>
      obtain ⟨hd, -, hfn, hdata, -, hrest⟩ := h
      obtain ⟨hd', -, hfn', hdata', -, hrest'⟩ := h'
      obtain ⟨addr, fn, data⟩ := b
      obtain ⟨addr', fn', data'⟩ := b'
      simp only at hd hd' hfn hfn' hdata hdata'
      rw [ih hrest hrest', ← hd, ← hd', ← hfn, ← hfn', ← hdata, ← hdata']

/-- The checksum test is passed by the checksum of the block. -/
theorem deferMagic_xor (p : Nat) (next fn data : UInt64) :
    deferMagic p next fn data ^^^ UInt64.ofNat p ^^^ next ^^^ fn ^^^ data = arenaMagic := by
  have hpairs : deferMagic p next fn data ^^^ ofNat p ^^^ next ^^^ fn ^^^ data =
      arenaMagic ^^^ (ofNat p ^^^ ofNat p) ^^^ (next ^^^ next) ^^^ (fn ^^^ fn) ^^^
        (data ^^^ data) := by
    unfold deferMagic
    ac_rfl
  simpa using hpairs

theorem writeDefer_of_outside (m : Mem) (p : Nat) (next : UInt64) (h : Handler) {x : Nat}
    (hx : x < p ∨ p + deferSz ≤ x) : writeDefer m p next h x = m x := by
  simp only [deferSz] at hx
  unfold writeDefer
  rw [Mem.store64_of_outside _ _ (by omega), Mem.store64_of_outside _ _ (by omega),
    Mem.store64_of_outside _ _ (by omega), Mem.store64_of_outside _ _ (by omega)]

theorem load64_writeDefer (m : Mem) (p : Nat) (next : UInt64) (h : Handler) :
    (writeDefer m p next h).load64 (p + 8) = h.fn ∧
      (writeDefer m p next h).load64 (p + 16) = h.data ∧
      (writeDefer m p next h).load64 (p + 24) = next ∧
      (writeDefer m p next h).load64 p = deferMagic p next h.fn h.data := by
  unfold writeDefer
  refine ⟨?_, ?_, ?_, Mem.load64_store64 _ _ _⟩
  · rw [Mem.load64_store64_of_disjoint _ _ (by omega),
      Mem.load64_store64_of_disjoint _ _ (by omega),
      Mem.load64_store64_of_disjoint _ _ (by omega), Mem.load64_store64]
  · rw [Mem.load64_store64_of_disjoint _ _ (by omega),
      Mem.load64_store64_of_disjoint _ _ (by omega),
      Mem.load64_store64]
  · rw [Mem.load64_store64_of_disjoint _ _ (by omega), Mem.load64_store64]

/-- `arena_defer` puts its block in front of the list. -/
theorem Linked.writeDefer {p : Nat} {h : Handler} (hl : Linked m d bs) (hd : d < 2 ^ 64)
    (hp : 0 < p) (hout : ∀ b ∈ bs, ∀ x, b.Covers x → x < p ∨ p + deferSz ≤ x) :
    Linked (writeDefer m p (UInt64.ofNat d) h) p (⟨p, h⟩ :: bs) := by
  obtain ⟨hfn, hdata, hnext, hmagic⟩ := load64_writeDefer m p (ofNat d) h
  refine ⟨rfl, hp, hfn, hdata, ?_, ?_⟩
  · rw [hmagic, hnext]
  · rw [hnext, toNat_ofNat_of_lt' hd]
    exact hl.congr (fun b hb x hx => writeDefer_of_outside m p _ h (hout b hb x hx))

/-! ## Blocks in the chunks -/

/-- The block is in the allocated part of the chunk. -/
def Block.In (b : Block) (c : Chunk) : Prop :=
  c.data ≤ b.addr ∧ b.addr + deferSz ≤ c.data + c.pos

/-- The block is in the allocated part of one of the chunks. -/
def Within (cs : List Chunk) (b : Block) : Prop := ∃ c ∈ cs, b.In c

variable {cs : List Chunk} {b : Block}

theorem Within.inside {x : Nat} (h : Within cs b) (hx : b.Covers x) : Inside cs x := by
  obtain ⟨c, hc, hlo, hhi⟩ := h
  obtain ⟨h1, h2⟩ := hx
  exact ⟨c, hc, by omega, by omega⟩

theorem within_nonempty (cs : List Chunk) (b : Block) : Within (nonempty cs) b ↔ Within cs b := by
  constructor
  · rintro ⟨c, hc, hb⟩
    exact ⟨c, (mem_filter.mp hc).1, hb⟩
  rintro ⟨c, hc, hlo, hhi⟩
  refine ⟨c, mem_filter.mpr ⟨hc, ?_⟩, hlo, hhi⟩
  simp only [deferSz] at hhi
  exact decide_eq_true (by omega)

theorem Within.of_cut {P : Nat} (hP : P ≤ total cs) (h : Within (cut P cs) b) : Within cs b := by
  obtain ⟨d, hd, hlo, hhi⟩ := h
  obtain ⟨c, hc, hdata, hpos⟩ := mem_of_mem_cut hP hd
  exact ⟨c, hc, by omega, by omega⟩

/-- Blocks from the highest address to the lowest. -/
def Descending (bs : List Block) : Prop := bs.Pairwise (fun b b' => b'.addr + deferSz ≤ b.addr)

/-- The newest blocks are in the top chunk, and each chunk has its newest block at the
highest address. -/
def Placed : List Chunk → List Block → Prop
  | [], bs => bs = []
  | c :: cs, bs => ∃ here below, bs = here ++ below ∧ (∀ b ∈ here, b.In c) ∧ Descending here ∧
      Placed cs below

namespace Placed

variable {cs : List Chunk} {bs : List Block}

theorem within (h : Placed cs bs) : ∀ b ∈ bs, Within cs b := by
  induction cs generalizing bs with
  | nil =>
    cases h
    simp
  | cons c cs ih =>
    obtain ⟨here, below, rfl, hin, -, hrest⟩ := h
    intro b hb
    rcases mem_append.mp hb with hb | hb
    · exact ⟨c, mem_cons_self, hin b hb⟩
    · obtain ⟨d, hd, hbd⟩ := ih hrest b hb
      exact ⟨d, mem_cons_of_mem c hd, hbd⟩

theorem push (c : Chunk) (h : Placed cs bs) : Placed (c :: cs) bs := ⟨[], bs, rfl, by simp, .nil, h⟩

variable {c : Chunk}

/-- The fill level of the top chunk may change as long as no block is cut off. -/
theorem setPos {p : Nat} (h : Placed (c :: cs) bs)
    (hp : ∀ b ∈ bs, b.In c → b.addr + deferSz ≤ c.data + p) :
    Placed ({ c with pos := p } :: cs) bs := by
  obtain ⟨here, below, rfl, hin, hdesc, hrest⟩ := h
  refine ⟨here, below, rfl, fun b hb => ⟨(hin b hb).1, ?_⟩, hdesc, hrest⟩
  exact hp b (mem_append_left _ hb) (hin b hb)

theorem pop (h : Placed (c :: cs) bs) (hc : c.pos = 0) : Placed cs bs := by
  obtain ⟨here, below, rfl, hin, -, hrest⟩ := h
  cases here with
  | nil => exact hrest
  | cons b here =>
    obtain ⟨hlo, hhi⟩ := hin b mem_cons_self
    simp only [deferSz] at hhi
    omega

theorem add {b : Block} {p : Nat} (h : Placed (c :: cs) bs) (hlo : c.data + c.pos ≤ b.addr)
    (hhi : b.addr + deferSz ≤ c.data + p) : Placed ({ c with pos := p } :: cs) (b :: bs) := by
  obtain ⟨here, below, rfl, hin, hdesc, hrest⟩ := h
  refine ⟨b :: here, below, rfl, ?_, ?_, hrest⟩
  · refine forall_mem_cons.mpr ⟨⟨by simp only; omega, hhi⟩, fun b' hb' => ?_⟩
    have hb'c := hin b' hb'
    exact ⟨hb'c.1, by have := hb'c.2; simp at *; omega⟩
  · exact pairwise_cons.mpr ⟨fun b' hb' => (hin b' hb').2.trans hlo, hdesc⟩

end Placed

/-! ## `arena_defer_cleanup` -/

theorem Linked.check (h : Linked m d (b :: bs)) :
    m.load64 d ^^^ UInt64.ofNat d ^^^ m.load64 (d + 24) ^^^ m.load64 (d + 8) ^^^ m.load64 (d + 16) =
      arenaMagic := by
  obtain ⟨rfl, -, hfn, hdata, hmagic, -⟩ := h
  rw [hmagic, hfn, hdata]
  exact deferMagic_xor _ _ _ _

/-- The loop stops at a block that is not in the chunk or not above its fill level. -/
theorem deferCleanup_stop {c : Chunk} {a : Arena} {fuel : Nat} (h : Linked a.mem a.defer bs)
    (hstop : ∀ b, bs.head? = some b →
      b.addr < c.data ∨ c.data + c.size < b.addr + deferSz ∨ b.addr + deferSz ≤ c.data + c.pos) :
    deferCleanup c (fuel + 1) a = some (a, true) := by
  cases bs with
  | nil =>
    have h0 : a.defer = 0 := h
    rw [deferCleanup, if_pos h0]
  | cons b bs =>
    have hcheck := h.check
    obtain ⟨hd, hpos, -⟩ := h
    have hb := hstop b rfl
    rw [deferCleanup, if_neg hpos.ne']
    simp only [ne_eq]
    split_ifs with h1 h2 h3
    · rfl
    · rfl
    · rfl
    · omega

/-- The loop runs exactly the handlers of the blocks above the fill level of the chunk. -/
theorem deferCleanup_spec {c : Chunk} {a : Arena} {here below : List Block} {fuel : Nat}
    (hl : Linked a.mem a.defer (here ++ below)) (hdesc : Descending here)
    (hhere : ∀ b ∈ here, c.data ≤ b.addr ∧ b.addr + deferSz ≤ c.data + c.size)
    (hbelow : ∀ b ∈ below, b.addr < c.data ∨ c.data + c.size < b.addr + deferSz)
    (hfuel : here.length < fuel) :
    ∃ run kept d, here = run ++ kept ∧ (∀ b ∈ run, ¬ b.In c) ∧ (∀ b ∈ kept, b.In c) ∧
      Linked a.mem d (kept ++ below) ∧
      deferCleanup c fuel a =
        some ({ a with defer := d, log := a.log ++ run.map (fun b => .ran b.handler) }, true) := by
  induction here generalizing a fuel with
  | nil =>
    obtain ⟨fuel, rfl⟩ : ∃ n, fuel = n + 1 := ⟨fuel - 1, by simp at hfuel; omega⟩
    refine ⟨[], [], a.defer, rfl, by simp, by simp, hl, ?_⟩
    rw [deferCleanup_stop hl (fun b hb => ?_)]
    · simp
    · rcases hbelow b (mem_of_mem_head? hb) with h | h
      · exact .inl h
      · exact .inr (.inl h)
  | cons b here ih =>
    obtain ⟨fuel, rfl⟩ : ∃ n, fuel = n + 1 := ⟨fuel - 1, by simp at hfuel; omega⟩
    obtain ⟨hlo, hhi⟩ := hhere b mem_cons_self
    by_cases hin : b.addr + deferSz ≤ c.data + c.pos
    · refine ⟨[], b :: here, a.defer, rfl, by simp, ?_, hl, ?_⟩
      · refine forall_mem_cons.mpr ⟨⟨hlo, hin⟩, fun b' hb' => ?_⟩
        have hle := rel_of_pairwise_cons hdesc hb'
        exact ⟨(hhere b' (mem_cons_of_mem b hb')).1, by simp at *; omega⟩
      · rw [deferCleanup_stop hl (fun b' hb' => ?_)]
        · simp
        · cases hb'
          exact .inr (.inr hin)
    · have hcheck := hl.check
      obtain ⟨hd, hpos, hfn, hdata, -, hrest⟩ := hl
      obtain ⟨run, kept, d, rfl, hrun, hkept, hl', hres⟩ := ih
        (a := { a with
          defer := (a.mem.load64 (a.defer + 24)).toNat, log := a.log ++ [.ran b.handler] })
        hrest hdesc.of_cons (fun b' hb' => hhere b' (mem_cons_of_mem b hb'))
        (by simp at hfuel; omega)
      refine ⟨b :: run, kept, d, rfl, ?_, hkept, hl', ?_⟩
      · exact forall_mem_cons.mpr ⟨fun h => hin h.2, hrun⟩
      rw [deferCleanup, if_neg hpos.ne']
      simp only [hcheck, ne_eq, not_true_eq_false, if_false]
      rw [← hd] at hlo hhi hin
      rw [if_neg (by omega), if_neg (by omega), if_neg hin, hfn, hdata, hres]
      simp

end OpenSync.Arena
