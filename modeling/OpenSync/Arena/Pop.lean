import OpenSync.Arena.Defer

/-!
# The invariant of an arena, and giving memory back

`Inv a bs` is the invariant: the chunks form a stack whose allocated bytes are counted by the
position of the arena, and the blocks `bs` are the list of handlers and what the log leaves
registered.

`Inv.arenaPop` says what `arena_pop` does to such an arena: it takes bytes from the top, runs the
handlers of the blocks that go with them, and leaves what is below.
-/

namespace OpenSync.Arena

open OpenSync.Lib List

/-- The invariant of an arena with the handler blocks `bs`. -/
structure Inv (a : Arena) (bs : List Block) : Prop where
  stack : Stack a.top
  pos : a.pos = total a.top
  static : 0 < a.size → ∃ c, a.top = [c]
  linked : Linked a.mem a.defer bs
  placed : Placed a.top bs
  log : lifo [] a.log = some (bs.map Block.handler)

namespace Inv

variable {a : Arena} {bs : List Block}

theorem length_le (h : Inv a bs) : bs.length ≤ a.log.length := by
  simpa using lifo_length h.log

theorem pos_lt (h : Inv a bs) : a.pos < sizeMax := h.pos ▸ h.stack.total_lt

/-- The address of the first block fits into a word. -/
theorem defer_lt (h : Inv a bs) : a.defer < 2 ^ 64 := by
  cases bs with
  | nil =>
    have h0 : a.defer = 0 := h.linked
    omega
  | cons b bs =>
    obtain ⟨c, hc, hlo, hhi⟩ := h.placed.within b mem_cons_self
    have hvalid := h.stack.valid c hc
    have hfits := hvalid.fits
    have hfilled := hvalid.filled
    have hd : a.defer = b.addr := h.linked.1
    simp only [deferSz] at hhi
    omega

variable {cs : List Chunk}

theorem opened (h : Inv a bs) (hopen : Opened a cs) : Inv { a with top := cs } bs := by
  refine ⟨hopen.stack h.stack, h.pos.trans hopen.total_eq.symm, ?_, h.linked, ?_, h.log⟩
  · intro hsize
    rcases hopen with rfl | ⟨h0, -⟩
    · exact h.static hsize
    · exact absurd hsize (by simp only; omega)
  · rcases hopen with rfl | ⟨-, new, rfl, -⟩
    · exact h.placed
    · exact h.placed.push new

theorem grow {c : Chunk} {n : Nat} (h : Inv { a with top := c :: cs } bs)
    (hn : c.pos + n ≤ c.size) : Inv (a.grow c cs n) bs := by
  have hpos : a.pos = total (c :: cs) := h.pos
  refine ⟨h.stack.setPos hn, ?_, ?_, h.linked, h.placed.setPos ?_, h.log⟩
  · simp only [Arena.grow, hpos, total_cons]
    omega
  · intro hsize
    obtain ⟨c', hc'⟩ := h.static hsize
    simp only [cons.injEq] at hc'
    exact ⟨{ c with pos := c.pos + n }, by simp [Arena.grow, hc'.2]⟩
  · intro b _ hb
    have hb2 := hb.2
    omega

end Inv

variable {c : Chunk} {cs : List Chunk} {a : Arena} {bs run bs' : List Block}

variable {fuel sz : Nat}

/-- The top chunk is lowered to `p` bytes, and the handlers of blocks above run. -/
theorem deferCleanup_lower {p : Nat} (hs : Stack (c :: cs)) (hl : Linked a.mem a.defer bs)
    (hpl : Placed (c :: cs) bs) (hfuel : bs.length < fuel) :
    ∃ run bs' d, bs = run ++ bs' ∧ (∀ b ∈ run, ¬ Within ({ c with pos := p } :: cs) b) ∧
      Linked a.mem d bs' ∧ Placed ({ c with pos := p } :: cs) bs' ∧
      deferCleanup { c with pos := p } fuel a =
        some ({ a with defer := d, log := a.log ++ run.map (fun b => .ran b.handler) }, true) := by
  obtain ⟨here, below, rfl, hin, hdesc, hrest⟩ := hpl
  have hc := hs.head.filled
  have hhere : ∀ b ∈ here, c.data ≤ b.addr ∧ b.addr + deferSz ≤ c.data + c.size := by
    intro b hb
    have hbc := hin b hb
    exact ⟨hbc.1, by have := hbc.2; omega⟩
  -- a block of a lower chunk is outside of this one
  have hbelow : ∀ b ∈ below, b.addr < c.data ∨ c.data + c.size < b.addr + deferSz := by
    intro b hb
    obtain ⟨d, hd, hlo, hhi⟩ := hrest.within b hb
    have hapart := hs.head_apart hd
    have hd' := (hs.tail.valid d hd).filled
    simp only [Apart, deferSz] at *
    omega
  have hlen : here.length < fuel := by
    rw [length_append] at hfuel
    omega
  obtain ⟨run, kept, d, rfl, hrun, hkept, hl', hres⟩ := deferCleanup_spec
    (c := { c with pos := p }) hl hdesc hhere hbelow hlen
  refine ⟨run, kept ++ below, d, append_assoc _ _ _, ?_, hl', ?_, hres⟩
  · rintro b hb ⟨e, he, hbe⟩
    rcases mem_cons.mp he with rfl | he
    · exact hrun b hb hbe
    have hbc := hin b (mem_append_left _ hb)
    have hapart := hs.head_apart he
    have he' := (hs.tail.valid e he).filled
    simp only [Block.In, Apart, deferSz] at *
    omega
  · exact ⟨kept, below, rfl, hkept, (pairwise_append.mp hdesc).2.1, hrest⟩

/-! ## `arena_pop` -/

/-- `a'` is `a` without its `sz` highest bytes.  The handlers of `run` have run, and the blocks
`bs'` are left. -/
structure Popped (a : Arena) (bs : List Block) (sz : Nat) (a' : Arena) (run bs' : List Block) :
    Prop where
  split : bs = run ++ bs'
  inv : Inv a' bs'
  self : a'.self = a.self
  size : a'.size = a.size
  pos : a'.pos = a.pos - sz
  mem : a'.mem = a.mem
  log : a'.log = a.log ++ run.map (fun b => .ran b.handler)
  cut : ∀ P ≤ a'.pos, cut P a'.top = cut P a.top
  shrunk : ∀ b, Within a'.top b → Within a.top b
  gone : ∀ b ∈ run, ¬ Within a'.top b

theorem lifo_pop {log : List Event} (h : lifo [] log = some ((run ++ bs).map Block.handler)) :
    lifo [] (log ++ run.map (fun b => .ran b.handler)) = some (bs.map Block.handler) := by
  rw [lifo_append, h, map_append]
  have hran := lifo_ran (run.map Block.handler) (bs.map Block.handler)
  rwa [map_map] at hran

/-- Lowering the top chunk is a pop of the difference. -/
theorem Inv.lowered {d : Nat} (h : Inv a (run ++ bs')) (htop : a.top = c :: cs) (hsz : sz ≤ c.pos)
    (hgone : ∀ b ∈ run, ¬ Within ({ c with pos := c.pos - sz } :: cs) b) (hl : Linked a.mem d bs')
    (hpl : Placed ({ c with pos := c.pos - sz } :: cs) bs') :
    Popped a (run ++ bs') sz
      { a with
        top := { c with pos := c.pos - sz } :: cs
        pos := a.pos - sz
        defer := d
        log := a.log ++ run.map (fun b => .ran b.handler) } run bs' := by
  have hs := htop ▸ h.stack
  have hpos : a.pos = total (c :: cs) := htop ▸ h.pos
  rw [total_cons] at hpos
  refine ⟨rfl, ⟨?_, ?_, ?_, hl, hpl, lifo_pop h.log⟩, rfl, rfl, rfl, rfl, rfl, ?_, ?_, hgone⟩
  · exact hs.setPos (by have := hs.head.filled; omega)
  · simp only [total_cons]
    omega
  · intro hsize
    obtain ⟨c', hc'⟩ := h.static hsize
    rw [htop, cons.injEq] at hc'
    exact ⟨{ c with pos := c.pos - sz }, by simp [hc'.2]⟩
  · intro P _
    simp only [htop]
    exact cut_setPos P _ c cs
  · rintro b ⟨e, he, hbe⟩
    rw [htop]
    rcases mem_cons.mp he with rfl | he
    · exact ⟨c, mem_cons_self, hbe.1, by have := hbe.2; simp only at this; omega⟩
    · exact ⟨e, mem_cons_of_mem c he, hbe⟩

theorem Inv.lower (h : Inv a bs) (htop : a.top = c :: cs) (hsz : sz ≤ c.pos)
    (hfuel : bs.length < fuel) :
    ∃ a' run bs', Popped a bs sz a' run bs' ∧ a'.top = { c with pos := c.pos - sz } :: cs ∧
      deferCleanup { c with pos := c.pos - sz } fuel
          { a with top := { c with pos := c.pos - sz } :: cs, pos := sub64 a.pos sz } =
        some (a', true) := by
  have hpos : a.pos = total (c :: cs) := htop ▸ h.pos
  have hlt := h.pos_lt
  rw [total_cons] at hpos
  have hsub : sub64 a.pos sz = a.pos - sz :=
    sub64_of_le (by simp only [sizeMax] at hlt; omega) (by omega)
  obtain ⟨run, bs', d, rfl, hgone, hl, hpl, hres⟩ := deferCleanup_lower (p := c.pos - sz)
    (a := { a with top := { c with pos := c.pos - sz } :: cs, pos := sub64 a.pos sz })
    (htop ▸ h.stack) h.linked (htop ▸ h.placed) hfuel
  refine ⟨_, run, bs', h.lowered htop hsz hgone hl hpl, rfl, ?_⟩
  rw [hres, hsub]

theorem Popped.dropTop {a' : Arena} (h : Popped a bs sz a' run bs') (htop : a'.top = c :: cs)
    (hc : c.pos = 0) (hsize : a.size = 0) : Popped a bs sz { a' with top := cs } run bs' := by
  have htot : total a'.top = total cs := by rw [htop, total_cons, hc, zero_add]
  have hwithin : ∀ b, Within cs b → Within a'.top b := by
    rintro b ⟨e, he, hbe⟩
    exact ⟨e, htop ▸ mem_cons_of_mem c he, hbe⟩
  have hinv : Inv { a' with top := cs } bs' :=
    { stack := (htop ▸ h.inv.stack).tail
      pos := h.inv.pos.trans htot
      static := fun h0 => absurd h0 (by simp only [h.size]; omega)
      linked := h.inv.linked
      placed := (htop ▸ h.inv.placed).pop hc
      log := h.inv.log }
  refine ⟨h.split, hinv, h.self, h.size, h.pos, h.mem, h.log, ?_, ?_, ?_⟩
  · intro P hP
    have hP' : P ≤ total cs := hP.trans_eq (h.inv.pos.trans htot)
    rw [← h.cut P hP, htop, cut_cons_of_le c hP']
  · exact fun b hb => h.shrunk b (hwithin b hb)
  · exact fun b hb hb' => h.gone b hb (hwithin b hb')

theorem Popped.trans {a' a'' : Arena} {run' bs'' : List Block} {m n : Nat}
    (h : Popped a bs m a' run bs') (h' : Popped a' bs' n a'' run' bs'') :
    Popped a bs (m + n) a'' (run ++ run') bs'' := by
  refine ⟨?_, h'.inv, h'.self.trans h.self, h'.size.trans h.size, ?_, h'.mem.trans h.mem, ?_, ?_,
    fun b hb => h.shrunk b (h'.shrunk b hb), ?_⟩
  · rw [h.split, h'.split, append_assoc]
  · rw [h'.pos, h.pos, Nat.sub_sub]
  · rw [h'.log, h.log, map_append, append_assoc]
  · intro P hP
    have hle : a''.pos ≤ a'.pos := by rw [h'.pos]; exact Nat.sub_le _ _
    rw [h'.cut P hP, h.cut P (hP.trans hle)]
  · intro b hb
    rcases mem_append.mp hb with hb | hb
    · exact fun hw => h.gone b hb (h'.shrunk b hw)
    · exact h'.gone b hb

/-- The loop of `arena_pop`: the induction is on the stack, and each step but the last
takes the whole top chunk away. -/
theorem popLoop_spec {steps : Nat} (sz : Nat) (h : Inv a bs) (hsize : a.size = 0)
    (hsteps : bs.length < steps) (hfuel : a.top.length < fuel) :
    ∃ a' run bs', popLoop steps fuel a sz = some (a', some (sz - a.pos)) ∧
      Popped a bs sz a' run bs' := by
  induction htop : a.top generalizing a bs sz fuel with
  | nil =>
    obtain ⟨fuel, rfl⟩ : ∃ n, fuel = n + 1 := ⟨fuel - 1, by omega⟩
    have hpos : a.pos = 0 := by rw [h.pos, htop, total_nil]
    refine ⟨a, [], bs, ?_, ⟨rfl, h, rfl, rfl, by omega, rfl, by simp, fun _ _ => rfl,
      fun _ hb => hb, by simp⟩⟩
    rw [popLoop]
    simp [htop, hpos]
  | cons c cs ih =>
    obtain ⟨fuel, rfl⟩ : ∃ n, fuel = n + 1 := ⟨fuel - 1, by omega⟩
    have hpos : a.pos = c.pos + total cs := by rw [h.pos, htop, total_cons]
    obtain ⟨a1, run, bs1, hpop, htop1, hclean⟩ :=
      h.lower htop (Nat.min_le_left c.pos sz) hsteps
    have hc : (chunkPop c sz).1 = { c with pos := c.pos - min c.pos sz } := by
      rw [chunkPop_fst]
      congr 1
      omega
    rw [popLoop]
    simp only [htop, hc, chunkPop_snd, hclean, Option.bind_eq_bind, Option.bind_some,
      Bool.not_true, Bool.false_eq_true, if_false]
    by_cases hle : sz ≤ c.pos
    · -- the last step
      have hmin : min c.pos sz = sz := Nat.min_eq_right hle
      rw [hmin] at hpop htop1 ⊢
      have hleft : sz - a.pos = 0 := by omega
      rw [if_pos (Nat.sub_self sz), hleft]
      by_cases h0 : c.pos - sz = 0
      · rw [if_pos h0]
        exact ⟨_, run, bs1, rfl, hpop.dropTop htop1 h0 hsize⟩
      · rw [if_neg h0]
        exact ⟨a1, run, bs1, rfl, hpop⟩
    · -- the chunk is used up
      have hmin : min c.pos sz = c.pos := Nat.min_eq_left (by omega)
      rw [hmin] at hpop htop1 ⊢
      have hdrop := hpop.dropTop htop1 (Nat.sub_self c.pos) hsize
      rw [if_pos (Nat.sub_self c.pos), if_neg (by omega)]
      have hlen : bs1.length < steps := by
        have := congrArg length hpop.split
        simp only [length_append] at this
        omega
      have hfuel' : cs.length < fuel := by
        rw [htop] at hfuel
        simpa using hfuel
      obtain ⟨a', run', bs', hres, hpop'⟩ :=
        ih (sz - c.pos) hdrop.inv (hpop.size.trans hsize) hlen hfuel' rfl
      have hp := hdrop.trans hpop'
      rw [Nat.add_sub_cancel' (by omega)] at hp
      refine ⟨a', run ++ run', bs', ?_, hp⟩
      rw [hres]
      have hp1 : a1.pos = a.pos - c.pos := hpop.pos
      simp only [Option.some.injEq, Prod.mk.injEq, true_and]
      omega

/-- `arena_pop` takes the highest bytes from the arena and returns their number. -/
theorem Inv.arenaPop (h : Inv a bs) (sz : Nat) :
    ∃ a' run bs', arenaPop a sz = some (a', min sz a.pos) ∧ Popped a bs sz a' run bs' := by
  have hlen : bs.length < bound a := by
    have := h.length_le
    unfold bound
    omega
  unfold Arena.arenaPop
  by_cases hsize : a.size > 0
  · obtain ⟨c, htop⟩ := h.static hsize
    have hpos : a.pos = c.pos := by rw [h.pos, htop, total_cons, total_nil, add_zero]
    obtain ⟨a', run, bs', hpop, -, hclean⟩ := h.lower htop (Nat.min_le_left c.pos sz) hlen
    have hc : (chunkPop c sz).1 = { c with pos := c.pos - min c.pos sz } := by
      rw [chunkPop_fst]
      congr 1
      omega
    rw [if_pos hsize]
    simp only [htop, hc, chunkPop_snd, hclean, Option.bind_eq_bind, Option.bind_some]
    refine ⟨a', run, bs', ?_, { hpop with pos := ?_ }⟩
    · rw [hpos, Nat.min_comm]
      rfl
    · rw [hpop.pos]
      omega
  · have htop : a.top.length < bound a := by
      unfold bound
      omega
    obtain ⟨a', run, bs', hloop, hpop⟩ := popLoop_spec sz h (by omega) hlen htop
    rw [if_neg hsize]
    refine ⟨a', run, bs', ?_, hpop⟩
    simp only [hloop, Option.bind_eq_bind, Option.bind_some]
    congr 2
    omega

end OpenSync.Arena
