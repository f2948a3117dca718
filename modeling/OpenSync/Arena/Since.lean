import OpenSync.Arena.Pop

/-!
# What an arena keeps since a save

`Since a old a' new` relates an arena `a` at the time of a save, with the handler blocks `old`, to
the arena `a'` at a later time: the part below the saved position is as it was, and the blocks `new`
of the handlers that were registered since and have not run are in front of the old ones.

Handlers leave only by `Popped`, where an old block cannot be gone because it is still allocated.
-/

namespace OpenSync.Arena

open OpenSync.Lib List

/-- The arena `a'` keeps what the arena `a` had at its position. -/
structure Since (a : Arena) (old : List Block) (a' : Arena) (new : List Block) : Prop where
  inv : Inv a' (new ++ old)
  self : a'.self = a.self
  pos : a.pos ≤ a'.pos
  cut : cut a.pos a'.top = nonempty a.top
  mem : ∀ x, Inside a.top x → a'.mem x = a.mem x
  fresh : ∀ b ∈ new, ¬ Within a.top b
  log : ∃ evs, a'.log = a.log ++ evs ∧ lifo [] evs = some (new.map Block.handler)

theorem Inv.since_self {a : Arena} {bs : List Block} (h : Inv a bs) : Since a bs a [] where
  inv := h
  self := rfl
  pos := le_rfl
  cut := by rw [h.pos, cut_total]
  mem := fun _ _ => rfl
  fresh := by simp
  log := ⟨[], by simp, rfl⟩

theorem Inv.since_empty {a : Arena} {bs : List Block} (h : Inv a bs) :
    Since (arenaNew a.self a.mem) [] a bs where
  inv := by rwa [append_nil]
  self := rfl
  pos := Nat.zero_le _
  cut := cut_zero a.top
  mem := fun _ _ => rfl
  fresh := by
    rintro b - ⟨c, hc, -⟩
    cases hc
  log := ⟨a.log, rfl, h.log⟩

namespace Since

variable {a a1 : Arena} {old new : List Block}

/-- What was allocated still is. -/
theorem inside {x : Nat} (h : Since a old a1 new) (hx : Inside a.top x) : Inside a1.top x := by
  rw [← inside_nonempty, ← h.cut] at hx
  exact hx.of_cut (h.inv.pos ▸ h.pos)

/-! ## Memory is taken -/

variable {cs : List Chunk} {sz : Nat} {mmap : Option Nat}

section

variable (h : Since a old a1 new)

include h

theorem opened (hopen : Opened a1 cs) : Since a old { a1 with top := cs } new :=
  { h with
    inv := h.inv.opened hopen
    cut := (hopen.cut_eq (h.inv.pos ▸ h.pos)).trans h.cut }

omit h in
theorem grow {c : Chunk} {n : Nat} (h : Since a old { a1 with top := c :: cs } new)
    (hn : c.pos + n ≤ c.size) : Since a old (a1.grow c cs n) new :=
  { h with
    inv := h.inv.grow hn
    pos := Nat.le_add_right_of_le h.pos
    cut := (cut_setPos a.pos _ c cs).trans h.cut }

/-- Bytes that are neither saved nor in a block may be written. -/
theorem setMem {m : Mem} (hm : ∀ x, Inside a.top x → m x = a1.mem x)
    (hl : Linked m a1.defer (new ++ old)) : Since a old { a1 with mem := m } new :=
  { h with
    inv := { h.inv with linked := hl }
    mem := fun x hx => (hm x hx).trans (h.mem x hx) }

theorem arenaPush (hf : Fresh a1.top (grownSize sz) mmap) :
    Since a old (arenaPush a1 sz mmap).1 new := by
  obtain ⟨cs, hopen, hres⟩ := arenaPush_spec h.inv.stack h.inv.pos hf
  rcases hres with hres | ⟨c, cs', rfl, hle, hres⟩
  · rw [hres]
    exact h.opened hopen
  · rw [hres]
    exact (h.opened hopen).grow hle

theorem arenaMalloc (hf : Fresh a1.top (grownSize (sz + align - 1)) mmap) :
    Since a old (arenaMalloc a1 sz mmap).1 new := by
  obtain ⟨cs, hopen, hres⟩ := arenaMalloc_spec h.inv.stack h.inv.pos hf
  rcases hres with hres | ⟨c, cs', k, rfl, hle, -, hres⟩
  · rw [hres]
    exact h.opened hopen
  · rw [hres]
    exact (h.opened hopen).grow hle

/-! ## Handlers are registered -/

/-- A handler that could not be registered has run at once. -/
theorem refuse (g : Handler) : Since a old { a1 with log := a1.log ++ [.refused g] } new := by
  obtain ⟨evs, hlog, hlifo⟩ := h.log
  refine { h with inv := { h.inv with log := ?_ }, log := ⟨evs ++ [.refused g], ?_, ?_⟩ }
  · rw [lifo_append, h.inv.log]
    rfl
  · simp [hlog]
  · rw [lifo_append, hlifo]
    rfl

omit h in
/-- A block is put into the top chunk above everything that is allocated. -/
theorem register {c : Chunk} {k : Nat} {g : Handler}
    (h : Since a old { a1 with top := c :: cs } new) (hle : c.pos + (k + deferSz) ≤ c.size) :
    Since a old
      { a1.grow c cs (k + deferSz) with
        mem := writeDefer a1.mem (c.data + c.pos + k) (UInt64.ofNat a1.defer) g
        defer := c.data + c.pos + k
        log := a1.log ++ [.registered g] } (⟨c.data + c.pos + k, g⟩ :: new) := by
  have hstack : Stack (c :: cs) := h.inv.stack
  have hg := h.grow hle
  -- an allocated byte is not in the new block
  have hout : ∀ x, Inside (c :: cs) x →
      x < c.data + c.pos + k ∨ c.data + c.pos + k + deferSz ≤ x := by
    intro x hx
    have := hstack.lt_or_le_of_inside hx
    omega
  have hblocks : ∀ b ∈ new ++ old, ∀ x, b.Covers x → Inside (c :: cs) x :=
    fun b hb x hx => (h.inv.placed.within b hb).inside hx
  have hhdr := hstack.head.hdr
  obtain ⟨evs, hlog, hlifo⟩ := h.log
  refine { hg with
    inv := { hg.inv with linked := ?_, placed := ?_, log := ?_ }
    mem := ?_
    fresh := ?_
    log := ?_ }
  · exact h.inv.linked.writeDefer h.inv.defer_lt (by omega)
      (fun b hb x hx => hout x (hblocks b hb x hx))
  · exact h.inv.placed.add (by simp only; omega) (by simp only; omega)
  · have hl : lifo [] a1.log = some ((new ++ old).map Block.handler) := h.inv.log
    simp only [lifo_append, hl]
    rfl
  · intro x hx
    exact (writeDefer_of_outside _ _ _ _ (hout x (h.inside hx))).trans (h.mem x hx)
  · refine forall_mem_cons.mpr ⟨fun hb => ?_, h.fresh⟩
    have hx := hout _ (h.inside (hb.inside ⟨le_rfl, by simp only [deferSz]; omega⟩))
    simp only [deferSz] at hx
    omega
  · refine ⟨evs ++ [.registered g], ?_, ?_⟩
    · have hl : a1.log = a.log ++ evs := hlog
      simp [hl]
    · rw [lifo_append, hlifo]
      rfl

theorem arenaDefer {g : Handler} (hf : Fresh a1.top (grownSize (deferSz + align - 1)) mmap) :
    ∃ new', Since a old (arenaDefer a1 g mmap).1 new' := by
  obtain ⟨cs, hopen, hres⟩ := arenaMalloc_spec h.inv.stack h.inv.pos hf
  unfold Arena.arenaDefer
  rcases hres with hres | ⟨c, cs', k, rfl, hle, -, hres⟩
  · rw [hres]
    exact ⟨new, (h.opened hopen).refuse g⟩
  · rw [hres]
    exact ⟨_, (h.opened hopen).register hle⟩

end

/-! ## Memory is given back -/

section

variable (h : Since a old a1 new) (hold : ∀ b ∈ old, Within a.top b)

include h hold

/-- A pop that stays above the saved position takes new blocks only. -/
theorem popped {a2 : Arena} {run bs' : List Block} (hpop : Popped a1 (new ++ old) sz a2 run bs')
    (hpos : a.pos ≤ a2.pos) : ∃ new', Since a old a2 new' := by
  have hcut : Arena.cut a.pos a2.top = nonempty a.top := (hpop.cut a.pos hpos).trans h.cut
  -- an old block is allocated, so it is not among those that have run
  have hkeep : ∀ b ∈ run, b ∉ old := by
    intro b hb hb'
    have hw := hold b hb'
    rw [← within_nonempty, ← hcut] at hw
    exact hpop.gone b hb (hw.of_cut (hpop.inv.pos ▸ hpos))
  obtain ⟨new', rfl, rfl⟩ : ∃ new', new = run ++ new' ∧ bs' = new' ++ old := by
    rcases append_eq_append_iff.mp hpop.split with ⟨l, hrun, hl⟩ | ⟨l, hnew, hl⟩
    · cases l with
      | nil => exact ⟨[], by simpa using hrun.symm, by simpa using hl.symm⟩
      | cons b l => exact absurd (hl ▸ mem_cons_self) (hkeep b (by simp [hrun]))
    · exact ⟨l, hnew, hl⟩
  obtain ⟨evs, hlog, hlifo⟩ := h.log
  refine ⟨new', hpop.inv, hpop.self.trans h.self, hpos, hcut, ?_, ?_, ?_⟩
  · exact fun x hx => (congrFun hpop.mem x).trans (h.mem x hx)
  · exact fun b hb => h.fresh b (mem_append_right _ hb)
  · exact ⟨evs ++ run.map (fun b => .ran b.handler), by rw [hpop.log, hlog, append_assoc],
      lifo_pop hlifo⟩

theorem arenaPop (hsz : a.pos ≤ a1.pos - sz) :
    ∃ a2 new', arenaPop a1 sz = some (a2, min sz a1.pos) ∧ a2.pos = a1.pos - sz ∧
      Since a old a2 new' := by
  obtain ⟨a2, run, bs', hres, hpop⟩ := h.inv.arenaPop sz
  obtain ⟨new', hsince⟩ := h.popped hold hpop (hpop.pos ▸ hsz)
  exact ⟨a2, new', hres, hpop.pos, hsince⟩

theorem arenaRestore {f : Frame} (hf : a.pos ≤ f.pos) :
    ∃ a2 new' ok, arenaRestore a1 f = some (a2, ok) ∧ Since a old a2 new' := by
  unfold Arena.arenaRestore
  split_ifs with hmagic hpos
  · exact ⟨a1, new, false, rfl, h⟩
  · exact ⟨a1, new, true, rfl, h⟩
  · have hle : a.pos ≤ a1.pos - (a1.pos - f.pos) := by omega
    obtain ⟨a2, new', hres, -, hsince⟩ := h.arenaPop hold hle
    exact ⟨a2, new', _, by rw [hres]; rfl, hsince⟩

end

end Since

end OpenSync.Arena
