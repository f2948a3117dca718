import OpenSync.Rts.SlobPool

/-!
# Runs of a slob pool

The state is a pool with the list of blocks that its users hold.  A user can call
`rts_pool_alloc`, `rts_pool_realloc` and `rts_pool_free`, and can write any bytes to a block
that is held, which includes the headers of its slobs after the first one.
-/

namespace OpenSync.Rts

open OpenSync.Lib List Pool

/-! ## Calls -/

/-- The user of a block writes to all of it. -/
def Pool.write (p : Pool) (b : Block) (data : Fin 32 → UInt8) (slobs : Nat → Slob) : Pool :=
  { p with slobs := fun j =>
      if j = b.head then { p.slobs j with data := data }
      else if b.head < j ∧ j ≤ b.head + b.extra then slobs j
      else p.slobs j }

/-- The block that starts at `i`, from its header. -/
def Pool.block (p : Pool) (i : Nat) : Option Block := do
  let l ← p.last i
  some ⟨i, l - i⟩

/-- A pool and the blocks that are held. -/
structure Sys where
  pool : Pool
  live : List Block

/-- What the users of a pool do. -/
inductive PoolOp where
  | alloc (size : Nat)
  | realloc (block : Option Block) (size : Nat)
  | free (block : Block)
  | write (block : Block) (data : Fin 32 → UInt8) (slobs : Nat → Slob)

namespace Sys

/-- The block at `i` replaces the blocks that were held. -/
def grant (p : Pool) (live : List Block) (i cap : Nat) : Option (Option (Block × Nat) × Sys) := do
  let c ← p.block i
  some (some (c, cap), ⟨p, c :: live⟩)

/-- A call, with the block that it returns and the capacity of it. -/
def step (s : Sys) : PoolOp → Option (Option (Block × Nat) × Sys)
  | .alloc size => do
    match ← s.pool.poolAlloc size with
    | (none, p) => some (none, ⟨p, s.live⟩)
    | (some i, p) => grant p s.live i (← p.capacity i)
  | .realloc none size => do
    match ← s.pool.poolRealloc none size with
    | (none, p) => some (none, ⟨p, s.live⟩)
    | (some (i, cap), p) => grant p s.live i cap
  | .realloc (some b) size => do
    match ← s.pool.poolRealloc (some b.head) size with
    | (none, p) => some (none, ⟨p, s.live⟩)
    | (some (i, cap), p) => grant p (s.live.erase b) i cap
  | .free b => do
    let p ← s.pool.poolFree b.head
    some (none, ⟨p, s.live.erase b⟩)
  | .write b data slobs => some (none, ⟨s.pool.write b data slobs, s.live⟩)

def run (s : Sys) : List PoolOp → Option Sys
  | [] => some s
  | op :: ops => do
    let (_, s) ← s.step op
    s.run ops

/-- A call on blocks that are held, with a size that does not wrap. -/
def Allowed (s : Sys) : PoolOp → Prop
  | .alloc size => size + listHeadSize < 2 ^ 64
  | .realloc none size => size + listHeadSize < 2 ^ 64
  | .realloc (some b) size => b ∈ s.live ∧ size + listHeadSize < 2 ^ 64
  | .free b => b ∈ s.live
  | .write b _ _ => b ∈ s.live

/-- Every call of the run is allowed. -/
def Legal (s : Sys) : List PoolOp → Prop
  | [] => True
  | op :: ops => s.Allowed op ∧ ∀ r s', s.step op = some (r, s') → s'.Legal ops

/-- The state after a request that failed. -/
def fail (s : Sys) : Sys := { s with pool := s.pool.fail }

/-- The outcome of a request for a new block of `size` bytes. -/
def Fresh (s : Sys) (size : Nat) (s' : Sys) : Option (Block × Nat) → Prop
  | none => (∀ i, ¬ FreeRun s.pool s.live i (getNslobs size)) ∧ s' = s.fail
  | some (c, cap) => size ≤ c.capacity ∧ cap = c.capacity ∧ c.extra = getNslobs size ∧
      FreeRun s.pool s.live c.head c.extra ∧ s'.live = c :: s.live ∧
      ∀ b ∈ s.live, Keeps s.pool s'.pool b

/-- The outcome of a request to have `size` bytes in the block `b`. -/
def Resized (s : Sys) (b : Block) (size : Nat) (s' : Sys) : Option (Block × Nat) → Prop
  | none => s' = s.fail
  | some (c, cap) => size ≤ c.capacity ∧ cap = c.capacity ∧ b.extra ≤ c.extra ∧
      s'.live = c :: s.live.erase b ∧ Same s.pool b.head s'.pool c.head b.extra ∧
      ∀ d ∈ s.live, d ≠ b → Keeps s.pool s'.pool d

def OpSpec (s : Sys) (r : Option (Block × Nat)) (s' : Sys) : PoolOp → Prop
  | .alloc size => s.Fresh size s' r
  | .realloc none size => s.Fresh size s' r
  | .realloc (some b) size => s.Resized b size s' r
  | .free b => s'.live = s.live.erase b ∧ ∀ d ∈ s'.live, Keeps s.pool s'.pool d
  | .write b _ _ => s'.live = s.live ∧ ∀ d ∈ s.live, d ≠ b → Keeps s.pool s'.pool d

end Sys

/-! ## One call -/

section Step

variable {p : Pool} {live : List Block} {b c : Block} {size : Nat}

section

variable (h : size + listHeadSize < 2 ^ 64)

include h

theorem getNslobs_eq : getNslobs size = (size + listHeadSize - 1) / slobSize := by
  rw [getNslobs, Nat.mod_eq_of_lt (by omega)]

theorem le_capacity {c : Block} (hc : c.extra = getNslobs size) : size ≤ c.capacity := by
  rw [getNslobs_eq h] at hc
  unfold Block.capacity listHeadSize slobDataSize slobSize at *
  omega

end

theorem Layout.grant_eq (h : Layout p (b :: live)) (cap : Nat) :
    Sys.grant p live b.head cap = some (some (b, cap), ⟨p, b :: live⟩) := by
  simp [Sys.grant, Pool.block, h.last_eq (mem_cons_self ..)]

theorem Layout.fail (h : Layout p live) : Layout p.fail live :=
  ⟨h.small, h.inside, h.apart, h.marked, h.free.of_headers _ rfl rfl fun _ _ => ⟨rfl, rfl⟩, h.curr⟩

theorem Layout.write (h : Layout p live) (hb : b ∈ live) {k : Nat} (hk : k ≤ b.extra)
    (data : Fin 32 → UInt8) (slobs : Nat → Slob) :
    Layout (p.write ⟨b.head, k⟩ data slobs) live := by
  refine h.user hb rfl rfl rfl rfl ?_ fun j hj => ?_
  · simp [Pool.write]
  · have hne : j ≠ b.head := fun he => hj (he ▸ b.has_head)
    have hout : ¬ (b.head < j ∧ j ≤ b.head + k) := fun hj' => hj ⟨by omega, by omega⟩
    simp [Pool.write, hne, hout]

/-- A write leaves every block without a slob of it as it was. -/
theorem write_keeps {k : Nat} (hk : k ≤ b.extra) (data : Fin 32 → UInt8) (slobs : Nat → Slob)
    {d : Block} (hd : Apart d b) : Keeps p (p.write ⟨b.head, k⟩ data slobs) d := by
  have hout : ∀ t, t ≤ d.extra → (p.write ⟨b.head, k⟩ data slobs).slobs (d.head + t) =
      p.slobs (d.head + t) := by
    intro t ht
    have hj := hd (d.head + t) ⟨by omega, by omega⟩
    have hne : d.head + t ≠ b.head := fun he => hj (he ▸ b.has_head)
    have hin : ¬ (b.head < d.head + t ∧ d.head + t ≤ b.head + k) := fun hj' =>
      hj ⟨by omega, by omega⟩
    simp [write, hne, hin]
  exact ⟨congrArg Slob.data (hout 0 (Nat.zero_le _)), fun t _ ht => hout t ht⟩

theorem copy_eq_write (p : Pool) (b c : Block) :
    p.copy c.head b.head b.capacity = p.write ⟨c.head, b.extra⟩ (p.slobs b.head).data
      fun j => p.slobs (b.head + (j - c.head)) := by
  have hextra : (b.capacity - slobDataSize) / slobSize = b.extra := by
    unfold Block.capacity slobDataSize slobSize
    omega
  simp only [copy, hextra]
  congr 1
  funext j
  by_cases hj : j = c.head
  · subst hj
    simp
  · simp [hj]

theorem copy_same (p : Pool) (b c : Block) :
    Same p b.head (p.copy c.head b.head b.capacity) c.head b.extra := by
  rw [copy_eq_write]
  refine ⟨by simp [write], fun t ht ht' => ?_⟩
  have hne : t ≠ 0 := by omega
  have hin : c.head < c.head + t ∧ c.head + t ≤ c.head + b.extra := by omega
  simp [write, hin, hne]

/-- `rts_pool_alloc`, and `rts_pool_realloc` without a block. -/
theorem fresh_spec (h : Layout p live) (hsize : size + listHeadSize < 2 ^ 64) :
    (∀ i, ¬ FreeRun p live i (getNslobs size)) ∧ p.slobAlloc (getNslobs size) = some (none, p) ∨
    ∃ c p', p.slobAlloc (getNslobs size) = some (some c.head, p') ∧ Layout p' (c :: live) ∧
      (Sys.mk p live).Fresh size ⟨p', c :: live⟩ (some (c, c.capacity)) := by
  obtain ⟨⟨ri, p'⟩, halloc, hal⟩ := slobAlloc_spec h (getNslobs size)
  cases ri with
  | none => exact .inl ⟨hal.2, hal.1 ▸ halloc⟩
  | some i =>
    obtain ⟨hrun, hlay, hun⟩ := hal
    exact .inr ⟨⟨i, getNslobs size⟩, p', halloc, hlay, le_capacity hsize rfl, rfl, rfl, hrun, rfl,
      fun b hb => hun.keeps hb⟩

theorem Same.trans {p1 p2 p3 : Pool} {i1 i2 i3 k : Nat} (h : Same p1 i1 p2 i2 k)
    (h' : Same p2 i2 p3 i3 k) : Same p1 i1 p3 i3 k :=
  ⟨h'.1.trans h.1, fun t ht ht' => (h'.2 t ht ht').trans (h.2 t ht ht')⟩

theorem Same.mono {p p' : Pool} {i i' k k' : Nat} (h : Same p i p' i' k) (hk : k' ≤ k) :
    Same p i p' i' k' :=
  ⟨h.1, fun t ht ht' => h.2 t ht (ht'.trans hk)⟩

/-- The end of `rts_pool_realloc`: the content of `b` moves to the new block `c`. -/
theorem move_spec (h : Layout p (c :: live)) (hb : b ∈ live) (hlt : b.extra < c.extra) :
    ∃ p', (p.copy c.head b.head b.capacity).slobFree b.head = some p' ∧
      Layout p' (c :: live.erase b) ∧ Same p b.head p' c.head b.extra ∧
      ∀ d ∈ live, d ≠ b → Keeps p p' d := by
  have hne : c ≠ b := by
    rintro rfl
    exact Nat.lt_irrefl _ hlt
  have hcopy : Layout (p.copy c.head b.head b.capacity) (c :: live) := by
    rw [copy_eq_write]
    exact h.write (mem_cons_self ..) hlt.le _ _
  obtain ⟨p', hfree, hlay, hun⟩ := slobFree_spec hcopy (mem_cons_of_mem c hb)
  rw [erase_cons_tail (by simpa using hne)] at hlay hun
  refine ⟨p', hfree, hlay, ?_, fun d hd hdb => ?_⟩
  · exact (copy_same p b c).trans ((hun.keeps (mem_cons_self ..)).mono hlt.le)
  have hdc : Apart d c := symm ((pairwise_cons.mp h.apart).1 d hd)
  have hkeep : Keeps p (p.copy c.head b.head b.capacity) d := by
    rw [copy_eq_write]
    exact write_keeps hlt.le _ _ hdc
  exact hkeep.trans (hun.keeps (mem_cons_of_mem c (mem_erase_of_ne hdb |>.mpr hd)))

theorem poolRealloc_spec (h : Layout p live) (hb : b ∈ live)
    (hsize : size + listHeadSize < 2 ^ 64) :
    p.poolRealloc (some b.head) size = some (none, p.fail) ∨
    ∃ c p', p.poolRealloc (some b.head) size = some (some (c.head, c.capacity), p') ∧
      Layout p' (c :: live.erase b) ∧
      (Sys.mk p live).Resized b size ⟨p', c :: live.erase b⟩ (some (c, c.capacity)) := by
  simp only [poolRealloc, h.capacity_eq hb, Option.bind_eq_bind, Option.bind_some]
  by_cases hfit : size ≤ b.capacity
  · rw [if_pos hfit]
    refine .inr ⟨b, p, rfl, h.perm (perm_cons_erase hb), hfit, rfl, le_rfl, rfl, ?_⟩
    exact ⟨⟨rfl, fun _ _ _ => rfl⟩, fun _ _ _ => ⟨rfl, fun _ _ _ => rfl⟩⟩
  have hlt : b.extra < getNslobs size := by
    rw [getNslobs_eq hsize]
    unfold Block.capacity listHeadSize slobDataSize slobSize at *
    omega
  rw [if_neg hfit, if_neg (by omega)]
  obtain ⟨p', hexpand, hlay, -, hkeep⟩ | hexpand := expand_spec h hb hlt 
    (Nat.lt_of_le_of_lt (Nat.div_le_self _ _) (by omega))
  · refine .inr ⟨⟨b.head, getNslobs size⟩, p', ?_, hlay, le_capacity hsize rfl, rfl,
      hlt.le, rfl, hkeep b hb, fun d hd _ => hkeep d hd⟩
    have hcap := hlay.capacity_eq (mem_cons_self ..)
    simp [hexpand, hcap]
  rw [hexpand]
  obtain ⟨-, halloc⟩ | ⟨c, p1, halloc, hlay1, -, -, hextra, -, -, hkeep⟩ := fresh_spec h hsize
  · exact .inl (by simp [halloc])
  have hlt' : b.extra < c.extra := hextra ▸ hlt
  obtain ⟨p', hmove, hlay, hsame, hother⟩ := move_spec hlay1 hb hlt'
  refine .inr ⟨c, p', ?_, hlay, le_capacity hsize hextra, rfl, hlt'.le, rfl,
    (hkeep b hb).trans hsame, fun d hd hdb => (hkeep d hd).trans (hother d hd hdb)⟩
  have hcap1 := hlay1.capacity_eq (mem_cons_self ..)
  have hcap := hlay.capacity_eq (mem_cons_self ..)
  have hgt : c.capacity > b.capacity := by
    unfold Block.capacity slobSize
    omega
  simp [halloc, hcap1, hgt, hmove, hcap]

attribute [local simp] Sys.step

/-- Each call keeps the layout and does what it should. -/
theorem Sys.step_spec {s : Sys} (h : Layout s.pool s.live) (op : PoolOp) (hop : s.Allowed op) :
    ∃ r s', s.step op = some (r, s') ∧ Layout s'.pool s'.live ∧ s.OpSpec r s' op := by
  obtain ⟨p, live⟩ := s
  cases op with
  | alloc size =>
    obtain ⟨hnone, halloc⟩ | ⟨c, p', halloc, hlay, hfresh⟩ := fresh_spec h hop
    · exact ⟨none, ⟨p.fail, live⟩, by simp [poolAlloc, halloc], h.fail, hnone, rfl⟩
    · refine ⟨some (c, c.capacity), ⟨p', c :: live⟩, ?_, hlay, hfresh⟩
      have hcap := hlay.capacity_eq (mem_cons_self ..)
      simp [poolAlloc, halloc, hcap, hlay.grant_eq]
  | realloc block size =>
    cases block with
    | none =>
      obtain ⟨hnone, halloc⟩ | ⟨c, p', halloc, hlay, hfresh⟩ := fresh_spec h hop
      · refine ⟨none, ⟨p.fail, live⟩, ?_, h.fail, hnone, rfl⟩
        simp [poolRealloc, halloc]
      · refine ⟨some (c, c.capacity), ⟨p', c :: live⟩, ?_, hlay, hfresh⟩
        have hcap := hlay.capacity_eq (mem_cons_self ..)
        simp [poolRealloc, halloc, hcap, hlay.grant_eq]
    | some b =>
      obtain hfail | ⟨c, p', hrealloc, hlay, hres⟩ := poolRealloc_spec h hop.1 hop.2
      · exact ⟨none, ⟨p.fail, live⟩, by simp [hfail], h.fail, rfl⟩
      · refine ⟨some (c, c.capacity), ⟨p', c :: live.erase b⟩, ?_, hlay, hres⟩
        simp [hrealloc, hlay.grant_eq]
  | free b =>
    obtain ⟨p', hfree, hlay, hun⟩ := slobFree_spec h hop
    refine ⟨none, ⟨p', live.erase b⟩, by simp [poolFree, hfree], hlay, rfl, ?_⟩
    exact fun d hd => hun.keeps hd
  | write b data slobs =>
    refine ⟨none, ⟨p.write b data slobs, live⟩, rfl, ?_, rfl, fun d hd hdb => ?_⟩
    · exact h.write hop le_rfl data slobs
    · exact write_keeps le_rfl data slobs (h.apart_of_ne hd hop hdb)

end Step

/-! ## Runs -/

theorem Sys.run_spec {s : Sys} (h : Layout s.pool s.live) {ops : List PoolOp} (hops : s.Legal ops) :
    ∃ s', s.run ops = some s' ∧ Layout s'.pool s'.live := by
  induction ops generalizing s with
  | nil => exact ⟨s, rfl, h⟩
  | cons op ops ih =>
    obtain ⟨r, s1, hstep, h1, -⟩ := Sys.step_spec h op hops.1
    obtain ⟨s', hrun, h'⟩ := ih h1 (hops.2 r s1 hstep)
    exact ⟨s', by simp [Sys.run, hstep, hrun], h'⟩

theorem poolInit_spec (slobs : Nat → Slob) {len : Nat} (hlen : len < 2 ^ 64) :
    ∃ p, Pool.poolInit slobs len = some p ∧ p.count = len / slobSize ∧ Layout p [] := by
  obtain ⟨p, hinit, hfree, hf⟩ := initLoop_spec (i := 0) (n := len / slobSize)
    (p := ⟨slobs, .pool, .pool, len / slobSize, 0, 0, 0⟩)
    ⟨[], Ring.nil rfl rfl, by simp⟩ (zero_add _)
  refine ⟨p, hinit, hf.count_eq, ?_, by simp, .nil, by simp, ?_, hf.curr_eq⟩
  · rw [hf.count_eq]
    exact Nat.lt_of_le_of_lt (Nat.div_mul_le_self _ _) hlen
  · refine hfree.congr fun j => ?_
    simp [Free, hf.count_eq]

/-- One block can take all slobs of a new pool. -/
theorem alloc_all (slobs : Nat → Slob) {n : Nat} (hn : slobSize * (n + 1) + listHeadSize < 2 ^ 64) :
    ∃ p s, Pool.poolInit slobs (slobSize * (n + 1)) = some p ∧
      (Sys.mk p []).Legal [.alloc (Block.capacity ⟨0, n⟩)] ∧
      (Sys.mk p []).run [.alloc (Block.capacity ⟨0, n⟩)] = some s ∧ slobsOf s.live = n + 1 ∧
      s.pool.currAlloc = .ofNat (slobSize * (n + 1)) := by
  have hsize : Block.capacity ⟨0, n⟩ + listHeadSize < 2 ^ 64 := by
    simp only [Block.capacity, slobSize, slobDataSize] at *
    omega
  obtain ⟨p, hinit, hcount, h⟩ := poolInit_spec slobs (Nat.lt_of_le_of_lt (Nat.le_add_right _ _) hn)
  rw [Nat.mul_div_cancel_left _ (by decide)] at hcount
  have hn' : getNslobs (Block.capacity ⟨0, n⟩) = n := by
    rw [getNslobs_eq hsize]
    simp only [Block.capacity, listHeadSize, slobSize, slobDataSize]
    omega
  have hrun : FreeRun p [] 0 n := fun j _ hj => ⟨by omega, by simp⟩
  obtain ⟨r, ⟨p', live⟩, hstep, hlay, hspec⟩ := Sys.step_spec (s := ⟨p, []⟩) h
    (.alloc (Block.capacity ⟨0, n⟩)) hsize
  cases r with
  | none => exact absurd (hn'.symm ▸ hrun) (hspec.1 0)
  | some r =>
    obtain ⟨-, -, hextra, -, hlive, -⟩ := hspec
    have hslobs : slobsOf live = n + 1 := by
      rw [show live = [r.1] from hlive, ← hn', ← hextra]
      rfl
    refine ⟨p, ⟨p', live⟩, hinit, ⟨hsize, fun _ _ _ => trivial⟩, ?_, hslobs, hslobs ▸ hlay.curr⟩
    simp [Sys.run, hstep]

/-- In every run from a new pool, the blocks are disjoint runs of slobs of the pool, the free
list has the other slobs, `curr_alloc` counts the bytes in use modulo `2 ^ 32`, and every
call that is allowed next does what it should. -/
theorem run_layout (slobs : Nat → Slob) {len : Nat} (hlen : len < 2 ^ 64) :
    ∃ p, Pool.poolInit slobs len = some p ∧ p.count = len / slobSize ∧
      ∀ ops, (Sys.mk p []).Legal ops → ∃ s, (Sys.mk p []).run ops = some s ∧
        Layout s.pool s.live ∧ ∀ op, s.Allowed op → ∃ r s', s.step op = some (r, s') ∧
          s.OpSpec r s' op := by
  obtain ⟨p, hinit, hcount, h⟩ := poolInit_spec slobs hlen
  refine ⟨p, hinit, hcount, fun ops hops => ?_⟩
  obtain ⟨s, hrun, hs⟩ := Sys.run_spec h hops
  refine ⟨s, hrun, hs, fun op hop => ?_⟩
  obtain ⟨r, s', hstep, -, hspec⟩ := Sys.step_spec hs op hop
  exact ⟨r, s', hstep, hspec⟩

/-- A pool of three slobs, with a block of two and a block of one. -/
theorem run_layout_threeSlobs :
    ∃ p, Pool.poolInit (fun _ => ⟨.null, .null, fun _ => 0⟩) 144 = some p ∧ p.count = 3 ∧
    (Sys.mk p []).Legal [.alloc 40, .alloc 10] ∧
    ∃ s, (Sys.mk p []).run [.alloc 40, .alloc 10] = some s ∧ Layout s.pool s.live := by
  obtain ⟨p, hinit, hcount, hruns⟩ := run_layout (fun _ => ⟨.null, .null, fun _ => 0⟩)
    (show 144 < 2 ^ 64 by decide)
  have hlegal : (Sys.mk p []).Legal [.alloc 40, .alloc 10] :=
    ⟨show 40 + 16 < 2 ^ 64 by decide, fun _ _ _ =>
      ⟨show 10 + 16 < 2 ^ 64 by decide, fun _ _ _ => trivial⟩⟩
  obtain ⟨s, hrun, hlay, -⟩ := hruns _ hlegal
  exact ⟨p, hinit, hcount, hlegal, s, hrun, hlay⟩

/-- In a pool of 89478486 slobs `curr_alloc` wraps. -/
theorem not_curr_exact : ∃ slobs p s, Pool.poolInit slobs (slobSize * 89478486) = some p ∧
    (Sys.mk p []).Legal [.alloc (Block.capacity ⟨0, 89478485⟩)] ∧
    (Sys.mk p []).run [.alloc (Block.capacity ⟨0, 89478485⟩)] = some s ∧
    slobsOf s.live = 89478486 ∧ s.pool.currAlloc.toNat = 32 := by
  obtain ⟨p, s, hinit, hlegal, hrun, hslobs, hcurr⟩ :=
    alloc_all (fun _ => ⟨.null, .null, fun _ => 0⟩) (n := 89478485) (by decide)
  refine ⟨_, p, s, hinit, hlegal, hrun, hslobs, ?_⟩
  rw [hcurr]
  decide

end OpenSync.Rts
