import OpenSync.Arena.Base
import Mathlib.Algebra.Order.BigOperators.Group.List
import Mathlib.Tactic.Linarith

/-!
# The stack of chunks

`Stack` is what the chunks of an arena keep: each is an area of the address space that is filled
up to its position, and no two overlap.  The position of the arena is `total`.

`cut P` is the part of a stack that holds the lowest `P` bytes.  It does not depend on the fill
level of the top chunk, nor on empty chunks, so no operation that stays above `P` changes it.

The allocating functions open the arena, which may put an empty chunk on the stack (`Opened`),
and then either fail or raise the top chunk (`grow`).
-/

namespace OpenSync.Arena

open OpenSync.Lib List

/-! ## Sums and cuts -/

def total (cs : List Chunk) : Nat := (cs.map Chunk.pos).sum

@[simp] theorem total_nil : total [] = 0 := rfl

variable (c : Chunk) {P : Nat} {cs : List Chunk} {sz : Nat} {mmap : Option Nat} {a : Arena}

@[simp] theorem total_cons (cs : List Chunk) : total (c :: cs) = c.pos + total cs := by
  simp [total]

/-- The chunks that hold a byte. -/
def nonempty (cs : List Chunk) : List Chunk := cs.filter (fun c => 0 < c.pos)

/-- The chunks that hold the lowest `P` bytes. -/
def cut (P : Nat) : List Chunk → List Chunk
  | [] => []
  | c :: cs => if P ≤ total cs then cut P cs else { c with pos := P - total cs } :: nonempty cs

theorem cut_cons_of_le (h : P ≤ total cs) :
    cut P (c :: cs) = cut P cs := if_pos h

/-- The cut does not see the fill level of the top chunk. -/
theorem cut_setPos (P p : Nat) (c : Chunk) (cs : List Chunk) :
    cut P ({ c with pos := p } :: cs) = cut P (c :: cs) := rfl

theorem cut_total (cs : List Chunk) : cut (total cs) cs = nonempty cs := by
  induction cs with
  | nil => rfl
  | cons c cs ih =>
    by_cases hc : c.pos = 0
    · simp [cut, hc, ih, nonempty]
    · have hpos : 0 < c.pos := Nat.pos_of_ne_zero hc
      simp [cut, hc, nonempty, hpos]

theorem cut_zero (cs : List Chunk) : cut 0 cs = [] := by
  induction cs with
  | nil => rfl
  | cons c cs ih => rw [cut_cons_of_le c (Nat.zero_le _), ih]

/-! ## Allocated bytes -/

/-- The byte at `x` is allocated. -/
def Inside (cs : List Chunk) (x : Nat) : Prop := ∃ c ∈ cs, c.data ≤ x ∧ x < c.data + c.pos

theorem inside_nonempty (cs : List Chunk) (x : Nat) : Inside (nonempty cs) x ↔ Inside cs x := by
  constructor
  · rintro ⟨c, hc, hx⟩
    exact ⟨c, (mem_filter.mp hc).1, hx⟩
  · rintro ⟨c, hc, hx⟩
    exact ⟨c, mem_filter.mpr ⟨hc, by simp; omega⟩, hx⟩

/-- A chunk of the cut is a chunk of the stack that may be filled less. -/
theorem mem_of_mem_cut {d : Chunk} (hP : P ≤ total cs) (h : d ∈ cut P cs) :
    ∃ c ∈ cs, c.data = d.data ∧ d.pos ≤ c.pos := by
  induction cs with
  | nil => cases h
  | cons c cs ih =>
    by_cases hle : P ≤ total cs
    · rw [cut_cons_of_le c hle] at h
      obtain ⟨e, he, hed⟩ := ih hle h
      exact ⟨e, mem_cons_of_mem c he, hed⟩
    · rw [cut, if_neg hle] at h
      rw [total_cons] at hP
      rcases mem_cons.mp h with rfl | h
      · exact ⟨c, mem_cons_self, rfl, by simp only; omega⟩
      · exact ⟨d, mem_cons_of_mem c (mem_filter.mp h).1, rfl, le_rfl⟩

theorem Inside.of_cut {x : Nat} (hP : P ≤ total cs) (h : Inside (cut P cs) x) : Inside cs x := by
  obtain ⟨d, hd, hlo, hhi⟩ := h
  obtain ⟨c, hc, hdata, hpos⟩ := mem_of_mem_cut hP hd
  exact ⟨c, hc, by omega, by omega⟩

/-! ## Chunks that do not overlap -/

/-- A chunk with its header lies in the address space and is filled up to its
position. -/
structure Chunk.Valid (c : Chunk) : Prop where
  hdr : chunkHdr < c.data
  fits : c.data + c.size ≤ 2 ^ 64
  filled : c.pos ≤ c.size

/-- Two chunks with their headers do not overlap. -/
def Apart (c d : Chunk) : Prop :=
  c.data + c.size + chunkHdr ≤ d.data ∨ d.data + d.size + chunkHdr ≤ c.data

structure Stack (cs : List Chunk) : Prop where
  valid : ∀ c ∈ cs, c.Valid
  apart : cs.Pairwise Apart

namespace Stack

theorem nil : Stack [] := ⟨by simp, .nil⟩

variable {c : Chunk} {cs : List Chunk}

section

variable (h : Stack (c :: cs))

include h

theorem tail : Stack cs :=
  ⟨fun d hd => h.valid d (mem_cons_of_mem c hd), h.apart.of_cons⟩

theorem head : c.Valid :=
  h.valid c mem_cons_self

theorem head_apart {d : Chunk} (hd : d ∈ cs) : Apart c d := List.rel_of_pairwise_cons h.apart hd

omit h in
theorem cons (hc : c.Valid) (hcs : ∀ d ∈ cs, Apart c d) (h : Stack cs) : Stack (c :: cs) :=
  ⟨forall_mem_cons.mpr ⟨hc, h.valid⟩, pairwise_cons.mpr ⟨hcs, h.apart⟩⟩

theorem setPos {p : Nat} (hp : p ≤ c.size) : Stack ({ c with pos := p } :: cs) :=
  cons ⟨h.head.hdr, h.head.fits, hp⟩ (fun _ hd => h.head_apart hd) h.tail

/-- The free part of the top chunk holds no allocated byte. -/
theorem lt_or_le_of_inside {x : Nat} (hx : Inside (c :: cs) x) :
    x < c.data + c.pos ∨ c.data + c.size ≤ x := by
  obtain ⟨d, hd, hlo, hhi⟩ := hx
  rcases mem_cons.mp hd with rfl | hd
  · exact .inl hhi
  have hapart := h.head_apart hd
  have hfill := (h.tail.valid d hd).filled
  simp only [Apart] at hapart
  omega

end

/-- Less than `SIZE_MAX` bytes are allocated, so that the position of an arena never
wraps. -/
theorem total_lt (h : Stack cs) : total cs < sizeMax := by
  have hsum : (cs.map (fun c => c.size + chunkHdr)).sum ≤ 2 ^ 64 := by
    have hdis : cs.Pairwise (fun c d =>
        c.data - chunkHdr + (c.size + chunkHdr) ≤ d.data - chunkHdr ∨
          d.data - chunkHdr + (d.size + chunkHdr) ≤ c.data - chunkHdr) := by
      refine h.apart.imp_of_mem (fun {c d} hc hd hcd => ?_)
      have h1 := (h.valid c hc).hdr
      have h2 := (h.valid d hd).hdr
      unfold Apart at hcd
      omega
    refine sum_le_of_disjoint hdis (fun c hc => ?_)
    have h1 := (h.valid c hc).hdr
    have h2 := (h.valid c hc).fits
    omega
  cases cs with
  | nil => decide
  | cons c cs =>
    have hle : total cs ≤ (cs.map (fun c => c.size + chunkHdr)).sum :=
      sum_le_sum (fun d hd => Nat.le_add_right_of_le (h.tail.valid d hd).filled)
    have hc := h.head.filled
    simp only [map_cons, sum_cons, total_cons, chunkHdr, sizeMax] at *
    omega

end Stack

/-! ## Steps of one chunk -/

theorem chunkPush_eq_some {c : Chunk} (h : c.pos + sz ≤ c.size) (hc : c.size ≤ sizeMax) :
    chunkPush c sz = some ({ c with pos := c.pos + sz }, c.data + c.pos) := by
  rw [chunkPush, if_neg (by omega), if_neg (by omega)]

theorem chunkPush_cases (sz : Nat) :
    chunkPush c sz = none ∨ c.pos + sz ≤ c.size ∧
        chunkPush c sz = some ({ c with pos := c.pos + sz }, c.data + c.pos) := by
  rw [chunkPush]
  split_ifs with h1 h2
  · exact .inl rfl
  · exact .inl rfl
  · exact .inr ⟨by omega, rfl⟩

theorem chunkPop_fst (sz : Nat) : (chunkPop c sz).1 = { c with pos := c.pos - sz } := by
  unfold chunkPop
  split_ifs with h
  · simp only [Chunk.mk.injEq, true_and]
    omega
  · rfl

theorem chunkPop_snd (sz : Nat) : (chunkPop c sz).2 = min c.pos sz := by
  unfold chunkPop
  split_ifs with h
  · omega
  · omega

/-- `mmap` gives an area that is not in use by the arena. -/
def Fresh (cs : List Chunk) (sz : Nat) (mmap : Option Nat) : Prop :=
  ∀ addr, mmap = some addr → 0 < addr ∧ addr + chunkLen sz ≤ 2 ^ 64 ∧
    ∀ c ∈ cs, addr + chunkLen sz + chunkHdr ≤ c.data ∨ c.data + c.size ≤ addr

theorem le_chunkLen (h : chunkLen sz ≠ 0) : growSize ≤ chunkLen sz := by
  exact Nat.le_mul_of_pos_left _ (Nat.pos_of_ne_zero (left_ne_zero_of_mul h))

/-- A new chunk is empty and can be put on the stack. -/
theorem chunkNew_spec {new : Chunk} (hs : Stack cs) (hf : Fresh cs sz mmap)
    (h : chunkNew sz mmap = some new) :
    new.pos = 0 ∧ new.size + chunkHdr = chunkLen sz ∧ Stack (new :: cs) := by
  unfold chunkNew at h
  split_ifs at h with hlen
  obtain ⟨addr, haddr, rfl⟩ := Option.map_eq_some_iff.mp h
  obtain ⟨hpos, hend, hdis⟩ := hf addr haddr
  have hge := le_chunkLen hlen
  simp only [growSize, chunkHdr] at hge hdis
  refine ⟨rfl, ?_, Stack.cons ⟨?_, ?_, Nat.zero_le _⟩ (fun d hd => ?_) hs⟩
  · simp only [chunkHdr]
    omega
  · simp only [chunkHdr]
    omega
  · simp only [chunkHdr]
    omega
  · have hd' := hdis d hd
    simp only [Apart, chunkHdr]
    omega

theorem grownSize_le (sz : Nat) : grownSize sz ≤ sizeMax ∧ grownSize sz ≤ sz + sz / 2 := by
  unfold grownSize
  split_ifs with h
  · exact ⟨le_rfl, by omega⟩
  · exact ⟨by omega, le_rfl⟩

/-- The chunk that is mapped for a request has room for it if the size does not
wrap. -/
theorem le_of_chunkLen (hsz : sz ≤ sizeMax) (hfit : grownSize sz + chunkHdr ≤ 2 ^ 64)
    (h : chunkLen (grownSize sz) ≠ 0) : sz + chunkHdr ≤ chunkLen (grownSize sz) := by
  have hle : sz ≤ grownSize sz := by
    unfold grownSize
    split_ifs <;> omega
  simp only [chunkLen, add64, growSize] at *
  omega

/-! ## Allocation -/

/-- The stack when an allocation has opened the arena: a dynamic one may have a new chunk. -/
def Opened (a : Arena) (cs : List Chunk) : Prop :=
  cs = a.top ∨ a.size = 0 ∧ ∃ new : Chunk, cs = new :: a.top ∧ new.pos = 0 ∧ Stack (new :: a.top)

/-- The arena with `n` more bytes in the top chunk `c`. -/
def grow (a : Arena) (c : Chunk) (cs : List Chunk) (n : Nat) : Arena :=
  { a with top := { c with pos := c.pos + n } :: cs, pos := a.pos + n }

theorem Opened.stack (h : Opened a cs) (hs : Stack a.top) : Stack cs := by
  rcases h with rfl | ⟨-, new, rfl, -, hnew⟩
  · exact hs
  · exact hnew

theorem Opened.total_eq (h : Opened a cs) : total cs = total a.top := by
  rcases h with rfl | ⟨-, new, rfl, hpos, -⟩
  · rfl
  · rw [total_cons, hpos, zero_add]

theorem Opened.cut_eq (h : Opened a cs) (hP : P ≤ total a.top) : cut P cs = cut P a.top := by
  rcases h with rfl | ⟨-, new, rfl, -, -⟩
  · rfl
  · exact cut_cons_of_le new hP

/-- The position of the arena does not wrap when its top chunk grows. -/
theorem add64_grow {c : Chunk} {n : Nat} (hs : Stack (c :: cs)) (hpos : a.pos = total (c :: cs))
    (hn : c.pos + n ≤ c.size) : add64 a.pos n = a.pos + n := by
  have hlt := (hs.setPos hn).total_lt
  simp only [total_cons, sizeMax] at hlt hpos
  exact Nat.mod_eq_of_lt (by omega)

/-- `arena_push` opens the arena and then fails or grows it. -/
theorem arenaPush_spec (hs : Stack a.top) (hpos : a.pos = total a.top)
    (hf : Fresh a.top (grownSize sz) mmap) :
    ∃ cs, Opened a cs ∧ (arenaPush a sz mmap = ({ a with top := cs }, none) ∨
        ∃ c cs', cs = c :: cs' ∧ c.pos + sz ≤ c.size ∧
          arenaPush a sz mmap = (a.grow c cs' sz, some (c.data + c.pos))) := by
  unfold arenaPush
  cases hpush : pushTop a.top sz with
  | some r =>
    cases htop : a.top with
    | nil => simp [htop, pushTop] at hpush
    | cons c cs =>
      refine ⟨c :: cs, .inl htop.symm, .inr ⟨c, cs, rfl, ?_⟩⟩
      rcases chunkPush_cases c sz with hc | ⟨hle, hc⟩
      · simp [htop, pushTop, hc] at hpush
      simp only [htop, pushTop, hc] at hpush
      cases hpush
      refine ⟨hle, ?_⟩
      rw [htop] at hs hpos
      simp [grow, add64_grow hs hpos hle]
  | none =>
    split_ifs with hsize
    · exact ⟨a.top, .inl rfl, .inl rfl⟩
    cases hnew : chunkNew (grownSize sz) mmap with
    | none => exact ⟨a.top, .inl rfl, .inl rfl⟩
    | some new =>
      obtain ⟨hnp, -, hstack⟩ := chunkNew_spec hs hf hnew
      refine ⟨new :: a.top, .inr ⟨by omega, new, rfl, hnp, hstack⟩, ?_⟩
      rcases chunkPush_cases new sz with hc | ⟨hle, hc⟩
      · exact .inl (by simp [hc])
      · refine .inr ⟨new, a.top, rfl, hle, ?_⟩
        have hpos' : a.pos = total (new :: a.top) := by rw [total_cons, hnp, zero_add, hpos]
        simp [hc, grow, add64_grow hstack hpos' hle]

theorem and_align (n : Nat) : n &&& (align - 1) = n % 16 := Nat.and_two_pow_sub_one_eq_mod n 4

theorem xor_align {k : Nat} (h : k < 16) : (align - 1) ^^^ k = 15 - k := by
  revert k
  decide

theorem sub64_of_le {a b : Nat} (ha : a < 2 ^ 64) (h : b ≤ a) : sub64 a b = a - b := by
  unfold sub64
  omega

/-- The bytes between the end of the chunk and an aligned address. -/
def Chunk.padding (c : Chunk) : Nat := align - 1 - (c.data + c.pos - 1) % align

/-- The bytes behind an aligned buffer go back to the chunk. -/
theorem arenaMalloc_of_push {c : Chunk} (hs : Stack (c :: cs)) (hpos : a.pos = total (c :: cs))
    (hsz : ¬ sz > sizeMax - (align - 1)) (hle : c.pos + (sz + align - 1) ≤ c.size)
    (hpush : arenaPush a (sz + align - 1) mmap =
      (a.grow c cs (sz + align - 1), some (c.data + c.pos))) :
    arenaMalloc a sz mmap =
      (a.grow c cs (c.padding + sz), some (c.data + c.pos + c.padding)) := by
  have hmod := Nat.mod_lt (c.data + c.pos - 1) (show 0 < 16 by decide)
  have hlt := (hs.setPos hle).total_lt
  unfold arenaMalloc
  rw [if_neg hsz, hpush]
  simp only [and_align, xor_align hmod, grow, popTop, chunkPop_fst, chunkPop_snd, Chunk.padding]
  simp only [total_cons, sizeMax, align] at hlt hle hpos ⊢
  rw [sub64_of_le (by omega) (by omega)]
  congr 3
  · congr 2
    omega
  · omega

/-- `arena_malloc` opens the arena and then fails or grows it by the buffer and `k` bytes that align
it. -/
theorem arenaMalloc_spec (hs : Stack a.top) (hpos : a.pos = total a.top)
    (hf : Fresh a.top (grownSize (sz + align - 1)) mmap) :
    ∃ cs, Opened a cs ∧ (arenaMalloc a sz mmap = ({ a with top := cs }, none) ∨
        ∃ c cs' k, cs = c :: cs' ∧ c.pos + (k + sz) ≤ c.size ∧ (c.data + c.pos + k) % align = 0 ∧
          arenaMalloc a sz mmap = (a.grow c cs' (k + sz), some (c.data + c.pos + k))) := by
  by_cases hbig : sz > sizeMax - (align - 1)
  · exact ⟨a.top, .inl rfl, .inl (if_pos hbig)⟩
  obtain ⟨cs, hopen, hres⟩ := arenaPush_spec hs hpos hf
  refine ⟨cs, hopen, ?_⟩
  rcases hres with hnone | ⟨c, cs', rfl, hle, hsome⟩
  · exact .inl (by rw [arenaMalloc, if_neg hbig, hnone])
  have hstack := hopen.stack hs
  have hmalloc := arenaMalloc_of_push hstack (hpos.trans hopen.total_eq.symm) hbig hle hsome
  have hdata := hstack.head.hdr
  refine .inr ⟨c, cs', c.padding, rfl, ?_, ?_, hmalloc⟩
  · simp only [Chunk.padding, align] at hle ⊢
    omega
  · simp only [Chunk.padding, align]
    omega

end OpenSync.Arena
