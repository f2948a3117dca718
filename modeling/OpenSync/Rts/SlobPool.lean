import OpenSync.Rts.Slob
import Mathlib.Algebra.BigOperators.Group.List.Basic
import Mathlib.Data.List.Pairwise
import Mathlib.Data.List.Perm.Subperm

/-!
# Layout of a slob pool

`Layout p live` says how the blocks `live` and the free list share the slobs of a pool.  A
scan over the headers starts behind a free slob or behind the last slob of a block, so it
meets free slobs or the first header of a block, and never a header that belongs to a user.

`curr_alloc` is an `unsigned`, so it is the number of bytes in use modulo `2 ^ 32`.
-/

namespace OpenSync.Rts

open OpenSync.Lib List Pool Option

/-- A block: its first slob, and the number of slobs after it. -/
structure Block where
  head : Nat
  extra : Nat
deriving DecidableEq

namespace Block

/-- The slob `j` is part of the block. -/
def Has (b : Block) (j : Nat) : Prop := b.head ≤ j ∧ j ≤ b.head + b.extra

/-- The bytes of the block that its user can use. -/
def capacity (b : Block) : Nat := b.extra * slobSize + slobDataSize

theorem has_head (b : Block) : b.Has b.head := ⟨Nat.le_refl _, Nat.le_add_right _ _⟩

end Block

/-- The slob `j` is in no block. -/
def Free (p : Pool) (live : List Block) (j : Nat) : Prop :=
  j < p.count ∧ ∀ b ∈ live, ¬ b.Has j

/-- The slob `i` and `n` slobs after it are in no block. -/
def FreeRun (p : Pool) (live : List Block) (i n : Nat) : Prop :=
  ∀ j, i ≤ j → j ≤ i + n → Free p live j

/-- The number of slobs in blocks. -/
def slobsOf (live : List Block) : Nat := (live.map fun b => b.extra + 1).sum

/-- Two blocks have no slob in common. -/
def Apart (b c : Block) : Prop := ∀ j, b.Has j → ¬ c.Has j

instance : Std.Symm Apart := ⟨fun _ _ h j hc hb => h j hb hc⟩

/-- The blocks and the free list of a pool. -/
structure Layout (p : Pool) (live : List Block) : Prop where
  small : p.count * slobSize < 2 ^ 64
  inside : ∀ b ∈ live, b.head + b.extra < p.count
  apart : live.Pairwise Apart
  marked : ∀ b ∈ live, (p.slobs b.head).next = .null ∧
    (p.slobs b.head).prev = .slob (b.head + b.extra)
  free : p.FreeList (Free p live)
  curr : p.currAlloc = .ofNat (slobSize * slobsOf live)

/-- `k` slobs after the first one and its data are the same in two blocks. -/
def Same (p : Pool) (i : Nat) (p' : Pool) (i' k : Nat) : Prop :=
  (p'.slobs i').data = (p.slobs i).data ∧ ∀ t, 0 < t → t ≤ k → p'.slobs (i' + t) = p.slobs (i + t)

/-- The content of a block is as before. -/
def Keeps (p p' : Pool) (b : Block) : Prop := Same p b.head p' b.head b.extra

namespace Layout

variable {p : Pool} {live : List Block}

section

variable (h : Layout p live)

include h

theorem nodup : live.Nodup :=
  h.apart.imp fun {b c} hbc => by
    rintro rfl
    exact hbc b.head b.has_head b.has_head

section

variable {b : Block} (hb : b ∈ live)

include hb

theorem apart_of_ne {c : Block} (hc : c ∈ live) (hne : b ≠ c) : Apart b c :=
  h.apart.forall hb hc hne

theorem eq_of_has {c : Block} (hc : c ∈ live) {j : Nat} (hbj : b.Has j) (hcj : c.Has j)
    : b = c := by
  by_contra hne
  exact h.apart_of_ne hb hc hne j hbj hcj

omit hb in
/-- Behind a free slob or behind a block, the headers tell what is free. -/
theorem scannable {i : Nat} (hi : Free p live i ∨ ∃ b ∈ live, i = b.head + b.extra)
    : p.Scannable (Free p live) i := by
  intro j hij hj hfree
  refine ⟨fun hnext => ⟨hj, fun b hb hbj => ?_⟩, h.free.next_ne⟩
  -- a block with `j` starts there, so that its header has no next link
  have hhead : b.head ≠ j := fun he => hnext (he ▸ (h.marked b hb).1)
  have hb' : b.Has (j - 1) := ⟨by have := hbj.1; omega, by have := hbj.2; omega⟩
  by_cases hlt : i < j - 1
  · exact (hfree (j - 1) hlt (by omega)).2 b hb hb'
  obtain rfl : i = j - 1 := by omega
  rcases hi with hi | ⟨c, hc, he⟩
  · exact hi.2 b hb hb'
  have hcj : c.Has (j - 1) := ⟨by omega, by omega⟩
  obtain rfl := h.eq_of_has hb hc hb' hcj
  have := hbj.2
  omega

theorem last_eq : p.last b.head = some (b.head + b.extra) := by
  simp [last, (h.marked b hb).2]

theorem capacity_eq : p.capacity b.head = some b.capacity := by
  simp [capacity, h.last_eq hb, Block.capacity]

theorem getNslobs_capacity : getNslobs b.capacity = b.extra := by
  have hin := h.inside b hb
  have hsmall := h.small
  unfold getNslobs Block.capacity listHeadSize slobDataSize slobSize at *
  omega

end

end

end Layout

/-- The free list depends on the list of the pool and the headers of the free slobs. -/
theorem Pool.FreeList.of_headers {p : Pool} {F : Nat → Prop} (h : p.FreeList F) (p' : Pool)
    (hprev : p'.prev = p.prev) (hnext : p'.next = p.next)
    (hs : ∀ j, F j → (p'.slobs j).prev = (p.slobs j).prev ∧
      (p'.slobs j).next = (p.slobs j).next) : p'.FreeList F := by
  obtain ⟨fl, hring, hfl⟩ := h
  refine ⟨fl, hring.congr fun a ha => ?_, hfl⟩
  rcases mem_cons.mp ha with rfl | ha
  · exact ⟨hnext, hprev⟩
  · obtain ⟨j, hj, rfl⟩ := mem_map.mp ha
    exact (hs j ((hfl j).mp hj)).symm

/-! ## Allocation -/

section Allocation

variable {p : Pool} {live : List Block}

/-- What an allocation leaves as it is: all data, and the slobs that were not free. -/
structure Untouched (p : Pool) (live : List Block) (p' : Pool) : Prop where
  count_eq : p'.count = p.count
  fail_eq : p'.failAlloc = p.failAlloc
  data_eq : ∀ j, (p'.slobs j).data = (p.slobs j).data
  slobs_eq : ∀ j, ¬ Free p live j → p'.slobs j = p.slobs j

theorem Untouched.keeps {p' : Pool} (h : Untouched p live p') {b : Block} (hb : b ∈ live) :
    Keeps p p' b :=
  ⟨h.data_eq _, fun t _ ht => h.slobs_eq _ fun hf => hf.2 b hb ⟨by omega, by omega⟩⟩

theorem charge_curr (p : Pool) {k n : Nat} (h : p.currAlloc = .ofNat (slobSize * k)) :
    (p.charge n).currAlloc = .ofNat (slobSize * (n + k)) := by
  show p.currAlloc + _ = _
  rw [h, ← UInt32.ofNat_add, ← Nat.mul_add, Nat.add_comm]

theorem Layout.take (h : Layout p live) {p1 : Pool} {i n : Nat} (hrun : FreeRun p live i n)
    (hlist : p1.FreeList (fun j => Free p live j ∧ ¬ (i ≤ j ∧ j < i + (n + 1))))
    (hf : Pool.Frame (Free p live) p p1) :
    Layout ((p1.mark i (i + n)).charge (n + 1)) (⟨i, n⟩ :: live) ∧
      Untouched p live ((p1.mark i (i + n)).charge (n + 1)) := by
  have hne : ∀ j, j ≠ i → ((p1.mark i (i + n)).charge (n + 1)).slobs j = p1.slobs j :=
    fun j hj => Function.update_of_ne hj _ _
  have hhead : ∀ b ∈ live, b.head ≠ i := fun b hb he =>
    (hrun i (Nat.le_refl i) (by omega)).2 b hb (he ▸ b.has_head)
  have hfree : ∀ j, Free ((p1.mark i (i + n)).charge (n + 1)) (⟨i, n⟩ :: live) j ↔
      Free p live j ∧ ¬ (i ≤ j ∧ j < i + (n + 1)) := by
    intro j
    show (j < p1.count ∧ _) ↔ _
    simp only [mem_cons, forall_eq_or_imp, Free, hf.count_eq, Nat.lt_succ_iff,
      ← Nat.add_assoc]
    tauto
  refine ⟨⟨?_, ?_, ?_, ?_, ?_, ?_⟩, hf.count_eq, hf.fail_eq, fun j => ?_, fun j hj => ?_⟩
  · show p1.count * slobSize < 2 ^ 64
    rw [hf.count_eq]
    exact h.small
  · intro b hb
    show b.head + b.extra < p1.count
    rw [hf.count_eq]
    rcases mem_cons.mp hb with rfl | hb
    · exact (hrun (i + n) (by omega) le_rfl).1
    · exact h.inside b hb
  · refine pairwise_cons.mpr ⟨fun b hb j hij hbj => ?_, h.apart⟩
    exact (hrun j hij.1 hij.2).2 b hb hbj
  · intro b hb
    rcases mem_cons.mp hb with rfl | hb
    · simp [charge, mark]
    · rw [hne _ (hhead b hb), hf.slobs_eq _ fun hf => hf.2 b hb b.has_head]
      exact h.marked b hb
  · refine (hlist.of_headers ((p1.mark i (i + n)).charge (n + 1)) rfl rfl
      fun j hj => ?_).congr fun j => (hfree j).symm
    have : j ≠ i := by
      rintro rfl
      exact hj.2 ⟨Nat.le_refl j, by omega⟩
    rw [hne j this]
    exact ⟨rfl, rfl⟩
  · have hcurr : (p1.mark i (i + n)).currAlloc = .ofNat (slobSize * slobsOf live) :=
      hf.curr_eq.trans h.curr
    exact charge_curr _ hcurr
  · by_cases hj : j = i
    · subst hj
      rw [← hf.data_eq j]
      simp [charge, mark]
    · rw [hne j hj]
      exact hf.data_eq j
  · have hji : j ≠ i := by
      rintro rfl
      exact hj (hrun j (Nat.le_refl j) (by omega))
    rw [hne j hji]
    exact hf.slobs_eq j hj

/-- The outcome of an allocation of `n` slobs after the first one. -/
def Allocated (p : Pool) (live : List Block) (n : Nat) : Option Nat × Pool → Prop
  | (some i, p') => FreeRun p live i n ∧ Layout p' (⟨i, n⟩ :: live) ∧ Untouched p live p'
  | (none, p') => p' = p ∧ ∀ i, ¬ FreeRun p live i n

/-- The loop of `rts_slob_alloc_linear`, when no run starts at the entries before. -/
theorem linearLoop_spec (h : Layout p live) {n : Nat} (hn : 0 < n) {l r : List Nat}
    (hring : Ring p.prevOf p.nextOf .pool ((l ++ r).map .slob))
    (hfl : ∀ j, j ∈ l ++ r ↔ Free p live j) (hl : ∀ i ∈ l, ¬ FreeRun p live i n) {fuel : Nat}
    (hfuel : r.length ≤ fuel) :
    ∃ res, p.linearLoop n fuel ((r.map Link.slob).headD .pool) = some res ∧
      Allocated p live n res := by
  induction r generalizing l fuel with
  | nil =>
    refine ⟨(none, p), by simp [linearLoop], rfl, fun i hi => ?_⟩
    exact hl i (by simpa using (hfl i).mpr (hi i (Nat.le_refl i) (by omega))) hi
  | cons i r ih =>
    obtain ⟨fuel, rfl⟩ : ∃ f, fuel = f + 1 := ⟨fuel - 1, by simp at hfuel; omega⟩
    have hi : Free p live i := (hfl i).mp (by simp)
    have hscan := linearTail_spec (h.scannable (.inl hi)) hn hi.1
    rw [map_cons, headD_cons, linearLoop]
    cases htail : p.linearTail i n with
    | some tail =>
      rw [htail] at hscan
      obtain ⟨rfl, hlt, hall⟩ := hscan
      have hrun : FreeRun p live i n := by
        intro j hij hj
        by_cases hji : j = i
        · exact hji ▸ hi
        · exact hall j (by omega) hj
      obtain ⟨p1, hrem, hlist, hf⟩ := removeRun_spec (n := n + 1) h.free (fun _ hj => hj.1)
        (fun j hij hj => hrun j hij (by omega))
      obtain ⟨hlay, hun⟩ := h.take hrun hlist hf
      refine ⟨(some i, (p1.mark i (i + n)).charge (n + 1)), ?_, hrun, hlay, hun⟩
      have hcount : i + n + 1 - i = n + 1 := by omega
      simp [hcount, hrem]
    | none =>
      rw [htail] at hscan
      have hnot : ¬ FreeRun p live i n := fun hrun =>
        hscan ⟨(hrun (i + n) (by omega) le_rfl).1, fun j hj hle => hrun j (by omega) hle⟩
      have hnext : p.getNext (.slob i) = some ((r.map Link.slob).headD .pool) := by
        rw [getNext_eq (.inr ⟨i, hi.1, rfl⟩)]
        rw [map_append] at hring
        rw [hring.next_eq]
      obtain ⟨res, hres, hal⟩ := ih (l := l ++ [i]) (by simpa using hring) (by simpa using hfl)
        (fun j hj => by
          rcases mem_append.mp hj with hj | hj
          · exact hl j hj
          · exact mem_singleton.mp hj ▸ hnot)
        (show r.length ≤ fuel by simpa using hfuel)
      exact ⟨res, by simpa [hnext] using hres, hal⟩

/-- `rts_slob_alloc` succeeds when there is a run of free slobs that is long enough. -/
theorem slobAlloc_spec (h : Layout p live) (n : Nat) :
    ∃ res, p.slobAlloc n = some res ∧ Allocated p live n res := by
  obtain ⟨fl, hring, hfl⟩ := h.free
  have hnext : p.next = (fl.map Link.slob).headD .pool := hring.next_root
  rw [slobAlloc]
  by_cases hempty : p.next = .pool
  · rw [if_pos hempty]
    refine ⟨_, rfl, rfl, fun i hi => ?_⟩
    have hmem := (hfl i).mpr (hi i (Nat.le_refl i) (by omega))
    cases fl with
    | nil => cases hmem
    | cons x fl => simp [hempty] at hnext
  rw [if_neg hempty]
  by_cases hn : n = 0
  · subst hn
    cases fl with
    | nil => exact absurd hnext hempty
    | cons i fl =>
      have hi : Free p live i := (hfl i).mp (by simp)
      have hrun : FreeRun p live i 0 := by
        intro j hij hj
        obtain rfl : j = i := by omega
        exact hi
      obtain ⟨p1, hrem, hlist, hf⟩ := listRemove_spec h.free (fun _ hj => hj.1) hi
      obtain ⟨hlay, hun⟩ := h.take hrun (hlist.congr fun j => by
        simp only [and_congr_right_iff]
        intro _
        omega) hf
      refine ⟨(some i, (p1.mark i i).charge 1), ?_, hrun, hlay, hun⟩
      simp [hnext, hrem]
  · rw [if_pos hn, allocLinear, hnext]
    refine linearLoop_spec h (Nat.pos_of_ne_zero hn) (l := []) hring (by simpa using hfl)
      (by simp) ?_
    have hnd : fl.Nodup := (nodup_cons.mp hring.nodup).2.of_map _
    have hsub : fl ⊆ range p.count := fun j hj => mem_range.mpr ((hfl j).mp hj).1
    simpa using (hnd.subperm hsub).length_le

end Allocation

/-! ## Release and growth -/

section Release

variable {p : Pool} {live : List Block} {b : Block}

theorem slobsOf_erase (hb : b ∈ live) : slobsOf live = slobsOf (live.erase b) + (b.extra + 1) := by
  have := ((perm_cons_erase hb).map fun b => b.extra + 1).sum_eq
  unfold slobsOf
  rw [this, map_cons, sum_cons, Nat.add_comm]

section

variable (h : Layout p live)

include h

theorem Layout.mem_erase {c : Block} : c ∈ live.erase b ↔ c ≠ b ∧ c ∈ live :=
  h.nodup.mem_erase_iff

section

variable (hb : b ∈ live)

include hb

/-- Without a block, its slobs are free. -/
theorem Layout.free_erase (j : Nat) : Free p (live.erase b) j ↔ Free p live j ∨ b.Has j := by
  constructor
  · rintro ⟨hj, hall⟩
    by_cases hbj : b.Has j
    · exact .inr hbj
    refine .inl ⟨hj, fun c hc hcj => ?_⟩
    by_cases hcb : c = b
    · exact hbj (hcb ▸ hcj)
    · exact hall c (h.mem_erase.mpr ⟨hcb, hc⟩) hcj
  · rintro (⟨hj, hall⟩ | hbj)
    · exact ⟨hj, fun c hc => hall c (h.mem_erase.mp hc).2⟩
    · refine ⟨by have := h.inside b hb; have := hbj.2; omega, fun c hc hcj => ?_⟩
      obtain ⟨hne, hc⟩ := h.mem_erase.mp hc
      exact hne (h.eq_of_has hc hb hcj hbj)

theorem slobFree_spec : ∃ p', p.slobFree b.head = some p' ∧ Layout p' (live.erase b) ∧
      Untouched p (live.erase b) p' := by
  have hin := h.inside b hb
  have hrange : ∀ j, (Free p live j ∨ b.head ≤ j ∧ j ≤ b.head + b.extra) ↔
      Free p (live.erase b) j := fun j => (h.free_erase hb j).symm
  obtain ⟨p', hloop, hlist, hf⟩ := freeLoop_spec
    (p := { p with currAlloc := p.currAlloc - .ofNat (slobSize * (b.extra + 1)) })
    (F := Free p live) (i := b.head) (b.head + b.extra) p.count
    (h.free.of_headers _ rfl rfl fun _ _ => ⟨rfl, rfl⟩) (fun _ hj => hj.1) (Nat.le_add_right _ _)
    hin (hin.trans_le (Nat.le_add_left _ _)) (fun j h1 h2 hfree => hfree.2 b hb ⟨h1, h2⟩)
  have hcount : p'.count = p.count := hf.count_eq
  have hkeep : ∀ j, ¬ Free p (live.erase b) j → p'.slobs j = p.slobs j :=
    fun j hj => hf.slobs_eq j (fun hj' => hj ((hrange j).mp hj'))
  refine ⟨p', ?_, ⟨?_, ?_, ?_, ?_, ?_, ?_⟩, hcount, hf.fail_eq, hf.data_eq, hkeep⟩
  · have hlen : b.head + b.extra - b.head + 1 = b.extra + 1 := by omega
    simp only [slobFree, h.last_eq hb, bind_eq_bind, bind_some, hlen]
    exact hloop
  · rw [hcount]
    exact h.small
  · intro c hc
    rw [hcount]
    exact h.inside c (h.mem_erase.mp hc).2
  · exact h.apart.sublist erase_sublist
  · intro c hc
    rw [hkeep c.head fun hfree => hfree.2 c hc c.has_head]
    exact h.marked c (h.mem_erase.mp hc).2
  · refine hlist.congr fun j => ?_
    rw [hrange j]
    simp [Free, hcount]
  · have hcurr : p'.currAlloc = p.currAlloc - .ofNat (slobSize * (b.extra + 1)) := hf.curr_eq
    rw [hcurr, h.curr, slobsOf_erase hb, Nat.mul_add, UInt32.ofNat_add, UInt32.add_sub_cancel]

theorem Layout.user {p' : Pool} (hcount : p'.count = p.count) (hcurr : p'.currAlloc = p.currAlloc)
    (hprev : p'.prev = p.prev) (hnext : p'.next = p.next)
    (hhead : (p'.slobs b.head).prev = (p.slobs b.head).prev ∧
      (p'.slobs b.head).next = (p.slobs b.head).next)
    (hout : ∀ j, ¬ b.Has j → p'.slobs j = p.slobs j) : Layout p' live := by
  have hfree : ∀ j, Free p live j ↔ Free p' live j := fun j => by simp only [Free, hcount]
  refine ⟨hcount ▸ h.small, hcount ▸ h.inside, h.apart, fun c hc => ?_, ?_, hcurr.trans h.curr⟩
  · by_cases hcb : c = b
    · rw [hcb, hhead.1, hhead.2]
      exact h.marked b hb
    · rw [hout c.head (h.apart_of_ne hc hb hcb c.head c.has_head)]
      exact h.marked c hc
  · refine (h.free.of_headers p' hprev hnext fun j hj => ?_).congr hfree
    rw [hout j (hj.2 b hb)]
    exact ⟨rfl, rfl⟩

omit hb in
theorem Layout.perm {live' : List Block} (hp : live.Perm live') : Layout p live' := by
  have hfree : ∀ j, Free p live j ↔ Free p live' j := fun j => by simp only [Free, hp.mem_iff]
  refine ⟨h.small, fun b hb => h.inside b (hp.mem_iff.mpr hb),
    hp.pairwise h.apart (fun hbc => symm hbc), fun b hb => h.marked b (hp.mem_iff.mpr hb),
    h.free.congr hfree, ?_⟩
  rw [h.curr, slobsOf, slobsOf, (hp.map _).sum_eq]

theorem Layout.expand_eq {n : Nat} (hn : b.extra < n) (hn' : n < 2 ^ 64)
    : p.expand b.head n = p.expandBy b.head (n - b.extra) := by
  rw [expand, h.capacity_eq hb, Option.bind_eq_bind, Option.bind_some, h.getNslobs_capacity hb,
    sizeSub_eq hn.le hn']

/-- `rts_slob_expand` of a block that needs `n` slobs after the first one. -/
theorem expand_spec {n : Nat} (hn : b.extra < n) (hn' : n < 2 ^ 64) :
    (∃ p', p.expand b.head n = some (true, p') ∧ Layout p' (⟨b.head, n⟩ :: live.erase b) ∧
      p'.failAlloc = p.failAlloc ∧ ∀ c ∈ live, Keeps p p' c) ∨
    p.expand b.head n = some (false, p) := by
  have hin := h.inside b hb
  have hscan := linearTail_spec (h.scannable (.inr ⟨b, hb, rfl⟩))
    (show 0 < n - b.extra by omega) hin
  rw [h.expand_eq hb hn hn', expandBy, if_neg (Nat.sub_ne_zero_of_lt hn), h.last_eq hb,
    bind_eq_bind, bind_some]
  cases htail : p.linearTail (b.head + b.extra) (n - b.extra) with
  | none => exact .inr rfl
  | some tail =>
    rw [htail] at hscan
    obtain ⟨htail', hlt, hall⟩ := hscan
    have htail'' : tail = b.head + n := by omega
    subst htail''
    obtain ⟨p1, hrem, hlist, hf⟩ := removeRun_spec (i := b.head + b.extra + 1)
      (n := b.head + n - (b.head + b.extra)) h.free (fun _ hj => hj.1)
      (fun j h1 h2 => hall j (by omega) (by omega))
    refine .inl ⟨(p1.extend b.head (b.head + n)).charge (n - b.extra), by simp [hrem], ?_⟩
    have hbhead : ¬ Free p live b.head := fun hfree => hfree.2 b hb b.has_head
    have hne : ∀ j, j ≠ b.head →
        ((p1.extend b.head (b.head + n)).charge (n - b.extra)).slobs j = p1.slobs j :=
      fun j hj => Function.update_of_ne hj _ _
    have hhead : ((p1.extend b.head (b.head + n)).charge (n - b.extra)).slobs b.head =
        { p.slobs b.head with prev := .slob (b.head + n) } := by
      simp [charge, extend, hf.slobs_eq _ hbhead]
    have hsame : ∀ c ∈ live, ∀ j, c.Has j → p1.slobs j = p.slobs j :=
      fun c hc j hj => hf.slobs_eq j fun hfree => hfree.2 c hc hj
    refine ⟨⟨?_, ?_, ?_, ?_, ?_, ?_⟩, hf.fail_eq, ?_⟩
    · show p1.count * slobSize < 2 ^ 64
      rw [hf.count_eq]
      exact h.small
    · intro c hc
      show c.head + c.extra < p1.count
      rw [hf.count_eq]
      rcases mem_cons.mp hc with rfl | hc
      · exact hlt
      · exact h.inside c (h.mem_erase.mp hc).2
    · refine pairwise_cons.mpr ⟨fun c hc j hj hcj => ?_, h.apart.sublist erase_sublist⟩
      obtain ⟨hcb, hc⟩ := h.mem_erase.mp hc
      by_cases hle : j ≤ b.head + b.extra
      · exact hcb (h.eq_of_has hc hb hcj ⟨hj.1, hle⟩)
      · exact (hall j (by omega) hj.2).2 c hc hcj
    · intro c hc
      rcases mem_cons.mp hc with rfl | hc
      · rw [hhead]
        exact ⟨(h.marked b hb).1, rfl⟩
      obtain ⟨hcb, hc⟩ := h.mem_erase.mp hc
      have hne' : c.head ≠ b.head := fun he =>
        hcb (h.eq_of_has hc hb c.has_head (he ▸ b.has_head))
      rw [hne _ hne', hsame c hc c.head c.has_head]
      exact h.marked c hc
    · refine (hlist.of_headers ((p1.extend b.head (b.head + n)).charge (n - b.extra))
        rfl rfl fun j hj => ?_).congr fun j => ?_
      · rw [hne j fun he => hbhead (he ▸ hj.1)]
        exact ⟨rfl, rfl⟩
      have herase := h.free_erase hb j
      show _ ↔ j < p1.count ∧ _
      simp only [mem_cons, forall_eq_or_imp, Block.Has, Free, hf.count_eq] at herase ⊢
      constructor
      · rintro ⟨hj, hout⟩
        have hnb := hj.2 b hb
        refine ⟨hj.1, fun hj' => ?_, (herase.mpr (.inl hj)).2⟩
        omega
      · rintro ⟨hj, hout, hall'⟩
        refine ⟨(herase.mp ⟨hj, hall'⟩).resolve_right ?_, ?_⟩ <;> omega
    · have hcurr : (p1.extend b.head (b.head + n)).currAlloc = .ofNat (slobSize * slobsOf live) :=
        hf.curr_eq.trans h.curr
      rw [charge_curr _ hcurr, slobsOf_erase hb]
      congr 2
      show _ = n + 1 + slobsOf (live.erase b)
      omega
    · intro c hc
      refine ⟨?_, fun t ht ht' => ?_⟩
      · by_cases hcb : c.head = b.head
        · rw [hcb, hhead]
        · rw [hne _ hcb, hsame c hc _ c.has_head]
      · have hct : c.Has (c.head + t) := ⟨by omega, by omega⟩
        rw [hne _ fun he => ?_, hsame c hc _ hct]
        have hcb := h.eq_of_has hc hb hct (he ▸ b.has_head)
        rw [hcb] at he
        omega

end

end

end Release

end OpenSync.Rts
