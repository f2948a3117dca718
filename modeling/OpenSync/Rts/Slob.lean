import OpenSync.Lib.Ring

/-!
# The slob allocator of `rts_slob.c`

A pool is an array of slobs.  The free slobs are in a circular list through their headers.  A block
is a run of slobs whose first header has no next link and leads back to the last slob of the run.
The headers of the other slobs of a block belong to its user.

A link is the address of a list header, or null, or any other word.  A use of a link that is no
address of a header is `none`, and so is a loop of more rounds than there are slobs.
-/

namespace OpenSync.Rts

open OpenSync.Lib Function List

/-- A pointer to a list header, as far as the pool is concerned. -/
inductive Link where
  | null
  | pool
  | slob (i : Nat)
  | other (word : UInt64)
deriving DecidableEq

/-- `struct rts_slob`. -/
structure Slob where
  prev : Link
  next : Link
  data : Fin 32 → UInt8

/-- `struct rts_pool`, with its slobs.  `count` is `tail - head`. -/
structure Pool where
  slobs : Nat → Slob
  prev : Link
  next : Link
  count : Nat
  currAlloc : UInt32
  peakAlloc : UInt32
  failAlloc : UInt32

/-- `sizeof(struct rts_slob)`. -/
def slobSize : Nat := 48

/-- `SLOB_DATA_SIZE`. -/
def slobDataSize : Nat := 32

/-- `sizeof(struct rts_list_head)`. -/
def listHeadSize : Nat := 16

/-- `get_nslobs`: the number of slobs that `size` bytes need after the first one. -/
def getNslobs (size : Nat) : Nat := (size + listHeadSize - 1) % 2 ^ 64 / slobSize

/-- A difference of the type `size_t`. -/
def sizeSub (a b : Nat) : Nat := (a + 2 ^ 64 - b) % 2 ^ 64

theorem sizeSub_eq {a b : Nat} (h : b ≤ a) (ha : a < 2 ^ 64) : sizeSub a b = a - b := by
  rw [sizeSub, Nat.sub_add_comm h, Nat.add_mod_right]
  exact Nat.mod_eq_of_lt (Nat.lt_of_le_of_lt (Nat.sub_le a b) ha)

namespace Pool

/-! ## Lists -/

def getPrev (p : Pool) : Link → Option Link
  | .pool => some p.prev
  | .slob i => if i < p.count then some (p.slobs i).prev else none
  | _ => none

def getNext (p : Pool) : Link → Option Link
  | .pool => some p.next
  | .slob i => if i < p.count then some (p.slobs i).next else none
  | _ => none

def setPrev (p : Pool) (v : Link) : Link → Option Pool
  | .pool => some { p with prev := v }
  | .slob i =>
    if i < p.count then
      some { p with slobs := update p.slobs i { p.slobs i with prev := v } }
    else none
  | _ => none

def setNext (p : Pool) (v : Link) : Link → Option Pool
  | .pool => some { p with next := v }
  | .slob i =>
    if i < p.count then
      some { p with slobs := update p.slobs i { p.slobs i with next := v } }
    else none
  | _ => none

/-- `rts_list_insert` into the list of the pool. -/
def listInsert (p : Pool) (item : Link) : Option Pool := do
  let p ← p.setNext .pool item
  let p ← p.setPrev p.prev item
  let p ← p.setPrev item (← p.getNext item)
  p.setNext item (← p.getPrev item)

/-- `rts_list_remove`. -/
def listRemove (p : Pool) (item : Link) : Option Pool := do
  let p ← p.setPrev (← p.getPrev item) (← p.getNext item)
  p.setNext (← p.getNext item) (← p.getPrev item)

/-- `rts_list_remove` of the slobs from `i` on, `n` of them. -/
def removeRun (p : Pool) (i : Nat) : Nat → Option Pool
  | 0 => some p
  | n + 1 => do
    let p ← p.listRemove (.slob i)
    p.removeRun (i + 1) n

/-! ## Blocks -/

/-- The last slob of the block at `i`, from its header. -/
def last (p : Pool) (i : Nat) : Option Nat :=
  match (p.slobs i).prev with
  | .slob l => some l
  | _ => none

/-- `rts_slob_capacity`. -/
def capacity (p : Pool) (i : Nat) : Option Nat := do
  let l ← p.last i
  some ((l - i) * slobSize + slobDataSize)

/-- The counters after `n` more slobs are in use. -/
def charge (p : Pool) (n : Nat) : Pool :=
  let curr := p.currAlloc + UInt32.ofNat (slobSize * n)
  { p with currAlloc := curr, peakAlloc := max curr p.peakAlloc }

/-- The loop of `rts_slob_free`. -/
def freeLoop (p : Pool) (last i : Nat) : Nat → Option Pool
  | 0 => none
  | fuel + 1 => do
    let p ← p.listInsert (.slob i)
    if last = i then some p else p.freeLoop last (i + 1) fuel

/-- `rts_slob_free`. -/
def slobFree (p : Pool) (i : Nat) : Option Pool := do
  let l ← p.last i
  let p := { p with currAlloc := p.currAlloc - UInt32.ofNat (slobSize * (l - i + 1)) }
  p.freeLoop l i p.count

/-- The loop of `rts_slob_alloc_linear_tail`, at the slob `tail` after `m` free ones. -/
def linearTailLoop (p : Pool) (n : Nat) : Nat → Nat → Nat → Option Nat
  | 0, _, _ => none
  | fuel + 1, tail, m =>
    if (p.slobs tail).next = .null then none
    else if m + 1 = n then some tail
    else if tail + 1 = p.count then none
    else p.linearTailLoop n fuel (tail + 1) (m + 1)

/-- `rts_slob_alloc_linear_tail`. -/
def linearTail (p : Pool) (head n : Nat) : Option Nat :=
  if head + 1 = p.count then none else p.linearTailLoop n p.count (head + 1) 0

/-- The magic markers of a block from `head` to `tail`. -/
def mark (p : Pool) (head tail : Nat) : Pool :=
  let slob := { p.slobs head with next := .null, prev := .slob tail }
  { p with slobs := update p.slobs head slob }

/-- The marker of a block at `head` that ends at `tail` from now on. -/
def extend (p : Pool) (head tail : Nat) : Pool :=
  let slob := { p.slobs head with prev := .slob tail }
  { p with slobs := update p.slobs head slob }

/-- The loop of `rts_slob_alloc_linear`, at the entry `head` of the free list. -/
def linearLoop (p : Pool) (n : Nat) : Nat → Link → Option (Option Nat × Pool)
  | _, .pool => some (none, p)
  | fuel + 1, .slob head =>
    match p.linearTail head n with
    | some tail => do
      let p ← p.removeRun head (tail + 1 - head)
      some (some head, (p.mark head tail).charge (n + 1))
    | none => do p.linearLoop n fuel (← p.getNext (.slob head))
  | _, _ => none

/-- `rts_slob_alloc_linear`. -/
def allocLinear (p : Pool) (n : Nat) : Option (Option Nat × Pool) :=
  p.linearLoop n p.count p.next

/-- `rts_slob_alloc`. -/
def slobAlloc (p : Pool) (n : Nat) : Option (Option Nat × Pool) :=
  if p.next = .pool then some (none, p)
  else if n ≠ 0 then p.allocLinear n
  else
    match p.next with
    | .slob i => do
      let p ← p.listRemove (.slob i)
      some (some i, (p.mark i i).charge 1)
    | _ => none

/-- The part of `rts_slob_expand` after `m` is known, the number of slobs to add. -/
def expandBy (p : Pool) (i m : Nat) : Option (Bool × Pool) :=
  if m = 0 then some (false, p)
  else do
    let l ← p.last i
    match p.linearTail l m with
    | none => some (false, p)
    | some tail =>
      let p ← p.removeRun (l + 1) (tail - l)
      some (true, (p.extend i tail).charge m)

/-- `rts_slob_expand`.  The block stays where it is. -/
def expand (p : Pool) (i n : Nat) : Option (Bool × Pool) := do
  let cap ← p.capacity i
  p.expandBy i (sizeSub n (getNslobs cap))

/-! ## The interface -/

/-- A failed request. -/
def fail (p : Pool) : Pool := { p with failAlloc := p.failAlloc + 1 }

/-- `memcpy` of the `cap` bytes of a block to another: the data of the first slob, and the
whole slobs after it. -/
def copy (p : Pool) (dst src cap : Nat) : Pool :=
  { p with slobs := fun j =>
      if j = dst then { p.slobs dst with data := (p.slobs src).data }
      else if dst < j ∧ j ≤ dst + (cap - slobDataSize) / slobSize then p.slobs (src + (j - dst))
      else p.slobs j }

/-- `rts_pool_free`. -/
def poolFree (p : Pool) (i : Nat) : Option Pool := p.slobFree i

/-- `rts_pool_alloc`, with the first slob of the block. -/
def poolAlloc (p : Pool) (size : Nat) : Option (Option Nat × Pool) := do
  match ← p.slobAlloc (getNslobs size) with
  | (none, p) => some (none, p.fail)
  | (some i, p) => some (some i, p)

/-- `rts_pool_realloc`, with the first slob and the capacity of the block. -/
def poolRealloc (p : Pool) (data : Option Nat) (size : Nat) : Option (Option (Nat × Nat) × Pool) :=
  match data with
  | none => do
    match ← p.slobAlloc (getNslobs size) with
    | (none, p) => some (none, p.fail)
    | (some i, p) => some (some (i, ← p.capacity i), p)
  | some i => do
    let cap ← p.capacity i
    if size ≤ cap then some (some (i, cap), p)
    else if getNslobs size = 0 then some (none, p.fail)
    else
      match ← p.expand i (getNslobs size) with
      | (true, p) => some (some (i, ← p.capacity i), p)
      | (false, p) =>
        match ← p.slobAlloc (getNslobs size) with
        | (none, p) => some (none, p.fail)
        | (some j, p) =>
          if (← p.capacity j) > cap then
            let p ← (p.copy j i cap).slobFree i
            some (some (j, ← p.capacity j), p)
          else
            let p ← p.slobFree j
            some (none, p.fail)

/-- The loop of `rts_pool_init`. -/
def initLoop (p : Pool) : Nat → Nat → Option Pool
  | _, 0 => some p
  | i, n + 1 => do
    let p ← p.listInsert (.slob i)
    p.initLoop (i + 1) n

/-- `rts_pool_init` on `len` bytes with any content. -/
def poolInit (slobs : Nat → Slob) (len : Nat) : Option Pool :=
  initLoop
    { slobs, prev := .pool, next := .pool, count := len / slobSize, currAlloc := 0,
      peakAlloc := 0, failAlloc := 0 } 0 (len / slobSize)

/-! ## The links -/

def prevOf (p : Pool) : Link → Link
  | .pool => p.prev
  | .slob i => (p.slobs i).prev
  | _ => .null

def nextOf (p : Pool) : Link → Link
  | .pool => p.next
  | .slob i => (p.slobs i).next
  | _ => .null

/-- The address of a list header. -/
def IsNode (p : Pool) (a : Link) : Prop := a = .pool ∨ ∃ i < p.count, a = .slob i

/-- Only the headers of the slobs in `S` may differ, and the list of the pool. -/
structure Frame (S : Nat → Prop) (p p' : Pool) : Prop where
  count_eq : p'.count = p.count
  curr_eq : p'.currAlloc = p.currAlloc
  peak_eq : p'.peakAlloc = p.peakAlloc
  fail_eq : p'.failAlloc = p.failAlloc
  data_eq : ∀ j, (p'.slobs j).data = (p.slobs j).data
  slobs_eq : ∀ j, ¬ S j → p'.slobs j = p.slobs j

end Pool

namespace Pool

variable {p p' p'' : Pool} {S S' : Nat → Prop} {a v : Link}

theorem Frame.refl (S : Nat → Prop) (p : Pool) : Frame S p p :=
  ⟨rfl, rfl, rfl, rfl, fun _ => rfl, fun _ _ => rfl⟩

theorem Frame.trans (h : Frame S p p') (h' : Frame S p' p'') : Frame S p p'' :=
  ⟨h'.count_eq.trans h.count_eq, h'.curr_eq.trans h.curr_eq, h'.peak_eq.trans h.peak_eq,
    h'.fail_eq.trans h.fail_eq, fun j => (h'.data_eq j).trans (h.data_eq j),
    fun j hj => (h'.slobs_eq j hj).trans (h.slobs_eq j hj)⟩

theorem Frame.mono (h : Frame S p p') (hS : ∀ j, S j → S' j) : Frame S' p p' :=
  ⟨h.count_eq, h.curr_eq, h.peak_eq, h.fail_eq, h.data_eq, fun j hj => h.slobs_eq j (hj ∘ hS j)⟩

theorem getPrev_eq (ha : p.IsNode a) : p.getPrev a = some (p.prevOf a) := by
  rcases ha with rfl | ⟨i, hi, rfl⟩
  · rfl
  · simp [getPrev, prevOf, hi]

theorem getNext_eq (ha : p.IsNode a) : p.getNext a = some (p.nextOf a) := by
  rcases ha with rfl | ⟨i, hi, rfl⟩
  · rfl
  · simp [getNext, nextOf, hi]

theorem setPrev_spec (ha : p.IsNode a) (v : Link) :
    ∃ p', p.setPrev v a = some p' ∧ p'.prevOf = update p.prevOf a v ∧
      p'.nextOf = p.nextOf ∧ Frame (fun j => a = .slob j) p p' := by
  rcases ha with rfl | ⟨i, hi, rfl⟩
  · refine ⟨_, rfl, ?_, ?_, ⟨rfl, rfl, rfl, rfl, fun _ => rfl, fun _ _ => rfl⟩⟩
    · funext b
      cases b <;> simp [prevOf]
    · funext b
      cases b <;> rfl
  refine ⟨_, if_pos hi, ?_, ?_, ⟨rfl, rfl, rfl, rfl, fun j => ?_, fun j hj => ?_⟩⟩
  · funext b
    cases b with
    | slob j => by_cases hj : j = i <;> simp [prevOf, hj]
    | _ => simp [prevOf]
  · funext b
    cases b with
    | slob j => by_cases hj : j = i <;> simp [nextOf, hj]
    | _ => rfl
  · by_cases hj : j = i <;> simp [hj]
  · have hji : j ≠ i := fun h => hj (h ▸ rfl)
    simp [hji]

theorem setNext_spec (ha : p.IsNode a) (v : Link) :
    ∃ p', p.setNext v a = some p' ∧ p'.nextOf = update p.nextOf a v ∧
      p'.prevOf = p.prevOf ∧ Frame (fun j => a = .slob j) p p' := by
  rcases ha with rfl | ⟨i, hi, rfl⟩
  · refine ⟨_, rfl, ?_, ?_, ⟨rfl, rfl, rfl, rfl, fun _ => rfl, fun _ _ => rfl⟩⟩
    · funext b
      cases b <;> simp [nextOf]
    · funext b
      cases b <;> rfl
  refine ⟨_, if_pos hi, ?_, ?_, ⟨rfl, rfl, rfl, rfl, fun j => ?_, fun j hj => ?_⟩⟩
  · funext b
    cases b with
    | slob j => by_cases hj : j = i <;> simp [nextOf, hj]
    | _ => simp [nextOf]
  · funext b
    cases b with
    | slob j => by_cases hj : j = i <;> simp [prevOf, hj]
    | _ => rfl
  · by_cases hj : j = i <;> simp [hj]
  · have hji : j ≠ i := fun h => hj (h ▸ rfl)
    simp [hji]

/-- The free list has the slobs in `F`, each once. -/
def FreeList (p : Pool) (F : Nat → Prop) : Prop :=
  ∃ fl : List Nat, Ring p.prevOf p.nextOf .pool (fl.map .slob) ∧ ∀ j, j ∈ fl ↔ F j

section Lists

variable {F : Nat → Prop} {i : Nat}

theorem Frame.isNode (h : Frame S p p') {b : Link} (hb : p.IsNode b) : p'.IsNode b := by
  simpa [IsNode, h.count_eq] using hb

section

variable (h : p.FreeList F) (hF : ∀ j, F j → j < p.count)

include h hF

theorem listInsert_spec (hi : i < p.count) (hnot : ¬ F i) :
    ∃ p', p.listInsert (.slob i) = some p' ∧ p'.FreeList (fun j => F j ∨ j = i) ∧
      Frame (fun j => F j ∨ j = i) p p' := by
  obtain ⟨fl, hring, hfl⟩ := h
  have hz : Link.slob i ∉ Link.pool :: fl.map .slob := by simpa [hfl] using hnot
  have hnode : p.IsNode (.slob i) := .inr ⟨i, hi, rfl⟩
  -- the last node of the ring
  have hlast := mem_of_getLast? hring.prev_root
  have hlast' : p.IsNode (p.prevOf .pool) ∧ ∀ j, p.prevOf .pool = .slob j → F j := by
    rcases mem_cons.mp hlast with hp | hp
    · exact ⟨.inl hp, by simp [hp]⟩
    · obtain ⟨j, hj, hje⟩ := mem_map.mp hp
      rw [← hje]
      exact ⟨.inr ⟨j, hF j ((hfl j).mp hj), rfl⟩, fun j' hj' => Link.slob.inj hj' ▸ (hfl j).mp hj⟩
  obtain ⟨p1, h1, hn1, hp1, hf1⟩ := setNext_spec hnode .pool
  obtain ⟨p2, h2, hp2, hn2, hf2⟩ := setPrev_spec (hf1.isNode hnode) p1.prev
  have hprev : p1.prev = p.prevOf .pool := congrFun hp1 .pool
  rw [hprev] at h2 hp2
  have hget2 : p2.getNext (.slob i) = some .pool := by
    rw [getNext_eq (hf2.isNode (hf1.isNode hnode)), hn2, hn1, update_self]
  obtain ⟨p3, h3, hp3, hn3, hf3⟩ := setPrev_spec (p := p2) (a := .pool) (.inl rfl) (.slob i)
  have hnode3 : ∀ {b}, p.IsNode b → p3.IsNode b :=
    fun hb => hf3.isNode (hf2.isNode (hf1.isNode hb))
  have hget3 : p3.getPrev (.slob i) = some (p.prevOf .pool) := by
    rw [getPrev_eq (hnode3 hnode), hp3, update_of_ne (by simp), hp2, update_self]
  obtain ⟨p4, h4, hn4, hp4, hf4⟩ := setNext_spec (hnode3 hlast'.1) (.slob i)
  refine ⟨p4, ?_, ⟨fl ++ [i], ?_, ?_⟩, ?_⟩
  · simp [listInsert, h1, hprev, h2, hget2, h3, hget3, h4]
  · have := hring.insert hz
    rw [map_append, hp4, hp3, hp2, hp1, hn4, hn3, hn2, hn1]
    exact this
  · intro j
    simp [hfl]
  · refine (hf1.mono ?_).trans ((hf2.mono ?_).trans ((hf3.mono ?_).trans (hf4.mono ?_)))
    · intro j hj
      exact .inr (Link.slob.inj hj).symm
    · intro j hj
      exact .inr (Link.slob.inj hj).symm
    · intro j hj
      cases hj
    · intro j hj
      exact .inl (hlast'.2 j hj)

theorem listRemove_spec (hi : F i) :
    ∃ p', p.listRemove (.slob i) = some p' ∧ p'.FreeList (fun j => F j ∧ j ≠ i) ∧ Frame F p p' := by
  obtain ⟨fl, hring, hfl⟩ := h
  obtain ⟨l, r, rfl⟩ := append_of_mem ((hfl i).mpr hi)
  rw [map_append, map_cons] at hring
  have hnode : p.IsNode (.slob i) := .inr ⟨i, hF i hi, rfl⟩
  have hmem : ∀ {b}, b ∈ Link.pool :: (l ++ i :: r).map .slob →
      p.IsNode b ∧ ∀ j, b = .slob j → F j := by
    intro b hb
    rcases mem_cons.mp hb with rfl | hb
    · exact ⟨.inl rfl, by simp⟩
    · obtain ⟨j, hj, rfl⟩ := mem_map.mp hb
      exact ⟨.inr ⟨j, hF j ((hfl j).mp hj), rfl⟩, fun j' hj' => Link.slob.inj hj' ▸ (hfl j).mp hj⟩
  have hprev : p.prevOf (.slob i) ∈ Link.pool :: l.map .slob := mem_of_getLast? hring.prev_eq
  have hnext : p.nextOf (.slob i) ∈ r.map .slob ++ [.pool] := by
    rw [hring.next_eq]
    cases r <;> simp
  have hprev' := hmem (b := p.prevOf (.slob i)) (by
    simp only [map_append, mem_cons, mem_append] at hprev ⊢
    tauto)
  have hnext' := hmem (b := p.nextOf (.slob i)) (by
    simp only [map_append, map_cons, mem_cons, mem_append, not_mem_nil, or_false] at hnext ⊢
    tauto)
  have hne : Link.slob i ≠ p.nextOf (.slob i) := by
    intro he
    rw [← he] at hnext
    have hnd := hring.nodup
    simp only [nodup_cons, nodup_append, mem_append, mem_singleton,
      reduceCtorEq, or_false] at hnd hnext
    exact hnd.2.2.1.1 hnext
  obtain ⟨p1, h1, hp1, hn1, hf1⟩ := setPrev_spec hnext'.1 (p.prevOf (.slob i))
  have hget1 : p1.getNext (.slob i) = some (p.nextOf (.slob i)) := by
    rw [getNext_eq (hf1.isNode hnode), hn1]
  have hget1' : p1.getPrev (.slob i) = some (p.prevOf (.slob i)) := by
    rw [getPrev_eq (hf1.isNode hnode), hp1, update_of_ne hne]
  obtain ⟨p2, h2, hn2, hp2, hf2⟩ := setNext_spec (hf1.isNode hprev'.1) (p.nextOf (.slob i))
  refine ⟨p2, ?_, ⟨l ++ r, ?_, ?_⟩, ?_⟩
  · simp [listRemove, getPrev_eq hnode, getNext_eq hnode, h1, hget1, hget1', h2]
  · rw [map_append, hp2, hp1, hn2, hn1]
    exact hring.remove
  · intro j
    have hnd : (l ++ i :: r).Nodup := by
      have := hring.nodup
      rw [← map_cons, ← map_append] at this
      exact (nodup_cons.mp this).2.of_map _
    have hnot : i ∉ l ++ r := by
      rw [(perm_middle).nodup_iff] at hnd
      exact (nodup_cons.mp hnd).1
    show j ∈ l ++ r ↔ F j ∧ j ≠ i
    rw [← hfl j]
    constructor
    · intro hj
      refine ⟨?_, fun he => hnot (he ▸ hj)⟩
      simp only [mem_append, mem_cons] at hj ⊢
      tauto
    · rintro ⟨hj, hji⟩
      simp only [mem_append, mem_cons] at hj ⊢
      tauto
  · exact (hf1.mono fun j hj => hnext'.2 j hj).trans (hf2.mono fun j hj => hprev'.2 j hj)

omit h hF in
theorem FreeList.congr {G : Nat → Prop} (h : p.FreeList F) (hG : ∀ j, F j ↔ G j) :
    p.FreeList G := by
  obtain ⟨fl, hring, hfl⟩ := h
  exact ⟨fl, hring, fun j => (hfl j).trans (hG j)⟩

/-- The `n` slobs from `i` on are taken out of the free list. -/
theorem removeRun_spec {n : Nat} (hrun : ∀ j, i ≤ j → j < i + n → F j) :
    ∃ p', p.removeRun i n = some p' ∧ p'.FreeList (fun j => F j ∧ ¬ (i ≤ j ∧ j < i + n)) ∧
      Frame F p p' := by
  induction n generalizing p F i with
  | zero => exact ⟨p, rfl, h.congr fun j => by simp, .refl F p⟩
  | succ n ih =>
    obtain ⟨p1, h1, hfree1, hf1⟩ := listRemove_spec h hF (hrun i (Nat.le_refl i) (by omega))
    obtain ⟨p', h', hfree', hf'⟩ := ih (i := i + 1) hfree1
      (fun j hj => hf1.count_eq ▸ hF j hj.1)
      (fun j hij hj => ⟨hrun j (by omega) (by omega), by omega⟩)
    refine ⟨p', by simp [removeRun, h1, h'], hfree'.congr fun j => ?_,
      hf1.trans (hf'.mono fun j hj => hj.1)⟩
    constructor
    · rintro ⟨⟨hj, hne⟩, hnot⟩
      exact ⟨hj, by omega⟩
    · rintro ⟨hj, hnot⟩
      exact ⟨⟨hj, by omega⟩, by omega⟩

end

/-- The slobs from `i` to `last` go to the free list. -/
theorem freeLoop_spec (last fuel : Nat) (h : p.FreeList F) (hF : ∀ j, F j → j < p.count)
    (hle : i ≤ last) (hlast : last < p.count) (hfuel : last < i + fuel)
    (hrun : ∀ j, i ≤ j → j ≤ last → ¬ F j) :
    ∃ p', p.freeLoop last i fuel = some p' ∧ p'.FreeList (fun j => F j ∨ i ≤ j ∧ j ≤ last) ∧
      Frame (fun j => F j ∨ i ≤ j ∧ j ≤ last) p p' := by
  induction fuel generalizing p F i with
  | zero => omega
  | succ fuel ih =>
    obtain ⟨p1, h1, hfree1, hf1⟩ := listInsert_spec h hF (by omega) (hrun i (Nat.le_refl i) hle)
    by_cases hend : last = i
    · subst hend
      have hiff : ∀ j, (F j ∨ j = last) ↔ F j ∨ last ≤ j ∧ j ≤ last := fun j => by
        rw [← Nat.le_antisymm_iff, eq_comm]
      exact ⟨p1, by simp [freeLoop, h1], hfree1.congr hiff, hf1.mono fun j => (hiff j).mp⟩
    obtain ⟨p', h', hfree', hf'⟩ := ih (i := i + 1) hfree1
      (fun j hj => by
        rw [hf1.count_eq]
        rcases hj with hj | rfl
        · exact hF j hj
        · omega)
      (by omega) (hf1.count_eq ▸ hlast) (by omega)
      (fun j hij hj hFj => by
        rcases hFj with hFj | rfl
        · exact hrun j (by omega) hj hFj
        · omega)
    have hiff : ∀ j, ((F j ∨ j = i) ∨ i + 1 ≤ j ∧ j ≤ last) ↔ F j ∨ i ≤ j ∧ j ≤ last := by
      intro j
      constructor
      · rintro ((hj | rfl) | hj)
        · exact .inl hj
        · exact .inr ⟨Nat.le_refl j, hle⟩
        · exact .inr ⟨by omega, hj.2⟩
      · rintro (hj | hj)
        · exact .inl (.inl hj)
        · by_cases hji : j = i
          · exact .inl (.inr hji)
          · exact .inr ⟨by omega, hj.2⟩
    refine ⟨p', by simp [freeLoop, h1, hend, h'], hfree'.congr hiff, ?_⟩
    exact (hf1.mono fun j hj => (hiff j).mp (.inl hj)).trans (hf'.mono fun j => (hiff j).mp)

theorem initLoop_spec {n : Nat} (h : p.FreeList (fun j => j < i)) (hn : i + n = p.count) :
    ∃ p', p.initLoop i n = some p' ∧ p'.FreeList (fun j => j < p.count) ∧
      Frame (fun _ => True) p p' := by
  induction n generalizing p i with
  | zero => exact ⟨p, rfl, h.congr fun j => by omega, .refl _ p⟩
  | succ n ih =>
    obtain ⟨p1, h1, hfree1, hf1⟩ := listInsert_spec h (fun j hj => by omega)
      (show i < p.count by omega) (Nat.lt_irrefl i)
    obtain ⟨p', h', hfree', hf'⟩ := ih (i := i + 1) (hfree1.congr fun j => by omega)
      (by rw [hf1.count_eq]; omega)
    refine ⟨p', by simp [initLoop, h1, h'], by rwa [hf1.count_eq] at hfree', ?_⟩
    exact (hf1.mono fun _ _ => trivial).trans hf'

theorem FreeList.next_ne (h : p.FreeList F) (hi : F i) : (p.slobs i).next ≠ .null := by
  obtain ⟨fl, hring, hfl⟩ := h
  obtain ⟨l, r, rfl⟩ := append_of_mem ((hfl i).mpr hi)
  rw [map_append] at hring
  have : p.nextOf (.slob i) = (r.map Link.slob).headD .pool := hring.next_eq
  show p.nextOf (.slob i) ≠ .null
  rw [this]
  cases r <;> simp

/-- A slob right behind free ones is free or has no next link. -/
def Scannable (p : Pool) (F : Nat → Prop) (head : Nat) : Prop :=
  ∀ j, head < j → j < p.count → (∀ k, head < k → k < j → F k) → ((p.slobs j).next ≠ .null ↔ F j)

/-- The outcome of a scan for `n` free slobs behind `head`. -/
def Scanned (p : Pool) (F : Nat → Prop) (head n : Nat) : Option Nat → Prop
  | some tail => tail = head + n ∧ tail < p.count ∧ ∀ j, head < j → j ≤ tail → F j
  | none => ¬ (head + n < p.count ∧ ∀ j, head < j → j ≤ head + n → F j)

theorem linearTailLoop_spec {head n m fuel : Nat} (hscan : p.Scannable F head) (hm : m < n)
    (htail : head + m + 1 < p.count) (hfuel : p.count ≤ head + m + 1 + fuel)
    (hfree : ∀ k, head < k → k < head + m + 1 → F k) :
    p.Scanned F head n (p.linearTailLoop n fuel (head + m + 1) m) := by
  induction fuel generalizing m with
  | zero => omega
  | succ fuel ih =>
    have hiff := hscan (head + m + 1) (by omega) htail hfree
    rw [linearTailLoop]
    by_cases hnull : (p.slobs (head + m + 1)).next = .null
    · rw [if_pos hnull]
      rintro ⟨-, hall⟩
      exact hiff.mpr (hall (head + m + 1) (by omega) (by omega)) hnull
    have hfree' : ∀ k, head < k → k < head + (m + 1) + 1 → F k := by
      intro k hk hlt
      by_cases hkm : k = head + m + 1
      · exact hkm ▸ hiff.mp hnull
      · exact hfree k hk (by omega)
    rw [if_neg hnull]
    by_cases hmn : m + 1 = n
    · rw [if_pos hmn]
      exact ⟨by omega, htail, fun j hj hle => hfree' j hj (by omega)⟩
    rw [if_neg hmn]
    by_cases hend : head + m + 1 + 1 = p.count
    · rw [if_pos hend]
      rintro ⟨hlt, -⟩
      omega
    · rw [if_neg hend]
      exact ih (m := m + 1) (by omega) (by omega) (by omega) hfree'

theorem linearTail_spec {head n : Nat} (hscan : p.Scannable F head) (hn : 0 < n)
    (hhead : head < p.count) : p.Scanned F head n (p.linearTail head n) := by
  rw [linearTail]
  by_cases hend : head + 1 = p.count
  · rw [if_pos hend]
    rintro ⟨hlt, -⟩
    omega
  · rw [if_neg hend]
    exact linearTailLoop_spec (m := 0) hscan hn (by omega) (by omega) (fun k hk hlt => by omega)

end Lists

end Pool

end OpenSync.Rts
