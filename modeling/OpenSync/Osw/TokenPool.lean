import OpenSync.Osw.Token

/-!
# Tokens are unique

`Inv` relates the state to the references that are in use, `live`: a pool is in the tree exactly for
the stations that have such a reference, its list holds them, and the bits that are marked in the
pool are those marked in its references, each in one of them.  `Users` is the callers' side: what
they have asked for and been given, and not given back.

A call changes at most the pool of one station.  `Inv.at` is the common part of the proofs that the
functions keep the invariant.
-/

namespace OpenSync.Osw.Token

open OpenSync.Lib Function List Option State Bool

variable {A P R : Type} {w : Nat}

/-! ## The invariant -/

/-- The bit is marked in the reference. -/
def Marked (s : State A P R w) (r : R) (i : Nat) : Prop := (s.refs r).tokens.test i = true

/-- The marks of a pool are those of its references, none of which has a bit of another one. -/
structure PoolOk (s : State A P R w) (a : A) (p : P) : Prop where
  key : (s.pools p).key = a
  last : (s.pools p).lastBitUsed < tokenCount
  nodup : (s.pools p).refList.Nodup
  pool : ∀ r ∈ (s.pools p).refList, (s.refs r).pool = p
  range : ∀ r ∈ (s.pools p).refList, ∀ i, Marked s r i → i < tokenCount
  union : ∀ i, (s.pools p).tokens.test i = true ↔ ∃ r ∈ (s.pools p).refList, Marked s r i
  disjoint : ∀ r ∈ (s.pools p).refList, ∀ r' ∈ (s.pools p).refList, ∀ i,
    Marked s r i → Marked s r' i → r = r'

/-- The state against the references that are in use, each for a station. -/
structure Core (s : State A P R w) (live : R → Option A) : Prop where
  ok : ∀ a p, s.tree a = some p → PoolOk s a p
  live : ∀ r a, live r = some a ↔ ∃ p, s.tree a = some p ∧ r ∈ (s.pools p).refList

/-- Between two calls every pool has a reference. -/
structure Inv (s : State A P R w) (live : R → Option A) : Prop extends Core s live where
  nonempty : ∀ a p, s.tree a = some p → (s.pools p).refList ≠ []

variable {s s' : State A P R w} {live live' : R → Option A} {a b : A} {p q : P} {r : R}

theorem PoolOk.congr (h : PoolOk s a p) (hp : s'.pools p = s.pools p)
    (hr : ∀ r ∈ (s.pools p).refList, s'.refs r = s.refs r) : PoolOk s' a p := by
  have hmark : ∀ r ∈ (s.pools p).refList, ∀ i, Marked s' r i ↔ Marked s r i := by
    intro r hmem i
    rw [Marked, Marked, hr r hmem]
  refine ⟨?_, ?_, ?_, ?_, ?_, ?_, ?_⟩ <;> rw [hp]
  · exact h.key
  · exact h.last
  · exact h.nodup
  · intro r hmem
    rw [hr r hmem]
    exact h.pool r hmem
  · intro r hmem i hi
    exact h.range r hmem i ((hmark r hmem i).mp hi)
  · intro i
    rw [h.union i]
    exact exists_congr (fun r => and_congr_right (fun hmem => (hmark r hmem i).symm))
  · intro r hmem r' hmem' i hi hi'
    exact h.disjoint r hmem r' hmem' i ((hmark r hmem i).mp hi) ((hmark r' hmem' i).mp hi')

/-- Stations do not share a pool. -/
theorem Core.ne (h : Core s live) (ha : s.tree a = some p) (hb : s.tree b = some q) (hab : b ≠ a) :
    q ≠ p := by
  rintro rfl
  exact hab ((h.ok b q hb).key.symm.trans (h.ok a q ha).key)

theorem Core.pool (h : Core s live) (hr : live r = some a) :
    s.tree a = some (s.refs r).pool ∧ r ∈ (s.pools (s.refs r).pool).refList ∧
      PoolOk s a (s.refs r).pool := by
  obtain ⟨p, hp, hmem⟩ := (h.live r a).mp hr
  have hok := h.ok a p hp
  rw [hok.pool r hmem]
  exact ⟨hp, hmem, hok⟩

/-- Only the memory of the pool `p` and the reference `r` of the station `a` have changed. -/
structure Only (a : A) (p : P) (r : R) (s s' : State A P R w) : Prop where
  tree : ∀ b, b ≠ a → s'.tree b = s.tree b
  pools : ∀ q, q ≠ p → s'.pools q = s.pools q
  refs : ∀ r', r' ≠ r → s'.refs r' = s.refs r'

/-- A call that changes the pool `p` of the station `a` and the reference `r`. -/
theorem Core.at (h : Core s live) (honly : Only a p r s s')
    (hother : ∀ b q, b ≠ a → s.tree b = some q → q ≠ p) (hr : ∀ b, live r = some b → b = a)
    (hok : ∀ q, s'.tree a = some q → q = p ∧ PoolOk s' a p)
    (hlive : ∀ r b, b ≠ a → (live' r = some b ↔ live r = some b))
    (hlive' : ∀ r, live' r = some a ↔ ∃ q, s'.tree a = some q ∧ r ∈ (s'.pools q).refList) :
    Core s' live' := by
  constructor
  · intro b q hb
    by_cases hba : b = a
    · subst hba
      obtain ⟨rfl, hok⟩ := hok q hb
      exact hok
    · rw [honly.tree b hba] at hb
      refine (h.ok b q hb).congr (honly.pools q (hother b q hba hb)) (fun r' hr' => ?_)
      refine honly.refs r' (fun heq => hba (hr b ?_))
      rw [← heq]
      exact (h.live r' b).mpr ⟨q, hb, hr'⟩
  · intro r' b
    by_cases hba : b = a
    · rw [hba]
      exact hlive' r'
    · rw [hlive r' b hba, h.live, honly.tree b hba]
      refine exists_congr (fun q => and_congr_right (fun hb => ?_))
      rw [honly.pools q (hother b q hba hb)]

/-- A call that changes the marks of a pool only. -/
theorem Inv.remark (h : Inv s live) (hr : live r = some a) (htree : s'.tree = s.tree)
    (honly : Only a (s.refs r).pool r s s')
    (hlist : (s'.pools (s.refs r).pool).refList = (s.pools (s.refs r).pool).refList)
    (hok : PoolOk s' a (s.refs r).pool) : Inv s' live := by
  obtain ⟨hp, hmem, -⟩ := h.pool hr
  refine ⟨h.at honly (fun b q hba hb => h.ne hp hb hba) ?_ ?_ (fun _ _ _ => .rfl) ?_, ?_⟩
  · intro b hb
    exact some.inj (hb.symm.trans hr)
  · intro q hq
    rw [htree, hp] at hq
    cases hq
    exact ⟨rfl, hok⟩
  · intro r'
    rw [h.live, htree, hp]
    simp [hlist]
  · intro b q hb
    rw [htree] at hb
    by_cases hqp : q = (s.refs r).pool
    · rw [hqp, hlist]
      exact ne_nil_of_mem hmem
    · rw [honly.pools q hqp]
      exact h.nonempty b q hb

variable [DecidableEq A] [DecidableEq P] [DecidableEq R]

attribute [local simp] State.setPool State.setRef State.poolAllocNew State.addRef State.dropRef
  State.takeBit State.dropBit

/-! ## References -/

section

variable [NeZero w]

omit [DecidableEq A] in
theorem PoolOk.addRef (h : PoolOk s a q) (hr : r ∉ (s.pools q).refList) :
    PoolOk (s.addRef q r) a q := by
  have hpool : (s.addRef q r).pools q =
      { s.pools q with refList := (s.pools q).refList ++ [r] } := by
    simp
  have hne : ∀ r' ∈ (s.pools q).refList, r' ≠ r := fun r' hmem heq => hr (heq ▸ hmem)
  have hmark : ∀ r' i, Marked (s.addRef q r) r' i ↔ r' ≠ r ∧ Marked s r' i := fun r' i => by
    by_cases h : r' = r <;> simp [Marked, h]
  refine ⟨?_, ?_, ?_, ?_, ?_, ?_, ?_⟩ <;> rw [hpool]
  · exact h.key
  · exact h.last
  · exact nodup_append.mpr ⟨h.nodup, nodup_singleton r, by simpa using hne⟩
  · intro r' hmem
    rcases mem_append.mp hmem with hmem | hmem
    · simpa [hne r' hmem] using h.pool r' hmem
    · rw [mem_singleton.mp hmem]
      simp
  · intro r' hmem i hi
    obtain ⟨hr', hi⟩ := (hmark r' i).mp hi
    exact h.range r' (by simpa [hr'] using hmem) i hi
  · intro i
    simp only [h.union, hmark, mem_append, mem_singleton]
    constructor
    · rintro ⟨r', hmem, hi⟩
      exact ⟨r', .inl hmem, hne r' hmem, hi⟩
    · rintro ⟨r', hmem | rfl, hr', hi⟩
      · exact ⟨r', hmem, hi⟩
      · exact absurd rfl hr'
  · intro r1 hmem1 r2 hmem2 i hi1 hi2
    obtain ⟨hne1, hi1⟩ := (hmark r1 i).mp hi1
    obtain ⟨hne2, hi2⟩ := (hmark r2 i).mp hi2
    exact h.disjoint r1 (by simpa [hne1] using hmem1) r2 (by simpa [hne2] using hmem2) i hi1 hi2

omit [DecidableEq R] in
theorem poolOk_poolAllocNew (s : State A P R w) (a : A) (p : P) :
    PoolOk (s.poolAllocNew a p) a p := by
  have hpool : (s.poolAllocNew a p).pools p = ⟨a, 0, Bitmap.empty, []⟩ := by
    simp
  refine ⟨?_, ?_, ?_, ?_, ?_, ?_, ?_⟩ <;> rw [hpool]
  · exact tokenCount_pos
  · exact .nil
  · exact fun r hr => nomatch hr
  · exact fun r hr => nomatch hr
  · intro i
    simp
  · exact fun r hr => nomatch hr

omit [DecidableEq R] in
theorem Core.poolAllocNew (h : Core s live) (ha : s.tree a = none)
    (hp : ∀ b, s.tree b ≠ some p) : Core (s.poolAllocNew a p) live := by
  have htree : (s.poolAllocNew a p).tree a = some p := by simp
  constructor
  · intro b q hb
    by_cases hba : b = a
    · rw [hba, htree] at hb
      cases hb
      rw [hba]
      exact poolOk_poolAllocNew s a p
    · have hb' : s.tree b = some q := by simpa [hba] using hb
      have hqp : q ≠ p := by
        rintro rfl
        exact hp b hb'
      refine (h.ok b q hb').congr ?_ (fun _ _ => rfl)
      simp [hqp]
  · intro r b
    rw [h.live]
    by_cases hba : b = a
    · rw [hba, ha, htree]
      simp
    have hb : (s.poolAllocNew a p).tree b = s.tree b := by
      simp [hba]
    rw [hb]
    refine exists_congr (fun q => and_congr_right (fun hq => ?_))
    have hqp : q ≠ p := by
      rintro rfl
      exact hp b hq
    simp [hqp]

omit [DecidableEq A] in
theorem Core.addRef (h : Core s live) (ha : s.tree a = some q) (hr : live r = none) :
    Core (s.addRef q r) (update live r (some a)) := by
  have hfresh : r ∉ (s.pools q).refList := by
    intro hmem
    rw [(h.live r a).mpr ⟨q, ha, hmem⟩] at hr
    cases hr
  have hlist : ((s.addRef q r).pools q).refList = (s.pools q).refList ++ [r] := by
    simp
  have htree : (s.addRef q r).tree = s.tree := rfl
  have honly : Only a q r s (s.addRef q r) := by
    refine ⟨fun _ _ => rfl, fun q' hq' => ?_, fun r' hr' => ?_⟩
    · simp [hq']
    · simp [hr']
  refine h.at honly (fun b q' hba hb => h.ne ha hb hba) ?_ ?_ ?_ ?_
  · intro b hb
    rw [hr] at hb
    cases hb
  · intro q' hq'
    rw [htree, ha] at hq'
    cases hq'
    exact ⟨rfl, (h.ok a q ha).addRef hfresh⟩
  · intro r' b hba
    by_cases hrr : r' = r
    · rw [hrr, update_self, hr]
      simp [hba.symm]
    · rw [update_of_ne hrr]
  · intro r'
    rw [htree, ha]
    simp only [some.injEq, exists_eq_left', hlist, mem_append, mem_singleton]
    by_cases hrr : r' = r
    · simp [hrr]
    · rw [update_of_ne hrr, h.live, ha]
      simp [hrr]

theorem Inv.refGet (h : Inv s live) (hr : live r = none) (hp : ∀ b, s.tree b ≠ some p) :
    Inv (s.refGet a p r) (update live r (some a)) := by
  have hnonempty : ∀ (t : State A P R w) (q : P), Core t live → t.tree a = some q →
      (∀ b q', b ≠ a → t.tree b = some q' → (t.pools q').refList ≠ []) →
      Inv (t.addRef q r) (update live r (some a)) := by
    intro t q ht hta hne
    refine ⟨ht.addRef hta hr, fun b q' hb => ?_⟩
    by_cases hq' : q' = q
    · simp [hq']
    have hba : b ≠ a := by
      rintro rfl
      exact hq' (some.inj (hb.symm.trans hta))
    simpa [hq'] using hne b q' hba hb
  unfold State.refGet State.poolGetInternal
  cases hta : s.tree a with
  | some q => exact hnonempty s q h.toCore hta (fun b q' _ hb => h.nonempty b q' hb)
  | none =>
    refine hnonempty _ p (h.poolAllocNew hta hp) (by simp) ?_
    intro b q' hba hb
    have hb' : s.tree b = some q' := by simpa [hba] using hb
    have hqp : q' ≠ p := by
      rintro rfl
      exact hp b hb'
    simpa [hqp] using h.nonempty b q' hb'

/-- A new reference has no token, and the others have theirs. -/
theorem marked_refGet (s : State A P R w) (a : A) (p : P) (r r' : R) (i : Nat) :
    Marked (s.refGet a p r) r' i ↔ r' ≠ r ∧ Marked s r' i := by
  have hadd : ∀ (t : State A P R w) (q : P), t.refs = s.refs →
      (Marked (t.addRef q r) r' i ↔ r' ≠ r ∧ Marked s r' i) := by
    intro t q ht
    by_cases h : r' = r <;> simp [Marked, h, ht]
  unfold State.refGet State.poolGetInternal
  cases s.tree a with
  | some q => exact hadd s q rfl
  | none => exact hadd _ p rfl

omit [NeZero w] in
theorem refFree_refs (s : State A P R w) (r : R) : (s.refFree (some r)).refs = s.refs := by
  unfold State.refFree State.poolFree
  simp only
  split_ifs <;> rfl

theorem div_lt_words {i : Nat} (h : i < tokenCount) : i / w < words w := by
  have hw := Nat.pos_of_neZero w
  rw [words, Nat.lt_iff_add_one_le, Nat.le_div_iff_mul_le hw, Nat.add_mul]
  have hle := Nat.div_mul_le_self i w
  omega

omit [DecidableEq A] in
theorem PoolOk.dropRef (h : PoolOk s a (s.refs r).pool)
    (hr : r ∈ (s.pools (s.refs r).pool).refList) : PoolOk (s.dropRef r) a (s.refs r).pool := by
  have hpool : (s.dropRef r).pools (s.refs r).pool = { s.pools (s.refs r).pool with
        tokens := Bitmap.diff (words w) (s.pools (s.refs r).pool).tokens (s.refs r).tokens
        refList := (s.pools (s.refs r).pool).refList.erase r } := by
    simp
  have hmark : ∀ r' i, Marked (s.dropRef r) r' i ↔ Marked s r' i := fun _ _ => .rfl
  have hmem : ∀ r', r' ∈ (s.pools (s.refs r).pool).refList.erase r ↔
      r' ≠ r ∧ r' ∈ (s.pools (s.refs r).pool).refList := fun r' => h.nodup.mem_erase_iff
  refine ⟨?_, ?_, ?_, ?_, ?_, ?_, ?_⟩ <;> rw [hpool]
  · exact h.key
  · exact h.last
  · exact h.nodup.erase r
  · intro r' hr'
    exact h.pool r' ((hmem r').mp hr').2
  · intro r' hr' i hi
    exact h.range r' ((hmem r').mp hr').2 i hi
  · intro i
    simp only [hmem, hmark]
    constructor
    · intro hi
      have htest : (s.pools (s.refs r).pool).tokens.test i = true ∧
          (i / w < words w → (s.refs r).tokens.test i = false) := by
        by_cases hlt : i / w < words w
        · rw [Bitmap.test_diff _ _ hlt] at hi
          simpa [hlt] using hi
        · rw [Bitmap.test_eq, Bitmap.diff, if_neg (by omega), ← Bitmap.test_eq] at hi
          exact ⟨hi, fun hlt' => absurd hlt' hlt⟩
      obtain ⟨r', hr', hi'⟩ := (h.union i).mp htest.1
      refine ⟨r', ⟨?_, hr'⟩, hi'⟩
      rintro rfl
      rw [Marked, htest.2 (div_lt_words (h.range r' hr' i hi'))] at hi'
      cases hi'
    · rintro ⟨r', ⟨hne, hr'⟩, hi⟩
      have hfree : (s.refs r).tokens.test i = false := by
        by_contra hset
        exact hne (h.disjoint r' hr' r hr i hi (eq_true_of_ne_false hset))
      rw [Bitmap.test_diff _ _ (div_lt_words (h.range r' hr' i hi)), hfree,
        (h.union i).mpr ⟨r', hr', hi⟩]
      rfl
  · intro r1 h1 r2 h2 i
    exact h.disjoint r1 ((hmem r1).mp h1).2 r2 ((hmem r2).mp h2).2 i

theorem Inv.refFree (h : Inv s live) (hr : live r = some a) :
    Inv (s.refFree (some r)) (update live r none) := by
  obtain ⟨hp, hmem, hok⟩ := h.pool hr
  have hdrop := hok.dropRef hmem
  have hlist : ((s.dropRef r).pools (s.refs r).pool).refList =
      (s.pools (s.refs r).pool).refList.erase r := by
    simp
  have honly : Only a (s.refs r).pool r s (s.dropRef r) := by
    refine ⟨fun _ _ => rfl, fun q hq => ?_, fun _ _ => rfl⟩
    simp [hq]
  have hlive : ∀ r' b, b ≠ a → (update live r none r' = some b ↔ live r' = some b) := by
    intro r' b hba
    by_cases hrr : r' = r
    · rw [hrr, update_self, hr]
      simp [hba.symm]
    · rw [update_of_ne hrr]
  have hlive' : ∀ r', update live r none r' = some a ↔
      r' ∈ (s.pools (s.refs r).pool).refList.erase r := by
    intro r'
    rw [hok.nodup.mem_erase_iff]
    by_cases hrr : r' = r
    · simp [hrr]
    · rw [update_of_ne hrr, h.live, hp]
      simp [hrr]
  have hother : ∀ b q, b ≠ a → s.tree b = some q → q ≠ (s.refs r).pool :=
    fun b q hba hb => h.ne hp hb hba
  have hsame : ∀ b, live r = some b → b = a := fun b hb => some.inj (hb.symm.trans hr)
  rw [State.refFree]
  by_cases hempty : (s.pools (s.refs r).pool).refList.erase r = []
  · -- the last reference: the pool has no token and goes
    have hcount : Bitmap.count (words w) ((s.dropRef r).pools (s.refs r).pool).tokens = 0 := by
      refine Bitmap.count_eq_zero _ (fun i => ?_)
      rw [eq_false_iff, Ne, hdrop.union, hlist, hempty]
      simp
    have hfree : (s.dropRef r).poolFree (s.refs r).pool =
        { s.dropRef r with tree := update s.tree a none } := by
      rw [poolFree, hlist, hempty, if_neg (by simp), if_neg (not_not_intro hcount), hdrop.key]
      rfl
    simp only [hlist, hempty, length_nil, if_true, hfree]
    have honly' : Only a (s.refs r).pool r s
        { s.dropRef r with tree := update s.tree a none } :=
      ⟨fun b hba => update_of_ne hba _ _, honly.pools, honly.refs⟩
    refine ⟨h.at honly' hother hsame ?_ hlive ?_, ?_⟩
    · intro q hq
      simp at hq
    · intro r'
      rw [hlive', hempty]
      simp
    intro b q hb
    by_cases hba : b = a
    · simp [hba] at hb
    · have hb' : s.tree b = some q := by simpa [hba] using hb
      simp only [honly.pools q (hother b q hba hb')]
      exact h.nonempty b q hb'
  · have hlen : ((s.dropRef r).pools (s.refs r).pool).refList.length ≠ 0 := by
      rw [hlist]
      simpa using hempty
    simp only [hlen, if_false]
    have htree : (s.dropRef r).tree = s.tree := rfl
    refine ⟨h.at honly hother hsame ?_ hlive ?_, ?_⟩
    · intro q hq
      rw [htree, hp] at hq
      cases hq
      exact ⟨rfl, hdrop⟩
    · intro r'
      rw [hlive', htree, hp]
      simp
    · intro b q hb
      rw [htree] at hb
      by_cases hqp : q = (s.refs r).pool
      · rw [hqp, hlist]
        exact hempty
      · rw [honly.pools q hqp]
        exact h.nonempty b q hb

/-! ## Tokens -/

omit [DecidableEq A] in
theorem marked_takeBit (s : State A P R w) (r r' : R) (i j : Nat) :
    Marked (s.takeBit r i) r' j ↔ Marked s r' j ∨ (r' = r ∧ j = i) := by
  by_cases h : r' = r
  · simp [Marked, h, Bitmap.test_set]
  · simp [Marked, h]

omit [DecidableEq A] in
theorem marked_dropBit (s : State A P R w) (r r' : R) (i j : Nat) :
    Marked (s.dropBit r i) r' j ↔ Marked s r' j ∧ ¬(r' = r ∧ j = i) := by
  by_cases h : r' = r <;> simp [Marked, h, Bitmap.test_clear]

section

variable (h : PoolOk s a (s.refs r).pool) (hr : r ∈ (s.pools (s.refs r).pool).refList)

include h hr

omit [DecidableEq A] in
theorem PoolOk.takeBit {i : Nat} (hi : i < tokenCount)
    (hfree : (s.pools (s.refs r).pool).tokens.test i = false) :
    PoolOk (s.takeBit r i) a (s.refs r).pool := by
  have hpool : (s.takeBit r i).pools (s.refs r).pool = { s.pools (s.refs r).pool with
        lastBitUsed := i, tokens := (s.pools (s.refs r).pool).tokens.set i } := by
    simp
  have hmark := marked_takeBit s r
  have hnone : ∀ r' ∈ (s.pools (s.refs r).pool).refList, ¬ Marked s r' i := by
    intro r' hr' hmarked
    rw [(h.union i).mpr ⟨r', hr', hmarked⟩] at hfree
    cases hfree
  refine ⟨?_, ?_, ?_, ?_, ?_, ?_, ?_⟩ <;> rw [hpool]
  · exact h.key
  · exact hi
  · exact h.nodup
  · intro r' hr'
    by_cases hrr : r' = r
    · simp [hrr]
    · simpa [hrr] using h.pool r' hr'
  · intro r' hr' j hj
    rcases (hmark r' i j).mp hj with hj | ⟨-, rfl⟩
    · exact h.range r' hr' j hj
    · exact hi
  · intro j
    simp only [Bitmap.test_set, or_eq_true, decide_eq_true_eq, h.union, hmark]
    constructor
    · rintro (⟨r', hr', hj⟩ | rfl)
      · exact ⟨r', hr', .inl hj⟩
      · exact ⟨r, hr, .inr ⟨rfl, rfl⟩⟩
    · rintro ⟨r', hr', hj | ⟨-, rfl⟩⟩
      · exact .inl ⟨r', hr', hj⟩
      · exact .inr rfl
  · intro r1 h1 r2 h2 j hj1 hj2
    rcases (hmark r1 i j).mp hj1 with hj1 | ⟨hr1, hji⟩ <;>
      rcases (hmark r2 i j).mp hj2 with hj2 | ⟨hr2, hji'⟩
    · exact h.disjoint r1 h1 r2 h2 j hj1 hj2
    · exact absurd (hji' ▸ hj1) (hnone r1 h1)
    · exact absurd (hji ▸ hj2) (hnone r2 h2)
    · rw [hr1, hr2]

omit [DecidableEq A] in
theorem PoolOk.dropBit {i : Nat} (hi : Marked s r i) :
    PoolOk (s.dropBit r i) a (s.refs r).pool := by
  have hpool : (s.dropBit r i).pools (s.refs r).pool = { s.pools (s.refs r).pool with
        tokens := (s.pools (s.refs r).pool).tokens.clear i } := by
    simp
  have hmark := marked_dropBit s r
  refine ⟨?_, ?_, ?_, ?_, ?_, ?_, ?_⟩ <;> rw [hpool]
  · exact h.key
  · exact h.last
  · exact h.nodup
  · intro r' hr'
    by_cases hrr : r' = r
    · simp [hrr]
    · simpa [hrr] using h.pool r' hr'
  · intro r' hr' j hj
    exact h.range r' hr' j ((hmark r' i j).mp hj).1
  · intro j
    simp only [Bitmap.test_clear, and_eq_true, not_eq_true', decide_eq_false_iff_not,
      h.union, hmark]
    constructor
    · rintro ⟨⟨r', hr', hj⟩, hji⟩
      exact ⟨r', hr', hj, fun hand => hji hand.2⟩
    rintro ⟨r', hr', hj, hnot⟩
    refine ⟨⟨r', hr', hj⟩, ?_⟩
    rintro rfl
    exact hnot ⟨h.disjoint r' hr' r hr j hj hi, rfl⟩
  · intro r1 h1 r2 h2 j hj1 hj2
    exact h.disjoint r1 h1 r2 h2 j ((hmark r1 i j).mp hj1).1 ((hmark r2 i j).mp hj2).1

end

/-- The bit is held by a reference of the station. -/
def Held (s : State A P R w) (live : R → Option A) (a : A) (i : Nat) : Prop :=
  ∃ r, live r = some a ∧ Marked s r i

omit [DecidableEq A] [DecidableEq P] [DecidableEq R] [NeZero w] in
theorem Inv.test_iff (h : Inv s live) (ha : s.tree a = some p) (i : Nat) :
    (s.pools p).tokens.test i = true ↔ Held s live a i := by
  rw [(h.ok a p ha).union]
  refine exists_congr (fun r => and_congr_left (fun _ => ?_))
  rw [h.live, ha]
  simp

omit [DecidableEq A] in
/-- `osw_token_pool_fetch_token` takes a free token if there is one. -/
theorem Inv.fetchToken (h : Inv s live) (hr : live r = some a) :
    ∃ s' t, s.fetchToken (some r) = some (s', t) ∧ Inv s' live ∧
      ((∃ i < tokenCount, t = i + tokenMin ∧ ¬ Held s live a i ∧
          ∀ r' j, Marked s' r' j ↔ Marked s r' j ∨ (r' = r ∧ j = i)) ∨
        (t = tokenInvalid ∧ (∀ i < tokenCount, Held s live a i) ∧
          ∀ r' j, Marked s' r' j ↔ Marked s r' j)) := by
  obtain ⟨hp, hmem, hok⟩ := h.pool hr
  rcases fetchLoop_spec (s.pools (s.refs r).pool).tokens hok.last with
    ⟨i, hloop, hi, hfree⟩ | ⟨last, hloop, hlast, hused⟩
  · refine ⟨s.takeBit r i, i + tokenMin, ?_, ?_, .inl ⟨i, hi, rfl, ?_, ?_⟩⟩
    · simp [State.fetchToken, hloop]
    · refine h.remark hr rfl ⟨fun _ _ => rfl, fun q hq => ?_, fun r' hr' => ?_⟩ ?_
        (hok.takeBit hmem hi hfree)
      · simp [hq]
      · simp [hr']
      · simp
    · rw [← h.test_iff hp, hfree]
      exact false_ne_true
    · intro r' j
      exact marked_takeBit s r r' i j
  · refine ⟨s.setPool (s.refs r).pool
        { s.pools (s.refs r).pool with lastBitUsed := last }, tokenInvalid, ?_, ?_,
      .inr ⟨rfl, fun i hi => (h.test_iff hp i).mp (hused i hi), fun _ _ => .rfl⟩⟩
    · simp [State.fetchToken, hloop]
    refine h.remark hr rfl ⟨fun _ _ => rfl, fun q hq => ?_, fun _ _ => rfl⟩ ?_ ?_
    · simp [hq]
    · simp
    have hpool : (s.setPool (s.refs r).pool
        { s.pools (s.refs r).pool with lastBitUsed := last }).pools (s.refs r).pool =
        { s.pools (s.refs r).pool with lastBitUsed := last } := by
      simp
    refine ⟨?_, ?_, ?_, ?_, ?_, ?_, ?_⟩ <;> rw [hpool]
    · exact hok.key
    · exact hlast
    · exact hok.nodup
    · exact hok.pool
    · exact hok.range
    · exact hok.union
    · exact hok.disjoint

omit [DecidableEq A] [NeZero w] in
/-- A token that the reference has is freed, and no other is. -/
theorem Inv.freeToken_cases (h : Inv s live) (hr : live r = some a) (token : Int) :
    (s.freeToken (some r) token = s ∧ ∀ i : Nat, token = i + tokenMin → ¬ Marked s r i) ∨
      ∃ i : Nat, token = i + tokenMin ∧ Marked s r i ∧
        s.freeToken (some r) token = s.dropBit r i := by
  by_cases hmark : ∃ i : Nat, token = i + tokenMin ∧ Marked s r i
  · obtain ⟨i, rfl, hi⟩ := hmark
    obtain ⟨-, hmem, hok⟩ := h.pool hr
    have hlt := hok.range r hmem i hi
    have hidx : ((i : Int) + tokenMin - tokenMin).toNat = i := by omega
    refine .inr ⟨i, rfl, hi, ?_⟩
    simp only [tokenCount] at hlt
    simp only [freeToken, hidx]
    rw [if_neg, if_neg, if_neg, if_neg]
    · rw [Marked] at hi
      simp [hi]
    all_goals
      simp only [tokenMin, tokenMax, tokenInvalid]
      omega
  · refine .inl ⟨?_, fun i ht hi => hmark ⟨i, ht, hi⟩⟩
    unfold freeToken
    simp only
    split_ifs with h1 h2 h3 h4
    · rfl
    · rfl
    · rfl
    · rfl
    · exact absurd ⟨_, by omega, eq_true_of_ne_false h4⟩ hmark

omit [DecidableEq A] in
theorem Inv.freeToken (h : Inv s live) (hr : live r = some a) (token : Int) :
    Inv (s.freeToken (some r) token) live := by
  rcases h.freeToken_cases hr token with ⟨hsame, -⟩ | ⟨i, -, hi, hdrop⟩
  · rw [hsame]
    exact h
  obtain ⟨-, hmem, hok⟩ := h.pool hr
  rw [hdrop]
  refine h.remark hr rfl ⟨fun _ _ => rfl, fun q hq => ?_, fun r' hr' => ?_⟩ ?_
    (hok.dropBit hmem hi)
  · simp [hq]
  · simp [hr']
  · simp

end

/-! ## Runs -/

/-- A call of the interface.  `refGet` comes with the addresses that `CALLOC` gives; a
reference may be `NULL`. -/
inductive Op (A P R : Type) where
  | refGet (a : A) (p : P) (r : R)
  | refFree (r : Option R)
  | fetchToken (r : Option R)
  | freeToken (r : Option R) (token : Int)

/-- What the callers have: the station of each reference that is in use, and the tokens that were
fetched with it and not freed. -/
structure Users (A R : Type) where
  live : R → Option A
  held : R → List Int

namespace Users

variable (u : Users A R)

def none : Users A R := ⟨fun _ => .none, fun _ => []⟩

def refGet (a : A) (r : R) : Users A R := ⟨update u.live r (some a), update u.held r []⟩

def refFree (r : R) : Users A R := ⟨update u.live r .none, update u.held r []⟩

def fetched (r : R) (token : Int) : Users A R :=
  if token = tokenInvalid then u else { u with held := update u.held r (token :: u.held r) }

omit [DecidableEq A] in
@[simp] theorem fetched_live (r : R) (token : Int) : (u.fetched r token).live = u.live := by
  unfold fetched
  split <;> rfl

def freed (r : R) (token : Int) : Users A R :=
  { u with held := update u.held r ((u.held r).filter (· ≠ token)) }

/-- The token was given to a reference of the station. -/
def Holds (a : A) (token : Int) : Prop := ∃ r, u.live r = some a ∧ token ∈ u.held r

end Users

/-- The call gets unused memory, or uses a reference that is not freed. -/
def Op.Ok (s : State A P R w) (u : Users A R) : Op A P R → Prop
  | .refGet _ p r => u.live r = none ∧ ∀ b, s.tree b ≠ some p
  | .refFree r => ∀ r' ∈ r, u.live r' ≠ none
  | .fetchToken r => ∀ r' ∈ r, u.live r' ≠ none
  | .freeToken r _ => ∀ r' ∈ r, u.live r' ≠ none

/-- A call, with what the callers have after it. -/
def step (s : State A P R w) (u : Users A R) : Op A P R → Option (State A P R w × Users A R)
  | .refGet a p r => some (s.refGet a p r, u.refGet a r)
  | .refFree none => some (s.refFree none, u)
  | .refFree (some r) => some (s.refFree (some r), u.refFree r)
  | .fetchToken none => (s.fetchToken none).map (fun x => (x.1, u))
  | .fetchToken (some r) => (s.fetchToken (some r)).map (fun x => (x.1, u.fetched r x.2))
  | .freeToken none token => some (s.freeToken none token, u)
  | .freeToken (some r) token => some (s.freeToken (some r) token, u.freed r token)

def run (s : State A P R w) (u : Users A R) :
    List (Op A P R) → Option (State A P R w × Users A R)
  | [] => some (s, u)
  | op :: ops => (step s u op).bind (fun x => run x.1 x.2 ops)

/-- The calls are used as they are meant. -/
def Legal (s : State A P R w) (u : Users A R) : List (Op A P R) → Prop
  | [] => True
  | op :: ops => op.Ok s u ∧ ∀ s' u', step s u op = some (s', u') → Legal s' u' ops

/-- The start of the program: no pool, no reference, and any memory. -/
def State.start (pools : P → Pool A R w) (refs : R → Ref P w) : State A P R w :=
  ⟨fun _ => none, pools, refs⟩

/-- What holds of the tokens in a state, against what the callers have. -/
structure Unique (s : State A P R w) (u : Users A R) : Prop where
  /-- The tokens marked in a pool are those given to its references. -/
  union : ∀ a p, s.tree a = some p → ∀ i : Nat,
    (s.pools p).tokens.test i = true ↔ u.Holds a (i + tokenMin)
  /-- Only tokens of the range are given out. -/
  range : ∀ a token, u.Holds a token → tokenMin ≤ token ∧ token ≤ tokenMax
  /-- No token has two holders. -/
  disjoint : ∀ a r r' token, u.live r = some a → u.live r' = some a →
    token ∈ u.held r → token ∈ u.held r' → r = r'
  /-- There is a pool exactly for the stations with a reference. -/
  pool : ∀ a, (∃ p, s.tree a = some p) ↔ ∃ r, u.live r = some a
  /-- A token is given out if one is free, and then one that is free. -/
  fetch : ∀ a r, u.live r = some a → ∃ s' t, s.fetchToken (some r) = some (s', t) ∧
    ((tokenMin ≤ t ∧ t ≤ tokenMax ∧ ¬ u.Holds a t) ∨
      (t = tokenInvalid ∧ ∀ token, tokenMin ≤ token → token ≤ tokenMax → u.Holds a token))
  /-- A token that the reference does not hold is not freed. -/
  free : ∀ a r token, u.live r = some a → token ∉ u.held r → s.freeToken (some r) token = s

/-- The marks of the references in use are the tokens that the callers have. -/
def Agrees (s : State A P R w) (u : Users A R) : Prop :=
  ∀ r a, u.live r = some a → ∀ token, token ∈ u.held r ↔ ∃ i : Nat, token = i + tokenMin ∧
    Marked s r i

section

variable [NeZero w] {u : Users A R}

omit [DecidableEq A] [DecidableEq P] [DecidableEq R] [NeZero w] in
theorem Agrees.mem (h : Agrees s u) (hr : u.live r = some a) (i : Nat) :
    (i + tokenMin : Int) ∈ u.held r ↔ Marked s r i := by
  rw [h r a hr]
  constructor
  · rintro ⟨j, hj, hmark⟩
    obtain rfl : i = j := by omega
    exact hmark
  · exact fun hmark => ⟨i, rfl, hmark⟩

omit [DecidableEq A] [DecidableEq P] [DecidableEq R] [NeZero w] in
theorem Agrees.holds_iff (h : Agrees s u) (i : Nat) :
    u.Holds a (i + tokenMin) ↔ Held s u.live a i :=
  exists_congr fun _ => and_congr_right fun hr => h.mem hr i

theorem Agrees.refGet (h : Agrees s u) (p : P) : Agrees (s.refGet a p r) (u.refGet a r) := by
  intro r' b hr' token
  simp only [marked_refGet, Users.refGet]
  by_cases hrr : r' = r
  · simp [hrr]
  · have hr' : u.live r' = some b := by simpa [Users.refGet, hrr] using hr'
    rw [update_of_ne hrr, h r' b hr']
    simp [hrr]

omit [NeZero w] in
theorem Agrees.refFree (h : Agrees s u) : Agrees (s.refFree (some r)) (u.refFree r) := by
  intro r' b hr' token
  by_cases hrr : r' = r
  · simp [Users.refFree, hrr] at hr'
  · have hr' : u.live r' = some b := by simpa [Users.refFree, hrr] using hr'
    simp only [Marked, refFree_refs, Users.refFree, update_of_ne hrr]
    exact h r' b hr' token

omit [DecidableEq A] [DecidableEq P] [NeZero w] in
theorem Agrees.fetched (h : Agrees s u) {i : Nat}
    (hmark : ∀ r' j, Marked s' r' j ↔ Marked s r' j ∨ (r' = r ∧ j = i)) :
    Agrees s' (u.fetched r (i + tokenMin)) := by
  have hvalid : (i + tokenMin : Int) ≠ tokenInvalid := by
    simp only [tokenMin, tokenInvalid]
    omega
  intro r' b hr' token
  rw [Users.fetched, if_neg hvalid] at hr' ⊢
  simp only [hmark]
  by_cases hrr : r' = r
  · subst hrr
    rw [update_self, mem_cons, h r' b hr']
    constructor
    · rintro (ht | ⟨j, ht, hj⟩)
      · exact ⟨i, ht, .inr ⟨rfl, rfl⟩⟩
      · exact ⟨j, ht, .inl hj⟩
    · rintro ⟨j, ht, hj | ⟨-, rfl⟩⟩
      · exact .inr ⟨j, ht, hj⟩
      · exact .inl ht
  · rw [update_of_ne hrr, h r' b hr']
    simp [hrr]

omit [DecidableEq A] in
theorem Agrees.freed (h : Agrees s u) (hinv : Inv s u.live) (hr : u.live r = some a)
    (token : Int) : Agrees (s.freeToken (some r) token) (u.freed r token) := by
  intro r' b hr' t
  have hold : t ∈ (u.freed r token).held r' ↔ t ∈ u.held r' ∧ ¬(r' = r ∧ t = token) := by
    by_cases hrr : r' = r <;> simp [Users.freed, hrr]
  rw [hold, h r' b hr']
  rcases hinv.freeToken_cases hr token with ⟨hsame, hnot⟩ | ⟨i, rfl, -, hdrop⟩
  · -- the token is not one of the reference, so none goes
    rw [hsame]
    refine ⟨fun ht => ht.1, ?_⟩
    rintro ⟨j, rfl, hj⟩
    refine ⟨⟨j, rfl, hj⟩, ?_⟩
    rintro ⟨rfl, rfl⟩
    exact hnot j rfl hj
  · simp only [hdrop, marked_dropBit]
    constructor
    · rintro ⟨⟨j, rfl, hj⟩, hne⟩
      exact ⟨j, rfl, hj, fun heq => hne ⟨heq.1, by rw [heq.2]⟩⟩
    · rintro ⟨j, rfl, hj, hne⟩
      exact ⟨⟨j, rfl, hj⟩, fun heq => hne ⟨heq.1, by omega⟩⟩

omit [DecidableEq A] in
theorem Inv.unique (h : Inv s u.live) (hu : Agrees s u) : Unique s u := by
  refine ⟨fun a p ha i => ?_, ?_, ?_, ?_, ?_, ?_⟩
  · rw [h.test_iff ha, hu.holds_iff]
  · rintro a token ⟨r, hr, hmem⟩
    obtain ⟨i, rfl, hi⟩ := (hu r a hr token).mp hmem
    obtain ⟨-, hr', hok⟩ := h.pool hr
    have hlt := hok.range r hr' i hi
    simp only [tokenMin, tokenMax, tokenCount] at hlt ⊢
    omega
  · intro a r r' token hr hr' hmem hmem'
    obtain ⟨i, rfl, hi⟩ := (hu r a hr token).mp hmem
    obtain ⟨p, hp, hlist⟩ := (h.live r a).mp hr
    obtain ⟨p', hp', hlist'⟩ := (h.live r' a).mp hr'
    obtain rfl := some.inj (hp.symm.trans hp')
    exact (h.ok a p hp).disjoint r hlist r' hlist' i hi ((hu.mem hr' i).mp hmem')
  · intro a
    constructor
    · rintro ⟨p, hp⟩
      obtain ⟨r, hr⟩ := exists_mem_of_ne_nil _ (h.nonempty a p hp)
      exact ⟨r, (h.live r a).mpr ⟨p, hp, hr⟩⟩
    · rintro ⟨r, hr⟩
      exact ⟨_, (h.pool hr).1⟩
  · intro a r hr
    obtain ⟨s', t, hfetch, -, ⟨i, hi, rfl, hfree, -⟩ | ⟨ht, hused, -⟩⟩ := h.fetchToken hr
    · refine ⟨s', _, hfetch, .inl ⟨by omega, ?_, ?_⟩⟩
      · simp only [tokenMin, tokenMax, tokenCount] at hi ⊢
        omega
      · rwa [hu.holds_iff]
    · refine ⟨s', t, hfetch, .inr ⟨ht, fun token hmin hmax => ?_⟩⟩
      obtain ⟨i, rfl⟩ : ∃ i : Nat, token = i + tokenMin := ⟨(token - tokenMin).toNat, by omega⟩
      refine hu.holds_iff i |>.mpr (hused i ?_)
      simp only [tokenMin, tokenMax, tokenCount] at hmax ⊢
      omega
  · intro a r token hr hnot
    rcases h.freeToken_cases hr token with ⟨hsame, -⟩ | ⟨i, rfl, hi, -⟩
    · exact hsame
    · exact absurd ((hu.mem hr i).mpr hi) hnot

theorem Inv.step (h : Inv s u.live) (hu : Agrees s u) {op : Op A P R} (hok : op.Ok s u) :
    ∃ s' u', step s u op = some (s', u') ∧ Inv s' u'.live ∧ Agrees s' u' := by
  have hlive : ∀ r, u.live r ≠ none → ∃ a, u.live r = some a := fun r hr =>
    ne_none_iff_exists'.mp hr
  cases op with
  | refGet a p r => exact ⟨_, _, rfl, h.refGet hok.1 hok.2, hu.refGet p⟩
  | refFree r =>
    cases r with
    | none => exact ⟨s, u, rfl, h, hu⟩
    | some r =>
      obtain ⟨a, ha⟩ := hlive r (hok r rfl)
      exact ⟨_, _, rfl, h.refFree ha, hu.refFree⟩
  | fetchToken r =>
    cases r with
    | none => exact ⟨s, u, rfl, h, hu⟩
    | some r =>
      obtain ⟨a, ha⟩ := hlive r (hok r rfl)
      obtain ⟨s', t, hfetch, hinv, ⟨i, -, rfl, -, hmark⟩ | ⟨rfl, -, hmark⟩⟩ := h.fetchToken ha
      · refine ⟨s', u.fetched r _, by rw [Token.step, hfetch]; rfl, ?_, hu.fetched hmark⟩
        rwa [Users.fetched_live]
      · refine ⟨s', u, by rw [Token.step, hfetch]; rfl, hinv, fun r' b hr' token => ?_⟩
        simp only [hu r' b hr' token, hmark]
  | freeToken r token =>
    cases r with
    | none => exact ⟨s, u, rfl, h, hu⟩
    | some r =>
      obtain ⟨a, ha⟩ := hlive r (hok r rfl)
      exact ⟨_, _, rfl, h.freeToken ha token, hu.freed h ha token⟩

theorem Inv.run (h : Inv s u.live) (hu : Agrees s u) {ops : List (Op A P R)}
    (hlegal : Legal s u ops) :
    ∃ s' u', run s u ops = some (s', u') ∧ Inv s' u'.live ∧ Agrees s' u' := by
  induction ops generalizing s u with
  | nil => exact ⟨s, u, rfl, h, hu⟩
  | cons op ops ih =>
    obtain ⟨s1, u1, hstep, h1, hu1⟩ := h.step hu hlegal.1
    obtain ⟨s', u', hrun, h'⟩ := ih h1 hu1 (hlegal.2 s1 u1 hstep)
    refine ⟨s', u', ?_, h'⟩
    rw [Token.run, hstep]
    exact hrun

/-- After every sequence of calls the tokens are unique. -/
theorem run_tokens (pools : P → Pool A R w) (refs : R → Ref P w) {ops : List (Op A P R)}
    (hlegal : Legal (State.start pools refs) Users.none ops) :
    ∃ s u, run (State.start pools refs) Users.none ops = some (s, u) ∧ Unique s u := by
  have hstart : Inv (start pools refs) (Users.none (A := A) (R := R)).live := by
    refine ⟨⟨fun a p hp => ?_, fun r a => ?_⟩, fun a p hp => ?_⟩
    · cases hp
    · simp [start, Users.none]
    · cases hp
  obtain ⟨s, u, hrun, h, hu⟩ := hstart.run (fun r a hr => nomatch hr) hlegal
  exact ⟨s, u, hrun, h.unique hu⟩

end

/-- Two references of one station take a token each, and the first gives its token back. -/
def fetchTwoFreeOne : List (Op Bool Bool Bool) :=
  [.refGet true false true, .refGet true true false, .fetchToken (some true),
    .fetchToken (some false), .freeToken (some true) 255]

/-- A program without pools. -/
def noPools : State Bool Bool Bool 64 :=
  State.start (fun _ => ⟨false, 0, Bitmap.empty, []⟩) (fun _ => ⟨false, Bitmap.empty⟩)

theorem run_tokens_fetchTwoFreeOne :
    Legal noPools Users.none fetchTwoFreeOne ∧
      (∃ s u, run noPools Users.none fetchTwoFreeOne = some (s, u) ∧ Unique s u) ∧
      (run noPools Users.none fetchTwoFreeOne).map (fun x => (x.1.tree true, x.2.held true,
        x.2.held false)) = some (some false, [], [254]) := by
  have hlegal : Legal noPools Users.none fetchTwoFreeOne := by
    refine ⟨⟨rfl, by decide⟩, fun s1 u1 h1 => ?_⟩
    cases h1
    refine ⟨⟨rfl, by decide⟩, fun s2 u2 h2 => ?_⟩
    cases h2
    refine ⟨fun r hr => ?_, fun s3 u3 h3 => ⟨fun r hr => ?_, fun s4 u4 h4 =>
      ⟨fun r hr => ?_, fun _ _ _ => trivial⟩⟩⟩
    · cases hr
      decide
    all_goals
      rw [step, map_eq_some_iff] at h3
      obtain ⟨x, -, hx⟩ := h3
      cases hx
      cases hr
    · simp [Users.refGet]
    · rw [step, map_eq_some_iff] at h4
      obtain ⟨y, -, hy⟩ := h4
      cases hy
      simp [Users.refGet]
  exact ⟨hlegal, run_tokens _ _ hlegal, by decide +kernel⟩

end OpenSync.Osw.Token
