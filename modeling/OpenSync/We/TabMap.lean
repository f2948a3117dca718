import OpenSync.We.Tab

/-!
# Tables are finite maps

`IsMap t m` says that the table `t` stores the map `m`: every key is found, no key is stored twice,
and `items` is the number of keys.  Each operation takes a table of a map to a table of the map it
should lead to.

A growing table has four times the slots.  From `2 ^ 30` or `2 ^ 31` slots on the new size is zero
in `uint32_t`.  The table is then filled again from size two on, and ends with `2 ^ 31` slots.
-/

namespace OpenSync.We

open OpenSync.Lib Function List Tab Option

/-! ## Maps -/

def keys (m : Obj → Option Obj) : Set Obj := {k | m k ≠ none}

variable {m : Obj → Option Obj}

attribute [local simp] keys

theorem keys_update_some (k v : Obj) : keys (update m k (some v)) = insert k (keys m) := by
  ext k'
  by_cases hk : k' = k
  · simp [hk]
  · simp [hk]

/-- `t` stores `m`. -/
structure IsMap (t : Tab) (m : Obj → Option Obj) : Prop where
  size_eq : t.size = 0 ∨ ∃ j ≤ 31, t.size = 2 ^ j
  valid : Probe.Valid t.size t.slots t.home
  val_ne : ∀ p < t.size, (t.data p).key ≠ .nil → (t.data p).val ≠ .nil
  maps : ∀ k v, m k = some v ↔ k ≠ .nil ∧ ∃ p < t.size, t.data p = ⟨k, v⟩
  items_eq : t.items = (keys m).ncard

namespace Tab

/-- The slots with a key. -/
def used (t : Tab) : Finset Nat := (Finset.range t.size).filter (fun p => (t.data p).key ≠ .nil)

theorem mem_used {t : Tab} {p : Nat} : p ∈ t.used ↔ p < t.size ∧ (t.data p).key ≠ .nil := by
  simp [used]

end Tab

namespace IsMap

variable {t : Tab} {m : Obj → Option Obj}

section

variable (h : IsMap t m)

include h

theorem size_le : t.size ≤ 2 ^ 31 := by
  rcases h.size_eq with h0 | ⟨j, hj, hs⟩
  · omega
  · rw [hs]
    exact Nat.pow_le_pow_right (by omega) hj

theorem keys_eq_image : keys m = (fun p => (t.data p).key) '' t.used := by
  ext k
  simp only [keys, ne_none_iff_exists', Set.mem_image, Finset.mem_coe,
    mem_used, h.maps]
  constructor
  · rintro ⟨v, hk, p, hp, hd⟩
    exact ⟨p, ⟨hp, by simpa [hd] using hk⟩, by simp [hd]⟩
  · rintro ⟨p, ⟨hp, hk⟩, rfl⟩
    exact ⟨(t.data p).val, hk, p, hp, rfl⟩

theorem finite_keys : (keys m).Finite := by
  rw [h.keys_eq_image]
  exact t.used.finite_toSet.image _

theorem key_injOn : Set.InjOn (fun p => (t.data p).key) t.used := by
  intro p hp q hq heq
  obtain ⟨hp, hpk⟩ := mem_used.mp hp
  obtain ⟨hq, hqk⟩ := mem_used.mp hq
  exact h.valid.unique p hp q hq _ (Kvp.slot_eq_used.mpr ⟨rfl, hpk⟩)
    (Kvp.slot_eq_used.mpr ⟨heq.symm, hpk⟩)

/-- `items` counts the slots with a key. -/
theorem items_eq_card : t.items = t.used.card := by
  rw [h.items_eq, h.keys_eq_image, Set.InjOn.ncard_image h.key_injOn, Set.ncard_coe_finset]

theorem items_le : t.items ≤ t.size := by
  rw [h.items_eq_card]
  simpa [used] using
    Finset.card_filter_le (Finset.range t.size) (fun p => (t.data p).key ≠ .nil)

theorem items_eq_size (hfull : ∀ p < t.size, (t.data p).key ≠ .nil) : t.items = t.size := by
  rw [h.items_eq_card, used, Finset.filter_true_of_mem, Finset.card_range]
  intro p hp
  exact hfull p (Finset.mem_range.mp hp)

theorem eq_none_iff {k : Obj} (hk : k ≠ .nil) : m k = none ↔ ∀ p < t.size, t.slots p ≠ .used k := by
  rw [← not_iff_not, ← ne_eq, ne_none_iff_exists']
  constructor
  · rintro ⟨v, hv⟩ habs
    obtain ⟨-, p, hp, hd⟩ := (h.maps k v).mp hv
    exact habs p hp (Kvp.slot_eq_used.mpr ⟨by simp [hd], hk⟩)
  · intro habs
    push Not at habs
    obtain ⟨p, hp, hs⟩ := habs
    refine ⟨(t.data p).val, (h.maps k _).mpr ⟨hk, p, hp, ?_⟩⟩
    rw [← (Kvp.slot_eq_used.mp hs).1]

/-- What `we_kvp_find` returns on a table of a map. -/
theorem find_cases {k : Obj} (hk : k ≠ .nil) :
    (∃ p, t.find k = some p ∧ Probe.Reach t.size t.slots (t.home k) p ∧
      ((t.data p).key = k ∨ (t.data p).key = .nil ∧ m k = none)) ∨
    t.find k = none ∧ m k = none ∧ t.items = t.size := by
  rcases h.size_eq with h0 | ⟨j, -, hs⟩
  · refine .inr ⟨by simp [find, h0], ?_, ?_⟩
    · rw [h.eq_none_iff hk]
      omega
    · have := h.items_le
      omega
  · have hf := find_spec hs h.valid k
    cases hfind : t.find k with
    | none =>
      rw [hfind] at hf
      exact .inr ⟨rfl, (h.eq_none_iff hk).mpr hf.1, h.items_eq_size hf.2⟩
    | some p =>
      rw [hfind] at hf
      refine .inl ⟨p, rfl, hf.1, hf.2.imp_right fun hn => ⟨hn.1, (h.eq_none_iff hk).mpr hn.2⟩⟩

end

end IsMap

theorem isMap_cleared {size : Nat} (hs : size = 0 ∨ ∃ j ≤ 31, size = 2 ^ j) :
    IsMap (Tab.cleared size) (fun _ => none) := by
  have hempty : ∀ p, (cleared size).slots p = .empty :=
    fun p => Kvp.slot_eq_empty.mpr ⟨rfl, rfl⟩
  refine ⟨hs, ⟨by simp [hempty], by simp [hempty]⟩, by simp [cleared], ?_, by simp [cleared]⟩
  intro k v
  simp only [reduceCtorEq, false_iff, not_and, not_exists]
  intro hk p _ hd
  exact hk (congrArg Kvp.key hd).symm

/-! ## One pair -/

section Pair

variable {t : Tab} {m : Obj → Option Obj} {k v : Obj} {p : Nat}

theorem u32_items_succ (h : IsMap t m) : u32 (t.items + 1) = t.items + 1 := by
  have := h.items_le
  have := h.size_le
  exact Nat.mod_eq_of_lt (by omega)

theorem slots_update (t : Tab) (p : Nat) (x : Kvp) (n : Nat) :
    ({ t with items := n, data := update t.data p x } : Tab).slots =
      update t.slots p x.slot := by
  funext i
  by_cases hi : i = p
  · simp [slots, hi]
  · simp [slots, hi]

/-- A store of the key, or of an empty pair, to its slot does not matter for others. -/
theorem IsMap.maps_update (h : IsMap t m) {e : Kvp} {k' v' : Obj}
    (hkey : (t.data p).key = k ∨ (t.data p).key = .nil ∧ m k = none) (hk' : k' ≠ k)
    (he : e.key = k ∨ e.key = .nil) :
    m k' = some v' ↔ k' ≠ .nil ∧ ∃ q < t.size, update t.data p e q = ⟨k', v'⟩ := by
  rw [h.maps]
  refine and_congr_right fun hnil => exists_congr fun q => and_congr_right fun _ => ?_
  by_cases hqp : q = p
  · subst hqp
    rw [update_self]
    constructor
    · intro hd
      rcases hkey with rfl | ⟨hn, -⟩
      · exact absurd (by simp [hd]) hk'
      · exact absurd (by simpa [hd] using hn) hnil
    · rintro rfl
      exact (he.elim hk' hnil).elim
  · rw [update_of_ne hqp]

section

variable (h : IsMap t m) (hk : k ≠ .nil)

include h hk

/-- No slot but the one that `we_kvp_find` returned has the key. -/
theorem IsMap.only_slot (hp : p < t.size)
    (hkey : (t.data p).key = k ∨ (t.data p).key = .nil ∧ m k = none) :
    ∀ q < t.size, t.slots q = .used k → q = p := by
  intro q hq hs
  rcases hkey with hpk | ⟨-, hnone⟩
  · exact h.valid.unique q hq p hp k hs (Kvp.slot_eq_used.mpr ⟨hpk, hk⟩)
  · exact absurd hs ((h.eq_none_iff hk).mp hnone q hq)

theorem IsMap.mem_keys (hp : p < t.size) (hkey : (t.data p).key = k) : k ∈ keys m := fun hn =>
  (h.eq_none_iff hk).mp hn p hp (Kvp.slot_eq_used.mpr ⟨hkey, hk⟩)

/-- A key with its value goes to the slot that `we_kvp_find` returned. -/
theorem IsMap.store (hv : v ≠ .nil) (hp : Probe.Reach t.size t.slots (t.home k) p)
    (hkey : (t.data p).key = k ∨ (t.data p).key = .nil ∧ m k = none) :
    IsMap (t.store k v p) (update m k (some v)) := by
  have hdata : (t.store k v p).data = update t.data p ⟨k, v⟩ := by
    rcases hkey with rfl | ⟨hnil, -⟩
    · simp [store]
    · simp [Tab.store, hnil]
  have hslots : (t.store k v p).slots = update t.slots p (.used k) := by
    have : (⟨k, v⟩ : Kvp).slot = .used k := Kvp.slot_eq_used.mpr ⟨rfl, hk⟩
    rw [← this, ← slots_update t p ⟨k, v⟩ t.items]
    funext i
    simp [slots, hdata]
  have hother := h.only_slot hk hp.lt hkey
  refine ⟨h.size_eq, ?_, ?_, ?_, ?_⟩
  · rw [hslots]
    exact h.valid.store hp hother
  · intro q hq
    rw [hdata]
    by_cases hqp : q = p
    · simp [hqp, hv]
    · simpa [hqp] using h.val_ne q hq
  · intro k' v'
    rw [hdata]
    by_cases hk' : k' = k
    · subst hk'
      rw [update_self, some_inj]
      constructor
      · rintro rfl
        exact ⟨hk, p, hp.lt, by simp⟩
      rintro ⟨-, q, hq, hd⟩
      by_cases hqp : q = p
      · simpa [hqp] using hd
      · rw [update_of_ne hqp] at hd
        exact absurd (hother q hq (Kvp.slot_eq_used.mpr ⟨by simp [hd], hk⟩)) hqp
    · rw [update_of_ne hk']
      exact h.maps_update hkey hk' (.inl rfl)
  · rw [keys_update_some]
    rcases hkey with hpk | ⟨hnil, hnone⟩
    · rw [Set.insert_eq_of_mem (h.mem_keys hk hp.lt hpk), ← h.items_eq]
      simp [Tab.store, hpk, hk]
    · have hmem : k ∉ keys m := by simp [hnone]
      rw [Set.ncard_insert_of_notMem hmem h.finite_keys, ← h.items_eq, ← u32_items_succ h]
      simp [Tab.store, hnil]

end

theorem swap_data (t : Tab) (a b : Nat) : (t.swap a b).data = t.data ∘ Equiv.swap a b := by
  funext i
  rw [comp_apply, Equiv.swap_apply_def, Tab.swap]
  by_cases hb : i = b
  · subst hb
    by_cases ha : i = a
    · simp [ha]
    · simp [ha]
  · by_cases ha : i = a
    · simp [ha, update_of_ne (ha ▸ hb)]
    · simp [ha, hb]

section

variable (h : IsMap t m) (hp : p < t.size) (hk : k ≠ .nil) (hkey : (t.data p).key = k)

include h hp hk hkey

/-- The exchange of a key with the content of its home changes no entry of the map. -/
theorem IsMap.swap : IsMap (t.swap (t.home k) p) m := by
  obtain ⟨j, hj, hs⟩ : ∃ j ≤ 31, t.size = 2 ^ j := h.size_eq.resolve_left (by omega)
  have hh : t.home k < t.size := home_lt hs k
  have hlt : ∀ q, Equiv.swap (t.home k) p q < t.size ↔ q < t.size := by
    intro q
    rw [Equiv.swap_apply_def]
    split_ifs <;> omega
  refine ⟨h.size_eq, ?_, ?_, ?_, h.items_eq⟩
  · have : (t.swap (t.home k) p).slots = t.slots ∘ Equiv.swap (t.home k) p := by
      funext i
      simp [slots, swap_data]
    rw [this]
    exact h.valid.swap hp (Kvp.slot_eq_used.mpr ⟨hkey, hk⟩) hh
  · intro q hq
    rw [swap_data]
    exact h.val_ne _ ((hlt q).mpr hq)
  · intro k' v'
    rw [h.maps, swap_data]
    refine and_congr_right fun _ => ?_
    constructor
    · rintro ⟨q, hq, hd⟩
      exact ⟨Equiv.swap (t.home k) p q, (hlt q).mpr hq, by simpa using hd⟩
    · rintro ⟨q, hq, hd⟩
      exact ⟨Equiv.swap (t.home k) p q, (hlt q).mpr hq, hd⟩

theorem IsMap.settle : IsMap (t.settle k p) m := by
  unfold Tab.settle
  split
  · split_ifs
    · exact h.swap hp hk hkey
    · exact h
  · exact h

end

/-- The deletion of a key.  When there is no such key, a free slot is marked. -/
theorem IsMap.kvpDel (h : IsMap t m) (hk : k ≠ .nil) :
    IsMap (t.kvpDel k) (update m k none) := by
  rcases h.find_cases hk with ⟨p, hfind, hp, hkey⟩ | ⟨hfind, hnone, -⟩
  · have hother := h.only_slot hk hp.lt hkey
    rw [Tab.kvpDel, hfind]
    refine ⟨h.size_eq, ?_, ?_, ?_, ?_⟩
    · rw [slots_update]
      exact h.valid.delete p
    · intro q hq
      by_cases hqp : q = p
      · simp [hqp]
      · simpa [hqp] using h.val_ne q hq
    · intro k' v'
      by_cases hk' : k' = k
      · subst hk'
        simp only [update_self, reduceCtorEq, false_iff, not_and, not_exists]
        intro _ q hq hd
        by_cases hqp : q = p
        · rw [hqp, update_self] at hd
          exact hk (congrArg Kvp.key hd).symm
        · rw [update_of_ne hqp] at hd
          exact hqp (hother q hq (Kvp.slot_eq_used.mpr ⟨by simp [hd], hk⟩))
      · rw [update_of_ne hk']
        exact h.maps_update hkey hk' (.inr rfl)
    · rw [show keys (update m k none) = keys m \ {k} by
        ext k'; by_cases hk : k' = k <;> simp [hk]]
      rcases hkey with hpk | ⟨hnil, hnone⟩
      · have hmem := h.mem_keys hk hp.lt hpk
        have hpos : 0 < (keys m).ncard := (Set.ncard_pos h.finite_keys).mpr ⟨k, hmem⟩
        have := h.items_le
        have := h.size_le
        rw [Set.ncard_sdiff_singleton_of_mem hmem, ← h.items_eq]
        rw [← h.items_eq] at hpos
        simp only [hpk, hk, if_false, u32]
        omega
      · have hmem : k ∉ keys m := by simp [hnone]
        rw [Set.sdiff_singleton_eq_self hmem, ← h.items_eq]
        simp [hnil]
  · rw [Tab.kvpDel, hfind, ← hnone, update_eq_self]
    exact h

end Pair

/-! ## Setting all pairs again -/

/-- A function that stores a new key in the tables that `P` holds for, with fewer than `bound` keys.
-/
def Sets (set : Tab → Obj → Obj → Option (Tab × Bool)) (P : Tab → Prop) (bound : Nat) : Prop :=
  ∀ {t m k v}, IsMap t m → P t → k ≠ .nil → v ≠ .nil → m k = none → t.items < bound →
    ∃ t', set t k v = some (t', true) ∧ IsMap t' (update m k (some v)) ∧ P t'

variable {t : Tab} {set : Tab → Obj → Obj → Option (Tab × Bool)} {P : Tab → Prop} {bound : Nat}

theorem IsMap.items_update {t' : Tab} {k v : Obj} (h : IsMap t m)
    (h' : IsMap t' (update m k (some v))) (hk : m k = none) : t'.items = t.items + 1 := by
  have hmem : k ∉ keys m := by simp [hk]
  rw [h'.items_eq, keys_update_some, Set.ncard_insert_of_notMem hmem h.finite_keys, h.items_eq]

/-- The loop of `we_tab_rehash` stores the pairs of the old table, up to `num` of them. -/
theorem rehashLoop_spec (hset : Sets set P bound) (old : Nat → Kvp) (num : Nat) (is : List Nat)
    (h : IsMap t m) (hP : P t) (hnum : t.items ≤ num)
    (hval : ∀ i ∈ is, (old i).key ≠ .nil → (old i).val ≠ .nil)
    (hnew : ∀ i ∈ is, (old i).key ≠ .nil → m (old i).key = none)
    (hdistinct : is.Pairwise fun i j => (old i).key ≠ .nil → (old i).key ≠ (old j).key)
    (hbound : min num (t.items + is.countP fun i => (old i).key ≠ .nil) ≤ bound) :
    ∃ t' m', Tab.rehashLoop set old num is t = some t' ∧ IsMap t' m' ∧ P t' ∧
      t'.items = min num (t.items + is.countP fun i => (old i).key ≠ .nil) ∧
      ∀ k v, m' k = some v → m k = some v ∨ ∃ i ∈ is, old i = ⟨k, v⟩ := by
  induction is generalizing t m with
  | nil => exact ⟨t, m, rfl, h, hP, by simpa using hnum, fun k v hkv => .inl hkv⟩
  | cons i is ih =>
    rw [pairwise_cons] at hdistinct
    have hval' : ∀ j ∈ is, (old j).key ≠ .nil → (old j).val ≠ .nil :=
      fun j hj => hval j (mem_cons_of_mem _ hj)
    by_cases hi : (old i).key ≠ .nil ∧ t.items < num
    · -- the pair is new in the table
      have hcount : (i :: is).countP (fun i => (old i).key ≠ .nil) =
          is.countP (fun i => (old i).key ≠ .nil) + 1 := by
        simp [hi.1]
      obtain ⟨t1, hstep, h1, hP1⟩ := hset h hP hi.1 (hval i mem_cons_self hi.1)
        (hnew i mem_cons_self hi.1) (by omega)
      have hitems := h.items_update h1 (hnew i mem_cons_self hi.1)
      obtain ⟨t', m', hloop, h', hP', hitems', hsub⟩ := ih h1 hP1 (by omega) hval'
        (fun j hj hjk => by
          rw [update_of_ne (Ne.symm (hdistinct.1 j hj hi.1))]
          exact hnew j (mem_cons_of_mem _ hj) hjk)
        hdistinct.2 (by omega)
      refine ⟨t', m', ?_, h', hP', by omega, fun k v hkv => ?_⟩
      · simp [rehashLoop, hi, hstep, hloop]
      rcases hsub k v hkv with hm | ⟨j, hj, hd⟩
      · by_cases hk : k = (old i).key
        · subst hk
          rw [update_self, some_inj] at hm
          exact .inr ⟨i, mem_cons_self, by rw [← hm]⟩
        · exact .inl (by rwa [update_of_ne hk] at hm)
      · exact .inr ⟨j, mem_cons_of_mem _ hj, hd⟩
    · have hmin : min num (t.items + (i :: is).countP fun i => (old i).key ≠ .nil) =
          min num (t.items + is.countP fun i => (old i).key ≠ .nil) := by
        rw [countP_cons]
        split_ifs with hnil
        · have : ¬ t.items < num := fun hlt => hi ⟨by simpa using hnil, hlt⟩
          omega
        · rfl
      rw [hmin] at hbound ⊢
      obtain ⟨t', m', hloop, h', hP', hitems', hsub⟩ := ih h hP hnum hval'
        (fun j hj => hnew j (mem_cons_of_mem _ hj)) hdistinct.2 hbound
      refine ⟨t', m', ?_, h', hP', hitems', fun k v hkv => ?_⟩
      · rw [rehashLoop, if_neg hi]
        exact hloop
      · exact (hsub k v hkv).imp_right fun ⟨j, hj, hd⟩ => ⟨j, mem_cons_of_mem _ hj, hd⟩

/-- `we_tab_rehash` keeps the first `num` pairs. -/
theorem rehash_spec (hset : Sets set P bound) (h : IsMap t m) (size num : Nat)
    (hsize : size = 0 ∨ ∃ j ≤ 31, size = 2 ^ j) (hP : P (Tab.cleared size))
    (hbound : min num t.items ≤ bound) :
    ∃ t' m', t.rehash set size num = some t' ∧ IsMap t' m' ∧ P t' ∧
      t'.items = min num t.items ∧ (∀ k v, m' k = some v → m k = some v) ∧
      (t.items ≤ num → m' = m) := by
  have hcount : (range t.size).countP (fun i => (t.data i).key ≠ .nil) = t.items := by
    rw [h.items_eq_card, countP_eq_length_filter]
    rfl
  have hdistinct : (range t.size).Pairwise
      fun i j => (t.data i).key ≠ .nil → (t.data i).key ≠ (t.data j).key := by
    refine (pairwise_lt_range (n := t.size)).imp_of_mem ?_
    intro i j hi hj hlt hk heq
    have := h.valid.unique i (mem_range.mp hi) j (mem_range.mp hj) _
      (Kvp.slot_eq_used.mpr ⟨rfl, hk⟩) (Kvp.slot_eq_used.mpr ⟨heq.symm, hk⟩)
    omega
  obtain ⟨t', m', hloop, h', hP', hitems, hsub⟩ :=
    rehashLoop_spec hset t.data num (range t.size) (isMap_cleared hsize) hP (Nat.zero_le _)
      (fun i hi => h.val_ne i (mem_range.mp hi)) (fun _ _ _ => rfl) hdistinct
      (by simpa only [hcount, cleared, zero_add] using hbound)
  rw [hcount] at hitems
  have hitems' : t'.items = min num t.items := by simpa [cleared] using hitems
  have hsub' : ∀ k v, m' k = some v → m k = some v := by
    intro k v hkv
    rcases hsub k v hkv with hm | ⟨i, hi, hd⟩
    · cases hm
    · exact (h.maps k v).mpr ⟨((h'.maps k v).mp hkv).1, i, mem_range.mp hi, hd⟩
  refine ⟨t', m', hloop, h', hP', hitems', hsub', fun hle => ?_⟩
  -- a part of the map with as many keys is the whole
  have hkeys : keys m' ⊆ keys m := by
    intro k hk
    obtain ⟨v, hv⟩ := ne_none_iff_exists'.mp hk
    simp [hsub' k v hv]
  have heq : keys m' = keys m := by
    refine Set.eq_of_subset_of_ncard_le hkeys ?_ h.finite_keys
    rw [← h.items_eq, ← h'.items_eq]
    omega
  funext k
  cases hk : m' k with
  | some v => exact (hsub' k v hk).symm
  | none =>
    have : k ∉ keys m := heq ▸ fun hmem => hmem hk
    simpa using (not_not.mp this).symm

end OpenSync.We
