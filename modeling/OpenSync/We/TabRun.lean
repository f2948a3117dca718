import OpenSync.We.TabMap

/-!
# Runs of table operations

`Tab.run` makes a sequence of sets, gets and resizes on a new table.  `MapRun` says what
they should do to a map and which objects the gets should return; a resize may keep any
part of the map that is large enough.

A table takes every key as long as it has fewer than `2 ^ 31` of them.  In a table with
`2 ^ 31` keys a new key cannot be set.
-/

namespace OpenSync.We

open OpenSync.Lib List Function Tab Option

/-! ## Growing -/

section Grow

variable {t : Tab} {m : Obj → Option Obj} {k v : Obj}

theorem setDepth_of_find (d : Nat) (h : IsMap t m) (hk : k ≠ .nil) (hv : v ≠ .nil) {p : Nat}
    (hfind : t.find k = some p) (hp : Probe.Reach t.size t.slots (t.home k) p)
    (hkey : (t.data p).key = k ∨ (t.data p).key = .nil ∧ m k = none) :
    ∃ t', Tab.setDepth (d + 1) t k v = some (t', true) ∧
      IsMap t' (update m k (some v)) ∧ t'.size = t.size := by
  have hstored : ((t.store k v p).data p).key = k := by
    rcases hkey with rfl | ⟨hnil, -⟩
    · simp [store]
    · simp [store, hnil]
  refine ⟨(t.store k v p).settle k p, by simp [setDepth, hv, kvpGet, hfind],
    (h.store hk hv hp hkey).settle hp.lt hk hstored, ?_⟩
  unfold settle
  split
  · split_ifs <;> rfl
  · rfl

section

variable {d : Nat} {t₁ : Tab}
  (hv : v ≠ .nil) (hfind : t.find k = none) (hcap : t.capacity (Tab.setDepth d) = some t₁)

include hv hfind hcap

/-- A set that grows the table goes on as in the larger table. -/
theorem setDepth_of_capacity {p : Nat} (hfind1 : t₁.find k = some p) :
    Tab.setDepth (d + 1) t k v = Tab.setDepth (d + 1) t₁ k v := by
  simp [setDepth, hv, kvpGet, hfind, hcap, hfind1]

theorem setDepth_of_full (hfind1 : t₁.find k = none) :
    Tab.setDepth (d + 1) t k v = some (t₁, false) := by
  simp [setDepth, hv, kvpGet, hfind, hcap, hfind1]

end

/-- A table of `size` slots that is not full. -/
theorem sets_size (d size : Nat) : Sets (Tab.setDepth (d + 1)) (fun t => t.size = size) size := by
  intro t m k v h hP hk hv hnone hlt
  rcases h.find_cases hk with ⟨p, hfind, hp, hkey⟩ | ⟨-, -, hfull⟩
  · obtain ⟨t', hset, h', hsize⟩ := setDepth_of_find d h hk hv hfind hp hkey
    exact ⟨t', hset, h', hsize.trans hP⟩
  · omega

/-- A full table is set again with the new size. -/
theorem capacity_eq (set : Tab → Obj → Obj → Option (Tab × Bool)) (h : IsMap t m)
    (hfull : t.items = t.size) :
    t.capacity set = t.rehash set (if t.size = 0 then 2 else u32 (t.size * 4)) t.items := by
  have hsucc := u32_items_succ h
  rw [capacity, if_neg, Nat.shiftLeft_eq]
  omega

/-- A full table grows four times while its size has room for that. -/
theorem capacity_grows (d : Nat) (h : IsMap t m) (hfull : t.items = t.size)
    (hsize : t.size * 4 < 2 ^ 32) :
    ∃ t', t.capacity (Tab.setDepth (d + 1)) = some t' ∧ IsMap t' m ∧
      t'.size = if t.size = 0 then 2 else t.size * 4 := by
  rw [capacity_eq _ h hfull, u32, Nat.mod_eq_of_lt hsize]
  have hpow : (if t.size = 0 then 2 else t.size * 4) = 0 ∨
      ∃ j ≤ 31, (if t.size = 0 then 2 else t.size * 4) = 2 ^ j := by
    rcases h.size_eq with h0 | ⟨j, -, hs⟩
    · exact .inr ⟨1, by omega, by simp [h0]⟩
    refine .inr ⟨j + 2, ?_, by simp [hs, Nat.pow_add]⟩
    rw [hs, show 2 ^ j * 4 = 2 ^ (j + 2) by simp [Nat.pow_add]] at hsize
    have := (Nat.pow_lt_pow_iff_right (by omega)).mp hsize
    omega
  obtain ⟨t', m', hrehash, h', hP', -, -, hall⟩ := rehash_spec
    (sets_size d (if t.size = 0 then 2 else t.size * 4)) h _ t.items hpow rfl
    (by split_ifs <;> omega)
  exact ⟨t', hrehash, hall le_rfl ▸ h', hP'⟩

/-- The sizes that a table grows through from nothing: zero and the powers of two with an odd
exponent. -/
def OddSize (t : Tab) : Prop := t.size = 0 ∨ ∃ j ≤ 15, t.size = 2 ^ (2 * j + 1)

/-- Such a table takes `2 ^ 31` keys, and grows without a size that is not a `uint32_t`. -/
theorem sets_oddSize (d : Nat) : Sets (Tab.setDepth (d + 2)) OddSize (2 ^ 31) := by
  intro t m k v h hP hk hv hnone hlt
  rcases h.find_cases hk with ⟨p, hfind, hp, hkey⟩ | ⟨hfind, -, hfull⟩
  · obtain ⟨t', hset, h', hsize⟩ := setDepth_of_find (d + 1) h hk hv hfind hp hkey
    exact ⟨t', hset, h', by simpa [OddSize, hsize] using hP⟩
  have hroom : t.size * 4 < 2 ^ 32 ∧ ((if t.size = 0 then 2 else t.size * 4) = 0 ∨
      ∃ j ≤ 15, (if t.size = 0 then 2 else t.size * 4) = 2 ^ (2 * j + 1)) := by
    rcases hP with h0 | ⟨j, hj, hs⟩
    · exact ⟨by omega, .inr ⟨0, by omega, by simp [h0]⟩⟩
    have hj' : j < 15 := by
      have : 2 ^ (2 * j + 1) < 2 ^ 31 := by omega
      have := (Nat.pow_lt_pow_iff_right (by omega)).mp this
      omega
    have hmul : t.size * 4 = 2 ^ (2 * (j + 1) + 1) := by
      rw [hs, show 2 * (j + 1) + 1 = 2 * j + 1 + 2 by omega, Nat.pow_add _ (2 * j + 1)]
    refine ⟨?_, .inr ⟨j + 1, by omega, by simp [hs, ← hmul]⟩⟩
    rw [hmul]
    exact Nat.pow_lt_pow_right (by omega) (by omega)
  obtain ⟨t₁, hcap, h1, hsize1⟩ := capacity_grows d h hfull hroom.1
  have hitems : t₁.items = t.items := by rw [h1.items_eq, h.items_eq]
  have hlt1 : t₁.items < t₁.size := by
    rw [hsize1]
    split_ifs <;> omega
  rcases h1.find_cases hk with ⟨p, hfind1, hp, hkey⟩ | ⟨-, -, hfull1⟩
  · obtain ⟨t', hset, h', hsize'⟩ := setDepth_of_find (d + 1) h1 hk hv hfind1 hp hkey
    exact ⟨t', setDepth_of_capacity hv hfind hcap hfind1 ▸ hset, h',
      by simpa [OddSize, hsize', hsize1] using hroom.2⟩
  · omega

/-- After growing, a full table has a free slot, unless it has all slots there can be. -/
theorem capacity_spec (d : Nat) (h : IsMap t m) (hfull : t.items = t.size) :
    ∃ t', t.capacity (Tab.setDepth (d + 2)) = some t' ∧ IsMap t' m ∧
      (t.items < 2 ^ 31 → t'.items < t'.size) := by
  by_cases hroom : t.size * 4 < 2 ^ 32
  · obtain ⟨t', hcap, h', hsize⟩ := capacity_grows (d + 1) h hfull hroom
    refine ⟨t', hcap, h', fun _ => ?_⟩
    rw [h'.items_eq, ← h.items_eq, hsize]
    split_ifs <;> omega
  -- the new size is zero
  obtain ⟨j, hj, hs⟩ : ∃ j ≤ 31, t.size = 2 ^ j := h.size_eq.resolve_left (by omega)
  have hj' : 30 ≤ j := by
    have hle : 2 ^ 30 ≤ 2 ^ j := by omega
    exact (Nat.pow_le_pow_iff_right (by omega)).mp hle
  have hzero : u32 (t.size * 4) = 0 := by
    rw [hs, show 2 ^ j * 4 = 2 ^ 32 * 2 ^ (j - 30) by
      rw [← Nat.pow_add, show 32 + (j - 30) = j + 2 by omega, Nat.pow_add]]
    exact Nat.mul_mod_right _ _
  have hle := h.size_le
  obtain ⟨t', m', hrehash, h', hP', -, -, hall⟩ := rehash_spec (sets_oddSize d) h
    0 t.items (.inl rfl) (.inl rfl) (by omega)
  obtain rfl := hall le_rfl
  refine ⟨t', ?_, h', fun hlt => ?_⟩
  · rw [capacity_eq _ h hfull, if_neg (by omega), hzero, hrehash]
  have hitems : t'.items = t.items := by rw [h'.items_eq, h.items_eq]
  have hle' := h'.items_le
  -- `2 ^ 30` keys fill no size with an odd exponent
  rcases hP' with h0 | ⟨i, hi, hs'⟩
  · omega
  have h30 : 2 ^ 30 ≤ 2 ^ (2 * i + 1) := by omega
  have := (Nat.pow_le_pow_iff_right (by omega)).mp h30
  obtain rfl : i = 15 := by omega
  omega

end Grow

/-! ## The operations -/

section Operations

variable {t : Tab} {m : Obj → Option Obj} {k v : Obj}

/-- `we_tab_set`, unless it is a new key for a table with `2 ^ 31` keys. -/
theorem set_spec (h : IsMap t m) (hk : k ≠ .nil)
    (hroom : v = .nil ∨ m k ≠ none ∨ t.items < 2 ^ 31) :
    ∃ t', t.set k v = some (t', true) ∧
      IsMap t' (update m k (if v = .nil then none else some v)) := by
  by_cases hv : v = .nil
  · exact ⟨t.kvpDel k, by simp [Tab.set, Tab.setDepth, hv], by simpa [hv] using h.kvpDel hk⟩
  rw [if_neg hv]
  rcases h.find_cases hk with ⟨p, hfind, hp, hkey⟩ | ⟨hfind, hnone, hfull⟩
  · obtain ⟨t', hset, h', -⟩ := setDepth_of_find 2 h hk hv hfind hp hkey
    exact ⟨t', hset, h'⟩
  obtain ⟨t₁, hcap, h1, hfree⟩ := capacity_spec 0 h hfull
  have hlt := hfree ((hroom.resolve_left hv).resolve_left (not_not.mpr hnone))
  rcases h1.find_cases hk with ⟨p, hfind1, hp, hkey⟩ | ⟨-, -, hfull1⟩
  · obtain ⟨t', hset, h', -⟩ := setDepth_of_find 2 h1 hk hv hfind1 hp hkey
    exact ⟨t', (setDepth_of_capacity hv hfind hcap hfind1).trans hset, h'⟩
  · omega

theorem set_full (h : IsMap t m) (hk : k ≠ .nil) (hv : v ≠ .nil) (hnone : m k = none)
    (hitems : t.items = 2 ^ 31) : ∃ t', t.set k v = some (t', false) ∧ IsMap t' m := by
  have hfull : ∀ {t'}, IsMap t' m → t'.items = t'.size := by
    intro t' h'
    have hle := h'.items_le
    have hsize := h'.size_le
    rw [h.items_eq] at hitems
    rw [h'.items_eq] at hle ⊢
    omega
  have hfind : ∀ {t'}, IsMap t' m → t'.find k = none := by
    intro t' h'
    rcases h'.find_cases hk with ⟨p, -, hp, hkey⟩ | ⟨hfind, -⟩
    · have hmem : p ∈ t'.used := by
        have : t'.used = Finset.range t'.size := by
          refine Finset.eq_of_subset_of_card_le (Finset.filter_subset _ _) ?_
          rw [Finset.card_range, ← h'.items_eq_card, hfull h']
        rw [this]
        exact Finset.mem_range.mpr hp.lt
      have hne := (mem_used.mp hmem).2
      rcases hkey with hpk | ⟨hnil, -⟩
      · exact absurd hnone (h'.mem_keys hk hp.lt hpk)
      · exact absurd hnil hne
    · exact hfind
  obtain ⟨t₁, hcap, h1, -⟩ := capacity_spec 0 h (hfull h)
  exact ⟨t₁, setDepth_of_full hv (hfind h) hcap (hfind h1), h1⟩

theorem resize_spec (h : IsMap t m) (num : UInt32) :
    ∃ t' m', t.resize num = some t' ∧ IsMap t' m' ∧ t'.items = min num.toNat t.items ∧
      (∀ k v, m' k = some v → m k = some v) ∧ (t.items ≤ num.toNat → m' = m) := by
  have hle := h.items_le
  have hsize := h.size_le
  rcases clp2_cases num with h0 | ⟨j, hj, hpow, hnum⟩
  · obtain ⟨t', m', hrehash, h', -, hitems, hsub, hall⟩ := rehash_spec (sets_oddSize 1) h
      0 num.toNat (.inl rfl) (.inl rfl) (by omega)
    exact ⟨t', m', by rw [resize, h0]; exact hrehash, h', hitems, hsub, hall⟩
  · obtain ⟨t', m', hrehash, h', -, hitems, hsub, hall⟩ := rehash_spec (sets_size 2 (2 ^ j)) h
      (2 ^ j) num.toNat (.inr ⟨j, hj, rfl⟩) rfl (by omega)
    exact ⟨t', m', by rw [resize, hpow]; exact hrehash, h', hitems, hsub, hall⟩

section

variable (dyncast : Obj → ObjType → Obj × Bool) (h : IsMap t m) (hk : k ≠ .nil)

include dyncast h hk

theorem get_found (hv : m k = some v) {dflt : Obj} (htype : dflt = .nil ∨ v.type = dflt.type) :
    t.get dyncast k dflt = some (t, v, true) := by
  rcases h.find_cases hk with ⟨p, hfind, hp, hkey | ⟨-, hnone⟩⟩ | ⟨-, hnone, -⟩
  · have hval : (t.data p).val = v := by
      have := (h.maps k (t.data p).val).mpr ⟨hk, p, hp.lt, by rw [← hkey]⟩
      exact some.inj (this.symm.trans hv)
    have hnot : ¬ (dflt ≠ .nil ∧ (t.data p).val.type ≠ dflt.type) := by
      rw [hval]
      tauto
    rw [Tab.get, hfind]
    exact congrArg some (by rw [getAt, if_neg (hkey ▸ hk), if_neg hnot, hval])
  · simp [hnone] at hv
  · simp [hnone] at hv

/-- `we_tab_get` of a key that is not in the map, unless a default has no room in a table with `2 ^
31` keys. -/
theorem get_default (hnone : m k = none) (dflt : Obj) (hroom : dflt = .nil ∨ t.items < 2 ^ 31) :
    ∃ t', t.get dyncast k dflt = some (t', dflt, true) ∧
      IsMap t' (update m k (if dflt = .nil then none else some dflt)) := by
  have hat : ∀ {t₁ p}, IsMap t₁ m → Probe.Reach t₁.size t₁.slots (t₁.home k) p →
      ((t₁.data p).key = k ∨ (t₁.data p).key = .nil ∧ m k = none) →
      ∃ t', t₁.getAt dyncast k dflt p = (t', dflt, true) ∧
        IsMap t' (update m k (if dflt = .nil then none else some dflt)) := by
    rintro t₁ p h1 hp (hkey | ⟨hnil, -⟩)
    · exact absurd hnone (h1.mem_keys hk hp.lt hkey)
    by_cases hd : dflt = .nil
    · refine ⟨t₁, by simp [getAt, hnil, hd], ?_⟩
      rwa [if_pos hd, ← hnone, update_eq_self]
    · refine ⟨t₁.store k dflt p, by simp [getAt, store, hnil, hd], ?_⟩
      rw [if_neg hd]
      exact h1.store hk hd hp (.inr ⟨hnil, hnone⟩)
  rcases h.find_cases hk with ⟨p, hfind, hp, hkey⟩ | ⟨hfind, -, hfull⟩
  · obtain ⟨t', hget, h'⟩ := hat h hp hkey
    exact ⟨t', by simp [Tab.get, hfind, hget], h'⟩
  by_cases hd : dflt = .nil
  · refine ⟨t, by simp [Tab.get, hfind, hd], ?_⟩
    rwa [if_pos hd, ← hnone, update_eq_self]
  obtain ⟨t₁, hcap, h1, hfree⟩ := capacity_spec 1 h hfull
  have hlt := hfree (hroom.resolve_left hd)
  rcases h1.find_cases hk with ⟨p, hfind1, hp, hkey⟩ | ⟨-, -, hfull1⟩
  · obtain ⟨t', hget, h'⟩ := hat h1 hp hkey
    refine ⟨t', ?_, h'⟩
    have hcap' : t.capacity set = some t₁ := hcap
    simp [Tab.get, hfind, hd, hcap', hfind1, hget]
  · omega

end

end Operations

/-! ## Runs -/

/-- An operation on a table. -/
inductive Op where
  | set (key val : Obj)
  | get (key dflt : Obj)
  | resize (num : UInt32)

/-- One operation, with the object that a get returns and whether it has succeeded. -/
def Tab.step (dyncast : Obj → ObjType → Obj × Bool) (t : Tab) :
    Op → Option (Tab × Option Obj × Bool)
  | .set key val => (t.set key val).map fun r => (r.1, none, r.2)
  | .get key dflt => (t.get dyncast key dflt).map fun r => (r.1, some r.2.1, r.2.2)
  | .resize num => (t.resize num).map fun t => (t, none, true)

def Tab.run (dyncast : Obj → ObjType → Obj × Bool) (t : Tab) :
    List Op → Option (Tab × List (Option Obj × Bool))
  | [] => some (t, [])
  | op :: ops => do
    let (t, out) ← t.step dyncast op
    let (t, outs) ← t.run dyncast ops
    some (t, out :: outs)

/-- What an operation does to a map and what it returns. -/
inductive MapStep : (Obj → Option Obj) → Op → Option Obj → (Obj → Option Obj) → Prop
  | set (m : Obj → Option Obj) (k v : Obj) :
    MapStep m (.set k v) none (update m k (if v = .nil then none else some v))
  | found (m : Obj → Option Obj) (k dflt v : Obj) : m k = some v →
    MapStep m (.get k dflt) (some v) m
  | default (m : Obj → Option Obj) (k dflt : Obj) : m k = none →
    MapStep m (.get k dflt) (some dflt)
      (update m k (if dflt = .nil then none else some dflt))
  | resize (m m' : Obj → Option Obj) (num : UInt32) : (∀ k v, m' k = some v → m k = some v) →
    (keys m').ncard = min num.toNat (keys m).ncard →
    ((keys m).ncard ≤ num.toNat → m' = m) → MapStep m (.resize num) none m'

/-- What the operations do to a map, one after another. -/
inductive MapRun : (Obj → Option Obj) → List Op → List (Option Obj) → (Obj → Option Obj) → Prop
  | nil (m : Obj → Option Obj) : MapRun m [] [] m
  | cons {m m₁ m₂ : Obj → Option Obj} {op : Op} {ops : List Op} {out : Option Obj}
      {outs : List (Option Obj)} : MapStep m op out m₁ → MapRun m₁ ops outs m₂ →
    MapRun m (op :: ops) (out :: outs) m₂

/-- The value that a table stores for a key, by a look at all slots. -/
def Tab.lookup (t : Tab) (k : Obj) : Option Obj :=
  ((List.range t.size).find? (fun p => (t.data p).key = k)).map fun p => (t.data p).val

/-- Keys are not nil, and a default has the type of the stored value. -/
def Allowed (t : Tab) : Op → Prop
  | .set k _ => k ≠ .nil
  | .get k dflt => k ≠ .nil ∧ (dflt = .nil ∨ ∀ v ∈ t.lookup k, v.type = dflt.type)
  | .resize _ => True

/-- A stored key is in the table already, or the table has fewer than `2 ^ 31` keys. -/
def Room (t : Tab) : Op → Prop
  | .set k v => v = .nil ∨ t.lookup k ≠ none ∨ t.items < 2 ^ 31
  | .get k dflt => dflt = .nil ∨ t.lookup k ≠ none ∨ t.items < 2 ^ 31
  | .resize _ => True

/-- `P` holds for every operation of a run, in the table that it is made on. -/
def Along (dyncast : Obj → ObjType → Obj × Bool) (P : Tab → Op → Prop) : Tab → List Op → Prop
  | _, [] => True
  | t, op :: ops => P t op ∧ ∀ r ∈ t.step dyncast op, Along dyncast P r.1 ops

theorem IsMap.lookup_eq {t : Tab} {m : Obj → Option Obj} (h : IsMap t m) {k : Obj}
    (hk : k ≠ .nil) : t.lookup k = m k := by
  cases hm : m k with
  | none =>
    have hnot : ∀ p ∈ range t.size, ¬ (decide ((t.data p).key = k) = true) := by
      intro p hp
      simpa using fun hpk => h.mem_keys hk (mem_range.mp hp) hpk hm
    simpa [Tab.lookup] using hnot
  | some v =>
    obtain ⟨-, p, hp, hd⟩ := (h.maps k v).mp hm
    cases hfind : (range t.size).find? (fun p => (t.data p).key = k) with
    | none =>
      have := find?_eq_none.mp hfind p (mem_range.mpr hp)
      simp [hd] at this
    | some q =>
      have hq : q < t.size := mem_range.mp (mem_of_find?_eq_some hfind)
      have hqk : (t.data q).key = k := by simpa using find?_some hfind
      have heq : m k = some (t.data q).val :=
        (h.maps k _).mpr ⟨hk, q, hq, by rw [← hqk]⟩
      rw [Tab.lookup, hfind, ← hm, heq]
      rfl

section Run

variable (dyncast : Obj → ObjType → Obj × Bool) {t : Tab} {m : Obj → Option Obj}

theorem step_spec (h : IsMap t m) {op : Op} (hop : Allowed t op) (hroom : Room t op) :
    ∃ t' out m', t.step dyncast op = some (t', out, true) ∧ MapStep m op out m' ∧ IsMap t' m' := by
  cases op with
  | set k v =>
    rw [Room, h.lookup_eq hop] at hroom
    obtain ⟨t', hset, h'⟩ := set_spec h hop hroom
    exact ⟨t', none, _, by simp [step, hset], .set m k v, h'⟩
  | get k dflt =>
    obtain ⟨hk, htype⟩ := hop
    rw [Room, h.lookup_eq hk] at hroom
    rw [h.lookup_eq hk] at htype
    cases hm : m k with
    | some v =>
      have hget := get_found dyncast h hk hm (htype.imp_right fun ht => ht v hm)
      exact ⟨t, some v, m, by simp [step, hget], .found m k dflt v hm, h⟩
    | none =>
      obtain ⟨t', hget, h'⟩ := get_default dyncast h hk hm dflt
        (hroom.imp_right fun hr => hr.resolve_left (not_not.mpr hm))
      exact ⟨t', some dflt, _, by simp [step, hget], .default m k dflt hm, h'⟩
  | resize num =>
    obtain ⟨t', m', hres, h', hitems, hsub, hall⟩ := resize_spec h num
    rw [h.items_eq] at hitems hall
    rw [h'.items_eq] at hitems
    exact ⟨t', none, m', by simp [step, hres], .resize m m' num hsub hitems hall, h'⟩

theorem run_spec (h : IsMap t m) {ops : List Op} (hops : Along dyncast Allowed t ops)
    (hroom : Along dyncast Room t ops) :
    ∃ t' outs m', t.run dyncast ops = some (t', outs) ∧ (∀ out ∈ outs, out.2 = true) ∧
      MapRun m ops (outs.map Prod.fst) m' ∧ IsMap t' m' := by
  induction ops generalizing t m with
  | nil => exact ⟨t, [], m, rfl, by simp, .nil m, h⟩
  | cons op ops ih =>
    obtain ⟨t₁, out, m1, hstep, hmap, h1⟩ := step_spec dyncast h hops.1 hroom.1
    obtain ⟨t', outs, m', hrun, hok, hmaps, h'⟩ := ih h1 (hops.2 _ hstep) (hroom.2 _ hstep)
    refine ⟨t', (out, true) :: outs, m', by simp [run, hstep, hrun], ?_, .cons hmap hmaps, h'⟩
    simpa using hok

end Run

/-- A table is the map of what has been stored in it, and `items` is its number of keys, in
every run that never stores a new key in a table with `2 ^ 31` keys. -/
theorem run_isMap (dyncast : Obj → ObjType → Obj × Bool) (ops : List Op)
    (hops : Along dyncast Allowed Tab.new ops) (hroom : Along dyncast Room Tab.new ops) :
    ∃ t outs m, Tab.new.run dyncast ops = some (t, outs) ∧ (∀ out ∈ outs, out.2 = true) ∧
      MapRun (fun _ => none) ops (outs.map Prod.fst) m ∧ t.items = (keys m).ncard := by
  obtain ⟨t, outs, m, hrun, hok, hmaps, h⟩ := run_spec dyncast (isMap_cleared (.inl rfl)) hops hroom
  exact ⟨t, outs, m, hrun, hok, hmaps, h.items_eq⟩

section Decide

instance (t : Tab) : (op : Op) → Decidable (Allowed t op)
  | .set k _ => inferInstanceAs (Decidable (k ≠ .nil))
  | .get k dflt =>
    inferInstanceAs (Decidable (k ≠ .nil ∧ (dflt = .nil ∨ ∀ v ∈ t.lookup k, v.type = dflt.type)))
  | .resize _ => inferInstanceAs (Decidable True)

instance (t : Tab) : (op : Op) → Decidable (Room t op)
  | .set k v => inferInstanceAs (Decidable (v = .nil ∨ t.lookup k ≠ none ∨ t.items < 2 ^ 31))
  | .get k dflt => inferInstanceAs (Decidable (dflt = .nil ∨ t.lookup k ≠ none ∨ t.items < 2 ^ 31))
  | .resize _ => inferInstanceAs (Decidable True)

/-- `Along` can be evaluated. -/
def decidableAlong (dyncast : Obj → ObjType → Obj × Bool) (P : Tab → Op → Prop)
    [∀ t op, Decidable (P t op)] : (t : Tab) → (ops : List Op) → Decidable (Along dyncast P t ops)
  | _, [] => inferInstanceAs (Decidable True)
  | t, op :: ops =>
    have : ∀ t, Decidable (Along dyncast P t ops) := fun t => decidableAlong dyncast P t ops
    inferInstanceAs (Decidable (P t op ∧ ∀ r ∈ t.step dyncast op, Along dyncast P r.1 ops))

instance (dyncast : Obj → ObjType → Obj × Bool) (P : Tab → Op → Prop)
    [∀ t op, Decidable (P t op)] (t : Tab) (ops : List Op) : Decidable (Along dyncast P t ops) :=
  decidableAlong dyncast P t ops

end Decide

/-- Some operations with a deletion, a default and a resize that drops a key. -/
def sample : List Op :=
  [.set (.num 1) (.num 7), .set (.buf [97]) (.num 8), .get (.num 1) .nil, .set (.num 1) .nil,
    .get (.tab 5) (.num 3), .get (.tab 5) (.num 4), .resize 1, .get (.num 1) .nil]

theorem run_isMap_sample :
    Along (fun _ _ => (.nil, false)) Allowed Tab.new sample ∧
    Along (fun _ _ => (.nil, false)) Room Tab.new sample ∧
    ∃ t outs m, Tab.new.run (fun _ _ => (.nil, false)) sample = some (t, outs) ∧
      (∀ out ∈ outs, out.2 = true) ∧ MapRun (fun _ => none) sample (outs.map Prod.fst) m ∧
      t.items = (keys m).ncard := by
  have hops : Along (fun _ _ => (.nil, false)) Allowed new sample := by decide
  have hroom : Along (fun _ _ => (.nil, false)) Room new sample := by decide
  exact ⟨hops, hroom, run_isMap _ sample hops hroom⟩

/-! ## The largest table -/

section Largest

variable (dyncast : Obj → ObjType → Obj × Bool)

/-- The number `i` as a key. -/
def index (i : Nat) : Obj := .num (.ofNat i)

/-- The numbers below `n` are set to zero. -/
def fill (n : Nat) : List Op := (List.range n).map fun i => .set (index i) (.num 0)

/-- One key more than a table can have, and a get of that key. -/
def overflow : List Op :=
  fill (2 ^ 31) ++ [.set (index (2 ^ 31)) (.num 0), .get (index (2 ^ 31)) .nil]

theorem index_injective {i j : Nat} (hi : i < 2 ^ 63) (hj : j < 2 ^ 63) (h : index i = index j) :
    i = j := by
  have := congrArg Int64.toInt (Obj.num.inj h)
  rw [Int64.toInt_ofNat_of_lt hi, Int64.toInt_ofNat_of_lt hj] at this
  exact Int.ofNat.inj this

theorem run_append {t t₁ t2 : Tab} {a b : List Op} {o1 o2 : List (Option Obj × Bool)}
    (ha : t.run dyncast a = some (t₁, o1)) (hb : t₁.run dyncast b = some (t2, o2)) :
    t.run dyncast (a ++ b) = some (t2, o1 ++ o2) := by
  induction a generalizing t o1 with
  | nil =>
    obtain ⟨rfl, rfl⟩ : t = t₁ ∧ [] = o1 := by simpa [run] using ha
    exact hb
  | cons op a ih =>
    simp only [run, bind_eq_bind, bind_eq_some_iff, Prod.exists] at ha
    obtain ⟨t', out, ok, hstep, t'', outs, hrun, heq⟩ := ha
    obtain ⟨rfl, rfl⟩ : t'' = t₁ ∧ (out, ok) :: outs = o1 := by simpa using heq
    simp [run, hstep, ih hrun]

theorem MapRun.append {m m' : Obj → Option Obj} {a b : List Op} {outs : List (Option Obj)}
    (h : MapRun m (a ++ b) outs m') :
    ∃ o₁ o₂ m₁, outs = o₁ ++ o₂ ∧ o₁.length = a.length ∧ MapRun m₁ b o₂ m' := by
  induction a generalizing m outs with
  | nil => exact ⟨[], outs, m, rfl, rfl, h⟩
  | cons op a ih =>
    cases h with
    | cons hstep hrun =>
      obtain ⟨o₁, o₂, m₁, rfl, hlen, h2⟩ := ih hrun
      exact ⟨_ :: o₁, o₂, m₁, rfl, by simp [hlen], h2⟩

theorem along_of_forall {P : Tab → Op → Prop} {t : Tab} {ops : List Op}
    (h : ∀ op ∈ ops, ∀ t, P t op) : Along dyncast P t ops := by
  induction ops generalizing t with
  | nil => trivial
  | cons op ops ih =>
    exact ⟨h op mem_cons_self t, fun _ _ => ih fun o ho => h o (mem_cons_of_mem _ ho)⟩

/-- Up to `2 ^ 31` keys can be set. -/
theorem fill_spec {n : Nat} (hn : n ≤ 2 ^ 31) :
    ∃ t outs m, Tab.new.run dyncast (fill n) = some (t, outs) ∧ outs.length = n ∧ IsMap t m ∧
      t.items = n ∧ ∀ i, n ≤ i → i ≤ 2 ^ 31 → m (index i) = none := by
  induction n with
  | zero => exact ⟨_, _, _, rfl, rfl, isMap_cleared (.inl rfl), rfl, fun _ _ _ => rfl⟩
  | succ n ih =>
    obtain ⟨t, outs, m, hrun, hlen, h, hitems, hnone⟩ := ih (by omega)
    obtain ⟨t', hset, h'⟩ := set_spec (v := .num 0) h (k := index n) (by simp [index])
      (.inr (.inr (by omega)))
    have hstep : t.run dyncast [.set (index n) (.num 0)] = some (t', [(none, true)]) := by
      simp [run, step, hset]
    refine ⟨t', outs ++ [(none, true)], _, ?_, by simp [hlen], h', ?_, fun i hi hle => ?_⟩
    · have : fill (n + 1) = fill n ++ [.set (index n) (.num 0)] := by
        simp [fill, range_succ]
      rw [this]
      exact run_append dyncast hrun hstep
    · rw [h.items_update h' (hnone n (Nat.le_refl n) (by omega)), hitems]
    · rw [update_of_ne fun heq => ?_]
      · exact hnone i (by omega) hle
      · have := index_injective (by omega) (by omega) heq
        omega

/-- The set of one more key fails, and the get does not return what was to be set. -/
theorem overflow_spec :
    Along dyncast Allowed Tab.new overflow ∧
    ∃ t outs, Tab.new.run dyncast overflow = some (t, outs) ∧
      ∀ m, ¬ MapRun (fun _ => none) overflow (outs.map Prod.fst) m := by
  unfold overflow
  obtain ⟨n, hn⟩ : ∃ n, n = 2 ^ 31 := ⟨_, rfl⟩
  rw [← hn]
  have hk : index n ≠ .nil := by simp [index]
  refine ⟨along_of_forall dyncast ?_, ?_⟩
  · intro op hop t
    rcases mem_append.mp hop with hop | hop
    · obtain ⟨i, -, rfl⟩ := mem_map.mp hop
      simp [Allowed, index]
    · rcases mem_pair.mp hop with rfl | rfl
      · exact hk
      · exact ⟨hk, .inl rfl⟩
  obtain ⟨t, outs, m, hrun, hlen, h, hitems, hnone⟩ := fill_spec dyncast (n := n) (by omega)
  have hnone' := hnone n (Nat.le_refl n) (by omega)
  obtain ⟨t', hset, h'⟩ := set_full (v := .num 0) h hk (by simp) hnone' (by omega)
  obtain ⟨t'', hget, -⟩ := get_default dyncast h' hk hnone' .nil (.inl rfl)
  have htwo : t.run dyncast [.set (index n) (.num 0), .get (index n) .nil] =
      some (t'', [(none, false), (some .nil, true)]) := by
    simp [run, step, hset, hget]
  refine ⟨t'', outs ++ [(none, false), (some .nil, true)], run_append dyncast hrun htwo, ?_⟩
  intro m' hm'
  obtain ⟨o1, o2, m1, heq, hlen', hlast⟩ := hm'.append
  -- after the set the map has the key
  rw [map_append] at heq
  obtain ⟨-, rfl⟩ := append_inj heq (by simp [hlen, hlen', fill])
  cases hlast with
  | cons hset' hrest =>
    cases hset'
    cases hrest with
    | cons hget' _ =>
      cases hget' with
      | found _ _ _ hv => simp at hv
      | default _ _ hv => simp at hv

end Largest

/-- A table with `2 ^ 31` keys is not the map of what is stored in it next. -/
theorem not_mapRun_overflow :
    Along (fun _ _ => (.nil, false)) Allowed Tab.new overflow ∧
    ∃ t outs, Tab.new.run (fun _ _ => (.nil, false)) overflow = some (t, outs) ∧
      ∀ m, ¬ MapRun (fun _ => none) overflow (outs.map Prod.fst) m :=
  overflow_spec _

end OpenSync.We
