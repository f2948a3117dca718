import OpenSync.Fsm.PolicyTable

/-!
# The policy tables and the database

The tables mirror the database when they hold, under the name of a table and an index, the
translation of the row with these, and nothing else.  A callback keeps this, for names that fit,
unless

* it stores a policy with index 0: `fsm_policy_get_prev` then starts at index `SIZE_MAX`;
* it stores a policy with two keys in `next`: the second one is read in the first;
* it refuses a row with a number in `next`: the number is released as if it were a pointer;
* it modifies the table or the index of a stored row: the old place stays;
* it deletes a row with an index out of range: only the other callbacks check it.
-/

namespace OpenSync.FsmPolicy

open OpenSync.Lib OpenSync.Ds List Option

/-! ## The column `next` -/

/-- Inside the first key the end of it is read. -/
theorem cstrOf_drop_keyBytes {key : CStr} (keys : List CStr) {n : Nat}
    (hkey : key.1.length < mapKeysz) (hn : n < mapKeysz) :
    cstrOf ((keyBytes (key :: keys)).drop n) =
      ⟨key.1.drop n, fun h => key.2 (mem_of_mem_drop h)⟩ := by
  obtain ⟨rest, hrest⟩ : ∃ rest, (keyBytes (key :: keys)).drop n = key.1.drop n ++ 0 :: rest := by
    rw [keyBytes, flatMap_cons, append_assoc, drop_append]
    obtain ⟨k, hk⟩ : ∃ k, mapKeysz - key.1.length - (n - key.1.length) = k + 1 :=
      ⟨_, (Nat.succ_pred_eq_of_pos (by omega)).symm⟩
    rw [drop_append_of_le_length (by rw [length_replicate]; omega), drop_replicate, hk,
      replicate_succ]
    exact ⟨_, rfl⟩
  rw [hrest]
  exact cstrOf_append ⟨_, fun h => key.2 (mem_of_mem_drop h)⟩ rest

theorem mem_foldl_insert {β : Type} {l acc : List (CStr × β)} {p : CStr × β} :
    p ∈ l.foldl (Ordered.insert Prod.fst strcmp) acc ↔ p ∈ acc ∨ p ∈ l := by
  induction l generalizing acc with
  | nil => simp
  | cons q l ih =>
    rw [foldl_cons, ih, Ordered.mem_insert, mem_cons]
    tauto

/-- The values are those of the row, whatever the keys are. -/
theorem toItree_values (P : Int → Prop) (elemSize : Nat) (l : List (CStr × Int)) :
    (∀ p ∈ (toItree elemSize l).getD [], P p.2) ↔ ∀ p ∈ l, P p.2 := by
  cases l with
  | nil => simp [toItree, toTree]
  | cons q l =>
    rw [toItree, toTree, if_neg (by simp), getD_some]
    simp only [mem_foldl_insert, not_mem_nil, false_or, List.forall_mem_map]
    constructor
    · intro h p hp
      obtain ⟨i, hi⟩ := getElem?_of_mem hp
      exact h (p, i) (mk_mem_zipIdx_iff_getElem?.mpr hi)
    · exact fun h p hp => h p.1 (fst_mem_of_mem_zipIdx hp)

/-- The second key is the end of the first one, which is where it is read. -/
def Row.Reads (row : Row) : Prop :=
  ∀ a ∈ row.next[0]?, ∀ b ∈ row.next[1]?, b.1.1 = a.1.1.drop 4

instance Row.decidableReads (row : Row) : Decidable row.Reads :=
  inferInstanceAs (Decidable (∀ a ∈ row.next[0]?, ∀ b ∈ row.next[1]?, b.1.1 = a.1.1.drop 4))

theorem toTree_pair_inj {a : CStr × Int} {k k' : CStr} {v : Int} :
    toTree [a, (k, v)] = toTree [a, (k', v)] ↔ k = k' := by
  constructor
  · intro h
    simp only [toTree, reduceCtorEq, if_false, foldl_cons, foldl_nil, some.injEq] at h
    have hleft := Ordered.insert_perm Prod.fst strcmp (Ordered.insert Prod.fst strcmp [] a) (k, v)
    have hright := Ordered.insert_perm Prod.fst strcmp (Ordered.insert Prod.fst strcmp [] a) (k', v)
    rw [h] at hleft
    have heq : [(k, v)] ~ [(k', v)] :=
      (perm_append_right_iff _).mp (hleft.symm.trans hright)
    simpa using heq
  · rintro rfl
    rfl

/-! ## What the tables hold -/

/-- The policy under a name and an index. -/
def Mgr.held (m : Mgr) (name : CStr) (idx : Nat) : Option Policy :=
  (m.find name).bind fun i => ((m.table i).lookupArray idx).map Entry.policy

/-- A name that fits in a table. -/
def Fits (name : CStr) : Prop := name.1.length < policyNameSize

/-- The tables have different names that fit, and each policy knows its place. -/
structure Mgr.WF (m : Mgr) : Prop where
  lt : ∀ i ∈ m.policyTables, i < m.count
  fits : ∀ i ∈ m.policyTables, Fits (m.table i).name
  names : ∀ i ∈ m.policyTables, ∀ j ∈ m.policyTables, (m.table i).name = (m.table j).name → i = j
  entries : ∀ i ∈ m.policyTables, ∀ idx e, (m.table i).lookupArray idx = some e →
    e.table = i ∧ e.policy.idx = idx ∧ idx < maxPolicies

theorem tableNameCmp_eq_zero {a b : CStr} (h : Fits a) : tableNameCmp a b = 0 ↔ a = b := by
  rw [tableNameCmp, strncmpBytes_eq_zero_iff a.2 b.2, take_of_length_le h.le]
  constructor
  · intro eq
    have len := congrArg length eq
    rw [length_take] at len
    have short : b.1.length ≤ policyNameSize := by
      unfold Fits at h
      omega
    exact Subtype.ext (eq.trans (take_of_length_le short))
  · rintro rfl
    exact (take_of_length_le h.le).symm

namespace Mgr

variable {m m' : Mgr} {name : CStr} {i idx : Nat} {row : Row}

theorem find_eq_some_iff (wf : m.WF) :
    m.find name = some i ↔ i ∈ m.policyTables ∧ (m.table i).name = name := by
  have cmp : ∀ j ∈ m.policyTables, tableNameCmp (m.table j).name name = 0 ↔
      (m.table j).name = name := fun j hj => tableNameCmp_eq_zero (wf.fits j hj)
  rw [Mgr.find, Ordered.find_eq_some_iff]
  · exact and_congr_right (cmp i)
  intro j hj l hl eqj eql
  exact wf.names j hj l hl (((cmp j hj).mp eqj).trans ((cmp l hl).mp eql).symm)

variable {p : Policy}

theorem held_eq_some_iff (wf : m.WF) : m.held name idx = some p ↔
    ∃ i ∈ m.policyTables, (m.table i).name = name ∧
      ∃ e, (m.table i).lookupArray idx = some e ∧ e.policy = p := by
  simp [held, bind_eq_some_iff, find_eq_some_iff wf, and_assoc]

theorem held_of_mem (wf : m.WF) (hi : i ∈ m.policyTables) (idx : Nat) :
    m.held (m.table i).name idx = ((m.table i).lookupArray idx).map Entry.policy := by
  rw [held, (find_eq_some_iff wf).mpr ⟨hi, rfl⟩, bind_some]

/-! ## Changing one place -/

@[simp] theorem setSlot_policyTables (m : Mgr) (i idx : Nat) (e : Option Entry) :
    (m.setSlot i idx e).policyTables = m.policyTables := rfl

@[simp] theorem setSlot_name (m : Mgr) (i idx j : Nat) (e : Option Entry) :
    ((m.setSlot i idx e).table j).name = (m.table j).name := by
  by_cases h : j = i <;> simp [setSlot, Table.set, h]

theorem setSlot_lookupArray (m : Mgr) (i idx j idx' : Nat) (e : Option Entry) :
    ((m.setSlot i idx e).table j).lookupArray idx' =
      if j = i ∧ idx' = idx then e else (m.table j).lookupArray idx' := by
  by_cases h : j = i
  · subst h
    by_cases h' : idx' = idx <;> simp [setSlot, Table.set, h']
  · simp [setSlot, h]

theorem setSlot_find (m : Mgr) (i idx : Nat) (e : Option Entry) (name : CStr) :
    (m.setSlot i idx e).find name = m.find name := by
  simp [find]

section

variable (wf : m.WF)

include wf

theorem setSlot_wf {e : Option Entry}
    (he : ∀ e', e = some e' → e'.table = i ∧ e'.policy.idx = idx ∧ idx < maxPolicies) :
    (m.setSlot i idx e).WF where
  lt := wf.lt
  fits j hj := by
    rw [setSlot_name]
    exact wf.fits j hj
  names j hj k hk := by
    rw [setSlot_name, setSlot_name]
    exact wf.names j hj k hk
  entries j hj k e' := by
    rw [setSlot_lookupArray]
    split
    · rintro rfl
      obtain ⟨rfl, rfl⟩ := ‹_ ∧ _›
      exact he e' rfl
    · exact wf.entries j hj k e'

theorem setSlot_held (hi : i ∈ m.policyTables) (e : Option Entry) (name : CStr) (idx' : Nat)
    : (m.setSlot i idx e).held name idx' =
      if name = (m.table i).name ∧ idx' = idx then e.map Entry.policy else m.held name idx' := by
  rw [held, setSlot_find]
  simp only [setSlot_lookupArray]
  cases h : m.find name with
  | none =>
    have hne : name ≠ (m.table i).name := by
      rintro rfl
      rw [(find_eq_some_iff wf).mpr ⟨hi, rfl⟩] at h
      cases h
    simp [held, h, hne]
  | some j =>
    obtain ⟨hj, rfl⟩ := (find_eq_some_iff wf).mp h
    by_cases hji : j = i
    · subst hji
      by_cases h' : idx' = idx <;> simp [held, h, h']
    · have hne : (m.table j).name ≠ (m.table i).name := fun e => hji (wf.names j hj i hi e)
      simp [held, h, hji, hne]

/-! ## Finding or creating a table -/

/-- The tables of `m` are still there, and nothing else is held. -/
structure Grown (m m' : Mgr) : Prop where
  wf : m'.WF
  tables : ∀ i ∈ m.policyTables, i ∈ m'.policyTables ∧ m'.table i = m.table i
  held : ∀ name idx, m'.held name idx = m.held name idx

theorem Grown.refl : Grown m m := ⟨wf, fun _ h => ⟨h, rfl⟩, fun _ _ => rfl⟩

theorem newTable_grown (fits : Fits name) (missing : m.find name = none) :
    Grown m (m.newTable name) ∧ m.count ∈ (m.newTable name).policyTables ∧
      ((m.newTable name).table m.count).name = name := by
  have mem : ∀ j, j ∈ (m.newTable name).policyTables ↔ j = m.count ∨ j ∈ m.policyTables := by
    intro j
    simp [newTable, Ordered.mem_insert]
  have old : ∀ j ∈ m.policyTables, (m.newTable name).table j = m.table j := fun j hj =>
    Function.update_of_ne (Nat.ne_of_lt (wf.lt j hj)) _ _
  have new : (m.newTable name).table m.count = ⟨name, fun _ => none⟩ := by
    simp [newTable, Function.update_self, strscpy_of_lt fits]
  have fresh : ∀ j ∈ m.policyTables, (m.table j).name ≠ name := by
    rintro j hj rfl
    rw [(find_eq_some_iff wf).mpr ⟨hj, rfl⟩] at missing
    cases missing
  have wf' : (m.newTable name).WF := by
    refine ⟨fun j hj => ?_, fun j hj => ?_, fun j hj k hk => ?_, fun j hj => ?_⟩
    · rcases (mem j).mp hj with rfl | hj
      · exact Nat.lt_succ_self _
      · exact Nat.lt_succ_of_lt (wf.lt j hj)
    · rcases (mem j).mp hj with rfl | hj
      · rw [new]
        exact fits
      · rw [old j hj]
        exact wf.fits j hj
    · rcases (mem j).mp hj with rfl | hj <;> rcases (mem k).mp hk with rfl | hk
      · exact fun _ => rfl
      · rw [new, old k hk]
        exact fun e => absurd e.symm (fresh k hk)
      · rw [new, old j hj]
        exact fun e => absurd e (fresh j hj)
      · rw [old j hj, old k hk]
        exact wf.names j hj k hk
    · rcases (mem j).mp hj with rfl | hj
      · rw [new]
        intro k e he
        cases he
      · rw [old j hj]
        exact wf.entries j hj
  refine ⟨⟨wf', fun j hj => ⟨(mem j).mpr (.inr hj), old j hj⟩, fun n k => ?_⟩,
    (mem _).mpr (.inl rfl), by rw [new]⟩
  refine ext fun p => ?_
  rw [held_eq_some_iff wf', held_eq_some_iff wf]
  constructor
  · rintro ⟨j, hj, hn, e, he, hp⟩
    rcases (mem j).mp hj with rfl | hj
    · rw [new] at he
      cases he
    · rw [old j hj] at hn he
      exact ⟨j, hj, hn, e, he, hp⟩
  · rintro ⟨j, hj, h⟩
    refine ⟨j, (mem j).mpr (.inr hj), ?_⟩
    rw [old j hj]
    exact h

theorem getTable_grown (fits : Fits name) :
    Grown m (m.getTable name).2 ∧ (m.getTable name).1 ∈ (m.getTable name).2.policyTables ∧
      ((m.getTable name).2.table (m.getTable name).1).name = name := by
  unfold getTable
  cases h : m.find name with
  | none => exact newTable_grown wf fits h
  | some i => exact ⟨.refl wf, (find_eq_some_iff wf).mp h⟩

theorem setNext_grown (fits : ∀ key, row.nextTable = some key → Fits key) :
    Grown m (m.setNext row) := by
  unfold setNext
  cases h : row.nextTable with
  | none => exact .refl wf
  | some key => exact (getTable_grown wf (fits key h)).1

end

/-! ## Storing a policy -/

section

variable (lookup : Nat → Option Entry)

theorem prevFrom_isSome (h : idx < maxPolicies) : (prevFrom lookup idx).isSome := by
  induction idx with
  | zero => rfl
  | succ idx ih =>
    rw [prevFrom, if_neg (Nat.not_le_of_lt h)]
    split
    · exact ih (Nat.lt_of_succ_lt h)
    · rfl

theorem getPrev_isSome (h : idx < maxPolicies) (h0 : idx ≠ 0) : (getPrev lookup idx).isSome := by
  have eq : toSize ((idx : Int) - 1) = idx - 1 := by
    have cast : (idx : Int) - 1 = ((idx - 1 : Nat) : Int) := by omega
    have max : idx < 60 := h
    rw [cast, toSize_of_lt (by omega)]
  rw [getPrev, eq]
  exact prevFrom_isSome lookup (Nat.lt_of_le_of_lt (Nat.sub_le _ _) h)

end

theorem place_spec (wf : m.WF) (hi : i ∈ m.policyTables) (h : p.idx < maxPolicies)
    (h0 : p.idx ≠ 0) : ∃ m', m.place i p = some m' ∧ m'.WF ∧ i ∈ m'.policyTables ∧
      (m'.table i).name = (m.table i).name ∧ ∀ name idx, m'.held name idx =
        if name = (m.table i).name ∧ idx = p.idx then some p else m.held name idx := by
  have entry : ∀ prev next, ∀ e', some (⟨p, i, prev, next⟩ : Entry) = some e' →
      e'.table = i ∧ e'.policy.idx = p.idx ∧ p.idx < maxPolicies := by
    rintro prev next e' ⟨⟩
    exact ⟨rfl, rfl, h⟩
  have wf1 := setSlot_wf wf (entry 0 0)
  obtain ⟨prev, eq⟩ := isSome_iff_exists.mp (getPrev_isSome
    ((m.setSlot i p.idx (some ⟨p, i, 0, 0⟩)).table i).lookupArray h h0)
  refine ⟨_, by simp only [place, eq]; rfl, setSlot_wf wf1 (entry _ _), hi, by simp, ?_⟩
  intro name idx
  rw [setSlot_held wf1 hi, setSlot_held wf hi, setSlot_name]
  split <;> rfl

theorem prepare_spec (wf : m.WF) (hi : i ∈ m.policyTables) (h : idx < maxPolicies) :
    (m.prepare i idx).WF ∧ ∀ name idx', (m.prepare i idx).held name idx' =
      if name = (m.table i).name ∧ idx' = idx then (m.held name idx').map Policy.prepare
      else m.held name idx' := by
  refine ⟨setSlot_wf wf fun e' he' => ?_, fun name idx' => ?_⟩
  · obtain ⟨e, he, rfl⟩ := map_eq_some_iff.mp he'
    have := wf.entries i hi idx e he
    refine ⟨this.1, ?_, h⟩
    rw [Policy.prepare]
    split <;> exact this.2.1
  · rw [prepare, setSlot_held wf hi]
    split
    · obtain ⟨rfl, rfl⟩ := ‹_ ∧ _›
      rw [held_of_mem wf hi, Option.map_map, Option.map_map]
      rfl
    · rfl

end Mgr

/-! ## The callbacks -/

/-- The index is one of `lookup_array`. -/
def Row.InRange (row : Row) : Prop := 0 ≤ row.idx ∧ row.idx < maxPolicies

instance (row : Row) : Decidable row.InRange := inferInstanceAs (Decidable (_ ∧ _))

/-- The policy that the tables hold for a row. -/
def Row.loaded (row : Row) : Option Policy :=
  if row.InRange ∧ row.isFlushRequest = false then row.translate.map Policy.prepare else none

/-- The policy that the tables should hold for a row, with its own keys of `next`. -/
def Row.stored (row : Row) : Option Policy :=
  row.loaded.map fun p => { p with next := toTree row.next }

/-- The callback of the row reads outside of `lookup_array`, or releases a number of `next`. -/
def Row.Crashes (row : Row) : Prop :=
  row.InRange ∧ row.isFlushRequest = false ∧
    (row.idx = 0 ∧ row.translate.isSome ∨ row.translate = none ∧ ∃ p ∈ row.next, p.2 ≠ 0)

instance Row.decidableCrashes (row : Row) : Decidable row.Crashes :=
  inferInstanceAs (Decidable (_ ∧ _ ∧ (_ ∨ _)))

/-- The names in a row fit in a table, and the column `next` in a record. -/
structure Row.Fits (row : Row) : Prop where
  table : FsmPolicy.Fits row.table
  next : ∀ key, row.nextTable = some key → FsmPolicy.Fits key
  len : row.next.length ≤ 2
  keys : ∀ p ∈ row.next, p.1.1.length < mapKeysz

variable {row : Row}

/-- The tree has the keys of the row exactly if the second one is the end of the first one. -/
theorem Row.nextTree_eq_iff (fits : row.Fits) : row.nextTree = toTree row.next ↔ row.Reads := by
  obtain ⟨-, -, len, keys⟩ := fits
  rw [nextTree, toItree, Reads]
  generalize row.next = l at len keys ⊢
  rcases l with _ | ⟨a, _ | ⟨b, _ | ⟨c, l⟩⟩⟩
  · simp
  · have first := cstrOf_drop_keyBytes [] (keys a mem_cons_self) (n := 0) (by decide)
    simp only [drop_zero] at first
    simp [first]
  · have first := cstrOf_drop_keyBytes [b.1] (keys a mem_cons_self) (n := 0) (by decide)
    have second := cstrOf_drop_keyBytes [b.1] (keys a mem_cons_self) (n := 4) (by decide)
    simp only [drop_zero] at first
    have list : zipIdx [a, b] = [(a, 0), (b, 1)] := rfl
    simp only [list, map_cons, map_nil, Nat.mul_zero, drop_zero, Nat.mul_one, first, second]
    rw [toTree_pair_inj, Subtype.ext_iff]
    simp [eq_comm]
  · simp at len

theorem Policy.prepare_next (p : Policy) : p.prepare.next = p.next := by
  unfold prepare
  split <;> rfl

/-- A row is held as it should be if its keys are read. -/
theorem Row.loaded_eq_stored_iff (fits : row.Fits) :
    row.loaded = row.stored ↔ (row.stored.isSome → row.Reads) := by
  rw [stored, isSome_map]
  cases h : row.loaded with
  | none => simp
  | some p =>
    have next : p.next = row.nextTree := by
      unfold loaded at h
      split_ifs at h
      obtain ⟨q, tr, rfl⟩ := map_eq_some_iff.mp h
      obtain ⟨rules, -, rfl⟩ := map_eq_some_iff.mp tr
      exact Policy.prepare_next _
    rw [← nextTree_eq_iff fits, ← next]
    simp only [map_some, some.injEq, isSome_some, forall_const]
    exact ⟨fun eq => congrArg Policy.next eq, fun eq => by rw [← eq]⟩

theorem freeStrTree_eq (row : Row) :
    Mgr.freeStrTree row.nextTree = if ∀ p ∈ row.next, p.2 = 0 then some () else none := by
  rw [Mgr.freeStrTree, Row.nextTree]
  simp only [toItree_values fun v => v = 0]

theorem Row.InRange.toNat_lt (h : row.InRange) : row.idx.toNat < maxPolicies := by
  have := h.2
  have := h.1
  omega

theorem Table.at_inRange {t : Table} (h : row.InRange) :
    t.at row.idx = some (t.lookupArray row.idx.toNat) := if_pos h

theorem Row.not_inRange_iff : ¬row.InRange ↔ row.idx < 0 ∨ (maxPolicies : Int) ≤ row.idx := by
  unfold Row.InRange
  omega

namespace Mgr

variable {m : Mgr} {row : Row}

structure Changed (m : Mgr) (row : Row) (p : Option Policy) (m' : Mgr) : Prop where
  wf : m'.WF
  held : ∀ name idx, m'.held name idx =
    if name = row.table ∧ idx = row.idx.toNat then p else m.held name idx

theorem Changed.of_held {m' : Mgr} (wf : m'.WF)
    (same : ∀ name idx, m'.held name idx = m.held name idx)
    (free : m.held row.table row.idx.toNat = none) : Changed m row none m' := by
  refine ⟨wf, fun name idx => ?_⟩
  rw [same]
  split
  · obtain ⟨rfl, rfl⟩ := ‹_ ∧ _›
    exact free
  · rfl

/-- In a free place the row is translated and inserted. -/
theorem policyGet_of_free (wf : m.WF) (fits : FsmPolicy.Fits row.table) (range : row.InRange)
    (free : m.held row.table row.idx.toNat = none) :
    m.policyGet row =
      ((m.getTable row.table).2.insertSchemaP (m.getTable row.table).1 row).bind fun m' =>
        some (m'.prepare (m.getTable row.table).1 row.idx.toNat) := by
  obtain ⟨grown, mem, name⟩ := getTable_grown wf fits
  have slot : ((m.getTable row.table).2.table (m.getTable row.table).1).at row.idx = some none := by
    rw [Table.at_inRange range, some.injEq]
    have h := held_of_mem grown.wf mem row.idx.toNat
    rw [name, grown.held, free] at h
    exact map_eq_none_iff.mp h.symm
  simp only [policyGet, slot]
  rfl

/-- Adding a row in a free place stores its policy, unless it crashes. -/
theorem policyGet_spec (wf : m.WF) (fits : row.Fits) (range : row.InRange)
    (flush : row.isFlushRequest = false) (free : m.held row.table row.idx.toNat = none) :
    (row.Crashes → m.policyGet row = none) ∧
      (¬row.Crashes → ∃ m', m.policyGet row = some m' ∧
        Changed m row (row.translate.map Policy.prepare) m') := by
  obtain ⟨grown, mem, name⟩ := getTable_grown wf fits.table
  have grown2 := setNext_grown grown.wf fits.next
  obtain ⟨mem2, table2⟩ := grown2.tables _ mem
  have name2 : (((m.getTable row.table).2.setNext row).table (m.getTable row.table).1).name =
      row.table := by rw [table2, name]
  have get := policyGet_of_free wf fits.table range free
  have held2 : ∀ name idx, ((m.getTable row.table).2.setNext row).held name idx =
      m.held name idx := fun name idx => (grown2.held name idx).trans (grown.held name idx)
  cases tr : row.translate with
  | none =>
    have insert : (m.getTable row.table).2.insertSchemaP (m.getTable row.table).1 row =
        (freeStrTree row.nextTree).map fun _ => (m.getTable row.table).2.setNext row := by
      rw [insertSchemaP, tr]
    rw [freeStrTree_eq] at insert
    refine ⟨fun h => ?_, fun h => ?_⟩
    · obtain ⟨-, -, ⟨-, some⟩ | ⟨-, p, hp, value⟩⟩ := h
      · simp [tr] at some
      · rw [get, insert, if_neg fun zero => value (zero p hp)]
        rfl
    have zero : ∀ p ∈ row.next, p.2 = 0 := by
      intro p hp
      by_contra value
      exact h ⟨range, flush, .inr ⟨tr, p, hp, value⟩⟩
    obtain ⟨wf3, held3⟩ := prepare_spec grown2.wf mem2 range.toNat_lt
    refine ⟨_, by rw [get, insert, if_pos zero]; rfl, .of_held wf3 (fun name idx => ?_) free⟩
    rw [held3, held2]
    split
    · obtain ⟨rfl, rfl⟩ := ‹_ ∧ _›
      rw [name2, free]
      rfl
    · rfl
  | some p =>
    have hidx : p.idx = row.idx.toNat := by
      obtain ⟨rules, -, rfl⟩ := map_eq_some_iff.mp tr
      rfl
    have insert : (m.getTable row.table).2.insertSchemaP (m.getTable row.table).1 row =
        ((m.getTable row.table).2.setNext row).place (m.getTable row.table).1 p := by
      rw [insertSchemaP, tr]
    refine ⟨fun h => ?_, fun h => ?_⟩
    · obtain ⟨-, -, ⟨zero, -⟩ | ⟨none, -⟩⟩ := h
      · rw [get, insert, place, hidx, zero]
        rfl
      · rw [tr] at none
        cases none
    have h0 : p.idx ≠ 0 := by
      have := range.1
      have : row.idx ≠ 0 := fun e => h ⟨range, flush, .inl ⟨e, by rw [tr]; rfl⟩⟩
      omega
    obtain ⟨m3, eq, wf3, mem3, name3, held3⟩ :=
      place_spec grown2.wf mem2 (hidx ▸ range.toNat_lt) h0
    obtain ⟨wf4, held4⟩ := prepare_spec wf3 mem3 range.toNat_lt
    refine ⟨_, by rw [get, insert, eq]; rfl, wf4, fun name idx => ?_⟩
    rw [held4, held3, name3, name2, held2, hidx]
    split <;> rfl

theorem addPolicy_spec (wf : m.WF) (fits : row.Fits)
    (free : row.InRange → m.held row.table row.idx.toNat = none) :
    (row.Crashes → m.addPolicy row = none) ∧
      (¬row.Crashes → ∃ m', m.addPolicy row = some m' ∧ m'.WF ∧
        ∀ name idx, m'.held name idx =
          if row.InRange ∧ name = row.table ∧ idx = row.idx.toNat then row.loaded
          else m.held name idx) := by
  by_cases range : row.InRange
  · have inside : ¬(row.idx < 0 ∨ (maxPolicies : Int) ≤ row.idx) := fun h =>
      Row.not_inRange_iff.mpr h range
    cases flush : row.isFlushRequest with
    | true =>
      have loaded : row.loaded = none := by simp [Row.loaded, flush]
      refine ⟨fun h => absurd (flush.symm.trans h.2.1) (by simp), fun _ => ?_⟩
      refine ⟨m, by rw [addPolicy, if_neg inside, flush]; rfl, wf, fun name idx => ?_⟩
      split
      · obtain ⟨-, rfl, rfl⟩ := ‹_ ∧ _ ∧ _›
        rw [free range, loaded]
      · rfl
    | false =>
      have loaded : row.loaded = row.translate.map Policy.prepare := by
        simp [Row.loaded, range, flush]
      have add : m.addPolicy row = m.policyGet row := by
        rw [addPolicy, if_neg inside, flush]
        rfl
      obtain ⟨bad, good⟩ := policyGet_spec wf fits range flush (free range)
      rw [add, loaded]
      refine ⟨bad, fun h => ?_⟩
      obtain ⟨m', eq, changed⟩ := good h
      refine ⟨m', eq, changed.wf, fun name idx => ?_⟩
      rw [changed.held]
      simp [range]
  · refine ⟨fun h => absurd h.1 range, fun _ => ?_⟩
    refine ⟨m, by rw [addPolicy, if_pos (Row.not_inRange_iff.mp range)], wf, fun name idx => ?_⟩
    simp [range]

attribute [local simp] policyLookup deletePolicy

theorem deletePolicy_inRange (wf : m.WF) (range : row.InRange) :
    ∃ m', m.deletePolicy row = some m' ∧ Changed m row none m' := by
  cases found : m.find row.table with
  | none =>
    refine ⟨m, by simp [found], .of_held wf (fun _ _ => rfl) ?_⟩
    rw [held, found]
    rfl
  | some i =>
    obtain ⟨hi, name⟩ := (find_eq_some_iff wf).mp found
    have at_eq := Table.at_inRange (t := m.table i) range
    cases slot : (m.table i).lookupArray row.idx.toNat with
    | none =>
      refine ⟨m, by simp [found, at_eq, slot], .of_held wf (fun _ _ => rfl) ?_⟩
      rw [held, found, bind_some, slot]
      rfl
    | some e =>
      obtain ⟨rfl, idx, lt⟩ := wf.entries i hi _ e slot
      have free : (m.table e.table).at e.policy.idx =
          some ((m.table e.table).lookupArray e.policy.idx) := by
        refine if_pos ⟨Int.natCast_nonneg _, ?_⟩
        rw [idx]
        exact_mod_cast lt
      have freed : m.freePolicy e = some (m.setSlot e.table row.idx.toNat none) := by
        rw [freePolicy, free, idx]
        rfl
      have eq : m.deletePolicy row = some (m.setSlot e.table row.idx.toNat none) := by
        simp [found, at_eq, slot, freed]
      refine ⟨_, eq, setSlot_wf wf (by simp), fun n k => ?_⟩
      rw [setSlot_held wf hi, name]
      rfl

/-- Deleting a row out of range reads outside of the array, if the table is there. -/
theorem deletePolicy_outOfRange (range : ¬row.InRange) :
    m.deletePolicy row = if (m.find row.table).isSome then none else some m := by
  cases found : m.find row.table with
  | none => simp [found]
  | some i =>
    have at_eq : (m.table i).at row.idx = none := if_neg range
    simp [found, at_eq]

end Mgr

end OpenSync.FsmPolicy
