import Mathlib.Data.List.Nodup
import OpenSync.Fsm.PolicyMirror

/-!
# Runs of changes of the policy table

The database is the list of its rows, and no two rows have the same table and index.  The
tables mirror the database after every callback of a run exactly when every callback meets the
conditions of `Fine`.
-/

namespace OpenSync.FsmPolicy

open OpenSync.Lib List Row Mgr Option

/-! ## The database -/

def Row.key (row : Row) : CStr × Int := (row.table, row.idx)

def dbStep (db : List Row) : Event → List Row
  | .new row => row :: db
  | .modify old new => new :: db.erase old
  | .del row => db.erase row

/-- A change that leaves tables and indices distinct. -/
def Legal (db : List Row) : Event → Prop
  | .new row => row.key ∉ db.map Row.key
  | .modify old new => old ∈ db ∧ new.key ∉ (db.erase old).map Row.key
  | .del row => row ∈ db

instance (db : List Row) (ev : Event) : Decidable (Legal db ev) :=
  match ev with
  | .new row => inferInstanceAs (Decidable (row.key ∉ db.map Row.key))
  | .modify old new =>
    inferInstanceAs (Decidable (old ∈ db ∧ new.key ∉ (db.erase old).map Row.key))
  | .del row => inferInstanceAs (Decidable (row ∈ db))

/-- The policy that should be held under a name and an index. -/
def expected (db : List Row) (name : CStr) (idx : Nat) : Option Policy :=
  (db.find? fun row => row.key = (name, (idx : Int))).bind Row.stored

def Mirrors (m : Mgr) (db : List Row) : Prop :=
  ∀ name idx, m.held name idx = expected db name idx

variable {db : List Row} {row old new : Row} {name : CStr} {idx : Nat}

theorem expected_cons : expected (row :: db) name idx =
    if row.key = (name, (idx : Int)) then row.stored else expected db name idx := by
  by_cases h : row.key = (name, (idx : Int)) <;> simp [h, expected]

theorem expected_of_not_mem (h : (name, (idx : Int)) ∉ db.map Row.key) :
    expected db name idx = none := by
  have missing : db.find? (fun row => row.key = (name, (idx : Int))) = none := by
    rw [find?_eq_none]
    intro row hrow hkey
    exact h (mem_map.mpr ⟨row, hrow, by simpa using hkey⟩)
  rw [expected, missing]
  rfl

theorem expected_of_mem (unique : (db.map Row.key).Nodup) (hrow : row ∈ db)
    (hkey : row.key = (name, (idx : Int))) : expected db name idx = row.stored := by
  induction db with
  | nil => cases hrow
  | cons r db ih =>
    rw [map_cons, nodup_cons] at unique
    rw [expected_cons]
    rcases mem_cons.mp hrow with rfl | hrow
    · rw [if_pos hkey]
    have hr : r.key ≠ (name, (idx : Int)) := by
      rw [← hkey]
      exact fun e => unique.1 (e ▸ mem_map_of_mem hrow)
    rw [if_neg hr]
    exact ih unique.2 hrow

theorem expected_erase (unique : (db.map Row.key).Nodup) (hrow : row ∈ db) :
    expected (db.erase row) name idx =
      if row.key = (name, (idx : Int)) then none else expected db name idx := by
  induction db with
  | nil => cases hrow
  | cons r db ih =>
    rw [map_cons, nodup_cons] at unique
    by_cases hr : r = row
    · subst hr
      rw [erase_cons_head, expected_cons]
      split
      · next hkey => exact expected_of_not_mem (hkey ▸ unique.1)
      · rfl
    · have hrow := (mem_cons.mp hrow).resolve_left (Ne.symm hr)
      have hne : row.key ≠ r.key := fun e => unique.1 (e ▸ mem_map_of_mem hrow)
      rw [erase_cons_tail (by simpa using hr), expected_cons, expected_cons, ih unique.2 hrow]
      by_cases hkey : r.key = (name, (idx : Int))
      · rw [if_pos hkey, if_pos hkey, if_neg (hkey ▸ hne)]
      · rw [if_neg hkey, if_neg hkey]

theorem Row.key_eq_iff (range : row.InRange) :
    row.key = (name, (idx : Int)) ↔ name = row.table ∧ idx = row.idx.toNat := by
  have := range.1
  rw [key, Prod.mk.injEq]
  refine and_congr eq_comm ⟨fun h => ?_, fun h => ?_⟩ <;> omega

theorem Row.stored_of_outOfRange (range : ¬row.InRange) : row.stored = none := by
  simp [stored, loaded, range]

variable {ev : Event} {evs : List Event}

theorem legal_unique (unique : (db.map Row.key).Nodup) (legal : Legal db ev) :
    ((dbStep db ev).map Row.key).Nodup := by
  have erase : ∀ row, ((db.erase row).map key).Nodup := fun row =>
    unique.sublist (erase_sublist.map key)
  cases ev with
  | new row => exact nodup_cons.mpr ⟨legal, unique⟩
  | modify old new => exact nodup_cons.mpr ⟨legal.2, erase old⟩
  | del row => exact erase row

/-! ## One change -/

/-- The names in the rows of a change fit in a table. -/
def Event.Fits : Event → Prop
  | .new row | .modify _ row | .del row => row.Fits

/-- The row is loaded without a crash, and its keys of `next` are read if it is stored. -/
def Row.Fine (row : Row) : Prop := ¬row.Crashes ∧ (row.stored.isSome → row.Reads)

instance Row.decidableFine (row : Row) : Decidable row.Fine := inferInstanceAs (Decidable (_ ∧ _))

/-- The change loads a row that is fine, moves no stored policy, and deletes no row with an index
out of range from a table. -/
def Fine (m : Mgr) : Event → Prop
  | .new row => row.Fine
  | .modify old new => (old.key = new.key ∨ old.stored = none) ∧ new.Fine
  | .del row => row.InRange ∨ m.find row.table = none

instance (m : Mgr) (ev : Event) : Decidable (Fine m ev) :=
  match ev with
  | .new row => inferInstanceAs (Decidable row.Fine)
  | .modify old new =>
    inferInstanceAs (Decidable ((old.key = new.key ∨ old.stored = none) ∧ new.Fine))
  | .del row => inferInstanceAs (Decidable (row.InRange ∨ m.find row.table = none))

/-- The callback returns, and the tables mirror the database again. -/
def Kept (m : Mgr) (db : List Row) (ev : Event) : Prop :=
  ∃ m', m.callback ev = some m' ∧ m'.WF ∧ Mirrors m' (dbStep db ev)

variable {m : Mgr}

theorem free_of_not_mem (mirrors : Mirrors m db) (h : row.key ∉ db.map Row.key)
    (range : row.InRange) : m.held row.table row.idx.toNat = none := by
  rw [mirrors]
  refine expected_of_not_mem ?_
  rwa [← (key_eq_iff range).mpr ⟨rfl, rfl⟩]

theorem new_iff (wf : m.WF) (mirrors : Mirrors m db) (legal : Legal db (.new row))
    (fits : row.Fits) : Kept m db (.new row) ↔ Fine m (.new row) := by
  obtain ⟨bad, good⟩ := addPolicy_spec wf fits (free_of_not_mem mirrors legal)
  rw [Fine, Row.Fine, ← loaded_eq_stored_iff fits]
  by_cases crash : row.Crashes
  · refine iff_of_false ?_ fun h => h.1 crash
    rintro ⟨m', eq, -⟩
    rw [callback, bad crash] at eq
    cases eq
  obtain ⟨m', eq, wf', held⟩ := good crash
  by_cases range : row.InRange
  · have expect : ∀ name idx, expected (dbStep db (.new row)) name idx =
        if name = row.table ∧ idx = row.idx.toNat then row.stored else m.held name idx := by
      intro name idx
      rw [dbStep, expected_cons, mirrors]
      simp only [key_eq_iff range]
    simp only [range, true_and] at held
    constructor
    · rintro ⟨m2, eq2, -, mirrors'⟩
      obtain rfl : m' = m2 := some.inj (eq.symm.trans eq2)
      have at_row := (held row.table row.idx.toNat).symm.trans (mirrors' _ _)
      rw [expect, if_pos ⟨rfl, rfl⟩, if_pos ⟨rfl, rfl⟩] at at_row
      exact ⟨crash, at_row⟩
    · rintro ⟨-, same⟩
      refine ⟨m', eq, wf', fun name idx => ?_⟩
      rw [held, expect, same]
  · have loaded : row.loaded = row.stored := by simp [stored, loaded, range]
    refine iff_of_true ⟨m', eq, wf', fun name idx => ?_⟩ ⟨crash, loaded⟩
    rw [held, dbStep, expected_cons, mirrors]
    simp only [range, false_and, if_false]
    split
    · next hkey =>
      rw [stored_of_outOfRange range]
      exact expected_of_not_mem (hkey ▸ legal)
    · rfl

theorem del_iff (wf : m.WF) (mirrors : Mirrors m db) (unique : (db.map Row.key).Nodup)
    (legal : Legal db (.del row)) : Kept m db (.del row) ↔ Fine m (.del row) := by
  by_cases range : row.InRange
  · refine iff_of_true ?_ (.inl range)
    obtain ⟨m', eq, changed⟩ := deletePolicy_inRange wf range
    refine ⟨m', eq, changed.wf, fun name idx => ?_⟩
    rw [changed.held, dbStep, expected_erase unique legal, mirrors]
    simp [key_eq_iff range]
  have delete := deletePolicy_outOfRange (m := m) range
  cases found : m.find row.table with
  | some i =>
    rw [found] at delete
    refine iff_of_false ?_ ?_
    · rintro ⟨m', eq, -⟩
      rw [callback, delete] at eq
      cases eq
    · rintro (h | h)
      · exact range h
      · rw [found] at h
        cases h
  | none =>
    rw [found] at delete
    refine iff_of_true ⟨m, delete, wf, fun name idx => ?_⟩ (.inr found)
    rw [dbStep, expected_erase unique legal, mirrors]
    split
    · next hkey =>
      rw [expected_of_mem unique legal hkey]
      exact stored_of_outOfRange range
    · rfl

/-- Holding the policy `p` at the key of the new row is right if and only if it is the one of the
row, and the old row was at this key or not stored. -/
theorem modify_mirrors_iff {p : Option Policy} (unique : (db.map Row.key).Nodup)
    (legal : Legal db (.modify old new)) :
    (∀ name idx, (if new.InRange ∧ name = new.table ∧ idx = new.idx.toNat then p
      else expected db name idx) = expected (dbStep db (.modify old new)) name idx) ↔
    (old.key = new.key ∨ old.stored = none) ∧ (new.InRange → p = new.stored) := by
  obtain ⟨hold, hnew⟩ := legal
  constructor
  · intro h
    have same : new.InRange → p = new.stored := fun range => by
      have newKey : new.key = (new.table, ((new.idx.toNat : Nat) : Int)) :=
        (key_eq_iff range).mpr ⟨rfl, rfl⟩
      have at_new := h new.table new.idx.toNat
      rwa [if_pos ⟨range, rfl, rfl⟩, dbStep, expected_cons, if_pos newKey] at at_new
    refine ⟨?_, same⟩
    by_contra hne
    rw [not_or] at hne
    obtain ⟨key, stored⟩ := hne
    have range : old.InRange := by
      by_contra range
      exact stored (stored_of_outOfRange range)
    have oldKey : old.key = (old.table, ((old.idx.toNat : Nat) : Int)) :=
      (key_eq_iff range).mpr ⟨rfl, rfl⟩
    have elsewhere : ¬(new.InRange ∧ old.table = new.table ∧ old.idx.toNat = new.idx.toNat) :=
      fun ⟨range', e⟩ => key (oldKey.trans ((key_eq_iff range').mpr e).symm)
    have at_old := h old.table old.idx.toNat
    rw [if_neg elsewhere, dbStep, expected_cons, if_neg (oldKey ▸ Ne.symm key),
      expected_erase unique hold, if_pos oldKey, expected_of_mem unique hold oldKey] at at_old
    exact stored at_old
  · rintro ⟨h, same⟩ name idx
    rw [dbStep, expected_cons, expected_erase unique hold]
    by_cases hkey : new.key = (name, (idx : Int))
    · rw [if_pos hkey]
      by_cases range : new.InRange
      · rw [if_pos ⟨range, (key_eq_iff range).mp hkey⟩, same range]
      rw [if_neg fun h => range h.1, stored_of_outOfRange range]
      have gone : expected (db.erase old) name idx =
          if old.key = (name, (idx : Int)) then none else expected db name idx :=
        expected_erase unique hold
      rw [expected_of_not_mem (hkey ▸ hnew)] at gone
      split at gone
      · next hold' =>
        rw [expected_of_mem unique hold hold']
        refine stored_of_outOfRange fun range' => range ?_
        have idx_eq : old.idx = new.idx := congrArg Prod.snd (hold'.trans hkey.symm)
        rw [Row.InRange, ← idx_eq]
        exact range'
      · exact gone.symm
    · have elsewhere : ¬(new.InRange ∧ name = new.table ∧ idx = new.idx.toNat) :=
        fun ⟨range, e⟩ => hkey ((key_eq_iff range).mpr e)
      rw [if_neg hkey, if_neg elsewhere]
      split
      · next hold' =>
        rw [expected_of_mem unique hold hold']
        exact h.resolve_left fun e => hkey (e ▸ hold')
      · rfl

theorem modify_iff (wf : m.WF) (mirrors : Mirrors m db) (unique : (db.map Row.key).Nodup)
    (legal : Legal db (.modify old new)) (fits : new.Fits) :
    Kept m db (.modify old new) ↔ Fine m (.modify old new) := by
  have mirrors_iff := modify_mirrors_iff (p := new.loaded) unique legal
  rw [Fine, Row.Fine, ← loaded_eq_stored_iff fits]
  by_cases range : new.InRange
  · have inside : ¬(new.idx < 0 ∨ (maxPolicies : Int) ≤ new.idx) := fun h =>
      not_inRange_iff.mpr h range
    obtain ⟨m1, eq1, changed⟩ := deletePolicy_inRange wf range
    have free : m1.held new.table new.idx.toNat = none := by
      rw [changed.held, if_pos ⟨rfl, rfl⟩]
    obtain ⟨bad, good⟩ := addPolicy_spec changed.wf fits fun _ => free
    have update : m.callback (.modify old new) = m1.addPolicy new := by
      rw [callback, updatePolicy, if_neg inside, eq1]
      rfl
    by_cases crash : new.Crashes
    · refine iff_of_false ?_ fun h => h.2.1 crash
      rintro ⟨m', eq, -⟩
      rw [update, bad crash] at eq
      cases eq
    obtain ⟨m2, eq2, wf2, held2⟩ := good crash
    have held : ∀ name idx, m2.held name idx =
        if new.InRange ∧ name = new.table ∧ idx = new.idx.toNat then new.loaded
        else expected db name idx := by
      intro name idx
      rw [held2, changed.held, mirrors]
      simp only [range, true_and]
      split <;> rfl
    constructor
    · rintro ⟨m', eq, -, mirrors'⟩
      rw [update, eq2] at eq
      cases eq
      obtain ⟨kept, same⟩ := mirrors_iff.mp fun name idx =>
        (held name idx).symm.trans (mirrors' name idx)
      exact ⟨kept, crash, same range⟩
    · rintro ⟨kept, -, same⟩
      exact ⟨m2, update.trans eq2, wf2, fun name idx =>
        (held name idx).trans (mirrors_iff.mpr ⟨kept, fun _ => same⟩ name idx)⟩
  · have update : m.callback (.modify old new) = some m := by
      rw [callback, updatePolicy, if_pos (not_inRange_iff.mp range)]
    have loaded : new.loaded = new.stored := by simp [stored, loaded, range]
    simp only [range, false_and, if_false] at mirrors_iff
    constructor
    · rintro ⟨m', eq, -, mirrors'⟩
      rw [update] at eq
      cases eq
      exact ⟨(mirrors_iff.mp fun name idx => (mirrors name idx).symm.trans (mirrors' name idx)).1,
        fun crash => range crash.1, loaded⟩
    · rintro ⟨kept, -⟩
      exact ⟨m, update, wf, fun name idx =>
        (mirrors name idx).trans (mirrors_iff.mpr ⟨kept, by simp⟩ name idx)⟩

/-- An addition that returns leaves the tables well formed. -/
theorem addPolicy_wf {m' : Mgr} (wf : m.WF) (fits : row.Fits)
    (free : row.InRange → m.held row.table row.idx.toNat = none)
    (eq : m.addPolicy row = some m') : m'.WF := by
  obtain ⟨bad, good⟩ := addPolicy_spec wf fits free
  by_cases crash : row.Crashes
  · rw [bad crash] at eq
    cases eq
  obtain ⟨m1, eq1, wf1, -⟩ := good crash
  rw [eq1] at eq
  cases eq
  exact wf1

theorem callback_wf {m' : Mgr} (wf : m.WF) (mirrors : Mirrors m db) (legal : Legal db ev)
    (fits : ev.Fits) (eq : m.callback ev = some m') : m'.WF := by
  cases ev with
  | new row => exact addPolicy_wf wf fits (free_of_not_mem mirrors legal) eq
  | modify old new =>
    rw [callback, updatePolicy] at eq
    by_cases range : new.InRange
    · have inside : ¬(new.idx < 0 ∨ (maxPolicies : Int) ≤ new.idx) := fun h =>
        not_inRange_iff.mpr h range
      obtain ⟨m1, eq1, changed⟩ := deletePolicy_inRange wf range
      rw [if_neg inside, eq1] at eq
      refine addPolicy_wf changed.wf fits (fun _ => ?_) eq
      rw [changed.held, if_pos ⟨rfl, rfl⟩]
    · rw [if_pos (not_inRange_iff.mp range)] at eq
      cases eq
      exact wf
  | del row =>
    rw [callback] at eq
    by_cases range : row.InRange
    · obtain ⟨m1, eq1, changed⟩ := deletePolicy_inRange wf range
      rw [eq1] at eq
      cases eq
      exact changed.wf
    · rw [deletePolicy_outOfRange range] at eq
      split at eq
      · cases eq
      · cases eq
        exact wf

theorem callback_iff (wf : m.WF) (mirrors : Mirrors m db) (unique : (db.map Row.key).Nodup)
    (legal : Legal db ev) (fits : ev.Fits) : Kept m db ev ↔ Fine m ev := by
  cases ev with
  | new row => exact new_iff wf mirrors legal fits
  | modify old new => exact modify_iff wf mirrors unique legal fits
  | del row => exact del_iff wf mirrors unique legal

/-! ## Runs -/

/-- Every change of a run leaves tables and indices distinct. -/
def LegalRun (db : List Row) : List Event → Prop
  | [] => True
  | ev :: evs => Legal db ev ∧ LegalRun (dbStep db ev) evs

/-- The tables mirror the database at the start and after every callback, and no access is outside
of `lookup_array`. -/
def MirrorsRun (m : Mgr) (db : List Row) : List Event → Prop
  | [] => Mirrors m db
  | ev :: evs => Mirrors m db ∧ ∃ m', m.callback ev = some m' ∧ MirrorsRun m' (dbStep db ev) evs

def FineRun (m : Mgr) : List Event → Prop
  | [] => True
  | ev :: evs => Fine m ev ∧ ∀ m', m.callback ev = some m' → FineRun m' evs

theorem MirrorsRun.start (h : MirrorsRun m db evs) : Mirrors m db := by
  cases evs with
  | nil => exact h
  | cons ev evs => exact h.1

theorem run_iff (wf : m.WF) (mirrors : Mirrors m db) (unique : (db.map Row.key).Nodup)
    (legal : LegalRun db evs) (fits : ∀ ev ∈ evs, ev.Fits) :
    MirrorsRun m db evs ↔ FineRun m evs := by
  induction evs generalizing m db with
  | nil => exact iff_of_true mirrors trivial
  | cons ev evs ih =>
    have iff := callback_iff wf mirrors unique legal.1 (fits ev mem_cons_self)
    have rest : ∀ m', m'.WF → Mirrors m' (dbStep db ev) →
        (MirrorsRun m' (dbStep db ev) evs ↔ FineRun m' evs) := fun m' wf' mirrors' =>
      ih wf' mirrors' (legal_unique unique legal.1) legal.2
        fun ev hev => fits ev (mem_cons_of_mem _ hev)
    constructor
    · rintro ⟨-, m', eq, run⟩
      have wf' := callback_wf wf mirrors legal.1 (fits ev mem_cons_self) eq
      refine ⟨iff.mp ⟨m', eq, wf', run.start⟩, fun m'' eq' => ?_⟩
      rw [eq] at eq'
      cases eq'
      exact (rest m' wf' run.start).mp run
    · rintro ⟨fine, run⟩
      obtain ⟨m', eq, wf', mirrors'⟩ := iff.mpr fine
      exact ⟨mirrors, m', eq, (rest m' wf' mirrors').mpr (run m' eq)⟩

theorem init_wf : Mgr.init.WF := ⟨by simp [Mgr.init], by simp [Mgr.init], by simp [Mgr.init],
  by simp [Mgr.init]⟩

/-- In every run of changes that leave tables and indices distinct, with names that fit in a
table, the tables mirror the database after every callback and no access is outside of
`lookup_array`, if and only if every change is fine. -/
theorem tables_mirror_iff (evs : List Event) (legal : LegalRun [] evs)
    (fits : ∀ ev ∈ evs, ev.Fits) : MirrorsRun Mgr.init [] evs ↔ FineRun Mgr.init evs :=
  run_iff init_wf (fun _ _ => rfl) .nil legal fits

def plainRow (idx : Int) : Row where
  name := ⟨[114], by decide⟩
  idx := idx
  policy := none
  macOp := none
  macs := []
  fqdnOp := none
  fqdns := []
  fqdncatOp := none
  fqdncats := []
  riskOp := none
  riskLevel := 0
  ipaddrOp := none
  ipaddrs := []
  appOp := none
  apps := []
  redirect := []
  next := []
  action := none
  log := none
  otherConfig := []

theorem plainRow_fits (idx : Int) : (plainRow idx).Fits :=
  ⟨show (lit "default").length < 32 by decide, fun _ h => (by cases h), Nat.zero_le _,
    fun _ h => (by cases h)⟩

/-- A row that goes on to the tables `T2` and `T3`. -/
def jumpRow : Row :=
  { plainRow 1 with next := [(⟨[84, 50], by decide⟩, 1), (⟨[84, 51], by decide⟩, 7)] }

/-- A row is added, modified in its place, and deleted. -/
theorem tables_mirror_iff_plain : MirrorsRun Mgr.init []
    [.new (plainRow 1), .modify (plainRow 1) { plainRow 1 with riskLevel := 5 },
      .del { plainRow 1 with riskLevel := 5 }] := by
  have legal : LegalRun [] [.new (plainRow 1),
      .modify (plainRow 1) { plainRow 1 with riskLevel := 5 },
      .del { plainRow 1 with riskLevel := 5 }] := ⟨by decide, by decide, by decide, trivial⟩
  refine (tables_mirror_iff _ legal ?_).mpr ⟨by decide, fun _ _ => ⟨⟨.inl rfl, by decide⟩,
    fun _ _ => ⟨.inl (by decide), fun _ _ => trivial⟩⟩⟩
  intro ev hev
  simp only [mem_cons, not_mem_nil, or_false] at hev
  rcases hev with rfl | rfl | rfl
  · exact plainRow_fits 1
  · obtain ⟨table, next, len, keys⟩ := plainRow_fits 1
    exact ⟨table, next, len, keys⟩
  · obtain ⟨table, next, len, keys⟩ := plainRow_fits 1
    exact ⟨table, next, len, keys⟩

/-- The five ways to lose the database: a row with index 0, a row that is moved, a row out of range
that is deleted, a row with two keys in `next`, and a row that is refused and has a number there. -/
theorem tables_not_mirrored :
    (LegalRun [] [.new (plainRow 0)] ∧ ¬MirrorsRun Mgr.init [] [.new (plainRow 0)]) ∧
    (LegalRun [] [.new (plainRow 1), .modify (plainRow 1) (plainRow 2)] ∧
      ¬MirrorsRun Mgr.init [] [.new (plainRow 1), .modify (plainRow 1) (plainRow 2)]) ∧
    (LegalRun [] [.new (plainRow 1), .new (plainRow 60), .del (plainRow 60)] ∧
      ¬MirrorsRun Mgr.init [] [.new (plainRow 1), .new (plainRow 60), .del (plainRow 60)]) ∧
    (LegalRun [] [.new jumpRow] ∧ ¬MirrorsRun Mgr.init [] [.new jumpRow]) ∧
    LegalRun [] [.new { jumpRow with macOp := some ⟨[], by decide⟩ }] ∧
      ¬MirrorsRun Mgr.init [] [.new { jumpRow with macOp := some ⟨[], by decide⟩ }] := by
  refine ⟨⟨⟨by decide, trivial⟩, ?_⟩, ⟨⟨by decide, by decide, trivial⟩, ?_⟩,
    ⟨⟨by decide, by decide, by decide, trivial⟩, ?_⟩, ⟨⟨by decide, trivial⟩, ?_⟩,
    ⟨by decide, trivial⟩, ?_⟩
  · rintro ⟨-, m, eq, -⟩
    cases eq
  · rintro ⟨-, m1, eq1, -, m2, eq2, mirrors⟩
    have stale : ((init.callback (.new (plainRow 1))).bind fun m =>
        (m.callback (.modify (plainRow 1) (plainRow 2))).bind fun m =>
          m.held (plainRow 1).table 1) = (plainRow 1).stored := by
      decide
    rw [eq1, bind_some, eq2, bind_some, mirrors] at stale
    exact absurd stale (by decide)
  · rintro ⟨-, m1, eq1, -, m2, eq2, -, m3, eq3, -⟩
    have fault : ((init.callback (.new (plainRow 1))).bind fun m =>
        (m.callback (.new (plainRow 60))).bind fun m =>
          m.callback (.del (plainRow 60))).isSome = false := by
      decide
    rw [eq1, bind_some, eq2, bind_some, eq3] at fault
    cases fault
  · rintro ⟨-, m1, eq1, mirrors⟩
    have misread : ((init.callback (.new jumpRow)).bind fun m => m.held jumpRow.table 1) =
        jumpRow.loaded := by
      decide
    rw [eq1, bind_some, mirrors] at misread
    exact absurd misread (by decide)
  · rintro ⟨-, m1, eq1, -⟩
    have fault : (init.callback
        (.new { jumpRow with macOp := some ⟨[], by decide⟩ })).isSome = false := by
      decide
    rw [eq1] at fault
    cases fault

end OpenSync.FsmPolicy
