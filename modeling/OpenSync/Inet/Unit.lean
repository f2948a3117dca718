import OpenSync.Lib.Forest

/-!
# Units and their dependencies

A unit is a service of an interface.  Units form a tree: a unit may only be started while its
parent is started.  Requests set flags of units, and a commit brings the units in line with the
flags.  It calls back once for each unit that it stops or starts.

The tree does not change.  Its units have distinct ids, so the flags of a unit are found by its
id, and `un_parent` is the first of the ids above it.  `inet_unit_walk` is the walk of
`Lib.Forest`.  The answer of the `n`th callback is a parameter.
-/

namespace OpenSync.Inet

open OpenSync.Lib List Function

/-- A unit of a tree, with its dependencies below it. -/
abbrev InetUnit := Node Int

structure Flags where
  enabled : Bool
  pending : Bool
  status : Bool
  error : Bool
deriving DecidableEq

/-- A callback: for which unit, to start or to stop it, its answer, and the flags of all units then.
-/
structure Call where
  id : Int
  enable : Bool
  ok : Bool
  before : Int → Flags

/-- The flags of the units, and the callbacks issued so far. -/
structure State where
  flags : Int → Flags
  calls : List Call

/-- What has been asked of a unit so far: true to start it, false to stop it. -/
def State.issued (s : State) (id : Int) : List Bool :=
  (s.calls.filter (·.id = id)).map Call.enable

def State.set (s : State) (id : Int) (f : Flags) : State :=
  { s with flags := update s.flags id f }

/-- Units are created disabled.  One created started is also pending. -/
def init (started : Int → Bool) : State where
  flags id := { enabled := false, pending := started id, status := started id, error := false }
  calls := []

/-! ## Requests -/

/-- The search ends the visit of the unit that it finds, and walks on with the next one. -/
def findVisit (id : Int) (unit : InetUnit) (descend : Bool) (result : Option InetUnit) :
    Bool × Option InetUnit :=
  if !descend then (true, result)
  else if unit.val = id then (false, some unit)
  else (true, result)

section

variable (unit : InetUnit) (id : Int)

def find : Option InetUnit :=
  match unit.walk (findVisit id) none with
  | (true, _) => none
  | (false, result) => result

def start (s : State) : Bool × State :=
  match find unit id with
  | none => (false, s)
  | some pu => (true, s.set pu.val { s.flags pu.val with enabled := true })

def stopVisit (unit : InetUnit) (descend : Bool) (s : State) : Bool × State :=
  if descend then (true, s.set unit.val { s.flags unit.val with pending := true }) else (true, s)

def stop (s : State) : Bool × State :=
  match find unit id with
  | none => (false, s)
  | some pu =>
    let s := s.set pu.val { s.flags pu.val with enabled := false }
    (true, (pu.walk stopVisit s).2)

def restart (startIfStopped : Bool) (s : State) : Bool × State :=
  match find unit id with
  | none => (false, s)
  | some pu =>
    if startIfStopped || (s.flags pu.val).enabled then
      match stop unit id s with
      | (false, s) => (false, s)
      | (true, s) => start unit id s
    else (true, s)

def enable (enable : Bool) (s : State) : Bool × State :=
  if enable then start unit id s else stop unit id s

end

/-! ## Commits -/

/-- Issue a callback for a unit. -/
def State.call (s : State) (answer : Nat → Bool) (id : Int) (enable : Bool) : State where
  flags := update s.flags id
    { s.flags id with error := !answer s.calls.length, pending := false, status := enable }
  calls := s.calls ++ [⟨id, enable, answer s.calls.length, s.flags⟩]

/-- The unit has a parent that is not started. -/
def State.parentStopped (s : State) (unit : InetUnit) : Bool :=
  match unit.parent with
  | some p => !(s.flags p).status
  | none => false

section

variable (answer : Nat → Bool) (unit : InetUnit)

def commitStart (descend : Bool) (s : State) : Bool × State :=
  if !descend then (true, s)
  else if s.parentStopped unit then (true, s)
  else if !(s.flags unit.val).enabled || (s.flags unit.val).status then (true, s)
  else (answer s.calls.length, s.call answer unit.val true)

def commitStop (descend : Bool) (s : State) : Bool × State :=
  if descend then (true, s)
  else if !(s.flags unit.val).pending && (s.flags unit.val).enabled then (true, s)
  else if (s.flags unit.val).status then (true, s.call answer unit.val false)
  else (true, s.set unit.val { s.flags unit.val with pending := false, status := false })

/-- All units that have to be stopped are stopped, then those that can be are started. -/
def commit (s : State) : Bool × State :=
  let r := unit.walk (commitStop answer) s
  let r' := unit.walk (commitStart answer) r.2
  (r.1 && r'.1, r'.2)

end

/-! ## Finding a unit -/

attribute [local simp] Forest.walk

theorem findVisit_miss {id : Int} {f : Forest Int} (h : id ∉ f.vals) (above : List Int)
    (r : Option InetUnit) : f.walk (findVisit id) above r = (true, r) := by
  induction f generalizing above r with
  | nil => rfl
  | cons a below next ihb ihn =>
    simp only [Forest.vals, mem_cons, mem_append, not_or] at h
    simp [visit, findVisit, Ne.symm h.1, ihb h.2.1, ihn h.2.2]

variable {n : InetUnit} {t : Lib.Tree Int}

theorem findVisit_hit {f : Forest Int} (nodup : f.vals.Nodup) {above : List Int}
    (h : n ∈ f.pre above) (r : Option InetUnit) :
    f.walk (findVisit n.val) above r = (false, some n) := by
  induction f generalizing above r with
  | nil => cases h
  | cons a below next ihb ihn =>
    rw [Forest.vals, nodup_cons, nodup_append, mem_append, not_or] at nodup
    obtain ⟨⟨ha, ha'⟩, hb, hn, hbn⟩ := nodup
    rcases mem_cons.mp h with rfl | h
    · simp [visit, findVisit, findVisit_miss ha']
    rcases mem_append.mp h with h | h
    · have hne : a ≠ n.val := fun e => ha (e ▸ Forest.mem_vals h)
      have miss : n.val ∉ next.vals := fun h' => hbn _ (Forest.mem_vals h) _ h' rfl
      simp [visit, findVisit, hne, ihb hb h, findVisit_miss miss]
    · have hne : a ≠ n.val := fun e => ha' (e ▸ Forest.mem_vals h)
      simp [ihn hn h]

theorem walk_root_eq {σ : Type*} (fn : InetUnit → Bool → σ → Bool × σ) (t : Lib.Tree Int) (s : σ) :
    t.root.walk fn s = (Forest.cons t.val t.below .nil).walk fn [] s := by
  simp [Node.walk, Tree.root, Node.path]

theorem find_hit (hn : n ∈ t.nodes) : find t.root n.val = some n := by
  rw [Tree.nodes_eq] at hn
  rw [find, walk_root_eq, findVisit_hit t.nodup_vals hn]

theorem find_miss {id : Int} (h : ∀ n ∈ t.nodes, n.val ≠ id) : find t.root id = none := by
  have h' : id ∉ (Forest.cons t.val t.below .nil).vals := by
    rw [← Forest.map_val_pre _ [], ← Tree.nodes_eq]
    intro mem
    obtain ⟨n, hn, eq⟩ := mem_map.mp mem
    exact h n hn eq
  rw [find, walk_root_eq, findVisit_miss h']

/-! ## What the requests do to the flags -/

@[simp] theorem State.set_flags (s : State) (id : Int) (f : Flags) :
    (s.set id f).flags = update s.flags id f := rfl

theorem start_hit (hn : n ∈ t.nodes) (s : State) :
    start t.root n.val s = (true, s.set n.val { s.flags n.val with enabled := true }) := by
  rw [start, find_hit hn]

def State.setPending (s : State) (n : InetUnit) : State :=
  s.set n.val { s.flags n.val with pending := true }

theorem foldl_pending (l : List InetUnit) (s : State) :
    let s' := l.foldl State.setPending s
    s'.calls = s.calls ∧ ∀ id, s'.flags id =
      if id ∈ l.map Node.val then { s.flags id with pending := true } else s.flags id := by
  induction l generalizing s with
  | nil => simp
  | cons n l ih =>
    obtain ⟨hc, hf⟩ := ih (s.setPending n)
    refine ⟨hc, fun id => ?_⟩
    rw [foldl_cons, hf id, State.setPending]
    by_cases h : id = n.val
    · subst h
      simp
    · simp [h]

/-- A stop disables the unit and marks it and all below it as pending. -/
theorem stop_hit (hn : n ∈ t.nodes) (s : State) :
    ∃ s', stop t.root n.val s = (true, s') ∧ s'.calls = s.calls ∧
      (∀ id, (s'.flags id).status = (s.flags id).status) ∧
      ∀ m ∈ t.nodes, s'.flags m.val = { s.flags m.val with
          enabled := (s.flags m.val).enabled && m.val ≠ n.val
          pending := (s.flags m.val).pending || n.val ∈ m.path } := by
  have enter : ∀ n s, stopVisit n true s = (true, s.setPending n) := fun _ _ => rfl
  have walk := fun s => Node.walk_enter enter (fun _ _ => rfl) n s
  obtain ⟨calls, flags⟩ :=
    foldl_pending n.pre (s.set n.val { s.flags n.val with enabled := false })
  refine ⟨_, by rw [stop, find_hit hn], ?_, ?_, ?_⟩
  · rw [walk]
    exact calls
  · intro id
    rw [walk, flags]
    by_cases h : id = n.val
    · split <;> simp [h]
    · split <;> simp [h]
  · intro m hm
    rw [walk, flags]
    simp only [Tree.mem_map_pre_iff hn hm]
    by_cases h : m.val = n.val
    · simp [h, Node.path]
    · by_cases h' : n.val ∈ m.path <;> simp [h, h']

end OpenSync.Inet
