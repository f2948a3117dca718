import OpenSync.Inet.UnitCommit

/-!
# Runs of requests and commits

All callbacks succeed here.  Between commits a unit that is started and not pending has all units
above it enabled and not pending, and a unit is pending exactly when it is `Touched`.  So the stop
walk of a commit leaves started only units that are enabled with all above them, and the start walk
starts the others of these.
-/

namespace OpenSync.Inet

open OpenSync.Lib List

inductive Op where
  | start (id : Int)
  | stop (id : Int)
  | restart (id : Int) (startIfStopped : Bool)
  | enable (id : Int) (enable : Bool)
  | commit
deriving DecidableEq

/-- The result of a call and the state after it. -/
def step (answer : Nat → Bool) (unit : InetUnit) (s : State) : Op → Bool × State
  | .start id => start unit id s
  | .stop id => stop unit id s
  | .restart id startIfStopped => restart unit id startIfStopped s
  | .enable id on => enable unit id on s
  | .commit => commit answer unit s

/-- The state after a sequence of calls on the units of a new tree. -/
def run (answer : Nat → Bool) (t : Lib.Tree Int) (started : Int → Bool) (ops : List Op) : State :=
  ops.foldl (fun s op => (step answer t.root s op).2) (init started)

/-- Whether the unit is enabled after a call, if it was `on` before: by a start, and by a restart
that takes effect. -/
def Op.enables (id : Int) (on : Bool) : Op → Bool
  | .start id' => id' = id || on
  | .stop id' => id' ≠ id && on
  | .restart id' startIfStopped => id' = id && startIfStopped || on
  | .enable id' value => if id' = id then value else on
  | .commit => on

/-- Whether the unit is enabled by the calls made for it; it is created disabled. -/
def enabledBy (ops : List Op) (id : Int) : Bool := ops.foldl (Op.enables id) false

/-- The call stops the unit, which is `on`, or effectively restarts it. -/
def Op.Stops (on : Bool) (id : Int) : Op → Prop
  | .stop id' => id' = id
  | .enable id' value => id' = id ∧ value = false
  | .restart id' startIfStopped => id' = id ∧ (startIfStopped = true ∨ on = true)
  | .start _ | .commit => False

/-- The unit has been stopped or effectively restarted since the last commit. -/
def StoppedSince (ops : List Op) (id : Int) : Prop :=
  ∃ before op after, ops = before ++ op :: after ∧ .commit ∉ after ∧
    op.Stops (enabledBy before id) id

/-- The next commit has to stop the unit if it is started: it or a unit above it has been stopped
since the last commit, or it was created started and there was no commit. -/
def Touched (started : Int → Bool) (ops : List Op) (u : InetUnit) : Prop :=
  (∃ a ∈ u.path, StoppedSince ops a) ∨ .commit ∉ ops ∧ started u.val = true

/-! ## Requests -/

/-- What a request does: it marks what is below a unit that it stops, and only what it stops
can become disabled. -/
structure Requested (t : Lib.Tree Int) (op : Op) (s s' : State) : Prop where
  calls : s'.calls = s.calls
  status : ∀ id, (s'.flags id).status = (s.flags id).status
  pending : ∀ m ∈ t.nodes, (s'.flags m.val).pending = true ↔
    (s.flags m.val).pending = true ∨ ∃ a ∈ m.path, op.Stops (s.flags a).enabled a
  enabled : ∀ m ∈ t.nodes, (s.flags m.val).enabled = true →
    (s'.flags m.val).enabled = true ∨ op.Stops (s.flags m.val).enabled m.val

section Requests

variable {t : Lib.Tree Int} {n : InetUnit} {op : Op} {s : State}

theorem Requested.same (h : ∀ m ∈ t.nodes, ¬op.Stops (s.flags m.val).enabled m.val) :
    Requested t op s s where
  calls := rfl
  status _ := rfl
  pending m hm := by
    refine ⟨.inl, fun h' => h'.resolve_right ?_⟩
    rintro ⟨a, ha, stops⟩
    rcases mem_cons.mp ha with rfl | ha
    · exact h m hm stops
    · obtain ⟨p, hp, rfl⟩ := Tree.above_mem hm ha
      exact h p hp stops
  enabled _ _ := .inl

theorem Requested.enable {s' : State} (h : Requested t op s s') (n : InetUnit) :
    Requested t op s (s'.set n.val { s'.flags n.val with enabled := true }) where
  calls := h.calls
  status id := by
    rw [← h.status id, State.set_flags, Function.update_apply]
    split <;> simp_all
  pending m hm := by
    rw [← h.pending m hm, State.set_flags, Function.update_apply]
    split <;> simp_all
  enabled m hm hen := by
    rw [State.set_flags, Function.update_apply]
    split
    · exact .inl rfl
    · exact h.enabled m hm hen

theorem requested_start (id : Int) (h : ∀ m ∈ t.nodes, ¬op.Stops (s.flags m.val).enabled m.val) :
    Requested t op s (start t.root id s).2 := by
  by_cases hid : ∃ n ∈ t.nodes, n.val = id
  · obtain ⟨n, hn, rfl⟩ := hid
    rw [start_hit hn]
    exact (Requested.same h).enable n
  · have miss : find t.root id = none := find_miss fun n hn e => hid ⟨n, hn, e⟩
    rw [start, miss]
    exact .same h

theorem requested_stop (hn : n ∈ t.nodes) (h : ∀ a, op.Stops (s.flags a).enabled a ↔ n.val = a) :
    Requested t op s (stop t.root n.val s).2 := by
  obtain ⟨s', eq, calls, status, flags⟩ := stop_hit hn s
  rw [eq]
  exact
    { calls := calls
      status := status
      pending := fun m hm => by simp [flags m hm, h]
      enabled := fun m hm hen => by
        rw [flags m hm, h]
        by_cases hval : m.val = n.val
        · exact .inr hval.symm
        · simp [hen, hval] }

/-- The unit of a request is in the tree, or the request does nothing. -/
theorem requested_miss {id : Int} (hid : ¬∃ n ∈ t.nodes, n.val = id)
    (h : ∀ a, op.Stops (s.flags a).enabled a → id = a) : Requested t op s s :=
  .same fun m hm stops => hid ⟨m, hm, (h _ stops).symm⟩

theorem requested_stop_any (id : Int) (h : ∀ a, op.Stops (s.flags a).enabled a ↔ id = a) :
    Requested t op s (stop t.root id s).2 := by
  by_cases hid : ∃ n ∈ t.nodes, n.val = id
  · obtain ⟨n, hn, rfl⟩ := hid
    exact requested_stop hn h
  · have miss : find t.root id = none := find_miss fun n hn e => hid ⟨n, hn, e⟩
    rw [stop, miss]
    exact requested_miss hid fun a => (h a).mp

theorem requested_restart (id : Int) (startIfStopped : Bool) :
    Requested t (.restart id startIfStopped) s (restart t.root id startIfStopped s).2 := by
  by_cases hid : ∃ n ∈ t.nodes, n.val = id
  · obtain ⟨n, hn, rfl⟩ := hid
    rw [restart, find_hit hn]
    dsimp only
    by_cases hen : startIfStopped = true ∨ (s.flags n.val).enabled = true
    · have stops : ∀ a, (Op.restart n.val startIfStopped).Stops (s.flags a).enabled a ↔
          n.val = a := fun a => ⟨fun h => h.1, fun h => ⟨h, h ▸ hen⟩⟩
      have h := requested_stop hn stops
      obtain ⟨s', eq, -⟩ := stop_hit hn s
      rw [if_pos (by simpa using hen), eq]
      rw [eq] at h
      dsimp only
      rw [start_hit hn]
      exact h.enable n
    · rw [if_neg (by simpa using hen)]
      exact .same fun m _ stops => hen (stops.1 ▸ stops.2)
  · have miss : find t.root id = none := find_miss fun n hn e => hid ⟨n, hn, e⟩
    rw [restart, miss]
    exact requested_miss hid fun a h => h.1

theorem requested_step (h : op ≠ .commit) : Requested t op s (step succeed t.root s op).2 := by
  cases op with
  | start id => exact requested_start id fun _ _ stops => stops
  | stop id => exact requested_stop_any id fun _ => .rfl
  | restart id startIfStopped => exact requested_restart id startIfStopped
  | enable id on =>
    cases on with
    | false => exact requested_stop_any id fun _ => by simp [Op.Stops]
    | true => exact requested_start id fun _ _ stops => by cases stops.2
  | commit => exact absurd rfl h

/-! What a call does to the flag `enabled`. -/

variable {u : InetUnit}

theorem start_enabled (hu : u ∈ t.nodes) (id : Int) (s : State) :
    ((start t.root id s).2.flags u.val).enabled = (id = u.val || (s.flags u.val).enabled) := by
  by_cases hid : ∃ n ∈ t.nodes, n.val = id
  · obtain ⟨n, hn, rfl⟩ := hid
    rw [start_hit hn]
    by_cases h : u.val = n.val
    · simp [h]
    · simp [h, Ne.symm h]
  · have hne : id ≠ u.val := fun e => hid ⟨u, hu, e.symm⟩
    rw [start, find_miss fun n hn e => hid ⟨n, hn, e⟩]
    simp [hne]

theorem stop_enabled (hu : u ∈ t.nodes) (id : Int) (s : State) :
    ((stop t.root id s).2.flags u.val).enabled = (id ≠ u.val && (s.flags u.val).enabled) := by
  by_cases hid : ∃ n ∈ t.nodes, n.val = id
  · obtain ⟨n, hn, rfl⟩ := hid
    obtain ⟨s', eq, -, -, flags⟩ := stop_hit hn s
    rw [eq, flags u hu, Bool.and_comm]
    simp [eq_comm]
  · have hne : id ≠ u.val := fun e => hid ⟨u, hu, e.symm⟩
    rw [stop, find_miss fun n hn e => hid ⟨n, hn, e⟩]
    simp [hne]

theorem restart_enabled (hu : u ∈ t.nodes) (id : Int) (startIfStopped : Bool) (s : State) :
    ((restart t.root id startIfStopped s).2.flags u.val).enabled =
      (id = u.val && startIfStopped || (s.flags u.val).enabled) := by
  by_cases hid : ∃ n ∈ t.nodes, n.val = id
  · obtain ⟨n, hn, rfl⟩ := hid
    obtain ⟨s', eq, -⟩ := stop_hit hn s
    have stopped := stop_enabled hu n.val s
    rw [eq] at stopped
    rw [restart, find_hit hn]
    dsimp only
    split
    · -- the unit is stopped and started
      next effective =>
      rw [eq]
      dsimp only
      rw [start_enabled hu, stopped]
      by_cases h : n.val = u.val
      · rw [h] at effective
        simpa [h] using effective.symm
      · simp [h]
    · next effective =>
      by_cases h : n.val = u.val
      · simp_all
      · simp [h]
  · have hne : id ≠ u.val := fun e => hid ⟨u, hu, e.symm⟩
    rw [restart, find_miss fun n hn e => hid ⟨n, hn, e⟩]
    simp [hne]

theorem requested_enabled (h : op ≠ .commit) (hu : u ∈ t.nodes) :
    ((step succeed t.root s op).2.flags u.val).enabled =
      op.enables u.val (s.flags u.val).enabled := by
  cases op with
  | start id => exact start_enabled hu id s
  | stop id => exact stop_enabled hu id s
  | restart id startIfStopped => exact restart_enabled hu id startIfStopped s
  | enable id on =>
    cases on with
    | false =>
      refine (stop_enabled hu id s).trans ?_
      by_cases h : id = u.val <;> simp [Op.enables, h]
    | true =>
      refine (start_enabled hu id s).trans ?_
      by_cases h : id = u.val <;> simp [Op.enables, h]
  | commit => exact absurd rfl h

end Requests

/-! ## Runs -/

section Runs

variable {t : Lib.Tree Int} {started : Int → Bool} {ops : List Op} {op : Op}

theorem run_concat : run succeed t started (ops ++ [op]) =
    (step succeed t.root (run succeed t started ops) op).2 := by
  rw [run, foldl_append]
  rfl

theorem enabledBy_concat (id : Int) :
    enabledBy (ops ++ [op]) id = op.enables id (enabledBy ops id) := by
  simp [enabledBy]

theorem stoppedSince_concat {id : Int} : StoppedSince (ops ++ [op]) id ↔
    op.Stops (enabledBy ops id) id ∨ op ≠ .commit ∧ StoppedSince ops id := by
  constructor
  · rintro ⟨before, op', after, split, noCommit, stops⟩
    rcases eq_nil_or_concat after with rfl | ⟨after, last, rfl⟩
    · obtain ⟨rfl, eq⟩ := append_inj' split rfl
      cases eq
      exact .inl stops
    · rw [concat_eq_append, ← cons_append, ← append_assoc] at split
      obtain ⟨rfl, eq⟩ := append_inj' split rfl
      cases eq
      rw [concat_eq_append, mem_append, not_or, mem_singleton] at noCommit
      exact .inr ⟨Ne.symm noCommit.2, before, op', after, rfl, noCommit.1, stops⟩
  · rintro (stops | ⟨notCommit, before, op', after, rfl, noCommit, stops⟩)
    · exact ⟨ops, op, [], rfl, not_mem_nil, stops⟩
    · refine ⟨before, op', after ++ [op], by simp, ?_, stops⟩
      simp [noCommit, notCommit.symm]

structure Inv (t : Lib.Tree Int) (started : Int → Bool) (ops : List Op) (s : State) : Prop where
  live : s.Live t
  enabled : ∀ u ∈ t.nodes, (s.flags u.val).enabled = enabledBy ops u.val
  pending : ∀ u ∈ t.nodes, (s.flags u.val).pending = true ↔ Touched started ops u
  alternates : Alternates started s
  orderly : ∀ c ∈ s.calls, c.Orderly t

theorem init_inv : Inv t started [] (init started) where
  live u _ status pending := by
    rw [show (((init started).flags u.val).status = started u.val) from rfl] at status
    rw [show (((init started).flags u.val).pending = started u.val) from rfl, status] at pending
    cases pending
  enabled _ _ := rfl
  pending u _ := by simp [init, Touched, StoppedSince]
  alternates _ := ⟨.singleton _, rfl⟩
  orderly _ hc := by cases hc

/-- The flags of a unit and of all above it say what was asked for. -/
theorem Inv.enabled_path {s : State} (inv : Inv t started ops s) {u : InetUnit}
    (hu : u ∈ t.nodes) {a : Int} (ha : a ∈ u.path) : (s.flags a).enabled = enabledBy ops a := by
  rcases mem_cons.mp ha with rfl | ha
  · exact inv.enabled u hu
  · obtain ⟨p, hp, rfl⟩ := Tree.above_mem hu ha
    exact inv.enabled p hp

theorem Inv.request {s s' : State} (inv : Inv t started ops s) (h : op ≠ .commit)
    (req : Requested t op s s') (enabled : ∀ u ∈ t.nodes,
      (s'.flags u.val).enabled = op.enables u.val (s.flags u.val).enabled) :
    Inv t started (ops ++ [op]) s' where
  live u hu status pending := by
    rw [req.status] at status
    have not_pending := mt (req.pending u hu).mpr (by rw [pending]; exact Bool.false_ne_true)
    rw [not_or] at not_pending
    have live := inv.live u hu status (by simpa using not_pending.1)
    intro a ha
    obtain ⟨p, hp, rfl⟩ : ∃ p ∈ t.nodes, p.val = a := by
      rcases mem_cons.mp ha with rfl | ha
      · exact ⟨u, hu, rfl⟩
      · exact Tree.above_mem hu ha
    obtain ⟨enabled, pending⟩ := live p.val ha
    refine ⟨(req.enabled p hp enabled).resolve_right fun stops =>
      not_pending.2 ⟨_, ha, stops⟩, Bool.eq_false_iff.mpr fun pending' => ?_⟩
    rcases (req.pending p hp).mp pending' with h | ⟨b, hb, stops⟩
    · rw [pending] at h
      cases h
    · exact not_pending.2 ⟨b, Tree.path_subset hp hu ha hb, stops⟩
  enabled u hu := by rw [enabled u hu, inv.enabled u hu, enabledBy_concat]
  pending u hu := by
    have stops : (∃ a ∈ u.path, op.Stops (s.flags a).enabled a) ↔
        ∃ a ∈ u.path, op.Stops (enabledBy ops a) a :=
      exists_congr fun a => and_congr_right fun ha => by rw [inv.enabled_path hu ha]
    rw [req.pending u hu, inv.pending u hu, stops]
    simp only [Touched, stoppedSince_concat, mem_append, mem_singleton, not_or, h.symm,
      not_false_eq_true, and_true, h, ne_eq, true_and, and_or_left, exists_or]
    exact (or_assoc.trans or_comm).symm
  alternates id := by
    rw [issued_of_calls_eq req.calls, req.status]
    exact inv.alternates id
  orderly c hc := inv.orderly c (req.calls ▸ hc)

theorem Inv.commit {s s' : State} (inv : Inv t started ops s) (done : Committed t s s') :
    Inv t started (ops ++ [.commit]) s' where
  live u hu status _ := by
    rw [done.status u hu, State.allEnabled, all_eq_true] at status
    intro a ha
    refine ⟨(done.enabled a).trans (status a ha), ?_⟩
    rcases mem_cons.mp ha with rfl | ha
    · exact done.pending u hu
    · obtain ⟨p, hp, rfl⟩ := Tree.above_mem hu ha
      exact done.pending p hp
  enabled u hu := by rw [done.enabled, inv.enabled u hu, enabledBy_concat, Op.enables]
  pending u hu := by
    rw [done.pending u hu]
    simp [Touched, stoppedSince_concat, Op.Stops]
  alternates := done.alternates started inv.alternates
  orderly c hc := (done.calls c hc).elim (inv.orderly c) id

theorem step_inv {s : State} (inv : Inv t started ops s) :
    Inv t started (ops ++ [op]) (step succeed t.root s op).2 := by
  by_cases h : op = .commit
  · subst h
    obtain ⟨s', eq, done⟩ := commit_spec inv.live
    rw [step, eq]
    exact inv.commit done
  · exact inv.request h (requested_step h) fun _ => requested_enabled h

theorem run_inv (t : Lib.Tree Int) (started : Int → Bool) (ops : List Op) :
    Inv t started ops (run succeed t started ops) := by
  induction ops using reverseRecOn with
  | nil => exact init_inv
  | append_singleton ops op ih =>
    rw [run_concat]
    exact step_inv ih

end Runs

/-- In every run of requests and commits on a tree of units, with all callbacks successful:

* a unit is enabled exactly when the calls made for it enable it: by its last start, stop or
  `inet_unit_enable`, or by a restart that takes effect;
* after a commit a unit is started exactly when it and all units above it are enabled;
* the callbacks for a unit alternate, and the first one differs from how it was created;
* a unit is started while its parent is started, and stopped while no unit that depends on it
  is started;
* a commit stops and starts again a unit that was started exactly when it has been touched
  since the last commit and it and all units above it are enabled. -/
theorem run_converges (t : Lib.Tree Int) (started : Int → Bool) (ops : List Op) :
    let s := run succeed t started ops
    let s' := run succeed t started (ops ++ [.commit])
    (∀ u ∈ t.nodes, (s.flags u.val).enabled = enabledBy ops u.val) ∧
    (∀ u ∈ t.nodes, (s'.flags u.val).status = true ↔ ∀ a ∈ u.path, enabledBy ops a = true) ∧
    (∀ u ∈ t.nodes, (started u.val :: s.issued u.val).IsChain (· ≠ ·)) ∧
    (∀ c ∈ s.calls, c.Orderly t) ∧
    ∀ u ∈ t.nodes, (s.flags u.val).status = true →
      (s'.issued u.val = s.issued u.val ++ [false, true] ↔
        Touched started ops u ∧ ∀ a ∈ u.path, enabledBy ops a = true) := by
  intro s s'
  have inv := run_inv t started ops
  obtain ⟨s1, eq, done⟩ := commit_spec inv.live
  have hs' : s' = s1 := by
    rw [show s' = _ from run_concat, step, eq]
  have all : ∀ u ∈ t.nodes, s.allEnabled u = true ↔ ∀ a ∈ u.path, enabledBy ops a = true := by
    intro u hu
    rw [State.allEnabled, all_eq_true]
    exact forall₂_congr fun a ha => by rw [inv.enabled_path hu ha]
  refine ⟨inv.enabled, ?_, fun u _ => (inv.alternates u.val).1, inv.orderly, ?_⟩
  · intro u hu
    rw [hs', done.status u hu]
    exact all u hu
  intro u hu status
  have toStop : s.toStop u.val = true ↔ Touched started ops u := by
    rw [← inv.pending u hu, State.toStop, status, Bool.true_and, Bool.or_eq_true]
    refine ⟨fun h => h.elim id fun disabled => ?_, .inl⟩
    by_contra pending
    have enabled := (inv.live u hu status (by simpa using pending) _ mem_cons_self).1
    rw [enabled] at disabled
    cases disabled
  rw [hs', done.issued u hu, ← toStop, ← all u hu, status, append_assoc, append_cancel_left_eq]
  cases s.toStop u.val <;> cases s.allEnabled u <;> simp

end OpenSync.Inet
