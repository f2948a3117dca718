import Mathlib.Data.List.Nodup
import OpenSync.Rq.Queue

/-!
# The invariant of the run queue

`Inv` says what the lists, the flags of the tasks and the log have to do with each other.
`Kept` says what holds for a task whose `kill_fn` is being called: it is in the queue as it
was, or it has left the queue, or it has been added again and is pending.  All of the calls
that a callback can make keep both.
-/

namespace OpenSync.Rq

open OpenSync.Ds List Queue Function

/-! ## What the log tells -/

section Log

variable {α : Type}

def Event.addedSerial : Event α → Option Nat
  | .added _ n => some n
  | _ => none

def Event.startedSerial : Event α → Option Nat
  | .started _ n => some n
  | _ => none

def Event.completedSerial : Event α → Option Nat
  | .completed _ n _ => some n
  | _ => none

/-- The additions, the last one first. -/
def addedIn (log : List (Event α)) : List Nat := log.filterMap Event.addedSerial

/-- The additions that were started, the last one first. -/
def startedIn (log : List (Event α)) : List Nat := log.filterMap Event.startedSerial

/-- The additions that were completed, the last one first. -/
def completedIn (log : List (Event α)) : List Nat := log.filterMap Event.completedSerial

/-- The start or the completion of a task is for one of its additions. -/
def Event.Known (log : List (Event α)) : Event α → Prop
  | .started t n | .completed t n _ => .added t n ∈ log
  | .added _ _ | .killReturned _ _ | .emptied _ _ => True

variable {log : List (Event α)} {e : Event α}

theorem Event.Known.cons (h : e.Known log) (x : Event α) : e.Known (x :: log) := by
  cases e with
  | started t n | completed t n a => exact mem_cons_of_mem _ h
  | added | killReturned | emptied => trivial

theorem known_cons (h : ∀ e ∈ log, e.Known log) (he : e.Known (e :: log)) :
    ∀ x ∈ e :: log, x.Known (e :: log) := by
  intro x hx
  rcases mem_cons.mp hx with rfl | hx
  · exact he
  · exact (h x hx).cons e

/-- No task has been added since the queue was last reported as empty. -/
def quiet : List (Event α) → Bool
  | [] => true
  | .added _ _ :: _ => false
  | .emptied _ _ :: _ => true
  | .started _ _ :: log | .completed _ _ _ :: log | .killReturned _ _ :: log => quiet log

/-- The queue is reported as empty only when it is, and once after an addition. -/
def EmptiedOnce : List (Event α) → Prop
  | [] => True
  | .emptied p r :: log => (p = none ∧ r = none ∧ quiet log = false) ∧ EmptiedOnce log
  | .added _ _ :: log | .started _ _ :: log | .completed _ _ _ :: log
  | .killReturned _ _ :: log => EmptiedOnce log

/-- Each completion was asked for, if and only if each `kill_fn` left the task alone or
out of the queue. -/
def Balanced (log : List (Event α)) : Prop :=
  (∀ t n a, .completed t n a ∈ log → a = true) ↔ ∀ t b, .killReturned t b ∈ log → b = true

theorem Balanced.append {new : List (Event α)} (h : Balanced new) (h' : Balanced log) :
    Balanced (new ++ log) := by
  simp only [Balanced, mem_append, or_imp, forall_and] at h h' ⊢
  exact and_congr h h'

end Log

/-! ## The invariant -/

variable {α : Type} {cfg : Config α} {s s' : Queue α} {ps rs : List α} {t u : α}

structure Inv (cfg : Config α) (s : Queue α) (ps rs : List α) : Prop where
  pending : s.pending.Chain s.nodes ps
  running : s.running.Chain s.nodes rs
  disj : ps.Disjoint rs
  queued : ∀ t, (s.task t).queued = true ↔ t ∈ ps ∨ t ∈ rs
  runs : ∀ t, (s.task t).running = true ↔ t ∈ rs
  q : ∀ t, (s.task t).q = (s.task t).queued
  num : s.numRunning = rs.length
  limit : 0 < cfg.maxRunning → rs.length ≤ cfg.maxRunning
  order : ps.Pairwise fun t u => (s.task t).serial < (s.task u).serial
  serials : ((ps ++ rs).map fun t => (s.task t).serial).Nodup
  fresh : ∀ t, t ∈ ps ∨ t ∈ rs → (s.task t).serial < s.next ∧ (s.task t).serial ∉ completedIn s.log
  startedLt : ∀ n ∈ startedIn s.log, n < s.next ∧ ∀ t ∈ ps, n < (s.task t).serial
  started : (startedIn s.log).Pairwise (· > ·)
  completedLt : ∀ n ∈ completedIn s.log, n < s.next
  completed : (completedIn s.log).Nodup
  added : (addedIn s.log).Pairwise (· > ·)
  addedLt : ∀ n ∈ addedIn s.log, n < s.next
  addition : ∀ t, t ∈ ps ∨ t ∈ rs → .added t (s.task t).serial ∈ s.log
  known : ∀ e ∈ s.log, e.Known s.log
  empty : s.empty = quiet s.log
  emptied : EmptiedOnce s.log

/-- The pending tasks have not been asked to end. -/
def Unasked (s : Queue α) (ps : List α) : Prop := ∀ t ∈ ps, (s.task t).asked = false

/-- The task was in the queue by addition `n` when `kill_fn` was called.  If it still is, it has
been asked to end; if it has been added again, it is pending. -/
structure Kept (s : Queue α) (ps : List α) (t : α) (n : Nat) : Prop where
  lt : n < s.next
  same : (s.task t).queued = true → (s.task t).serial = n → (s.task t).asked = true
  again : (s.task t).queued = true → (s.task t).serial ≠ n → t ∈ ps

theorem init_inv : Inv cfg (Queue.init : Queue α) [] [] where
  pending := Dlist.chain_init
  running := Dlist.chain_init
  disj := disjoint_nil_left _
  queued _ := by simp [init]
  runs _ := by simp [init]
  q _ := rfl
  num := rfl
  limit _ := Nat.zero_le _
  order := .nil
  serials := .nil
  fresh _ h := by simp at h
  startedLt _ h := by simp [init, startedIn] at h
  started := .nil
  completedLt _ h := by simp [init, completedIn] at h
  completed := .nil
  added := .nil
  addedLt _ h := by simp [init, addedIn] at h
  addition _ h := by simp at h
  known _ h := by simp [init] at h
  empty := rfl
  emptied := trivial

/-! ## Steps that only change other flags -/

/-- The lists, the log and what the invariant says about tasks are the same. -/
structure Flags (s s' : Queue α) : Prop where
  nodes : s'.nodes = s.nodes
  pending : s'.pending = s.pending
  running : s'.running = s.running
  numRunning : s'.numRunning = s.numRunning
  empty : s'.empty = s.empty
  next : s'.next = s.next
  log : s'.log = s.log
  q : ∀ t, (s'.task t).q = (s.task t).q
  queued : ∀ t, (s'.task t).queued = (s.task t).queued
  runs : ∀ t, (s'.task t).running = (s.task t).running
  serial : ∀ t, (s'.task t).serial = (s.task t).serial
  asked : ∀ t, (s.task t).asked = true → (s'.task t).asked = true

theorem Flags.trans {s'' : Queue α} (h : Flags s s') (h' : Flags s' s'') : Flags s s'' where
  nodes := h'.nodes.trans h.nodes
  pending := h'.pending.trans h.pending
  running := h'.running.trans h.running
  numRunning := h'.numRunning.trans h.numRunning
  empty := h'.empty.trans h.empty
  next := h'.next.trans h.next
  log := h'.log.trans h.log
  q t := (h'.q t).trans (h.q t)
  queued t := (h'.queued t).trans (h.queued t)
  runs t := (h'.runs t).trans (h.runs t)
  serial t := (h'.serial t).trans (h.serial t)
  asked t ha := h'.asked t (h.asked t ha)

theorem Flags.inv (h : Flags s s') (inv : Inv cfg s ps rs) : Inv cfg s' ps rs where
  pending := by rw [h.nodes, h.pending]; exact inv.pending
  running := by rw [h.nodes, h.running]; exact inv.running
  disj := inv.disj
  queued t := by rw [h.queued]; exact inv.queued t
  runs t := by rw [h.runs]; exact inv.runs t
  q t := by rw [h.q, h.queued]; exact inv.q t
  num := h.numRunning.trans inv.num
  limit := inv.limit
  order := by simp only [h.serial]; exact inv.order
  serials := by simp only [h.serial]; exact inv.serials
  fresh t := by rw [h.serial, h.next, h.log]; exact inv.fresh t
  startedLt := by simp only [h.serial, h.next, h.log]; exact inv.startedLt
  started := by rw [h.log]; exact inv.started
  completedLt := by rw [h.next, h.log]; exact inv.completedLt
  completed := by rw [h.log]; exact inv.completed
  added := by rw [h.log]; exact inv.added
  addedLt := by rw [h.next, h.log]; exact inv.addedLt
  addition t := by rw [h.serial, h.log]; exact inv.addition t
  known := by rw [h.log]; exact inv.known
  empty := by rw [h.empty, h.log]; exact inv.empty
  emptied := by rw [h.log]; exact inv.emptied

theorem Flags.kept {n : Nat} (h : Flags s s') (kept : Kept s ps t n) : Kept s' ps t n where
  lt := h.next ▸ kept.lt
  same hq hn := h.asked t (kept.same (h.queued t ▸ hq) (h.serial t ▸ hn))
  again hq hn := kept.again (h.queued t ▸ hq) (h.serial t ▸ hn)

section

variable [DecidableEq α]

attribute [local simp] setTask

theorem setTask_flags {x : Task} (q : x.q = (s.task t).q) (queued : x.queued = (s.task t).queued)
    (runs : x.running = (s.task t).running) (serial : x.serial = (s.task t).serial)
    (asked : (s.task t).asked = true → x.asked = true) : Flags s (s.setTask t x) := by
  refine ⟨rfl, rfl, rfl, rfl, rfl, rfl, rfl, ?_, ?_, ?_, ?_, ?_⟩ <;>
  · intro u
    by_cases hu : u = t
    · simp_all
    · simp [hu]

theorem ask_flags (s : Queue α) (t : α) : Flags s (s.ask t) :=
  setTask_flags rfl rfl rfl rfl fun _ => rfl

theorem taskSetTimeout_flags (s : Queue α) (t : α) (msec : Int) :
    Flags s (s.taskSetTimeout t msec) := by
  unfold taskSetTimeout
  split
  · exact ⟨rfl, rfl, rfl, rfl, rfl, rfl, rfl, fun _ => rfl, fun _ => rfl, fun _ => rfl,
      fun _ => rfl, fun _ => id⟩
  · exact setTask_flags rfl rfl rfl rfl id

theorem taskSetTimeout_asked (s : Queue α) (t : α) (msec : Int) (u : α) :
    ((s.taskSetTimeout t msec).task u).asked = (s.task u).asked := by
  unfold taskSetTimeout
  split
  · rfl
  by_cases hu : u = t
  · subst hu
    simp
  · simp [hu]

theorem ask_asked_self (s : Queue α) (t : α) : ((s.ask t).task t).asked = true := by
  simp [ask]

theorem ask_asked_of_ne (s : Queue α) (h : u ≠ t) :
    ((s.ask t).task u).asked = (s.task u).asked := by
  simp [ask, h]

/-! ## Completion -/

theorem unlink_lists (inv : Inv cfg s ps rs) (hq : (s.task t).queued = true) :
    (s.unlink t).pending.Chain (s.unlink t).nodes (ps.erase t) ∧
      (s.unlink t).running.Chain (s.unlink t).nodes (rs.erase t) ∧
      (s.unlink t).numRunning = (rs.erase t).length := by
  unfold unlink
  by_cases hr : (s.task t).running = true
  · rw [if_pos hr]
    have mem := (inv.runs t).mp hr
    have not_mem : t ∉ ps := fun h => inv.disj h mem
    obtain ⟨pre, post, rfl⟩ := append_of_mem mem
    have removed := Dlist.nodeRemove_spec inv.running
    have hpre : t ∉ pre := fun h =>
      (nodup_append.mp inv.running.nodup).2.2 t h t mem_cons_self rfl
    rw [erase_of_not_mem not_mem, erase_append_right _ hpre, erase_cons_head]
    refine ⟨inv.pending.congr fun y hy => removed.frame y (inv.disj hy), removed.chain, ?_⟩
    simp only [inv.num, length_append, length_cons]
    omega
  · rw [if_neg hr]
    have mem := ((inv.queued t).mp hq).resolve_right fun h => hr ((inv.runs t).mpr h)
    have not_mem : t ∉ rs := fun h => inv.disj mem h
    obtain ⟨pre, post, rfl⟩ := append_of_mem mem
    have removed := Dlist.nodeRemove_spec inv.pending
    have hpre : t ∉ pre := fun h =>
      (nodup_append.mp inv.pending.nodup).2.2 t h t mem_cons_self rfl
    rw [erase_of_not_mem not_mem, erase_append_right _ hpre, erase_cons_head]
    exact ⟨removed.chain, inv.running.congr fun y hy => removed.frame y fun h => inv.disj h hy,
      inv.num⟩

/-- What a completion does. -/
structure Completed (s : Queue α) (t : α) (s' : Queue α) : Prop where
  nodes : s'.nodes = (s.unlink t).nodes
  pending : s'.pending = (s.unlink t).pending
  running : s'.running = (s.unlink t).running
  numRunning : s'.numRunning = (s.unlink t).numRunning
  empty : s'.empty = s.empty
  next : s'.next = s.next
  log : s'.log = .completed t (s.task t).serial (s.task t).asked :: s.log
  other : ∀ u, u ≠ t → s'.task u = s.task u
  q : (s'.task t).q = false
  queued : (s'.task t).queued = false
  runs : (s'.task t).running = false

theorem taskComplete_queued (h : (s.task t).queued = true) :
    ∃ s', s.taskComplete t = (s', [.callback, .schedule]) ∧ Completed s t s' := by
  refine ⟨_, if_pos h, ?_⟩
  obtain ⟨task, empty, next, log⟩ : (s.unlink t).task = s.task ∧ (s.unlink t).empty = s.empty ∧
      (s.unlink t).next = s.next ∧ (s.unlink t).log = s.log := by
    unfold unlink
    split <;> exact ⟨rfl, rfl, rfl, rfl⟩
  have flags := taskSetTimeout_flags (s.unlink t) t 0
  have other : ∀ u, u ≠ t → ((s.unlink t).taskSetTimeout t 0).task u = s.task u := by
    intro u hu
    unfold taskSetTimeout
    split <;> simp [hu, task]
  exact
    { nodes := flags.nodes
      pending := flags.pending
      running := flags.running
      numRunning := flags.numRunning
      empty := flags.empty.trans empty
      next := flags.next.trans next
      log := by
        show _ :: ((s.unlink t).taskSetTimeout t 0).log = _
        rw [flags.log, log]
      other := fun u hu => by
        show update _ t _ u = _
        rw [update_of_ne hu, other u hu]
      q := by simp [emit, retire]
      queued := by simp [emit, retire]
      runs := by simp [emit, retire] }

theorem Completed.inv (done : Completed s t s') (inv : Inv cfg s ps rs)
    (hq : (s.task t).queued = true) : Inv cfg s' (ps.erase t) (rs.erase t) := by
  obtain ⟨pending, running, num⟩ := unlink_lists inv hq
  have mem_ps : ∀ u, u ∈ ps.erase t ↔ u ≠ t ∧ u ∈ ps := fun u => inv.pending.nodup.mem_erase_iff
  have mem_rs : ∀ u, u ∈ rs.erase t ↔ u ≠ t ∧ u ∈ rs := fun u => inv.running.nodup.mem_erase_iff
  have serial : ∀ u, u ∈ ps.erase t ∨ u ∈ rs.erase t →
      s'.task u = s.task u ∧ u ≠ t ∧ (u ∈ ps ∨ u ∈ rs) := by
    intro u hu
    rw [mem_ps, mem_rs, ← and_or_left] at hu
    exact ⟨done.other u hu.1, hu⟩
  have tfresh := inv.fresh t ((inv.queued t).mp hq)
  have startedIn_eq : startedIn s'.log = startedIn s.log := by rw [done.log]; rfl
  have completedIn_eq : completedIn s'.log = (s.task t).serial :: completedIn s.log := by
    rw [done.log]; rfl
  have injective : ∀ u, u ≠ t → (u ∈ ps ∨ u ∈ rs) → (s.task u).serial ≠ (s.task t).serial := by
    intro u hu mem e
    exact hu (inj_on_of_nodup_map inv.serials (mem_append.mpr mem)
      (mem_append.mpr ((inv.queued t).mp hq)) e)
  refine
    { pending := by rw [done.nodes, done.pending]; exact pending
      running := by rw [done.nodes, done.running]; exact running
      disj := fun u hu hu' => inv.disj ((mem_ps u).mp hu).2 ((mem_rs u).mp hu').2
      queued := fun u => ?_
      runs := fun u => ?_
      q := fun u => ?_
      num := done.numRunning.trans num
      limit := fun h => Nat.le_trans length_erase_le (inv.limit h)
      order := ?_
      serials := ?_
      fresh := fun u hu => ?_
      startedLt := fun n hn => ?_
      started := startedIn_eq ▸ inv.started
      completedLt := fun n hn => ?_
      completed := ?_
      added := by rw [done.log]; exact inv.added
      addedLt := by rw [done.log, done.next]; exact inv.addedLt
      addition := fun u hu => ?_
      known := by
        rw [done.log]
        exact known_cons inv.known
          (mem_cons_of_mem _ (inv.addition t ((inv.queued t).mp hq)))
      empty := ?_
      emptied := ?_ }
  · by_cases hu : u = t
    · subst hu
      simp [done.queued, mem_ps, mem_rs]
    · rw [done.other u hu, inv.queued u, mem_ps, mem_rs]
      simp [hu]
  · by_cases hu : u = t
    · subst hu
      simp [done.runs, mem_rs]
    · rw [done.other u hu, inv.runs u, mem_rs]
      simp [hu]
  · by_cases hu : u = t
    · rw [hu, done.q, done.queued]
    · rw [done.other u hu]
      exact inv.q u
  · refine (inv.order.sublist erase_sublist).imp_of_mem fun hu hv h => ?_
    rw [(serial _ (.inl hu)).1, (serial _ (.inl hv)).1]
    exact h
  · have sub : (ps.erase t ++ rs.erase t).Sublist (ps ++ rs) :=
      erase_sublist.append erase_sublist
    have nodup := inv.serials.sublist (sub.map fun t => (s.task t).serial)
    rwa [map_congr_left fun u hu => congrArg Task.serial (serial u (mem_append.mp hu)).1]
  · obtain ⟨eq, ne, mem⟩ := serial u hu
    rw [eq, done.next, completedIn_eq, mem_cons, not_or]
    exact ⟨(inv.fresh u mem).1, injective u ne mem, (inv.fresh u mem).2⟩
  · rw [startedIn_eq] at hn
    rw [done.next]
    refine ⟨(inv.startedLt n hn).1, fun u hu => ?_⟩
    rw [(serial u (.inl hu)).1]
    exact (inv.startedLt n hn).2 u ((mem_ps u).mp hu).2
  · rw [completedIn_eq, mem_cons] at hn
    rw [done.next]
    rcases hn with rfl | hn
    · exact tfresh.1
    · exact inv.completedLt n hn
  · rw [completedIn_eq]
    exact nodup_cons.mpr ⟨tfresh.2, inv.completed⟩
  · obtain ⟨eq, -, mem⟩ := serial u hu
    rw [eq, done.log]
    exact mem_cons_of_mem _ (inv.addition u mem)
  · rw [done.empty, done.log]
    exact inv.empty
  · rw [done.log]
    exact inv.emptied

theorem Completed.kept {n : Nat} (done : Completed s t s') (nodup : ps.Nodup)
    (kept : Kept s ps u n) : Kept s' (ps.erase t) u n := by
  by_cases hu : u = t
  · subst hu
    have hq : ¬(s'.task u).queued = true := by simp [done.queued]
    exact ⟨done.next ▸ kept.lt, fun h => absurd h hq, fun h => absurd h hq⟩
  · have eq := done.other u hu
    exact ⟨done.next ▸ kept.lt, eq ▸ kept.same,
      fun h h' => nodup.mem_erase_iff.mpr ⟨hu, kept.again (eq ▸ h) (eq ▸ h')⟩⟩

theorem Completed.unasked (done : Completed s t s') (nodup : ps.Nodup)
    (h : ∀ u ∈ ps, u ≠ t → (s.task u).asked = false) : Unasked s' (ps.erase t) := by
  intro u hu
  obtain ⟨ne, mem⟩ := nodup.mem_erase_iff.mp hu
  rw [done.other u ne]
  exact h u mem ne

/-! ## The calls -/

/-- What a call by a callback does, with `push` left to do after it. -/
def Done (cfg : Config α) (s : Queue α) (ps : List α) (r : Queue α × List (Cmd α)) : Prop :=
  ∃ ps' rs', Inv cfg r.1 ps' rs' ∧ Unasked r.1 ps' ∧ (∀ t n, Kept s ps t n → Kept r.1 ps' t n) ∧
    (∃ new, r.1.log = new ++ s.log ∧ Balanced new) ∧
    ∀ c ∈ r.2, c ≠ .run ∧ ∀ t n, c = .killed t n → Kept r.1 ps' t n

omit [DecidableEq α] in
theorem balanced_nil : Balanced ([] : List (Event α)) := by simp [Balanced]

omit [DecidableEq α] in
/-- A step that changes flags only, and leaves nothing to do but callbacks. -/
theorem Flags.done (flags : Flags s s') (inv : Inv cfg s ps rs) (unasked : Unasked s' ps)
    {push : List (Cmd α)}
    (hpush : ∀ c ∈ push, c ≠ .run ∧ ∀ t n, c = .killed t n → Kept s' ps t n) :
    Done cfg s ps (s', push) :=
  ⟨ps, rs, flags.inv inv, unasked, fun _ _ => flags.kept, ⟨[], flags.log, balanced_nil⟩, hpush⟩

theorem taskComplete_asked (inv : Inv cfg s ps rs) (unasked : Unasked s ps) :
    Done cfg s ps ((s.ask t).taskComplete t) := by
  have flags := ask_flags s t
  have hothers : ∀ u, u ≠ t → u ∈ ps → ((s.ask t).task u).asked = false := fun u hu mem =>
    (ask_asked_of_ne s hu).trans (unasked u mem)
  by_cases hq : ((s.ask t).task t).queued = true
  · obtain ⟨s', eq, done⟩ := taskComplete_queued hq
    have nodup := inv.pending.nodup
    rw [eq]
    refine ⟨ps.erase t, rs.erase t, done.inv (flags.inv inv) hq,
      done.unasked nodup fun u mem hu => hothers u hu mem,
      fun u n kept => done.kept nodup (flags.kept kept), ?_, by simp⟩
    refine ⟨[.completed t ((s.ask t).task t).serial true], ?_, by simp [Balanced]⟩
    rw [done.log, ask_asked_self]
    rfl
  · have not_mem : t ∉ ps := fun h => hq ((flags.queued t).trans ((inv.queued t).mpr (.inl h)))
    rw [taskComplete, if_neg hq]
    exact flags.done inv (fun u hu => hothers u (fun e => not_mem (e ▸ hu)) hu) (by simp)

theorem ask_unasked (unasked : Unasked s ps) (h : t ∉ ps) : Unasked (s.ask t) ps := by
  intro u hu
  have hu' : u ≠ t := fun e => h (e ▸ hu)
  rw [ask_asked_of_ne s hu']
  exact unasked u hu

/-- Asking a task to end: what is left is the case that it runs. -/
theorem ask_done {r : Queue α × List (Cmd α)} (inv : Inv cfg s ps rs) (unasked : Unasked s ps)
    (running : t ∈ rs → Unasked (s.ask t) ps → (∀ u ∈ ps, u ≠ t) → Done cfg s ps r) :
    Done cfg s ps (if ((s.ask t).task t).queued then if ((s.ask t).task t).running then r
      else (s.ask t).taskComplete t else (s.ask t, [])) := by
  have flags := ask_flags s t
  split_ifs with hq hr
  · have mem : t ∈ rs := (inv.runs t).mp ((flags.runs t).symm.trans hr)
    exact running mem (ask_unasked unasked fun h => inv.disj h mem)
      fun u hu e => inv.disj hu (e ▸ mem)
  · exact taskComplete_asked inv unasked
  · have not_mem : t ∉ ps := fun h => hq ((flags.queued t).trans ((inv.queued t).mpr (.inl h)))
    exact flags.done inv (ask_unasked unasked not_mem) (by simp)

theorem taskCancel_done (inv : Inv cfg s ps rs) (unasked : Unasked s ps) :
    Done cfg s ps (s.taskCancel cfg t) := by
  refine ask_done inv unasked fun _ unasked' ne => ?_
  have flags' : Flags (s.ask t) ((s.ask t).setTask t { (s.ask t).task t with cancelled := true }) :=
    setTask_flags rfl rfl rfl rfl id
  have flags'' := flags'.trans (taskSetTimeout_flags _ t (cfg.cancelTimeoutMsec t))
  refine ((ask_flags s t).trans flags'').done inv (fun u hu => ?_) (by simp)
  rw [taskSetTimeout_asked]
  simp [ne u hu, unasked' u hu]

theorem taskKill_done (inv : Inv cfg s ps rs) (unasked : Unasked s ps) :
    Done cfg s ps (s.taskKill t) := by
  refine ask_done inv unasked fun mem unasked' ne => ?_
  have flags := ask_flags s t
  have flags' : Flags s ((s.ask t).setTask t { (s.ask t).task t with killed := true }) :=
    flags.trans (setTask_flags rfl rfl rfl rfl id)
  refine flags'.done inv (fun u hu => ?_) ?_
  · simp [ne u hu, unasked' u hu]
  simp only [mem_cons, not_mem_nil, or_false, forall_eq_or_imp, forall_eq]
  refine ⟨by simp, by simp, ?_⟩
  rintro u n h
  cases h
  refine ⟨?_, ?_, ?_⟩
  · rw [flags.serial]
    exact (inv.fresh t (.inr mem)).1
  · simp [ask_asked_self]
  · simp

/-- What an addition does. -/
structure Added (s : Queue α) (t : α) (s' : Queue α) : Prop where
  nodes : s'.nodes = (Dlist.insertTail s.pending s.nodes t).2
  pending : s'.pending = (Dlist.insertTail s.pending s.nodes t).1
  running : s'.running = s.running
  numRunning : s'.numRunning = s.numRunning
  empty : s'.empty = false
  next : s'.next = s.next + 1
  log : s'.log = .added t s.next :: s.log
  other : ∀ u, u ≠ t → s'.task u = s.task u
  q : (s'.task t).q = true
  queued : (s'.task t).queued = true
  runs : (s'.task t).running = false
  serial : (s'.task t).serial = s.next
  asked : (s'.task t).asked = false

theorem addTask_cases (s : Queue α) (t : α) :
    s.addTask t = s ∨ (s.task t).queued = false ∧ Added s t (s.addTask t) := by
  by_cases hs : s.stopped = true
  · exact .inl (if_pos hs)
  by_cases hq : (s.task t).queued = true
  · exact .inl ((if_neg hs).trans (if_pos hq))
  refine .inr ⟨by simpa using hq, ?_⟩
  rw [addTask, if_neg hs, if_neg hq]
  exact
    { nodes := rfl, pending := rfl, running := rfl, numRunning := rfl, empty := rfl, next := rfl,
      log := rfl
      other := fun u hu => update_of_ne hu _ _
      q := by simp [schedule, emit]
      queued := by simp [schedule, emit]
      runs := by simp [schedule, emit]
      serial := by simp [schedule, emit]
      asked := by simp [schedule, emit] }

theorem Added.inv (done : Added s t s') (inv : Inv cfg s ps rs) (hq : (s.task t).queued = false) :
    Inv cfg s' (ps ++ [t]) rs := by
  have not_mem : t ∉ ps ∧ t ∉ rs := by
    have h := mt (inv.queued t).mpr (by simp [hq])
    rwa [not_or] at h
  have other : ∀ u, u ∈ ps ∨ u ∈ rs → s'.task u = s.task u := by
    rintro u (hu | hu) <;> refine done.other u ?_ <;> rintro rfl
    · exact not_mem.1 hu
    · exact not_mem.2 hu
  have inserted := Dlist.insertTail_spec inv.pending not_mem.1
  have startedIn_eq : startedIn s'.log = startedIn s.log := by rw [done.log]; rfl
  have completedIn_eq : completedIn s'.log = completedIn s.log := by rw [done.log]; rfl
  have same : ∀ l : List α, (∀ u ∈ l, u ∈ ps ∨ u ∈ rs) →
      l.map (fun u => (s'.task u).serial) = l.map fun u => (s.task u).serial := fun l hl =>
    map_congr_left fun u hu => congrArg Task.serial (other u (hl u hu))
  refine
    { pending := by rw [done.nodes, done.pending]; exact inserted.chain
      running := ?_
      disj := ?_
      queued := fun u => ?_
      runs := fun u => ?_
      q := fun u => ?_
      num := done.numRunning.trans inv.num
      limit := inv.limit
      order := ?_
      serials := ?_
      fresh := fun u hu => ?_
      startedLt := fun n hn => ?_
      started := startedIn_eq ▸ inv.started
      completedLt := fun n hn => ?_
      completed := completedIn_eq ▸ inv.completed
      added := by
        rw [done.log]
        exact pairwise_cons.mpr ⟨inv.addedLt, inv.added⟩
      addedLt := fun n hn => ?_
      addition := fun u hu => ?_
      known := by
        rw [done.log]
        exact known_cons inv.known trivial
      empty := by rw [done.empty, done.log]; rfl
      emptied := by rw [done.log]; exact inv.emptied }
  · rw [done.nodes, done.running]
    refine inv.running.congr fun y hy => inserted.frame y ?_
    rw [mem_cons, not_or]
    exact ⟨fun e => not_mem.2 (e ▸ hy), fun h => inv.disj h hy⟩
  · rw [disjoint_append_left, singleton_disjoint]
    exact ⟨inv.disj, not_mem.2⟩
  · by_cases hu : u = t
    · subst hu
      simp [done.queued]
    · simp [done.other u hu, inv.queued u, hu]
  · by_cases hu : u = t
    · subst hu
      simp [done.runs, not_mem.2]
    · rw [done.other u hu]
      exact inv.runs u
  · by_cases hu : u = t
    · rw [hu, done.q, done.queued]
    · rw [done.other u hu]
      exact inv.q u
  · refine pairwise_append.mpr ⟨inv.order.imp_of_mem fun hu hv h => ?_,
      pairwise_singleton _ _, fun u hu v hv => ?_⟩
    · rw [other _ (.inl hu), other _ (.inl hv)]
      exact h
    · obtain rfl := mem_singleton.mp hv
      rw [other u (.inl hu), done.serial]
      exact (inv.fresh u (.inl hu)).1
  · have perm : (ps ++ [t] ++ rs).Perm (t :: (ps ++ rs)) := by
      rw [append_assoc]
      exact perm_middle
    rw [(perm.map _).nodup_iff, map_cons, done.serial, same _ fun _ => mem_append.mp]
    refine nodup_cons.mpr ⟨?_, inv.serials⟩
    rw [mem_map]
    rintro ⟨u, hu, e⟩
    exact absurd e (Nat.ne_of_lt (inv.fresh u (mem_append.mp hu)).1)
  · rw [done.next, completedIn_eq]
    by_cases hut : u = t
    · subst hut
      rw [done.serial]
      exact ⟨Nat.lt_succ_self _, fun h => Nat.lt_irrefl _ (inv.completedLt _ h)⟩
    · have hu' : u ∈ ps ∨ u ∈ rs := by simpa [hut] using hu
      rw [other u hu']
      exact ⟨Nat.lt_succ_of_lt (inv.fresh u hu').1, (inv.fresh u hu').2⟩
  · rw [startedIn_eq] at hn
    rw [done.next]
    refine ⟨Nat.lt_succ_of_lt (inv.startedLt n hn).1, fun u hu => ?_⟩
    rcases mem_append.mp hu with hu | hu
    · rw [other u (.inl hu)]
      exact (inv.startedLt n hn).2 u hu
    · obtain rfl := mem_singleton.mp hu
      rw [done.serial]
      exact (inv.startedLt n hn).1
  · rw [completedIn_eq] at hn
    rw [done.next]
    exact Nat.lt_succ_of_lt (inv.completedLt n hn)
  · rw [done.log] at hn
    rw [done.next]
    rcases mem_cons.mp hn with rfl | hn
    · exact Nat.lt_succ_self _
    · exact Nat.lt_succ_of_lt (inv.addedLt n hn)
  · rw [done.log]
    by_cases hut : u = t
    · rw [hut, done.serial]
      exact mem_cons_self
    · have hu' : u ∈ ps ∨ u ∈ rs := by simpa [hut] using hu
      rw [other u hu']
      exact mem_cons_of_mem _ (inv.addition u hu')

theorem addTask_done (inv : Inv cfg s ps rs) (unasked : Unasked s ps) :
    Done cfg s ps (s.addTask t, []) := by
  rcases addTask_cases s t with same | ⟨hq, done⟩
  · rw [same]
    exact ⟨ps, rs, inv, unasked, fun _ _ => id, ⟨[], rfl, balanced_nil⟩, by simp⟩
  refine ⟨ps ++ [t], rs, done.inv inv hq, fun u hu => ?_, fun u n kept => ?_,
    ⟨[.added t s.next], done.log, by simp [Balanced]⟩, by simp⟩
  · by_cases hut : u = t
    · rw [hut, done.asked]
    · rw [done.other u hut]
      exact unasked u (by simpa [hut] using hu)
  by_cases hut : u = t
  · subst hut
    have lt := kept.lt
    refine ⟨by rw [done.next]; omega, fun _ e => ?_, fun _ _ => by simp⟩
    rw [done.serial] at e
    omega
  · have eq := done.other u hut
    exact ⟨by rw [done.next]; exact Nat.lt_succ_of_lt kept.lt, eq ▸ kept.same,
      fun h h' => mem_append_left _ (kept.again (eq ▸ h) (eq ▸ h'))⟩

theorem call_done (inv : Inv cfg s ps rs) (unasked : Unasked s ps) (c : Call α) :
    Done cfg s ps (s.call cfg c) := by
  cases c with
  | add t => exact addTask_done inv unasked
  | complete t => exact taskComplete_asked inv unasked
  | cancel t => exact taskCancel_done inv unasked
  | kill t => exact taskKill_done inv unasked

end

end OpenSync.Rq
