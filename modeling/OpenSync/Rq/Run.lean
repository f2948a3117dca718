import OpenSync.Rq.Inv

/-!
# Runs of the queue

Tasks are only started by the loop of `rq_run`, which is at the bottom of the stack: it is
called by a timer, not by a callback.  So a task that is added again while its `kill_fn` is
being called stays pending until that call returns, and `rq_task_kill` then completes it
although nobody has asked for that.
-/

namespace OpenSync.Rq

open OpenSync.Ds List Queue Option

variable {α : Type} [DecidableEq α] {cfg : Config α} {s s' : Queue α} {ps rs : List α} {t : α}

/-! ## What is left to do -/

omit [DecidableEq α] in
/-- The queue is as it was, with commands left to do that do not start tasks. -/
theorem done_of_push {push : List (Cmd α)} (inv : Inv cfg s ps rs) (unasked : Unasked s ps)
    (h : ∀ c ∈ push, c ≠ .run ∧ ∀ t n, c ≠ .killed t n) : Done cfg s ps (s, push) :=
  ⟨ps, rs, inv, unasked, fun _ _ => id, ⟨[], rfl, balanced_nil⟩,
    fun c hc => ⟨(h c hc).1, fun t n e => absurd e ((h c hc).2 t n)⟩⟩

omit [DecidableEq α] in
/-- The timer of the queue and `stopped` are free to change. -/
theorem timers_flags (s : Queue α) (run stopped : Bool) :
    Flags s { s with run := run, stopped := stopped } :=
  ⟨rfl, rfl, rfl, rfl, rfl, rfl, rfl, fun _ => rfl, fun _ => rfl, fun _ => rfl, fun _ => rfl,
    fun _ => id⟩

variable {r : Queue α × List (Cmd α)} {k : List (Cmd α)} {c : Queue α × List (Cmd α)}
  {l₁ l₂ : List (Event α)}

omit [DecidableEq α] in
theorem Done.concat (h : Done cfg s ps r) {c : Cmd α} (hr : c ≠ .run)
    (hk : ∀ t n, c ≠ .killed t n) : Done cfg s ps (r.1, r.2 ++ [c]) := by
  obtain ⟨ps', rs', inv, unasked, kept, log, push⟩ := h
  refine ⟨ps', rs', inv, unasked, kept, log, fun c' hc' => ?_⟩
  rcases mem_append.mp hc' with hc' | hc'
  · exact push c' hc'
  · obtain rfl := mem_singleton.mp hc'
    exact ⟨hr, fun t n e => absurd e (hk t n)⟩

omit [DecidableEq α] in
theorem reportEmpty_done (inv : Inv cfg s ps rs) (unasked : Unasked s ps) :
    Done cfg s ps s.reportEmpty := by
  unfold reportEmpty
  by_cases h : s.becameEmpty = true
  · have heads : s.empty = false ∧ s.running.head = none ∧ s.pending.head = none := by
      simpa [becameEmpty] using h
    rw [h]
    refine ⟨ps, rs, ?_, unasked, fun t n kept => ⟨kept.lt, kept.same, kept.again⟩,
      ⟨[.emptied s.pending.head s.running.head], rfl, by simp [Balanced]⟩, by simp⟩
    exact
      { inv with
        known := known_cons inv.known trivial
        empty := rfl
        emptied := ⟨⟨heads.2.2, heads.2.1, inv.empty ▸ heads.1⟩, inv.emptied⟩
        addition := fun t ht => mem_cons_of_mem _ (inv.addition t ht) }
  · rw [Bool.not_eq_true] at h
    rw [h]
    exact done_of_push inv unasked (by simp)

/-- After `kill_fn` the task is completed, whatever became of it.  It has been asked to end
unless it was added again. -/
theorem killed_done {n : Nat} (inv : Inv cfg s ps rs) (unasked : Unasked s ps)
    (kept : Kept s ps t n) : Done cfg s ps (s.exec cfg (.killed t n)) := by
  have inv' : Inv cfg (s.emit (.killReturned t (!(s.task t).queued || (s.task t).serial == n)))
      ps rs :=
    { inv with
      known := known_cons inv.known trivial
      addition := fun t ht => mem_cons_of_mem _ (inv.addition t ht) }
  by_cases hq : (s.task t).queued = true
  · obtain ⟨s', eq, done⟩ := taskComplete_queued
      (s := s.emit (.killReturned t (!(s.task t).queued || (s.task t).serial == n))) hq
    have nodup := inv.pending.nodup
    rw [exec, eq]
    refine ⟨ps.erase t, rs.erase t, done.inv inv' hq,
      done.unasked nodup fun u mem _ => unasked u mem,
      fun u m kept => done.kept nodup ⟨kept.lt, kept.same, kept.again⟩, ?_, by simp⟩
    refine ⟨[.completed t (s.task t).serial (s.task t).asked,
      .killReturned t (!(s.task t).queued || (s.task t).serial == n)], done.log, ?_⟩
    have asked : (s.task t).asked = ((s.task t).serial == n) := by
      by_cases hn : (s.task t).serial = n
      · rw [kept.same hq hn, hn, beq_self_eq_true]
      · rw [unasked t (kept.again hq hn), beq_eq_false_iff_ne.mpr hn]
    simp [Balanced, hq, asked]
  · rw [exec, taskComplete, if_neg (by exact hq)]
    refine ⟨ps, rs, inv', unasked, fun u m kept => ⟨kept.lt, kept.same, kept.again⟩,
      ⟨[_], rfl, ?_⟩, by simp⟩
    simp [Balanced, hq]

/-! ## Starting a task -/

theorem moveToRunning_lists (inv : Inv cfg s (t :: ps) rs) :
    (s.moveToRunning t).pending.Chain (s.moveToRunning t).nodes ps ∧
      (s.moveToRunning t).running.Chain (s.moveToRunning t).nodes (rs ++ [t]) := by
  have head : s.pending.Chain s.nodes ([] ++ t :: ps) := inv.pending
  have removed := Dlist.nodeRemove_spec head
  have not_mem : t ∉ rs := fun h => inv.disj mem_cons_self h
  have hrs := inv.running.congr fun y hy => removed.frame y fun h => inv.disj h hy
  have inserted := Dlist.insertTail_spec hrs not_mem
  refine ⟨removed.chain.congr fun y hy => inserted.frame y ?_, inserted.chain⟩
  rw [mem_cons, not_or]
  exact ⟨fun e => (nodup_cons.mp inv.pending.nodup).1 (e ▸ hy),
    fun h => inv.disj (mem_cons_of_mem _ hy) h⟩

attribute [local simp] moveToRunning

theorem moveToRunning_serial (s : Queue α) (t u : α) :
    ((s.moveToRunning t).task u).serial = (s.task u).serial := by
  by_cases hu : u = t <;> simp [hu]

theorem moveToRunning_inv (inv : Inv cfg s (t :: ps) rs) (notFull : s.isFull cfg = false) :
    Inv cfg (s.moveToRunning t) ps (rs ++ [t]) := by
  obtain ⟨pending, running⟩ := moveToRunning_lists inv
  have not_mem : t ∉ ps := (nodup_cons.mp inv.pending.nodup).1
  have perm : (ps ++ (rs ++ [t])).Perm (t :: ps ++ rs) := by
    rw [← append_assoc]
    exact perm_append_singleton t (ps ++ rs)
  have mem : ∀ u, u ∈ ps ∨ u ∈ rs ++ [t] ↔ u ∈ t :: ps ∨ u ∈ rs := fun u => by
    rw [← mem_append, ← mem_append]
    exact perm.mem_iff
  refine
    { pending := pending
      running := running
      disj := ?_
      queued := fun u => ?_
      runs := fun u => ?_
      q := fun u => ?_
      num := ?_
      limit := fun h => ?_
      order := ?_
      serials := ?_
      fresh := fun u hu => ?_
      startedLt := fun n hn => ?_
      started := inv.started
      completedLt := inv.completedLt
      completed := inv.completed
      added := inv.added
      addedLt := inv.addedLt
      addition := fun u hu => ?_
      known := inv.known
      empty := inv.empty
      emptied := inv.emptied }
  · rw [disjoint_append_right, disjoint_singleton]
    exact ⟨fun u hu hu' => inv.disj (mem_cons_of_mem _ hu) hu', not_mem⟩
  · rw [mem u, ← inv.queued u]
    by_cases hu : u = t <;> simp [hu]
  · by_cases hu : u = t
    · simp [hu]
    · simp [hu, inv.runs u]
  · by_cases hu : u = t <;> simp [hu, inv.q]
  · simp [inv.num]
  · have lt : s.numRunning < cfg.maxRunning := by
      have ne : cfg.maxRunning ≠ 0 := Nat.ne_of_gt h
      simpa [isFull, ne] using notFull
    rw [inv.num] at lt
    rw [length_append, length_singleton]
    omega
  · simp only [moveToRunning_serial]
    exact (pairwise_cons.mp inv.order).2
  · simp only [moveToRunning_serial]
    exact (perm.map _).nodup_iff.mpr inv.serials
  · rw [moveToRunning_serial]
    exact inv.fresh u ((mem u).mp hu)
  · simp only [moveToRunning_serial]
    exact ⟨(inv.startedLt n hn).1,
      fun u hu => (inv.startedLt n hn).2 u (mem_cons_of_mem _ hu)⟩
  · rw [moveToRunning_serial]
    exact inv.addition u ((mem u).mp hu)

omit [DecidableEq α] in
theorem emit_started_inv (inv : Inv cfg s ps rs) (ht : t ∈ rs)
    (after : ∀ n ∈ startedIn s.log, n < (s.task t).serial)
    (before : ∀ u ∈ ps, (s.task t).serial < (s.task u).serial) :
    Inv cfg (s.emit (.started t (s.task t).serial)) ps rs :=
  { inv with
    startedLt := fun n hn => by
      rcases mem_cons.mp hn with rfl | hn
      · exact ⟨(inv.fresh t (.inr ht)).1, before⟩
      · exact inv.startedLt n hn
    started := pairwise_cons.mpr ⟨after, inv.started⟩
    addition := fun u hu => mem_cons_of_mem _ (inv.addition u hu)
    known := known_cons inv.known (mem_cons_of_mem _ (inv.addition t (.inr ht))) }

/-- The task with the lowest number among the pending ones is started. -/
theorem startNext_inv (inv : Inv cfg s (t :: ps) rs) (notFull : s.isFull cfg = false) :
    Inv cfg (s.startNext cfg t) ps (rs ++ [t]) := by
  have flags := taskSetTimeout_flags (s.moveToRunning t) t (cfg.runTimeoutMsec t)
  have serial : ∀ u, (((s.moveToRunning t).taskSetTimeout t (cfg.runTimeoutMsec t)).task u).serial =
      (s.task u).serial := fun u => (flags.serial u).trans (moveToRunning_serial s t u)
  have started := emit_started_inv (t := t) (flags.inv (moveToRunning_inv inv notFull)) (by simp)
    (by
      rw [flags.log, serial]
      exact fun n hn => (inv.startedLt n hn).2 t mem_cons_self)
    (by
      simp only [serial]
      exact (pairwise_cons.mp inv.order).1)
  rw [serial] at started
  exact started

theorem startNext_unasked (unasked : Unasked s (t :: ps)) : Unasked (s.startNext cfg t) ps := by
  intro u hu
  show (((s.moveToRunning t).taskSetTimeout t _).task u).asked = false
  rw [taskSetTimeout_asked]
  have asked := unasked u (mem_cons_of_mem _ hu)
  by_cases hut : u = t
  · subst hut
    simpa using asked
  · simpa [hut] using asked

theorem startNext_log : (s.startNext cfg t).log = [.started t (s.task t).serial] ++ s.log := by
  have flags := taskSetTimeout_flags (s.moveToRunning t) t (cfg.runTimeoutMsec t)
  show _ :: ((s.moveToRunning t).taskSetTimeout t (cfg.runTimeoutMsec t)).log = _
  rw [flags.log]
  rfl

/-! ## Steps -/

/-- What holds between two steps, with `k` left to do. -/
structure Reached (cfg : Config α) (c : Queue α × List (Cmd α)) (ps rs : List α) : Prop where
  inv : Inv cfg c.1 ps rs
  unasked : Unasked c.1 ps
  kept : ∀ t n, .killed t n ∈ c.2 → Kept c.1 ps t n
  runLast : ∀ l k, c.2 = l ++ .run :: k → k = []
  balanced : Balanced c.1.log

omit [DecidableEq α] in
theorem runLast_append {push : List (Cmd α)} (h : ∀ c ∈ push, c ≠ .run)
    (hk : ∀ l k', k = l ++ .run :: k' → k' = []) :
    ∀ l k', push ++ k = l ++ .run :: k' → k' = [] := by
  induction push with
  | nil => exact hk
  | cons c push ih =>
    intro l k' eq
    cases l with
    | nil => exact absurd (cons.inj eq).1 (h c mem_cons_self)
    | cons x l =>
      exact ih (fun c hc => h c (mem_cons_of_mem _ hc)) l k' (cons.inj eq).2

omit [DecidableEq α] in
theorem runLast_tail {c : Cmd α} (h : ∀ l k', c :: k = l ++ .run :: k' → k' = []) :
    ∀ l k', k = l ++ .run :: k' → k' = [] :=
  fun l k' eq => h (c :: l) k' (by rw [eq, cons_append])

omit [DecidableEq α] in
/-- A call keeps what holds, with what it leaves to do on top of the rest. -/
theorem Done.reached (done : Done cfg s ps r) (kept : ∀ t n, .killed t n ∈ k → Kept s ps t n)
    (runLast : ∀ l k', k = l ++ .run :: k' → k' = []) (balanced : Balanced s.log) :
    ∃ ps' rs', Reached cfg (r.1, r.2 ++ k) ps' rs' := by
  obtain ⟨ps', rs', inv, unasked, keeps, ⟨new, log, hnew⟩, push⟩ := done
  refine ⟨ps', rs', inv, unasked, fun t n mem => ?_,
    runLast_append (fun c hc => (push c hc).1) runLast, ?_⟩
  · rcases mem_append.mp mem with mem | mem
    · exact (push _ mem).2 t n rfl
    · exact keeps t n (kept t n mem)
  · rw [log]
    exact hnew.append balanced

theorem exec_reached {cmd : Cmd α} (h : Reached cfg (s, cmd :: k) ps rs) :
    ∃ ps' rs', Reached cfg ((s.exec cfg cmd).1, (s.exec cfg cmd).2 ++ k) ps' rs' := by
  have kept : ∀ t n, .killed t n ∈ k → Kept s ps t n := fun t n mem =>
    h.kept t n (mem_cons_of_mem _ mem)
  have lift : Done cfg s ps (s.exec cfg cmd) →
      ∃ ps' rs', Reached cfg ((s.exec cfg cmd).1, (s.exec cfg cmd).2 ++ k) ps' rs' :=
    fun done => done.reached kept (runLast_tail h.runLast) h.balanced
  cases cmd with
  | callback | cancelPending | cancelRunning | killRunning =>
    exact lift (done_of_push h.inv h.unasked (by simp))
  | run =>
    by_cases hc : s.canStartNext cfg = true
    · have start : s.pending.head ≠ none ∧ s.isFull cfg = false := by
        simp only [canStartNext] at hc
        split_ifs at hc
        simp_all
      have hk : k = [] := h.runLast [] k rfl
      subst hk
      cases hps : ps with
      | nil => exact absurd (h.inv.pending.head.trans (by rw [hps]; rfl)) start.1
      | cons t ps' =>
        subst hps
        have head : s.pending.head = some t := h.inv.pending.head
        rw [exec, if_pos hc, head]
        refine ⟨ps', rs ++ [t], startNext_inv h.inv start.2, startNext_unasked h.unasked,
          by simp, ?_, ?_⟩
        · intro l k' eq
          rcases l with _ | ⟨x, _ | ⟨y, l⟩⟩ <;> simp_all
        · rw [startNext_log]
          exact .append (by simp [Balanced]) h.balanced
    · rw [exec, if_neg hc]
      exact (reportEmpty_done h.inv h.unasked).reached kept (runLast_tail h.runLast) h.balanced
  | killed t n => exact lift (killed_done h.inv h.unasked (h.kept t n mem_cons_self))
  | schedule => exact lift ((timers_flags s (!s.stopped) s.stopped).done h.inv h.unasked (by simp))
  | reportEmpty => exact lift (reportEmpty_done h.inv h.unasked)
  | cancelFrom t =>
    cases t with
    | none => exact lift (done_of_push h.inv h.unasked (by simp))
    | some t => exact lift ((taskCancel_done h.inv h.unasked).concat (by simp) (by simp))
  | killFrom t =>
    cases t with
    | none => exact lift (done_of_push h.inv h.unasked (by simp))
    | some t => exact lift ((taskKill_done h.inv h.unasked).concat (by simp) (by simp))

omit [DecidableEq α] in
/-- A step that changes flags and goes on with a call. -/
theorem Done.of_flags (flags : Flags s s') (done : Done cfg s' ps r) : Done cfg s ps r := by
  obtain ⟨ps', rs', inv, unasked, kept, ⟨new, log, hnew⟩, push⟩ := done
  exact ⟨ps', rs', inv, unasked, fun t n h => kept t n (flags.kept h),
    ⟨new, flags.log ▸ log, hnew⟩, push⟩

theorem setTask_unasked {x : Task} (unasked : Unasked s ps) (hx : x.asked = (s.task t).asked) :
    Unasked (s.setTask t x) ps := by
  intro u hu
  by_cases hut : u = t
  · subst hut
    simpa [setTask, hx] using unasked u hu
  · simpa [setTask, hut] using unasked u hu

theorem taskTimeout_done (inv : Inv cfg s ps rs) (unasked : Unasked s ps) :
    Done cfg s ps (s.taskTimeout cfg t) := by
  unfold taskTimeout
  split
  · have flags : Flags s (s.setTask t { s.task t with cancelTimedOut := true }) :=
      setTask_flags rfl rfl rfl rfl id
    exact .of_flags flags (taskKill_done (flags.inv inv) (setTask_unasked unasked rfl))
  · have flags : Flags s (s.setTask t { s.task t with timedOut := true }) :=
      setTask_flags rfl rfl rfl rfl id
    exact .of_flags flags (taskCancel_done (flags.inv inv) (setTask_unasked unasked rfl))

omit [DecidableEq α] in
theorem Done.top (done : Done cfg s ps r) (balanced : Balanced s.log) :
    ∃ ps' rs', Reached cfg r ps' rs' := by
  have h := done.reached (k := []) (by simp) (by simp) balanced
  rwa [append_nil] at h

theorem top_reached {a : Act α} (h : Reached cfg (s, []) ps rs) (eq : top cfg s a = some c) :
    ∃ ps' rs', Reached cfg c ps' rs' := by
  have push : ∀ l : List (Cmd α), (∀ c ∈ l, c ≠ .run ∧ ∀ t n, c ≠ .killed t n) →
      ∃ ps' rs', Reached cfg (s, l) ps' rs' := fun l hl =>
    (done_of_push h.inv h.unasked hl).top h.balanced
  cases a with
  | next => cases eq
  | call x =>
    cases eq
    exact (call_done h.inv h.unasked x).top h.balanced
  | cancelPending | cancelRunning | cancel | kill => cases eq; exact push _ (by simp)
  | stop | fini =>
    cases eq
    exact ((timers_flags s s.run true).done h.inv h.unasked (by simp)).top h.balanced
  | resume =>
    cases eq
    exact ((timers_flags s _ false).done h.inv h.unasked (by simp)).top h.balanced
  | runTimer =>
    simp only [top, ite_none_right_eq_some, some.injEq] at eq
    obtain ⟨-, rfl⟩ := eq
    have flags := timers_flags s false s.stopped
    refine ⟨ps, rs, flags.inv h.inv, h.unasked, by simp, fun l k' eq => ?_, h.balanced⟩
    cases l with
    | nil => exact (cons.inj eq).2.symm
    | cons x l => simp at eq
  | taskTimer t =>
    simp only [top, ite_none_right_eq_some, some.injEq] at eq
    obtain ⟨-, rfl⟩ := eq
    have flags : Flags s (s.expire t) := setTask_flags rfl rfl rfl rfl id
    have unasked : Unasked (s.expire t) ps := setTask_unasked h.unasked rfl
    exact (Done.of_flags flags (taskTimeout_done (flags.inv h.inv) unasked)).top h.balanced

theorem step_reached {c' : Queue α × List (Cmd α)} {a : Act α} (h : Reached cfg c ps rs)
    (eq : step cfg c a = some c') : ∃ ps' rs', Reached cfg c' ps' rs' := by
  obtain ⟨s, k⟩ := c
  cases k with
  | nil => exact top_reached h eq
  | cons cmd k =>
    rw [step] at eq
    dsimp only at eq
    split at eq
    · cases eq
      exact (call_done h.inv h.unasked _).reached h.kept h.runLast h.balanced
    · cases eq
      exact exec_reached h
    · cases eq

theorem run_reached (as : List (Act α)) (eq : run cfg as = some c) :
    ∃ ps rs, Reached cfg c ps rs := by
  have steps : ∀ (as : List (Act α)) (c0 : Queue α × List (Cmd α)),
      (∃ ps rs, Reached cfg c0 ps rs) → as.foldlM (step cfg) c0 = some c →
      ∃ ps rs, Reached cfg c ps rs := by
    intro as
    induction as with
    | nil =>
      intro c0 h eq
      cases eq
      exact h
    | cons a as ih =>
      rintro c0 ⟨ps, rs, h⟩ eq
      rw [foldlM_cons, bind_eq_bind, bind_eq_some_iff] at eq
      obtain ⟨c1, first, rest⟩ := eq
      exact ih c1 (step_reached h first) rest
  refine steps as _ ⟨[], [], init_inv, fun t ht => ?_, by simp, by simp, balanced_nil⟩ eq
  cases ht

/-! ## Whole runs -/

omit [DecidableEq α] in
theorem EmptiedOnce.of_append (h : EmptiedOnce (l₁ ++ l₂)) : EmptiedOnce l₂ := by
  induction l₁ with
  | nil => exact h
  | cons e l₁ ih =>
    cases e with
    | emptied p r => exact ih h.2
    | added | started | completed | killReturned => exact ih h

omit [DecidableEq α] in
theorem added_of_not_quiet {p r : Option α} (h : quiet (l₁ ++ .emptied p r :: l₂) = false) :
    ∃ t n, .added t n ∈ l₁ := by
  induction l₁ with
  | nil => cases h
  | cons e l₁ ih =>
    cases e with
    | added t n => exact ⟨t, n, mem_cons_self⟩
    | emptied p r => cases h
    | started | completed | killReturned =>
      obtain ⟨t, n, mem⟩ := ih h
      exact ⟨t, n, mem_cons_of_mem _ mem⟩

omit [DecidableEq α] in
/-- `empty_fn` is called when both lists are empty, after an addition since the last call. -/
theorem EmptiedOnce.split {log : List (Event α)} {p r : Option α} (h : EmptiedOnce log)
    (split : log = l₁ ++ .emptied p r :: l₂) :
    p = none ∧ r = none ∧ ∀ l₃ l₄ p' r', l₂ = l₃ ++ .emptied p' r' :: l₄ →
      ∃ t n, .added t n ∈ l₃ := by
  rw [split] at h
  obtain ⟨hp, hr, notQuiet⟩ := h.of_append.1
  refine ⟨hp, hr, fun l₃ l₄ p' r' split' => ?_⟩
  rw [split'] at notQuiet
  exact added_of_not_quiet notQuiet

/-- In every run:

* a task is in one of the lists at most, and its flags and `num_running` agree with the lists;
* no more than `max_running` tasks are running;
* the additions are started in their order, and completed once at most;
* `empty_fn` is called when both lists are empty, with an addition between any two calls;
* every task that is completed has been asked to end since it was added, if and only if no
  `kill_fn` returned with its task in the queue by a later addition. -/
theorem run_queue (cfg : Config α) (as : List (Act α)) (s : Queue α) (k : List (Cmd α))
    (h : run cfg as = some (s, k)) :
    (∃ ps rs, s.pending.Chain s.nodes ps ∧ s.running.Chain s.nodes rs ∧ ps.Disjoint rs ∧
      (∀ t, (s.task t).queued = true ↔ t ∈ ps ∨ t ∈ rs) ∧
      (∀ t, (s.task t).running = true ↔ t ∈ rs) ∧
      s.numRunning = rs.length ∧ (0 < cfg.maxRunning → s.numRunning ≤ cfg.maxRunning)) ∧
    ((∀ e ∈ s.log, e.Known s.log) ∧ (addedIn s.log).Pairwise (· > ·) ∧
      (startedIn s.log).Pairwise (· > ·) ∧ (completedIn s.log).Nodup) ∧
    (∀ l₁ l₂ p r, s.log = l₁ ++ .emptied p r :: l₂ → p = none ∧ r = none ∧
      ∀ l₃ l₄ p' r', l₂ = l₃ ++ .emptied p' r' :: l₄ → ∃ t n, .added t n ∈ l₃) ∧
    ((∀ t n a, .completed t n a ∈ s.log → a = true) ↔
      ∀ t b, .killReturned t b ∈ s.log → b = true) := by
  obtain ⟨ps, rs, reached⟩ := run_reached as h
  have inv := reached.inv
  refine ⟨⟨ps, rs, inv.pending, inv.running, inv.disj, inv.queued, inv.runs, inv.num,
    fun hmax => ?_⟩, ⟨inv.known, inv.added, inv.started, inv.completed⟩,
    fun l₁ l₂ p r split => inv.emptied.split split, reached.balanced⟩
  rw [inv.num]
  exact_mod_cast inv.limit hmax

/-- The run of a task that is killed, and whose `kill_fn` does nothing. -/
theorem run_queue_killed : ∃ c : Queue Nat × List (Cmd Nat),
    run ⟨1, fun _ => 0, fun _ => 0⟩ [.call (.add 0), .runTimer, .next, .next, .next,
      .call (.kill 0), .next, .next] = some c ∧ .completed 0 0 true ∈ c.1.log ∧
    ∀ t n a, .completed t n a ∈ c.1.log → a = true := by
  obtain ⟨c, eq, log⟩ : ∃ c : Queue Nat × List (Cmd Nat),
      run ⟨1, fun _ => 0, fun _ => 0⟩ [.call (.add 0), .runTimer, .next, .next, .next,
        .call (.kill 0), .next, .next] = some c ∧
      c.1.log = [.completed 0 0 true, .killReturned 0 true, .started 0 0, .added 0 0] :=
    map_eq_some_iff.mp (by decide)
  refine ⟨c, eq, by simp [log], ?_⟩
  exact (run_queue _ _ c.1 c.2 eq).2.2.2.mpr fun t b mem => by simp_all

/-- A running task is killed, and its `kill_fn` completes it and adds it again. -/
def killReadd : List (Act Nat) :=
  [.call (.add 0), .runTimer, .next, .next, .next, .call (.kill 0), .call (.complete 0), .next,
    .next, .call (.add 0), .next, .next]

/-- The second addition is completed although nobody asked for that after it. -/
theorem killReadd_not_asked : ∃ c, run ⟨1, fun _ => 0, fun _ => 0⟩ killReadd = some c ∧
    c.1.log = [.completed 0 1 false, .killReturned 0 false, .added 0 1, .completed 0 0 true,
      .started 0 0, .added 0 0] ∧
    ¬∀ t n a, .completed t n a ∈ c.1.log → a = true := by
  obtain ⟨c, eq, log⟩ : ∃ c, run ⟨1, fun _ => 0, fun _ => 0⟩ killReadd = some c ∧
      c.1.log = [.completed 0 1 false, .killReturned 0 false, .added 0 1, .completed 0 0 true,
        .started 0 0, .added 0 0] :=
    map_eq_some_iff.mp (by decide)
  refine ⟨c, eq, log, fun h => ?_⟩
  exact Bool.false_ne_true (h 0 1 false (by rw [log]; exact mem_cons_self))

end OpenSync.Rq
