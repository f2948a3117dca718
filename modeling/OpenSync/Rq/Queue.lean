import OpenSync.Ds.Dlist

/-!
# The run queue

A queue starts its tasks in their order, at most `max_running` at a time.  A task stays in the
queue until it is completed, by itself or by being cancelled or killed.  The queue calls back
for each of these and when it has become empty, and a callback may call the queue again.

The code is run in steps that end where a callback is called or returns, with what is left to
do on a stack.  A callback that is not set returns at once.  A task is in one queue at most, so
that `t->q` only says if it is in this one.  A timer is active or not and expires between other
calls, once.

Next to the source, additions are numbered, `asked` remembers if a task has been completed,
cancelled or killed by a call since it was added, and `log` has the newest event first.
-/

namespace OpenSync.Rq

open OpenSync.Ds Function

/-- `struct rq_task` without what its owner sets. -/
structure Task where
  q : Bool := false
  queued : Bool := false
  running : Bool := false
  cancelled : Bool := false
  killed : Bool := false
  timedOut : Bool := false
  cancelTimedOut : Bool := false
  timeout : Bool := false
  /-- The number of the last addition. -/
  serial : Nat := 0
  /-- Completed, cancelled or killed by a call since the last addition. -/
  asked : Bool := false
deriving DecidableEq

/-- What the owner sets. -/
structure Config (α : Type) where
  maxRunning : Nat
  runTimeoutMsec : α → Int
  cancelTimeoutMsec : α → Int

inductive Event (α : Type) where
  /-- A task was added, as addition `n`. -/
  | added (t : α) (n : Nat)
  /-- `run_fn` is called for addition `n`. -/
  | started (t : α) (n : Nat)
  /-- `completed_fn` is called for addition `n`. -/
  | completed (t : α) (n : Nat) (asked : Bool)
  /-- `kill_fn` has returned, and the task is not in the queue by a later addition. -/
  | killReturned (t : α) (same : Bool)
  /-- `empty_fn` is called, with these heads of the lists. -/
  | emptied (pending running : Option α)
deriving DecidableEq

/-- `struct rq`, with the nodes of the tasks. -/
structure Queue (α : Type) where
  nodes : Dlist.Heap α
  task : α → Task
  running : Dlist α
  pending : Dlist α
  stopped : Bool
  empty : Bool
  numRunning : Int
  run : Bool
  /-- The number of the next addition. -/
  next : Nat
  log : List (Event α)

/-- What is left to do. -/
inductive Cmd (α : Type) where
  /-- A callback that has not returned. -/
  | callback
  /-- The loop of `rq_run`. -/
  | run
  /-- `rq_task_kill` after `kill_fn`, for a task in the queue by addition `n`. -/
  | killed (t : α) (n : Nat)
  | schedule
  | reportEmpty
  | cancelPending
  | cancelRunning
  | killRunning
  /-- The walk of `rq_cancel_list` at an element. -/
  | cancelFrom (t : Option α)
  /-- The walk of `rq_kill_list` at an element. -/
  | killFrom (t : Option α)
deriving DecidableEq

/-- The calls that a callback makes. -/
inductive Call (α : Type) where
  | add (t : α)
  | complete (t : α)
  | cancel (t : α)
  | kill (t : α)
deriving DecidableEq

namespace Queue

variable {α : Type} [DecidableEq α]

/-- A queue in zeroed memory after `rq_init`. -/
def init : Queue α where
  nodes _ := ⟨none, none⟩
  task _ := {}
  running := Dlist.init
  pending := Dlist.init
  stopped := false
  empty := true
  numRunning := 0
  run := false
  next := 0
  log := []

def setTask (s : Queue α) (t : α) (x : Task) : Queue α :=
  { s with task := update s.task t x }

def emit (s : Queue α) (e : Event α) : Queue α := { s with log := e :: s.log }

/-- A call for a task by its user, a list walk or a timer. -/
def ask (s : Queue α) (t : α) : Queue α := s.setTask t { s.task t with asked := true }

def taskSetTimeout (s : Queue α) (t : α) (msec : Int) : Queue α :=
  if !(s.task t).q then s else s.setTask t { s.task t with timeout := 0 < msec }

def isFull (cfg : Config α) (s : Queue α) : Bool :=
  if cfg.maxRunning = 0 then false
  else if s.numRunning < cfg.maxRunning then false
  else true

def canStartNext (cfg : Config α) (s : Queue α) : Bool :=
  if s.stopped then false
  else if s.empty then false
  else if s.pending.head.isNone then false
  else if s.isFull cfg then false
  else true

/-- The task moves from the pending to the running tasks. -/
def moveToRunning (s : Queue α) (t : α) : Queue α :=
  let p := Dlist.nodeRemove s.pending s.nodes t
  let r := Dlist.insertTail s.running p.2 t
  { s with
    pending := p.1
    running := r.1
    nodes := r.2
    numRunning := s.numRunning + 1
    task := update s.task t { s.task t with running := true } }

/-- `rq_start_next` for the head of the pending tasks, up to the call of `run_fn`. -/
def startNext (cfg : Config α) (s : Queue α) (t : α) : Queue α :=
  ((s.moveToRunning t).taskSetTimeout t (cfg.runTimeoutMsec t)).emit (.started t (s.task t).serial)

def becameEmpty (s : Queue α) : Bool :=
  if s.empty then false
  else if !s.running.head.isNone then false
  else if !s.pending.head.isNone then false
  else true

def reportEmpty (s : Queue α) : Queue α × List (Cmd α) :=
  if !s.becameEmpty then (s, [])
  else (({ s with empty := true }).emit (.emptied s.pending.head s.running.head), [.callback])

def schedule (s : Queue α) : Queue α := { s with run := !s.stopped }

def addTask (s : Queue α) (t : α) : Queue α :=
  if s.stopped then s
  else if (s.task t).queued then s
  else
    let p := Dlist.insertTail s.pending s.nodes t
    schedule <| emit
      { s with
        pending := p.1
        nodes := p.2
        task := update s.task t
          { s.task t with
            q := true, queued := true, running := false, cancelled := false, killed := false,
            timedOut := false, cancelTimedOut := false, serial := s.next, asked := false }
        empty := false
        next := s.next + 1 }
      (.added t s.next)

/-- The task leaves the list that it is in. -/
def unlink (s : Queue α) (t : α) : Queue α :=
  if (s.task t).running then
    let r := Dlist.nodeRemove s.running s.nodes t
    { s with running := r.1, nodes := r.2, numRunning := s.numRunning - 1 }
  else
    let p := Dlist.nodeRemove s.pending s.nodes t
    { s with pending := p.1, nodes := p.2 }

def retire (s : Queue α) (t : α) : Queue α :=
  s.setTask t { s.task t with queued := false, running := false, q := false }

/-- `rq_task_complete`, up to the call of `completed_fn`. -/
def taskComplete (s : Queue α) (t : α) : Queue α × List (Cmd α) :=
  if (s.task t).queued then
    let s' := ((s.unlink t).taskSetTimeout t 0).retire t
    (s'.emit (.completed t (s.task t).serial (s.task t).asked), [.callback, .schedule])
  else (s, [])

def taskCancel (cfg : Config α) (s : Queue α) (t : α) : Queue α × List (Cmd α) :=
  let s := s.ask t
  if (s.task t).queued then
    if (s.task t).running then
      ((s.setTask t { s.task t with cancelled := true }).taskSetTimeout t
        (cfg.cancelTimeoutMsec t), [.callback])
    else s.taskComplete t
  else (s, [])

/-- `rq_task_kill`.  What is left after `kill_fn` is to complete the task. -/
def taskKill (s : Queue α) (t : α) : Queue α × List (Cmd α) :=
  let s := s.ask t
  if (s.task t).queued then
    if (s.task t).running then
      (s.setTask t { s.task t with killed := true }, [.callback, .killed t (s.task t).serial])
    else s.taskComplete t
  else (s, [])

def call (cfg : Config α) (s : Queue α) : Call α → Queue α × List (Cmd α)
  | .add t => (s.addTask t, [])
  | .complete t => (s.ask t).taskComplete t
  | .cancel t => s.taskCancel cfg t
  | .kill t => s.taskKill t

/-- Do what is left to do.  A callback returns. -/
def exec (cfg : Config α) (s : Queue α) : Cmd α → Queue α × List (Cmd α)
  | .callback => (s, [])
  | .run =>
    if s.canStartNext cfg then
      match s.pending.head with
      | none => (s, [])
      | some t => (s.startNext cfg t, [.callback, .run])
    else s.reportEmpty
  | .killed t n =>
    (s.emit (.killReturned t (!(s.task t).queued || (s.task t).serial == n))).taskComplete t
  | .schedule => (s.schedule, [])
  | .reportEmpty => s.reportEmpty
  | .cancelPending => (s, [.cancelFrom s.pending.head])
  | .cancelRunning => (s, [.cancelFrom s.running.head])
  | .killRunning => (s, [.killFrom s.running.head])
  | .cancelFrom none => (s, [])
  | .cancelFrom (some t) =>
    ((s.taskCancel cfg t).1, (s.taskCancel cfg t).2 ++ [.cancelFrom (s.nodes t).next])
  | .killFrom none => (s, [])
  | .killFrom (some t) => ((s.taskKill t).1, (s.taskKill t).2 ++ [.killFrom (s.nodes t).next])

/-- The timer of a task expires. -/
def expire (s : Queue α) (t : α) : Queue α := s.setTask t { s.task t with timeout := false }

/-- `rq_task_timeout_cb`. -/
def taskTimeout (cfg : Config α) (s : Queue α) (t : α) : Queue α × List (Cmd α) :=
  if (s.task t).cancelled then
    (s.setTask t { s.task t with cancelTimedOut := true }).taskKill t
  else (s.setTask t { s.task t with timedOut := true }).taskCancel cfg t

end Queue

/-- What happens next. -/
inductive Act (α : Type) where
  /-- The code goes on, or the callback returns. -/
  | next
  /-- A call by a callback, or while no other call is going on. -/
  | call (c : Call α)
  | cancelPending
  | cancelRunning
  | cancel
  | kill
  | stop
  | resume
  | fini
  | runTimer
  | taskTimer (t : α)

section Run

variable {α : Type} [DecidableEq α]

/-- What a call leaves to do while no other call is going on.  A timer has to be active to
expire. -/
def top (cfg : Config α) (s : Queue α) : Act α → Option (Queue α × List (Cmd α))
  | .next => none
  | .call c => some (s.call cfg c)
  | .cancelPending => some (s, [.cancelPending, .reportEmpty])
  | .cancelRunning => some (s, [.cancelRunning, .reportEmpty])
  | .cancel =>
    some (s, [.cancelPending, .reportEmpty, .cancelRunning, .reportEmpty, .reportEmpty])
  | .kill => some (s, [.killRunning, .cancelPending, .reportEmpty, .reportEmpty])
  | .stop => some ({ s with stopped := true }, [])
  | .resume => some (({ s with stopped := false }).schedule, [])
  | .fini =>
    some ({ s with stopped := true },
      [.killRunning, .cancelPending, .reportEmpty, .reportEmpty, .schedule, .reportEmpty])
  | .runTimer => if s.run then some ({ s with run := false }, [.run]) else none
  | .taskTimer t => if (s.task t).timeout then some ((s.expire t).taskTimeout cfg t) else none

def step (cfg : Config α) (c : Queue α × List (Cmd α)) (a : Act α) :
    Option (Queue α × List (Cmd α)) :=
  match c.2 with
  | [] => top cfg c.1 a
  | cmd :: k =>
    match cmd, a with
    | .callback, .call x => some ((c.1.call cfg x).1, (c.1.call cfg x).2 ++ cmd :: k)
    | _, .next => some ((c.1.exec cfg cmd).1, (c.1.exec cfg cmd).2 ++ k)
    | _, _ => none

def run (cfg : Config α) (as : List (Act α)) : Option (Queue α × List (Cmd α)) :=
  as.foldlM (step cfg) (Queue.init, [])

end Run

end OpenSync.Rq
