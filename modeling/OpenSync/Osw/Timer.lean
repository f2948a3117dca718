import OpenSync.Ds.Dlist

/-!
# Timers of `osw_timer.c`

There are `n` timers, named by numbers.  A timer is in the list of the armed timers
`g_active_list`, in the list `pending_list` of a dispatch that is going on, or in none; its `list`
field names the list.

What the callbacks do is a parameter of the dispatch: `beh k` are the calls that the `k`-th
callback of the round makes.  The loops have a bound on their steps, which is never reached because
a list holds each timer at most once.  `none` is a failed `ASSERT` or the lack of steps.
-/

namespace OpenSync.Osw.Timer

open OpenSync.Ds

/-- The lists that a timer can be in. -/
inductive ListId where
  | active
  | pending
deriving DecidableEq

/-- `struct osw_timer` without its list node.  `cb` tells whether the callback is set. -/
structure OswTimer where
  cb : Bool
  atNsec : Nat
  list : Option ListId

/-- The timers, their list nodes, `g_active_list`, and the `pending_list` of the
dispatch. -/
structure State (n : Nat) where
  timers : Fin n → OswTimer
  nodes : Dlist.Heap (Fin n)
  active : Dlist (Fin n)
  pending : Dlist (Fin n)

variable {n : Nat}

namespace State

section

variable (s : State n)

def list : ListId → Dlist (Fin n)
  | .active => s.active
  | .pending => s.pending

def setList (id : ListId) (r : Dlist (Fin n) × Dlist.Heap (Fin n)) : State n :=
  match id with
  | .active => { s with active := r.1, nodes := r.2 }
  | .pending => { s with pending := r.1, nodes := r.2 }

def setTimer (t : Fin n) (v : OswTimer) : State n :=
  { s with timers := Function.update s.timers t v }

/-- The state at the start of the program. -/
def start : State n :=
  ⟨fun _ => ⟨false, 0, none⟩, fun _ => ⟨none, none⟩, Dlist.init, Dlist.init⟩

/-- `ds_dlist_remove(list, timer); timer->list = NULL;` -/
def unlist (id : ListId) (t : Fin n) : State n :=
  (s.setList id (Dlist.nodeRemove (s.list id) s.nodes t)).setTimer t
    { s.timers t with list := none }

/-- The removal of a timer from the list that its `list` field names, if any. -/
def detach (t : Fin n) : State n :=
  match (s.timers t).list with
  | none => s
  | some id => s.unlist id t

end

end State

section

variable (s : State n) (t : Fin n)

/-- `osw_timer_init`. -/
def timerInit : State n :=
  { s.setTimer t ⟨true, 0, none⟩ with nodes := Function.update s.nodes t ⟨none, none⟩ }

/-- The loop of `osw_timer_arm_at_nsec`: the first timer from `cur` on that is not
earlier than `nsec`. -/
def findNext (s : State n) (nsec : Nat) : Nat → Option (Fin n) → Option (Option (Fin n))
  | 0, _ => none
  | _ + 1, none => some none
  | fuel + 1, some t =>
    if (s.timers t).atNsec ≥ nsec then some (some t) else findNext s nsec fuel (s.nodes t).next

/-- The insertion of `osw_timer_arm_at_nsec`: in front of `next`, or at the tail. -/
def insertNext : Option (Fin n) → Dlist (Fin n) × Dlist.Heap (Fin n)
  | some u => Dlist.insertBefore s.active s.nodes u t
  | none => Dlist.insertTail s.active s.nodes t

/-- `osw_timer_arm_at_nsec`. -/
def armAtNsec (nsec : Nat) : Option (State n) :=
  if !(s.timers t).cb then none
  else do
    let s := (s.setTimer t { s.timers t with atNsec := nsec }).detach t
    let next ← findNext s (s.timers t).atNsec (n + 1) s.active.head
    let s := s.setList .active (insertNext s t next)
    return s.setTimer t { s.timers t with list := some .active }

/-- `osw_timer_disarm`. -/
def disarm : State n := s.detach t

/-- `osw_timer_is_armed`. -/
def isArmed : Bool := (s.timers t).list.isSome

end

/-- `osw_timer_core_get_next_at`. -/
def getNextAt (s : State n) : Option Nat := s.active.head.map (fun t => (s.timers t).atNsec)

/-! ## Dispatch -/

/-- A call of a callback. -/
inductive Act (n : Nat) where
  | arm (t : Fin n) (nsec : Nat)
  | disarm (t : Fin n)

def act (s : State n) : Act n → Option (State n)
  | .arm t nsec => armAtNsec s t nsec
  | .disarm t => some (disarm s t)

/-- A callback. -/
def acts (s : State n) (as : List (Act n)) : Option (State n) := as.foldlM act s

/-- A step of the first loop of `osw_timer_core_dispatch`, or `none` at its end. -/
def prepareStep (now : Nat) (s : State n) : Option (State n) :=
  match s.active.head with
  | none => none
  | some t =>
    if (s.timers t).atNsec > now then none
    else
      let s := s.unlist .active t
      let s := s.setList .pending (Dlist.insertTail s.pending s.nodes t)
      some (s.setTimer t { s.timers t with list := some .pending })

/-- The first loop of `osw_timer_core_dispatch`. -/
def prepare (now : Nat) : Nat → State n → Option (State n)
  | 0, _ => none
  | fuel + 1, s =>
    match prepareStep now s with
    | none => some s
    | some s => prepare now fuel s

/-- The head of a step of the second loop of `osw_timer_core_dispatch`: the timer that is
due leaves the list. -/
def popPending (s : State n) : Option (Fin n × State n) :=
  match s.pending.head with
  | none => none
  | some t => some (t, s.unlist .pending t)

/-- A callback that has run, with what it did. -/
structure Call (n : Nat) where
  timer : Fin n
  acts : List (Act n)

/-- The second loop of `osw_timer_core_dispatch`. -/
def dispatch (beh : Nat → List (Act n)) : Nat → Nat → State n → Option (State n × List (Call n))
  | 0, _, _ => none
  | fuel + 1, k, s =>
    match popPending s with
    | none => some (s, [])
    | some (t, s) =>
      if !(s.timers t).cb then none
      else do
        let s ← acts s (beh k)
        let (s, calls) ← dispatch beh fuel (k + 1) s
        return (s, ⟨t, beh k⟩ :: calls)

/-- `osw_timer_core_dispatch`. -/
def coreDispatch (now : Nat) (beh : Nat → List (Act n)) (s : State n) :
    Option (State n × List (Call n)) := do
  let s ← prepare now (n + 1) { s with pending := Dlist.init }
  dispatch beh (n + 1) 0 s

end OpenSync.Osw.Timer
