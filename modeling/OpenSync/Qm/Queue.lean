import OpenSync.Ds.Dlist
import OpenSync.Qm.Conn
import Mathlib.Algebra.BigOperators.Group.List.Basic
import Mathlib.Order.Bounds.Basic

/-!
# The queue of `qm_queue.c`

The items wait in a list with two counters, the number of items and their bytes.  A new item that
does not fit drops items from the head until it does.

Items are named by their addresses.  An item of the type `QM_DATA_LOG` goes to the log buffer;
what `qm_queue_append_log` does there is the parameter `appendLog`.  The loop of
`qm_queue_make_room` has a bound on its rounds, and running out of it is `none`.
-/

namespace OpenSync.Qm

open OpenSync.Ds OpenSync.Lib List Function

/-! ## The queue -/

/-- `QM_MAX_QUEUE_DEPTH`. -/
def maxQueueDepth : Nat := 200

/-- `QM_MAX_QUEUE_SIZE_BYTES`. -/
def maxQueueSizeBytes : Nat := 2 * 1024 * 1024

/-- `QM_DATA_LOG`. -/
def dataLog : UInt8 := 3

/-- `enum qm_response_type`. -/
inductive ResponseType where
  | error
  | status
  | received
  | ignored
deriving DecidableEq

/-- `enum qm_res_error`. -/
inductive ResError where
  | none
  | general
  | connect
  | invalid
  | queue
  | send
deriving DecidableEq

/-- The fields of `qm_response_t` that the queue sets. -/
structure Response where
  response : ResponseType
  error : ResError
  qdrop : UInt32

/-- `g_qm_queue`, with the items and their list nodes, and the log buffer. -/
structure State (α Log : Type) where
  items : α → Item
  nodes : Dlist.Heap α
  queue : Dlist α
  length : Int
  size : Int
  log : Log

variable {α Log : Type} [DecidableEq α]

namespace State

/-- The removal of an item from the list and from the two counters. -/
def unqueue (s : State α Log) (x : α) : State α Log :=
  { s with
    queue := (Dlist.nodeRemove s.queue s.nodes x).1
    nodes := (Dlist.nodeRemove s.queue s.nodes x).2
    length := toInt (s.length - 1)
    size := toInt (s.size - (s.items x).size) }

/-- `qm_queue_remove`. -/
def remove (s : State α Log) : Option α → State α Log × Bool
  | none => (s, false)
  | some x => (s.unqueue x, true)

/-- `qm_queue_drop_head`. -/
def dropHead (s : State α Log) : State α Log × Bool :=
  match s.queue.head with
  | none => (s, false)
  | some x => s.remove (some x)

/-- `qm_queue_get`. -/
def get (s : State α Log) : State α Log × Option α :=
  match s.queue.head with
  | none => (s, none)
  | some x => (s.unqueue x, some x)

/-- The condition of the loop of `qm_queue_make_room`.  The sum is a `size_t`. -/
def Lacks (s : State α Log) (size : Nat) : Prop :=
  s.length ≥ maxQueueDepth ∨ toSize (s.size + size) > maxQueueSizeBytes

instance (s : State α Log) (size : Nat) : Decidable (s.Lacks size) :=
  inferInstanceAs (Decidable (_ ∨ _))

/-- The loop of `qm_queue_make_room`. -/
def makeRoomLoop : Nat → State α Log → Nat → Response → Option (State α Log × Response)
  | 0, _, _, _ => none
  | fuel + 1, s, size, res =>
    if s.Lacks size then makeRoomLoop fuel s.dropHead.1 size { res with qdrop := res.qdrop + 1 }
    else some (s, res)

/-- `qm_queue_make_room`. -/
def makeRoom (fuel : Nat) (s : State α Log) (size : Nat) (res : Response) :
    Option (Bool × State α Log × Response) :=
  if size > maxQueueSizeBytes then some (false, s, res)
  else (makeRoomLoop fuel s size res).map (fun r => (true, r))

/-- `ds_dlist_insert_tail` and the two counters. -/
def enqueue (s : State α Log) (x : α) : State α Log :=
  { s with
    queue := (Dlist.insertTail s.queue s.nodes x).1
    nodes := (Dlist.insertTail s.queue s.nodes x).2
    length := toInt (s.length + 1)
    size := toInt (s.size + (s.items x).size) }

/-- The caller writes the item. -/
def setItem (s : State α Log) (x : α) (qi : Item) : State α Log :=
  { s with items := Function.update s.items x qi }

/-- The size and the time that `qm_queue_append_item` writes to the item. -/
def stamp (s : State α Log) (x : α) (now : Nat) : State α Log :=
  let qi := s.items x
  s.setItem x { qi with size := qi.req.dataSize.toNat, timestamp := now }

/-- The outcome of `qm_queue_put`: its result, whether `*qitem` is `NULL` then, the state
and the response. -/
structure Put (α Log : Type) where
  ok : Bool
  taken : Bool
  state : State α Log
  res : Response

/-- `qm_queue_append_item` at the time `now`. -/
def appendItem (fuel : Nat) (s : State α Log) (x : α) (now : Nat) (res : Response) :
    Option (Put α Log) :=
  (makeRoom fuel (s.stamp x now) ((s.stamp x now).items x).size res).map (fun r =>
    if r.1 then ⟨true, true, r.2.1.enqueue x, r.2.2⟩ else ⟨false, false, r.2.1, r.2.2⟩)

/-- `qm_queue_put`. -/
def put (appendLog : Log → Item → Response → Log × Response) (fuel : Nat) (s : State α Log)
    (x : α) (now : Nat) (res : Response) : Option (Put α Log) :=
  if (s.items x).req.dataType = dataLog then
    let r := appendLog s.log (s.items x) res
    some ⟨true, true, { s with log := r.1 }, r.2⟩
  else
    (appendItem fuel s x now res).map (fun r =>
      if r.ok then r else { r with res := { r.res with response := .error, error := .queue } })

end State

/-! ## The invariant -/

def bytes (items : α → Item) (xs : List α) : Nat := (xs.map (fun x => (items x).size)).sum

omit [DecidableEq α] in
@[simp] theorem bytes_nil (items : α → Item) : bytes items [] = 0 := rfl

omit [DecidableEq α] in
@[simp] theorem bytes_cons (items : α → Item) (x : α) (xs : List α) :
    bytes items (x :: xs) = (items x).size + bytes items xs := rfl

omit [DecidableEq α] in
@[simp] theorem bytes_append (items : α → Item) (xs ys : List α) :
    bytes items (xs ++ ys) = bytes items xs + bytes items ys := by
  simp [bytes]

omit [DecidableEq α] in
theorem bytes_congr {items items' : α → Item} {xs : List α}
    (h : ∀ x ∈ xs, items' x = items x) : bytes items' xs = bytes items xs := by
  rw [bytes, bytes, map_congr_left (fun x hx => by rw [h x hx])]

/-- An item of this size can be added to the items `xs`. -/
def Fits (items : α → Item) (xs : List α) (size : Nat) : Prop :=
  xs.length < maxQueueDepth ∧ bytes items xs + size ≤ maxQueueSizeBytes

/-- The queue holds the items `xs`, the oldest first, and the counters are right and
within their limits. -/
structure Holds (s : State α Log) (xs : List α) : Prop where
  chain : Dlist.Chain s.nodes s.queue xs
  length : s.length = xs.length
  size : s.size = bytes s.items xs
  depth : xs.length ≤ maxQueueDepth
  limit : bytes s.items xs ≤ maxQueueSizeBytes

variable {s : State α Log} {x y : α} {xs pre post : List α}

omit [DecidableEq α] in
/-- The test of the loop, by the contents of the queue. -/
theorem Holds.lacks_iff (h : Holds s xs) {size : Nat} (hsize : size ≤ maxQueueSizeBytes) :
    s.Lacks size ↔ ¬ Fits s.items xs size := by
  have hlimit := h.limit
  have hsum : toSize (s.size + size) = bytes s.items xs + size := by
    simp only [maxQueueSizeBytes] at hlimit hsize
    rw [h.size]
    exact toSize_of_lt (by omega)
  rw [State.Lacks, Fits, h.length]
  omega

theorem Holds.unqueue (h : Holds s (pre ++ x :: post)) : Holds (s.unqueue x) (pre ++ post) := by
  have hlength := h.length
  have hsize := h.size
  have hdepth := h.depth
  have hlimit := h.limit
  simp only [length_append, length_cons, bytes_append, bytes_cons, maxQueueDepth,
    maxQueueSizeBytes] at hlength hsize hdepth hlimit
  refine ⟨(Dlist.nodeRemove_spec h.chain).chain, ?_, ?_, ?_, ?_⟩
  · have hint : s.length - 1 = ((pre ++ post).length : Nat) := by
      rw [length_append]
      omega
    simp only [State.unqueue, hint]
    exact toInt_of_lt (by rw [length_append]; omega)
  · have hint : s.size - (s.items x).size = (bytes s.items (pre ++ post) : Nat) := by
      rw [bytes_append]
      omega
    simp only [State.unqueue, hint]
    exact toInt_of_lt (by rw [bytes_append]; omega)
  · rw [length_append, maxQueueDepth]
    omega
  · simp only [State.unqueue, bytes_append, maxQueueSizeBytes]
    omega

theorem Holds.enqueue (h : Holds s xs) (hx : x ∉ xs) (hfits : Fits s.items xs (s.items x).size) :
    Holds (s.enqueue x) (xs ++ [x]) := by
  have hlength := h.length
  have hsize := h.size
  obtain ⟨hdepth, hlimit⟩ := hfits
  simp only [maxQueueDepth, maxQueueSizeBytes] at hdepth hlimit
  refine ⟨(Dlist.insertTail_spec h.chain hx).chain, ?_, ?_, ?_, ?_⟩
  · have hint : s.length + 1 = ((xs ++ [x]).length : Nat) := by
      simp [hlength]
    simp only [State.enqueue, hint]
    exact toInt_of_lt (by simp; omega)
  · have hint : s.size + (s.items x).size = (bytes s.items (xs ++ [x]) : Nat) := by
      simp [hsize]
    simp only [State.enqueue, hint]
    exact toInt_of_lt (by simp; omega)
  · simp [maxQueueDepth]
    omega
  · simp [State.enqueue, maxQueueSizeBytes]
    omega

theorem Holds.dropHead (h : Holds s (x :: xs)) : s.dropHead.1 = s.unqueue x := by
  have hhead : s.queue.head = some x := h.chain.head
  simp [State.dropHead, hhead, State.remove]

theorem Holds.get_cons (h : Holds s (x :: xs)) : s.get = (s.unqueue x, some x) := by
  have hhead : s.queue.head = some x := h.chain.head
  simp [State.get, hhead]

theorem Holds.setItem (h : Holds s xs) (hx : x ∉ xs) (qi : Item) : Holds (s.setItem x qi) xs := by
  have hitems : ∀ y ∈ xs, (s.setItem x qi).items y = s.items y := by
    intro y hy
    exact update_of_ne (fun heq => hx (by rwa [heq] at hy)) _ _
  refine ⟨h.chain, h.length, ?_, h.depth, ?_⟩
  · rw [bytes_congr hitems]
    exact h.size
  · rw [bytes_congr hitems]
    exact h.limit

/-! ## Making room -/

/-- The loop drops the least number of items that makes the new one fit. -/
theorem Holds.makeRoomLoop {fuel : Nat} (h : Holds s xs) (hfuel : xs.length < fuel) {size : Nat}
    (hsize : size ≤ maxQueueSizeBytes) (res : Response) :
    ∃ k s', State.makeRoomLoop fuel s size res =
        some (s', { res with qdrop := res.qdrop + UInt32.ofNat k }) ∧
      Holds s' (xs.drop k) ∧ s'.items = s.items ∧ s'.log = s.log ∧
      IsLeast {k | Fits s.items (xs.drop k) size} k := by
  induction fuel generalizing s xs res with
  | zero => omega
  | succ fuel ih =>
    rw [State.makeRoomLoop]
    by_cases hfits : Fits s.items xs size
    · rw [if_neg (by rw [h.lacks_iff hsize]; exact not_not.mpr hfits)]
      refine ⟨0, s, ?_, h, rfl, rfl, hfits, fun k _ => Nat.zero_le k⟩
      simp
    rw [if_pos ((h.lacks_iff hsize).mpr hfits)]
    cases xs with
    | nil => exact absurd ⟨Nat.zero_lt_succ _, by simpa using hsize⟩ hfits
    | cons x xs =>
      have hrest : Holds (s.unqueue x) ([] ++ xs) := .unqueue h
      obtain ⟨k, s', hloop, hholds, hitems, hlog, hleast⟩ :=
        ih hrest (by simpa using hfuel) { res with qdrop := res.qdrop + 1 }
      refine ⟨k + 1, s', ?_, hholds, hitems, hlog, hleast.1, ?_⟩
      · rw [h.dropHead, hloop, UInt32.ofNat_add, UInt32.add_assoc, UInt32.add_comm 1]
        rfl
      · rintro (_ | j) hj
        · exact absurd hj hfits
        · exact Nat.succ_le_succ (hleast.2 hj)

/-- What `qm_queue_put` of an item that is not in the queue has to do. -/
structure PutSpec (s : State α Log) (xs : List α) (x : α) (res : Response)
    (r : State.Put α Log) : Prop where
  /-- An item that cannot fit leaves the queue as it is and stays with the caller. -/
  large : maxQueueSizeBytes < (s.items x).req.dataSize.toNat →
    r.ok = false ∧ r.taken = false ∧ r.res = ⟨.error, .queue, res.qdrop⟩ ∧
      r.state.queue = s.queue ∧ r.state.nodes = s.nodes ∧ r.state.length = s.length ∧
      r.state.size = s.size ∧ r.state.log = s.log ∧ ∀ y, y ≠ x → r.state.items y = s.items y
  /-- Any other item is added behind the newest items that leave room for it. -/
  small : (s.items x).req.dataSize.toNat ≤ maxQueueSizeBytes → ∃ k,
    IsLeast {k | Fits s.items (xs.drop k) (s.items x).req.dataSize.toNat} k ∧
      r.ok = true ∧ r.taken = true ∧
      r.res = { res with qdrop := res.qdrop + UInt32.ofNat k } ∧
      Holds r.state (xs.drop k ++ [x]) ∧ r.state.log = s.log ∧
      ∀ y, y ≠ x → r.state.items y = s.items y

theorem Holds.put (appendLog : Log → Item → Response → Log × Response) {fuel : Nat}
    (h : Holds s xs) (hfuel : maxQueueDepth < fuel) (hx : x ∉ xs)
    (hlog : (s.items x).req.dataType ≠ dataLog) (now : Nat) (res : Response) :
    ∃ r, s.put appendLog fuel x now res = some r ∧ PutSpec s xs x res r := by
  have hstamp : Holds (s.stamp x now) xs := h.setItem hx _
  have hitem : ((s.stamp x now).items x).size = (s.items x).req.dataSize.toNat := by
    simp [State.stamp, State.setItem]
  have hframe : ∀ y, y ≠ x → (s.stamp x now).items y = s.items y := fun y hy =>
    update_of_ne hy _ _
  have hfits : ∀ k size, Fits (s.stamp x now).items (xs.drop k) size ↔
      Fits s.items (xs.drop k) size := by
    intro k size
    have hbytes := bytes_congr (fun y (hy : y ∈ xs.drop k) =>
      hframe y (fun heq => hx (heq ▸ mem_of_mem_drop hy)))
    rw [Fits, Fits, hbytes]
  rw [State.put, if_neg hlog, State.appendItem, hitem]
  by_cases hsize : maxQueueSizeBytes < (s.items x).req.dataSize.toNat
  · rw [State.makeRoom, if_pos hsize]
    refine ⟨⟨false, false, s.stamp x now, ⟨.error, .queue, res.qdrop⟩⟩, rfl, ?_, ?_⟩
    · intro _
      exact ⟨rfl, rfl, rfl, rfl, rfl, rfl, rfl, rfl, hframe⟩
    · intro hle
      omega
  obtain ⟨k, s', hloop, hholds, hitems, hlog', hleast⟩ :=
    hstamp.makeRoomLoop (h.depth.trans_lt hfuel) (Nat.not_lt.mp hsize) res
  simp only [hfits] at hleast
  rw [State.makeRoom, if_neg hsize, hloop]
  refine ⟨⟨true, true, s'.enqueue x, _⟩, rfl, ?_, ?_⟩
  · intro hlt
    exact absurd hlt hsize
  intro _
  refine ⟨k, hleast, rfl, rfl, rfl, hholds.enqueue ?_ ?_, hlog', ?_⟩
  · exact fun hmem => hx (mem_of_mem_drop hmem)
  · rw [hitems, hitem, hfits]
    exact hleast.1
  · intro y hy
    exact (congrFun hitems y).trans (hframe y hy)

/-! ## Runs -/

/-- A call of the interface.  For a put the caller has written the item before. -/
inductive Op (α : Type) where
  | put (x : α) (qi : Item) (now : Nat) (res : Response)
  | get
  | dropHead
  | remove (x : α)

/-- The items that were put into the queue and those that came out by `qm_queue_get`. -/
structure Hist (α : Type) where
  put : List (α × Item)
  got : List (α × Item)

/-- A new item is not in the queue and no log message, and an item to be removed is in the queue. -/
def Op.Ok (s : State α Log) : Op α → Prop
  | .put x qi _ _ => qi.req.dataType ≠ dataLog ∧ ∀ xs, Dlist.Chain s.nodes s.queue xs → x ∉ xs
  | .remove x => ∀ xs, Dlist.Chain s.nodes s.queue xs → x ∈ xs
  | .get => True
  | .dropHead => True

section

variable (appendLog : Log → Item → Response → Log × Response) (fuel : Nat)

def step (s : State α Log) (h : Hist α) : Op α → Option (State α Log × Hist α)
  | .put x qi now res =>
    ((s.setItem x qi).put appendLog fuel x now res).map (fun r =>
      (r.state, if r.taken then { h with put := h.put ++ [(x, r.state.items x)] } else h))
  | .get =>
    match s.get with
    | (s', none) => some (s', h)
    | (s', some x) => some (s', { h with got := h.got ++ [(x, s.items x)] })
  | .dropHead => some (s.dropHead.1, h)
  | .remove x => some ((s.remove (some x)).1, h)

def run (s : State α Log) (h : Hist α) : List (Op α) → Option (State α Log × Hist α)
  | [] => some (s, h)
  | op :: ops => (step appendLog fuel s h op).bind (fun r => run r.1 r.2 ops)

/-- The calls are used as they are meant. -/
def Legal (s : State α Log) (h : Hist α) : List (Op α) → Prop
  | [] => True
  | op :: ops => op.Ok s ∧ ∀ s' h', step appendLog fuel s h op = some (s', h') → Legal s' h' ops

end

/-- The queue at the start of the program. -/
def State.start (items : α → Item) (nodes : Dlist.Heap α) (log : Log) : State α Log :=
  ⟨items, nodes, Dlist.init, 0, 0, log⟩

/-- The items in the queue with their contents. -/
def entries (s : State α Log) (xs : List α) : List (α × Item) := xs.map (fun x => (x, s.items x))

omit [DecidableEq α] in
theorem entries_congr {s s' : State α Log} {xs : List α} (h : ∀ x ∈ xs, s'.items x = s.items x) :
    entries s' xs = entries s xs :=
  map_congr_left (fun x hx => by rw [h x hx])

/-- The queue is in order, and what came out and what is in it was put in this order. -/
structure Good (s : State α Log) (h : Hist α) (xs : List α) : Prop where
  holds : Holds s xs
  order : (h.got ++ entries s xs).Sublist h.put

variable {appendLog : Log → Item → Response → Log × Response} {fuel : Nat} {h : Hist α}

theorem Good.unqueue (hg : Good s h (pre ++ x :: post)) : Good (s.unqueue x) h (pre ++ post) := by
  refine ⟨hg.holds.unqueue, .trans ?_ hg.order⟩
  refine List.Sublist.append_left ?_ _
  exact .map _ (List.Sublist.append_left (sublist_cons_self x post) pre)

theorem Good.get (appendLog : Log → Item → Response → Log × Response) (fuel : Nat)
    (hg : Good s h xs) :
    ∃ h', step appendLog fuel s h .get = some (s.get.1, h') ∧ s.get.2 = xs.head? ∧
      Good s.get.1 h' xs.tail := by
  cases xs with
  | nil =>
    have hhead : s.queue.head = none := hg.holds.chain.head
    have hget : s.get = (s, none) := by simp [State.get, hhead]
    refine ⟨h, ?_, ?_, ?_⟩
    · simp [step, hget]
    · rw [hget]
      rfl
    · rw [hget]
      exact hg
  | cons x xs =>
    have hget := hg.holds.get_cons
    refine ⟨{ h with got := h.got ++ [(x, s.items x)] }, ?_, ?_, ?_, ?_⟩
    · simp [step, hget]
    · rw [hget]
      rfl
    · rw [hget]
      have hrest : Holds (s.unqueue x) ([] ++ xs) := .unqueue hg.holds
      exact hrest
    · rw [hget, append_assoc]
      exact hg.order

theorem Good.put (hg : Good s h xs) (hfuel : maxQueueDepth < fuel) {qi : Item}
    (hx : x ∉ xs) (hlog : qi.req.dataType ≠ dataLog) (now : Nat) (res : Response) :
    ∃ s' h' ys, step appendLog fuel s h (.put x qi now res) = some (s', h') ∧ Good s' h' ys := by
  have hset : Holds (s.setItem x qi) xs := hg.holds.setItem hx qi
  have hitem : (s.setItem x qi).items x = qi := update_self _ _ _
  have hframe : ∀ y, y ≠ x → (s.setItem x qi).items y = s.items y := fun y hy =>
    update_of_ne hy _ _
  obtain ⟨r, hput, hspec⟩ := hset.put appendLog hfuel hx (by rwa [hitem]) now res
  rcases Nat.lt_or_ge maxQueueSizeBytes ((s.setItem x qi).items x).req.dataSize.toNat
    with hlarge | hsmall
  · obtain ⟨-, htaken, -, hqueue, hnodes, hlength, hsize, -, hitems⟩ := hspec.large hlarge
    have hsame : ∀ y ∈ xs, r.state.items y = s.items y := fun y hy =>
      have hne : y ≠ x := fun heq => hx (heq ▸ hy)
      (hitems y hne).trans (hframe y hne)
    refine ⟨r.state, h, xs, ?_, ⟨?_, ?_, ?_, hg.holds.depth, ?_⟩, ?_⟩
    · simp [step, hput, htaken]
    · rw [hqueue, hnodes]
      exact hg.holds.chain
    · rw [hlength]
      exact hg.holds.length
    · rw [hsize, bytes_congr hsame]
      exact hg.holds.size
    · rw [bytes_congr hsame]
      exact hg.holds.limit
    · rw [entries_congr hsame]
      exact hg.order
  · obtain ⟨k, -, -, htaken, -, hholds, -, hitems⟩ := hspec.small hsmall
    have hsame : ∀ y ∈ xs.drop k, r.state.items y = s.items y := fun y hy =>
      have hne : y ≠ x := fun heq => hx (heq ▸ mem_of_mem_drop hy)
      (hitems y hne).trans (hframe y hne)
    refine ⟨r.state, { h with put := h.put ++ [(x, r.state.items x)] }, xs.drop k ++ [x], ?_,
      hholds, ?_⟩
    · simp [step, hput, htaken]
    have hentries : entries r.state (xs.drop k ++ [x]) =
        entries s (xs.drop k) ++ [(x, r.state.items x)] := by
      rw [← entries_congr hsame]
      simp [entries]
    rw [hentries, ← append_assoc]
    refine List.Sublist.append_right (.trans ?_ hg.order) _
    exact List.Sublist.append_left (.map _ (drop_sublist k xs)) _

theorem Good.step (appendLog : Log → Item → Response → Log × Response) (hg : Good s h xs)
    (hfuel : maxQueueDepth < fuel) {op : Op α} (hok : op.Ok s) :
    ∃ s' h' ys, step appendLog fuel s h op = some (s', h') ∧ Good s' h' ys := by
  cases op with
  | put x qi now res => exact hg.put hfuel (hok.2 xs hg.holds.chain) hok.1 now res
  | get =>
    obtain ⟨h', hstep, -, hg'⟩ := hg.get appendLog fuel
    exact ⟨_, h', _, hstep, hg'⟩
  | dropHead =>
    cases xs with
    | nil =>
      have hhead : s.queue.head = none := hg.holds.chain.head
      exact ⟨s, h, [], by simp [Qm.step, State.dropHead, hhead], hg⟩
    | cons x xs =>
      have hrest : Good (s.unqueue x) h ([] ++ xs) := .unqueue hg
      exact ⟨s.unqueue x, h, xs, by rw [Qm.step, hg.holds.dropHead], hrest⟩
  | remove x =>
    obtain ⟨pre, post, rfl⟩ := append_of_mem (hok xs hg.holds.chain)
    exact ⟨s.unqueue x, h, pre ++ post, rfl, hg.unqueue⟩

theorem Good.run (hg : Good s h xs) (hfuel : maxQueueDepth < fuel) {ops : List (Op α)}
    (hlegal : Legal appendLog fuel s h ops) :
    ∃ s' h' ys, run appendLog fuel s h ops = some (s', h') ∧ Good s' h' ys := by
  induction ops generalizing s h xs with
  | nil => exact ⟨s, h, xs, rfl, hg⟩
  | cons op ops ih =>
    obtain ⟨s1, h1, ys1, hstep, hg1⟩ := hg.step appendLog hfuel hlegal.1
    obtain ⟨s', h', ys, hrun, hg'⟩ := ih hg1 (hlegal.2 s1 h1 hstep)
    refine ⟨s', h', ys, ?_, hg'⟩
    rw [Qm.run, hstep]
    exact hrun

/-- After the calls the counters are right and within the limits, the items that came out and are
left were put in this order, and a further put drops as few items as it can. -/
def BoundedFifo (appendLog : Log → Item → Response → Log × Response) (fuel : Nat)
    (s₀ : State α Log) (ops : List (Op α)) : Prop :=
  ∃ s h xs, run appendLog fuel s₀ ⟨[], []⟩ ops = some (s, h) ∧
    Holds s xs ∧ (h.got ++ entries s xs).Sublist h.put ∧
    (s.get.2 = xs.head? ∧ Holds s.get.1 xs.tail) ∧
    ∀ x qi now res, x ∉ xs → qi.req.dataType ≠ dataLog →
      ∃ r, (s.setItem x qi).put appendLog fuel x now res = some r ∧
        PutSpec (s.setItem x qi) xs x res r

/-- The queue is a bounded first-in first-out queue for every sequence of calls.  The loop
that makes room ends within a fixed number of rounds. -/
theorem run_boundedFifo (appendLog : Log → Item → Response → Log × Response) {fuel : Nat}
    (hfuel : maxQueueDepth < fuel) (items : α → Item) (nodes : Dlist.Heap α) (log : Log)
    {ops : List (Op α)}
    (hlegal : Legal appendLog fuel (State.start items nodes log) ⟨[], []⟩ ops) :
    BoundedFifo appendLog fuel (State.start items nodes log) ops := by
  obtain ⟨s, h, xs, hrun, hg⟩ := Good.run (h := ⟨[], []⟩)
    ⟨⟨Dlist.chain_init, rfl, rfl, Nat.zero_le _, Nat.zero_le _⟩, .refl _⟩ hfuel hlegal
  obtain ⟨h', -, hhead, hget⟩ := hg.get appendLog fuel
  refine ⟨s, h, xs, hrun, hg.holds, hg.order, ⟨hhead, hget.holds⟩, ?_⟩
  intro x qi now res hx hlog
  refine (hg.holds.setItem hx qi).put appendLog hfuel hx ?_ now res
  simpa [State.setItem] using hlog

section

/-- An item of half the size of the queue. -/
def halfQueue : Item :=
  ⟨⟨fun _ => 0, 2, 1, 2, 0, fun _ => 0, 0, 0, 0, 1, 0, 0, 0x100000, 0⟩, none, 0, none, 0⟩

/-- A queue without a log buffer. -/
def emptyQueue : State Nat Unit :=
  State.start (fun _ => halfQueue) (fun _ => ⟨none, none⟩) ()

/-- Two items fill the queue, and the third one drops the first one. -/
def putsGet : List (Op Nat) :=
  [.put 0 halfQueue 7 ⟨.received, .none, 0⟩, .put 1 halfQueue 8 ⟨.received, .none, 0⟩,
    .put 2 halfQueue 9 ⟨.received, .none, 0⟩, .get]

theorem run_boundedFifo_putsGet :
    Legal (fun l _ r => (l, r)) 201 emptyQueue ⟨[], []⟩ putsGet ∧
      BoundedFifo (fun l _ r => (l, r)) 201 emptyQueue putsGet ∧
      (run (fun l _ r => (l, r)) 201 emptyQueue ⟨[], []⟩ putsGet).map
          (fun r => (r.1.queue.head, r.1.length, r.2.got.map Prod.fst)) =
        some (some 2, 1, [1]) := by
  have hfree : ∀ (ops : List (Op Nat)) {s : State Nat Unit} {h : Hist Nat}
      {x : Nat}, run (fun l _ r => (l, r)) 201 emptyQueue ⟨[], []⟩ ops = some (s, h) →
      (run (fun l _ r => (l, r)) 201 emptyQueue ⟨[], []⟩ ops).map
        (fun r => (decide (r.1.queue.head = some x), (r.1.nodes x).prev)) = some (false, none) →
      ∀ xs, Dlist.Chain s.nodes s.queue xs → x ∉ xs := by
    intro ops s h x hrun hlast xs hchain
    rw [hrun] at hlast
    simp only [Option.map_some, Option.some.injEq, Prod.mk.injEq, decide_eq_false_iff_not] at hlast
    exact hchain.not_mem hlast.2 hlast.1
  have hlegal : Legal (fun l _ r => (l, r)) 201 emptyQueue ⟨[], []⟩ putsGet := by
    refine ⟨⟨by decide, hfree [] rfl (by decide +kernel)⟩, fun s1 h1 hs1 => ?_⟩
    have hrun1 : run (fun l _ r => (l, r)) 201 emptyQueue ⟨[], []⟩ (putsGet.take 1) =
        some (s1, h1) := by
      simp [putsGet, run, hs1]
    refine ⟨⟨by decide, hfree _ hrun1 (by decide +kernel)⟩, fun s2 h2 hs2 => ?_⟩
    have hrun2 : run (fun l _ r => (l, r)) 201 emptyQueue ⟨[], []⟩ (putsGet.take 2) =
        some (s2, h2) := by
      simp [putsGet, run, hs1, hs2]
    exact ⟨⟨by decide, hfree _ hrun2 (by decide +kernel)⟩,
      fun _ _ _ => ⟨trivial, fun _ _ _ => trivial⟩⟩
  exact ⟨hlegal, run_boundedFifo _ (by decide) _ _ _ hlegal, by decide +kernel⟩

end

end OpenSync.Qm
