import Mathlib.Algebra.Order.Ring.Int
import Mathlib.Data.List.Nodup

/-!
# The broadcast queue of `rts_mpmc.c`

Every message is a node of one linked list, and each handle reads the list from the node it
registered at.  A node counts the handles that have left it.  The handle that brings the count
to its own idea of the number of consumers frees the node.  That idea comes from the control
nodes that handles push when they register and when they leave.

An allocation takes the next unused number.  A load or a store of a freed node is `none`, and so
is a second `free`.  The `free` of the stub does nothing in the source; here it sets the flag as
well.  `NDEBUG` is defined for this library, so `rts_assert` is not modelled.
-/

namespace OpenSync.Rts

open Function List Option

/-- The types of nodes.  A message has the type of the stub. -/
inductive NodeType where
  | stub
  | init
  | exit
deriving DecidableEq

/-- `struct rts_mpmc_node`, with the field `consumer` of `struct rts_mpmc_ctrl_node`. -/
structure Node where
  type : NodeType
  refcount : UInt32
  next : Option Nat
  consumer : UInt32
  freed : Bool
deriving DecidableEq

/-- `struct rts_mpmc` and the memory of the nodes. -/
structure Mpmc where
  nodes : Nat → Node
  fresh : Nat
  tail : Nat
  consumer : UInt32

/-- `struct rts_mpmc_handle`. -/
structure Handle where
  head : Nat
  exit : Nat
  consumer : UInt32

/-- A node as `rts_mpmc_ctrl_create` or `rts_msg_schedule` fills it. -/
def Node.mk' (type : NodeType) (consumer : UInt32) : Node :=
  ⟨type, 0, none, consumer, false⟩

/-- `if (h->head->type == t) h->consumer = ctrl->consumer`, for the node `x` at the head. -/
def Handle.count (h : Handle) (x : Node) (t : NodeType) : Handle :=
  { h with consumer := if x.type = t then x.consumer else h.consumer }

/-- A node after one more release, by a handle with the count `consumer`. -/
def Node.release (x : Node) (consumer : UInt32) : Node :=
  { x with refcount := x.refcount + 1, freed := decide (x.refcount + 1 = consumer) }

/-- A write of the field `next`. -/
def Node.link (x : Node) (next : Option Nat) : Node := { x with next := next }

namespace Mpmc

/-- `rts_mpmc_init`. -/
def start : Mpmc :=
  { nodes := fun _ => Node.mk' .stub 0, fresh := 1, tail := 0, consumer := 0 }

def load (q : Mpmc) (n : Nat) : Option Node :=
  if (q.nodes n).freed then none else some (q.nodes n)

def store (q : Mpmc) (n : Nat) (x : Node) : Option Mpmc :=
  if (q.nodes n).freed then none else some { q with nodes := update q.nodes n x }

def alloc (q : Mpmc) (x : Node) : Mpmc :=
  { q with nodes := update q.nodes q.fresh x, fresh := q.fresh + 1 }

/-- `rts_mpmc_ctrl_create`. -/
def ctrlCreate (q : Mpmc) (type : NodeType) (consumer : UInt32) : Mpmc × Nat :=
  (q.alloc (.mk' type consumer), q.fresh)

/-- `rts_mpmc_release` by a handle with the count `consumer`. -/
def release (q : Mpmc) (consumer : UInt32) (node : Nat) : Option Mpmc := do
  let x ← q.load node
  q.store node (x.release consumer)

/-- `rts_mpmc_push`, with the old tail. -/
def push (q : Mpmc) (node : Nat) : Option (Mpmc × Nat) := do
  let x ← q.load node
  let q ← q.store node (x.link none)
  let tail := q.tail
  let q := { q with tail := node }
  let y ← q.load tail
  let q ← q.store tail (y.link (some node))
  some (q, tail)

/-- `rts_msg_schedule`: a new message, with its name. -/
def schedule (q : Mpmc) : Option (Mpmc × Nat) := do
  let node := q.fresh
  let (q, _) ← (q.alloc (.mk' .stub 0)).push node
  some (q, node)

/-- The body of the loops of `rts_mpmc_read` and `rts_mpmc_handle_exit`: the handle moves
from its head to `next`. -/
def advance (q : Mpmc) (h : Handle) (next : Nat) : Option (Mpmc × Handle) := do
  let node := h.head
  let x ← q.load next
  let h := ({ h with head := next } : Handle).count x .init
  let q ← q.release h.consumer node
  let x ← q.load next
  some (q, h.count x .exit)

/-- The loop of `rts_mpmc_read`. -/
def readLoop (q : Mpmc) (h : Handle) : Nat → Option (Mpmc × Handle × Option Nat)
  | 0 => none
  | fuel + 1 => do
    let x ← q.load h.head
    match x.next with
    | none => some (q, h, none)
    | some next =>
      let (q, h) ← q.advance h next
      let x ← q.load next
      if x.type = .exit ∨ x.type = .init then readLoop q h fuel else some (q, h, some next)

/-- `rts_mpmc_read`.  There are fewer than `fresh + 1` nodes to go through. -/
def read (q : Mpmc) (h : Handle) : Option (Mpmc × Handle × Option Nat) :=
  q.readLoop h (q.fresh + 1)

/-- `rts_mpmc_handle_init`, when its allocations succeed. -/
def handleInit (q : Mpmc) : Option (Mpmc × Handle) := do
  let q := { q with consumer := q.consumer + 1 }
  let (q, init) := q.ctrlCreate .init q.consumer
  let (q, exit) := q.ctrlCreate .exit 0
  let (q, head) ← q.push init
  some (q, { head, exit, consumer := 0 })

/-- The loop of `rts_mpmc_handle_exit`. -/
def exitLoop (q : Mpmc) (h : Handle) : Nat → Option (Mpmc × Handle)
  | 0 => none
  | fuel + 1 => do
    let x ← q.load h.head
    match x.next with
    | none => exitLoop q h fuel
    | some next =>
      if next = h.exit then some (q, h)
      else
        let (q, h) ← q.advance h next
        exitLoop q h fuel

/-- `rts_mpmc_handle_exit`. -/
def handleExit (q : Mpmc) (h : Handle) : Option (Mpmc × Handle) := do
  let x ← q.load h.exit
  let q ← q.store h.exit { x with consumer := q.consumer - 1 }
  let (q, _) ← q.push h.exit
  let q := { q with consumer := q.consumer - 1 }
  let (q, h) ← q.exitLoop h (q.fresh + 1)
  let q ← q.release h.consumer h.head
  some (q, h)

/-! ## Memory -/

variable {q : Mpmc} {n : Nat}

section

variable (hn : (q.nodes n).freed = false)

include hn

theorem load_eq : q.load n = some (q.nodes n) := by
  simp [load, hn]

theorem store_eq (x : Node) :
    q.store n x = some { q with nodes := update q.nodes n x } := by
  simp [store, hn]

theorem release_eq (c : UInt32) : q.release c n =
      some { q with nodes := update q.nodes n ((q.nodes n).release c) } := by
  simp [release, load_eq hn, store_eq hn]

/-- The nodes after `rts_mpmc_push`. -/
def linked (q : Mpmc) (n : Nat) : Nat → Node :=
  update (update q.nodes n ((q.nodes n).link none)) q.tail
    ((q.nodes q.tail).link (some n))

end

theorem linked_tail (q : Mpmc) (n : Nat) : q.linked n q.tail = (q.nodes q.tail).link (some n) := by
  simp [linked]

theorem linked_self (hne : q.tail ≠ n) : q.linked n n = (q.nodes n).link none := by
  simp [linked, hne.symm]

theorem linked_of_ne {m : Nat} (hm : m ≠ n) (ht : m ≠ q.tail) : q.linked n m = q.nodes m := by
  simp [linked, hm, ht]

section

variable (q : Mpmc) (n m : Nat)

theorem linked_eq_link : ∃ next, q.linked n m = (q.nodes m).link next := by
  by_cases ht : m = q.tail
  · exact ⟨_, ht ▸ linked_tail q n⟩
  by_cases hm : m = n
  · subst hm
    exact ⟨none, linked_self (Ne.symm ht)⟩
  · exact ⟨(q.nodes m).next, linked_of_ne hm ht⟩

@[simp] theorem linked_type : (q.linked n m).type = (q.nodes m).type := by
  obtain ⟨next, h⟩ := linked_eq_link q n m
  simp [h, Node.link]

@[simp] theorem linked_refcount : (q.linked n m).refcount = (q.nodes m).refcount := by
  obtain ⟨next, h⟩ := linked_eq_link q n m
  simp [h, Node.link]

@[simp] theorem linked_consumer : (q.linked n m).consumer = (q.nodes m).consumer := by
  obtain ⟨next, h⟩ := linked_eq_link q n m
  simp [h, Node.link]

@[simp] theorem linked_freed : (q.linked n m).freed = (q.nodes m).freed := by
  obtain ⟨next, h⟩ := linked_eq_link q n m
  simp [h, Node.link]

end

end Mpmc

/-! ## The list of all nodes ever pushed

Nothing in the source holds this list.  Its entries carry the number of consumers
after the node, which only the control nodes store. -/

/-- A node of the list, with the number of consumers after it. -/
structure Entry where
  name : Nat
  type : NodeType
  count : Nat

/-- The number of releases that free `e` when `x` comes after it. -/
def Entry.need (e x : Entry) : Nat := if x.type = .init then x.count else e.count

/-- The nodes of the queue make up `chain`, and `cnt i` handles have not left the first
`i + 1` entries. -/
structure Nodes (q : Mpmc) (chain : List Entry) (cnt : Nat → Nat) : Prop where
  nonempty : chain ≠ []
  nodup : (chain.map Entry.name).Nodup
  type_eq : ∀ {i : Nat} {e : Entry}, chain[i]? = some e → (q.nodes e.name).type = e.type
  consumer_eq : ∀ {i : Nat} {e : Entry}, chain[i]? = some e → e.type ≠ .stub →
    (q.nodes e.name).consumer = .ofNat e.count
  next_eq : ∀ {i : Nat} {e : Entry}, chain[i]? = some e →
    (q.nodes e.name).next = (chain[i + 1]?).map Entry.name
  same : ∀ {i : Nat} {e x : Entry}, chain[i]? = some e → chain[i + 1]? = some x → x.type = .stub →
    x.count = e.count
  last : ∀ {i : Nat} {e : Entry}, chain[i]? = some e → chain[i + 1]? = none →
    q.tail = e.name ∧ (q.nodes e.name).refcount = 0 ∧ (q.nodes e.name).freed = false
  refs : ∀ {i : Nat} {e x : Entry}, chain[i]? = some e → chain[i + 1]? = some x →
    ∃ r, (q.nodes e.name).refcount = .ofNat r ∧ r + cnt i = e.need x
  freed : ∀ {i : Nat} {e x : Entry}, chain[i]? = some e → chain[i + 1]? = some x →
    ((q.nodes e.name).freed = true ↔ cnt i = 0)

/-- No count is beyond the values of `unsigned`.  A count of `2 ^ 32` is stored as zero, and only
the release that completes it reaches that. -/
def Fits (chain : List Entry) : Prop := ∀ e ∈ chain, e.count ≤ 2 ^ 32

/-- The messages of a part of the list. -/
def messages (chain : List Entry) : List Nat :=
  (chain.filter (fun e => e.type = .stub)).map Entry.name

/-- `h` stands at the entry `p`, and it knows the number of consumers unless the next entry
tells it. -/
structure Holder (chain : List Entry) (h : Handle) (p : Nat) (e : Entry) : Prop where
  at_pos : chain[p]? = some e
  head_eq : h.head = e.name
  consumer_eq : (∀ x, chain[p + 1]? = some x → x.type ≠ .init) → h.consumer = .ofNat e.count

/-- A walk over the list leaves the nodes outside it as they are. -/
structure Frame (chain : List Entry) (q q' : Mpmc) : Prop where
  fresh_eq : q'.fresh = q.fresh
  consumer_eq : q'.consumer = q.consumer
  nodes_eq : ∀ n ∉ chain.map Entry.name, q'.nodes n = q.nodes n

theorem Frame.refl (chain : List Entry) (q : Mpmc) : Frame chain q q := ⟨rfl, rfl, fun _ _ => rfl⟩

variable {chain : List Entry}

theorem Frame.trans {q q' q'' : Mpmc} (h : Frame chain q q') (h' : Frame chain q' q'') :
    Frame chain q q'' :=
  ⟨h'.fresh_eq.trans h.fresh_eq, h'.consumer_eq.trans h.consumer_eq,
    fun n hn => (h'.nodes_eq n hn).trans (h.nodes_eq n hn)⟩

/-- The handles that have not left an entry: those that `base` counts, and one at `p`. -/
def holding (base : Nat → Nat) (p : Nat) (i : Nat) : Nat := base i + if p ≤ i then 1 else 0

namespace Nodes

variable {q : Mpmc} {chain : List Entry} {cnt : Nat → Nat}

section

variable (hq : Nodes q chain cnt)

include hq

variable {i : Nat} {e x : Entry}

theorem name_inj {j : Nat} (hi : chain[i]? = some e) (hj : chain[j]? = some x)
    (h : e.name = x.name) : i = j := by
  have hi' : (chain.map Entry.name)[i]? = some e.name := by simp [hi]
  have hj' : (chain.map Entry.name)[j]? = some e.name := by simp [hj, h]
  have hlt : i < (chain.map Entry.name).length := (List.getElem?_eq_some_iff.mp hi').1
  exact (getElem?_inj hlt hq.nodup).mp (hi'.trans hj'.symm)

/-- A node that is not behind every handle is not freed. -/
theorem not_freed (hi : chain[i]? = some e) (hc : 0 < cnt i) : (q.nodes e.name).freed = false := by
  cases hx : chain[i + 1]? with
  | none => exact (hq.last hi hx).2.2
  | some x =>
    have := hq.freed hi hx
    simpa [Nat.pos_iff_ne_zero.mp hc] using this

theorem congr {q' : Mpmc} (hn : ∀ n ∈ chain.map Entry.name, q'.nodes n = q.nodes n)
    (ht : q'.tail = q.tail) : Nodes q' chain cnt := by
  have hmem : ∀ {i : Nat} {e : Entry}, chain[i]? = some e → q'.nodes e.name = q.nodes e.name :=
    fun h => hn _ (mem_map_of_mem (mem_of_getElem? h))
  refine ⟨hq.nonempty, hq.nodup, ?_, ?_, ?_, hq.same, ?_, ?_, ?_⟩
  · intro i e h
    rw [hmem h]
    exact hq.type_eq h
  · intro i e h
    rw [hmem h]
    exact hq.consumer_eq h
  · intro i e h
    rw [hmem h]
    exact hq.next_eq h
  · intro i e h
    rw [hmem h, ht]
    exact hq.last h
  · intro i e x h
    rw [hmem h]
    exact hq.refs h
  · intro i e x h
    rw [hmem h]
    exact hq.freed h

omit hq in
theorem getElem?_concat (h : (chain ++ [x])[i]? = some e) :
    chain[i]? = some e ∨ i = chain.length ∧ e = x := by
  rcases Nat.lt_trichotomy i chain.length with hi | hi | hi
  · exact .inl (by rwa [getElem?_append_left hi] at h)
  · subst hi
    exact .inr ⟨rfl, by simpa using h.symm⟩
  · rw [getElem?_eq_none (by simpa using Nat.succ_le_of_lt hi)] at h
    cases h

theorem append (cnt' : Nat → Nat) {n : Nat} {t : NodeType} {c : Nat}
    (he : chain[chain.length - 1]? = some e) (hn : n ∉ chain.map Entry.name)
    (hf : (q.nodes n).freed = false) (hr : (q.nodes n).refcount = 0) (ht : (q.nodes n).type = t)
    (hc : t ≠ .stub → (q.nodes n).consumer = .ofNat c) (hsame : t = .stub → c = e.count)
    (hcnt : ∀ i, i + 1 < chain.length → cnt' i = cnt i)
    (hneed : cnt' (chain.length - 1) = e.need ⟨n, t, c⟩) (hpos : 0 < cnt' (chain.length - 1)) :
    ∃ q', q.push n = some (q', e.name) ∧ Nodes q' (chain ++ [⟨n, t, c⟩]) cnt' ∧
      q'.fresh = q.fresh ∧ q'.consumer = q.consumer ∧
      ∀ m ∉ chain.map Entry.name, m ≠ n → q'.nodes m = q.nodes m := by
  have hlen : 0 < chain.length := length_pos_iff.mpr hq.nonempty
  have hend : chain[chain.length - 1 + 1]? = none := by
    rw [Nat.sub_add_cancel hlen]
    exact getElem?_eq_none le_rfl
  obtain ⟨htail, hr0, hf0⟩ := hq.last he hend
  have hmem : ∀ {i : Nat} {x : Entry}, chain[i]? = some x → x.name ≠ n := by
    rintro i x hi rfl
    exact hn (mem_map_of_mem (mem_of_getElem? hi))
  have hne : q.tail ≠ n := htail ▸ hmem he
  -- an old entry is the last one or has its old successor
  have hsucc : ∀ {i : Nat} {x : Entry}, chain[i]? = some x →
      i = chain.length - 1 ∧ x = e ∧ (chain ++ [⟨n, t, c⟩])[i + 1]? = some ⟨n, t, c⟩ ∨
      i + 1 < chain.length ∧ x.name ≠ q.tail ∧ (chain ++ [⟨n, t, c⟩])[i + 1]? = chain[i + 1]? := by
    intro i x hi
    have hlt : i < chain.length := (List.getElem?_eq_some_iff.mp hi).1
    by_cases hl : i = chain.length - 1
    · subst hl
      refine .inl ⟨rfl, some.inj (hi.symm.trans he), ?_⟩
      rw [Nat.sub_add_cancel hlen]
      simp
    · have hlt' : i + 1 < chain.length := by omega
      refine .inr ⟨hlt', fun h => hl (hq.name_inj hi he (h.trans htail)), ?_⟩
      exact getElem?_append_left hlt'
  have hpush : q.push n = some ({ q with nodes := q.linked n, tail := n }, q.tail) := by
    simp [Mpmc.push, Mpmc.load, Mpmc.store, Mpmc.linked, hne, hf, htail ▸ hf0]
  rw [htail] at hpush
  refine ⟨{ q with nodes := q.linked n, tail := n }, hpush, ?_, rfl, rfl, ?_⟩
  · refine ⟨by simp, ?_, ?_, ?_, ?_, ?_, ?_, ?_, ?_⟩
    · rw [map_append, nodup_append]
      refine ⟨hq.nodup, by simp, ?_⟩
      rintro a ha b hb rfl
      obtain rfl : a = n := mem_singleton.mp hb
      exact hn ha
    · intro i x h
      rcases getElem?_concat h with hi | ⟨rfl, rfl⟩
      · simpa using hq.type_eq hi
      · simpa using ht
    · intro i x h
      rcases getElem?_concat h with hi | ⟨rfl, rfl⟩
      · simpa using hq.consumer_eq hi
      · simpa using hc
    · intro i x h
      rcases getElem?_concat h with hi | ⟨rfl, rfl⟩
      · rcases hsucc hi with ⟨-, rfl, hs⟩ | ⟨-, hxt, hs⟩
        · rw [hs, ← htail]
          simp [Mpmc.linked_tail, Node.link]
        · rw [hs, ← hq.next_eq hi]
          simp [Mpmc.linked_of_ne (hmem hi) hxt]
      · simp [Mpmc.linked_self hne, Node.link]
    · intro i x y h hy
      rcases getElem?_concat h with hi | ⟨rfl, rfl⟩
      · rcases hsucc hi with ⟨-, rfl, hs⟩ | ⟨-, -, hs⟩
        · obtain rfl := some.inj (hy.symm.trans hs)
          exact hsame
        · exact hq.same hi (hs ▸ hy)
      · simp at hy
    · intro i x h hy
      rcases getElem?_concat h with hi | ⟨rfl, rfl⟩
      · rcases hsucc hi with ⟨-, rfl, hs⟩ | ⟨hlt, -, hs⟩
        · simp [hs] at hy
        · simp [hs, hlt] at hy
      · exact ⟨rfl, by simpa using hr, by simpa using hf⟩
    · intro i x y h hy
      rcases getElem?_concat h with hi | ⟨rfl, rfl⟩
      · rcases hsucc hi with ⟨rfl, rfl, hs⟩ | ⟨hlt, -, hs⟩
        · obtain rfl := some.inj (hy.symm.trans hs)
          exact ⟨0, by simpa using hr0, by rw [hneed, zero_add]⟩
        · rw [hcnt i hlt]
          simpa using hq.refs hi (hs ▸ hy)
      · simp at hy
    · intro i x y h hy
      rcases getElem?_concat h with hi | ⟨rfl, rfl⟩
      · rcases hsucc hi with ⟨rfl, rfl, hs⟩ | ⟨hlt, -, hs⟩
        · simp [hf0, Nat.pos_iff_ne_zero.mp hpos]
        · rw [hcnt i hlt]
          simpa using hq.freed hi (hs ▸ hy)
      · simp at hy
  · intro m hm hmn
    refine Mpmc.linked_of_ne hmn ?_
    rintro rfl
    exact hm (htail ▸ mem_map_of_mem (mem_of_getElem? he))

/-- A release of the entry `p` by a handle that knows its number of consumers. -/
theorem release (hfit : Fits chain) (cnt' : Nat → Nat) {p : Nat} {c : UInt32}
    (he : chain[p]? = some e) (hx : chain[p + 1]? = some x) (hc : c = .ofNat (e.need x))
    (hp : cnt' p + 1 = cnt p) (hcnt : ∀ i, i ≠ p → i + 1 < chain.length → cnt' i = cnt i) :
    ∃ q', q.release c e.name = some q' ∧ Nodes q' chain cnt' ∧ Frame chain q q' := by
  have hf : (q.nodes e.name).freed = false := hq.not_freed he (by omega)
  obtain ⟨r, hr, hneed⟩ := hq.refs he hx
  have hle : e.need x ≤ 2 ^ 32 := by
    unfold Entry.need
    split
    · exact hfit x (mem_of_getElem? hx)
    · exact hfit e (mem_of_getElem? he)
  -- the release that completes the count is the only one that meets it
  have hlast : (q.nodes e.name).refcount + 1 = c ↔ cnt' p = 0 := by
    rw [hr, hc, ← UInt32.toNat_inj, UInt32.toNat_add, UInt32.toNat_ofNat', UInt32.toNat_ofNat',
      UInt32.toNat_one]
    omega
  have hnode : ∀ {i : Nat} {y : Entry}, chain[i]? = some y → i ≠ p →
      update q.nodes e.name ((q.nodes e.name).release c) y.name = q.nodes y.name :=
    fun hi hne => update_of_ne (fun h => hne (hq.name_inj hi he h)) _ _
  have hsub : ∀ {i : Nat} {y : Entry}, chain[i]? = some y → i = p → y = e := by
    rintro i y hi rfl
    exact some.inj (hi.symm.trans he)
  have hkeep : ∀ m, (update q.nodes e.name ((q.nodes e.name).release c) m).type = (q.nodes m).type ∧
      (update q.nodes e.name ((q.nodes e.name).release c) m).consumer = (q.nodes m).consumer ∧
      (update q.nodes e.name ((q.nodes e.name).release c) m).next = (q.nodes m).next := by
    intro m
    by_cases hm : m = e.name
    · subst hm
      simp [Node.release]
    · simp [hm]
  refine ⟨_, Mpmc.release_eq hf c, ?_, rfl, rfl, fun m hm => update_of_ne ?_ _ _⟩
  swap
  · rintro rfl
    exact hm (mem_map_of_mem (mem_of_getElem? he))
  refine ⟨hq.nonempty, hq.nodup, ?_, ?_, ?_, hq.same, ?_, ?_, ?_⟩
  · intro i y hi
    rw [(hkeep y.name).1]
    exact hq.type_eq hi
  · intro i y hi
    rw [(hkeep y.name).2.1]
    exact hq.consumer_eq hi
  · intro i y hi
    rw [(hkeep y.name).2.2]
    exact hq.next_eq hi
  · intro i y hi hend
    have hip : i ≠ p := by
      rintro rfl
      simp [hx] at hend
    simpa [hnode hi hip] using hq.last hi hend
  · intro i y z hi hz
    by_cases hip : i = p
    · obtain rfl := hsub hi hip
      subst hip
      obtain rfl := some.inj (hz.symm.trans hx)
      refine ⟨r + 1, ?_, by omega⟩
      simp [Node.release, hr, UInt32.ofNat_add]
    · rw [hcnt i hip (List.getElem?_eq_some_iff.mp hz).1]
      simpa [hnode hi hip] using hq.refs hi hz
  · intro i y z hi hz
    by_cases hip : i = p
    · obtain rfl := hsub hi hip
      subst hip
      simpa [Node.release] using hlast
    · rw [hcnt i hip (List.getElem?_eq_some_iff.mp hz).1]
      simpa [hnode hi hip] using hq.freed hi hz

end

end Nodes

/-! ## Walking the list -/

theorem messages_drop {p : Nat} {x : Entry} (hx : chain[p]? = some x) :
    messages (chain.drop p) =
      (if x.type = .stub then [x.name] else []) ++ messages (chain.drop (p + 1)) := by
  obtain ⟨hp, rfl⟩ := List.getElem?_eq_some_iff.mp hx
  rw [drop_eq_getElem_cons hp]
  generalize chain[p] = x
  by_cases ht : x.type = .stub <;> simp [messages, ht]

section Walk

variable {q : Mpmc} {chain : List Entry} {base : Nat → Nat} {h : Handle} {p : Nat} {e : Entry}

theorem holding_pos {i : Nat} (hi : p ≤ i) : 0 < holding base p i := by
  simp [holding, hi]

theorem Holder.load_head (hh : Holder chain h p e) (hq : Nodes q chain (holding base p)) :
    q.load h.head = some (q.nodes e.name) := by
  rw [hh.head_eq]
  exact Mpmc.load_eq (hq.not_freed hh.at_pos (holding_pos (Nat.le_refl p)))

attribute [local simp] Entry.need

/-- The handle learns the number of consumers before it releases its old head if the new one is
`RTS_MPMC_INIT`, and after it for `RTS_MPMC_EXIT`. -/
theorem advance_spec (hq : Nodes q chain (holding base p)) (hfit : Fits chain)
    (hh : Holder chain h p e) {x : Entry} (hx : chain[p + 1]? = some x) :
    ∃ q' h', q.advance h x.name = some (q', h') ∧ Nodes q' chain (holding base (p + 1)) ∧
      Holder chain h' (p + 1) x ∧ h'.exit = h.exit ∧ Frame chain q q' := by
  have hload : q.load x.name = some (q.nodes x.name) :=
    Mpmc.load_eq (hq.not_freed hx (holding_pos (Nat.le_succ p)))
  have hcons : (({ h with head := x.name } : Handle).count (q.nodes x.name) .init).consumer =
      .ofNat (e.need x) := by
    by_cases ht : x.type = .init
    · simp [Handle.count, hq.type_eq hx, ht, hq.consumer_eq hx]
    have hnot : ∀ y, chain[p + 1]? = some y → y.type ≠ .init := by
      intro y hy
      obtain rfl := some.inj (hx.symm.trans hy)
      exact ht
    simp [Handle.count, hq.type_eq hx, ht, hh.consumer_eq hnot]
  obtain ⟨q', hrel, hq', hframe⟩ := hq.release hfit (holding base (p + 1)) hh.at_pos hx hcons
    (by simp [holding])
    (fun i hi _ => by unfold holding; congr 1; split_ifs <;> omega)
  have hload' : q'.load x.name = some (q'.nodes x.name) :=
    Mpmc.load_eq (hq'.not_freed hx (holding_pos le_rfl))
  refine ⟨q', (({ h with head := x.name } : Handle).count (q.nodes x.name) .init).count
    (q'.nodes x.name) .exit, ?_, hq', ⟨hx, rfl, fun _ => ?_⟩, rfl, hframe⟩
  · simp [Mpmc.advance, hload, hh.head_eq, hrel, hload']
  show ite _ _ _ = _
  rw [hcons, hq'.type_eq hx]
  cases ht : x.type with
  | stub => simp [hq.same hh.at_pos hx ht]
  | init => simp [ht]
  | exit => simp [hq'.consumer_eq hx, ht]

section

variable (hfit : Fits chain) (fuel : Nat) (hfuel : chain.length ≤ p + fuel) (hq : Nodes q chain
  (holding base p))

include hfit hfuel hq

/-- A read returns the first message after the position of the handle. -/
theorem readLoop_spec (hh : Holder chain h p e) :
    ∃ q' h' r p' e', q.readLoop h fuel = some (q', h', r) ∧
      Nodes q' chain (holding base p') ∧ Holder chain h' p' e' ∧ h'.exit = h.exit ∧
      Frame chain q q' ∧
      messages (chain.drop (p + 1)) = r.toList ++ messages (chain.drop (p' + 1)) ∧
      (r = none → messages (chain.drop (p + 1)) = []) := by
  induction fuel generalizing q h p e with
  | zero =>
    have := (List.getElem?_eq_some_iff.mp hh.at_pos).1
    omega
  | succ fuel ih =>
    rw [Mpmc.readLoop, hh.load_head hq, bind_eq_bind, bind_some, hq.next_eq hh.at_pos]
    cases hx : chain[p + 1]? with
    | none =>
      have hdrop : chain.drop (p + 1) = [] := by simpa using hx
      exact ⟨q, h, none, p, e, rfl, hq, hh, rfl, .refl chain q, by simp, by simp [hdrop, messages]⟩
    | some x =>
      obtain ⟨q1, h1, hadv, hq1, hh1, hexit, hframe⟩ := advance_spec hq hfit hh hx
      have hload1 : q1.load x.name = some (q1.nodes x.name) :=
        Mpmc.load_eq (hq1.not_freed hx (holding_pos le_rfl))
      simp only [map_some, hadv, bind_eq_bind, bind_some, hload1, hq1.type_eq hx, messages_drop hx]
      by_cases ht : x.type = .stub
      · refine ⟨q1, h1, some x.name, p + 1, x, ?_, hq1, hh1, hexit, hframe, ?_, ?_⟩ <;> simp [ht]
      -- a control node, which the loop skips
      have hctrl : x.type = .exit ∨ x.type = .init := by
        cases htt : x.type <;> simp_all
      obtain ⟨q', h', r, p', e', hread, hq', hh', hexit', hframe', hmsg, hnone⟩ :=
        ih (p := p + 1) (by omega) hq1 hh1
      rw [if_pos hctrl]
      exact ⟨q', h', r, p', e', hread, hq', hh', hexit'.trans hexit, hframe.trans hframe',
        by simpa [ht] using hmsg, by simpa [ht] using hnone⟩

omit hfit hfuel hq in
/-- The loop of `rts_mpmc_handle_exit` ends in front of the node that the handle pushed. -/
theorem exitLoop_spec (hfit : Fits chain) {fuel : Nat} (hfuel : chain.length ≤ p + fuel)
    (hq : Nodes q chain (holding base p)) (hh : Holder chain h p e) {last : Nat} {x : Entry}
    (hx : chain[last + 1]? = some x) (hexit : x.name = h.exit) (hp : p ≤ last) :
    ∃ q' h' e', q.exitLoop h fuel = some (q', h') ∧ Nodes q' chain (holding base last) ∧
      Holder chain h' last e' ∧ Frame chain q q' := by
  induction fuel generalizing q h p e with
  | zero =>
    have := (List.getElem?_eq_some_iff.mp hh.at_pos).1
    omega
  | succ fuel ih =>
    have hlt : p + 1 < chain.length := by
      have := (List.getElem?_eq_some_iff.mp hx).1
      omega
    obtain ⟨y, hy⟩ : ∃ y, chain[p + 1]? = some y := ⟨_, getElem?_eq_getElem hlt⟩
    rw [Mpmc.exitLoop, hh.load_head hq, bind_eq_bind, bind_some, hq.next_eq hh.at_pos, hy]
    by_cases hpl : p = last
    · subst hpl
      obtain rfl := some.inj (hy.symm.trans hx)
      exact ⟨q, h, e, by simp [hexit], hq, hh, .refl chain q⟩
    have hne : y.name ≠ h.exit := by
      intro hyn
      have := hq.name_inj hy hx (hyn.trans hexit.symm)
      omega
    obtain ⟨q1, h1, hadv, hq1, hh1, hexit1, hframe⟩ := advance_spec hq hfit hh hy
    obtain ⟨q', h', e', hloop, hq', hh', hframe'⟩ :=
      ih (p := p + 1) (by omega) hq1 hh1 (hexit.trans hexit1.symm) (by omega)
    refine ⟨q', h', e', ?_, hq', hh', hframe.trans hframe'⟩
    simp [hne, hadv, hloop]

/-- A handle that leaves lets go of every node in front of its control node, the last one. -/
theorem leave_spec (hh : Holder chain h p e) (last : Nat) {x : Entry}
    (hx : chain[last + 1]? = some x) (htype : x.type = .exit) (hexit : x.name = h.exit)
    (hlast : chain.length = last + 2) (hp : p ≤ last) :
    ∃ q1 h1 q', q.exitLoop h fuel = some (q1, h1) ∧ q1.release h1.consumer h1.head = some q' ∧
      Nodes q' chain base ∧ Frame chain q q' := by
  obtain ⟨q1, h1, e1, hloop, hq1, hh1, hframe⟩ := exitLoop_spec hfit hfuel hq hh hx hexit hp
  have hcons : h1.consumer = .ofNat (e1.need x) := by
    have hnot : ∀ y, chain[last + 1]? = some y → y.type ≠ .init := by
      intro y hy
      obtain rfl := some.inj (hx.symm.trans hy)
      simp [htype]
    simp [hh1.consumer_eq hnot, htype]
  obtain ⟨q', hrel, hq', hframe'⟩ := hq1.release hfit base hh1.at_pos hx hcons (by simp [holding])
    (fun i hi hlt => by rw [holding, if_neg (by omega), add_zero])
  exact ⟨q1, h1, q', hloop, hh1.head_eq ▸ hrel, hq', hframe.trans hframe'⟩

end

end Walk

end OpenSync.Rts
