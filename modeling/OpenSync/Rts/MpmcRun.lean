import OpenSync.Rts.Mpmc
import Mathlib.Data.List.Perm.Subperm

/-!
# Runs of the broadcast queue

Handles register, read and leave, and messages are pushed, each call in one step.  `Broadcast` says
what the queue is for: a handle reads the messages pushed since it registered, no node ahead of a
handle is freed, and without handles only the tail is left.

The counts are `unsigned`.  They tell the last handle of a node from the others as long as no more
than `2 ^ 32` handles are registered at once.
-/

namespace OpenSync.Rts

open Function List Mpmc Nat

variable {H : Type}

/-! ## Runs -/

/-- A call of the queue, by the handles named by `H`. -/
inductive Op (H : Type) where
  | push
  | read (h : H)
  | init (h : H)
  | exit (h : H)

/-- What a caller sees of a call. -/
inductive Event (H : Type) where
  | pushed (n : Nat)
  | read (h : H) (r : Option Nat)
  | init (h : H)
  | exit (h : H)

/-- The queue and its handles. -/
structure State (H : Type) where
  q : Mpmc
  handles : H → Handle

namespace State

def start : State H := { q := .start, handles := fun _ => { head := 0, exit := 0, consumer := 0 } }

def step [DecidableEq H] (s : State H) : Op H → Option (State H × Event H)
  | .push => do
    let (q, n) ← s.q.schedule
    some ({ s with q }, .pushed n)
  | .read h => do
    let (q, x, r) ← s.q.read (s.handles h)
    some ({ q, handles := update s.handles h x }, .read h r)
  | .init h => do
    let (q, x) ← s.q.handleInit
    some ({ q, handles := update s.handles h x }, .init h)
  | .exit h => do
    let (q, x) ← s.q.handleExit (s.handles h)
    some ({ q, handles := update s.handles h x }, .exit h)

def run [DecidableEq H] (s : State H) : List (Op H) → Option (State H × List (Event H))
  | [] => some (s, [])
  | op :: ops => do
    let (s, ev) ← s.step op
    let (s, tr) ← s.run ops
    some (s, ev :: tr)

end State

/-- The registered handles after a call. -/
def after [DecidableEq H] (live : List H) : Op H → List H
  | .push => live
  | .read _ => live
  | .init h => h :: live
  | .exit h => live.erase h

/-- Messages are pushed while a handle is registered, and registered handles read and
leave. -/
def Allowed (live : List H) : Op H → Prop
  | .push => live ≠ []
  | .read h => h ∈ live
  | .init h => h ∉ live
  | .exit h => h ∈ live

/-- Every call is allowed when its turn comes. -/
def Legal [DecidableEq H] : List H → List (Op H) → Prop
  | _, [] => True
  | live, op :: ops => Allowed live op ∧ Legal (after live op) ops

/-- The largest number of handles that are registered at once. -/
def peak [DecidableEq H] : List H → List (Op H) → Nat
  | live, [] => live.length
  | live, op :: ops => max live.length (peak (after live op) ops)

/-- The messages pushed since `h` registered, after one more event. -/
def sentStep [DecidableEq H] (h : H) (l : List Nat) : Event H → List Nat
  | .pushed n => l ++ [n]
  | .init h' => if h' = h then [] else l
  | _ => l

/-- The messages pushed since `h` registered. -/
def sent [DecidableEq H] (h : H) (tr : List (Event H)) : List Nat := tr.foldl (sentStep h) []

/-- The messages that `h` has read since it registered, after one more event. -/
def gotStep [DecidableEq H] (h : H) (l : List Nat) : Event H → List Nat
  | .read h' r => if h' = h then l ++ r.toList else l
  | .init h' => if h' = h then [] else l
  | _ => l

/-- The messages that `h` has read since it registered. -/
def got [DecidableEq H] (h : H) (tr : List (Event H)) : List Nat := tr.foldl (gotStep h) []

/-- Every read returns the message after those that its handle has read already. -/
def InOrder [DecidableEq H] (tr : List (Event H)) : Prop :=
  ∀ pre h r post, tr = pre ++ Event.read h r :: post →
    got h pre <+: sent h pre ∧ r = (sent h pre)[(got h pre).length]?

/-- `n` is at the node `m` or behind it in the list. -/
def Mpmc.Reaches (q : Mpmc) : Nat → Nat → Prop :=
  Relation.ReflTransGen (fun m n => (q.nodes m).next = some n)

/-- The queue after a run with the events `tr`, with the registered handles `live`. -/
structure Broadcast [DecidableEq H] (s : State H) (live : List H) (tr : List (Event H)) : Prop where
  order : InOrder tr
  held : ∀ h ∈ live, ∀ n, s.q.Reaches (s.handles h).head n → (s.q.nodes n).freed = false
  drained : live = [] → ∀ n < s.q.fresh, n ≠ s.q.tail → (s.q.nodes n).freed = true

/-! ## The invariant -/

/-- The number of handles that have not left the first `i + 1` entries. -/
def holders (live : List H) (pos : H → Nat) (i : Nat) : Nat :=
  live.countP (fun h => decide (pos h ≤ i))

/-- A node that waits for its handle to leave. -/
def Waiting (q : Mpmc) (chain : List Entry) (n : Nat) : Prop :=
  n ∉ chain.map Entry.name ∧ (q.nodes n).type = .exit ∧ (q.nodes n).refcount = 0 ∧
    (q.nodes n).freed = false

/-- The nodes make up `chain`, and the handle `h` stands at the entry `pos h`. -/
structure Inv (s : State H) (live : List H) (chain : List Entry) (pos : H → Nat) : Prop where
  nodup : live.Nodup
  nodes : Nodes s.q chain (holders live pos)
  holder : ∀ h ∈ live, ∃ e, Holder chain (s.handles h) (pos h) e
  waiting : ∀ h ∈ live, Waiting s.q chain (s.handles h).exit
  exit_inj : ∀ h ∈ live, ∀ h' ∈ live, (s.handles h).exit = (s.handles h').exit → h = h'
  names : ∀ n, n < s.q.fresh ↔ n ∈ chain.map Entry.name ∨ ∃ h ∈ live, (s.handles h).exit = n
  consumer : s.q.consumer = .ofNat live.length
  last : ∀ e, chain[chain.length - 1]? = some e → e.count = live.length

variable {live : List H} {pos : H → Nat} {chain : List Entry}

theorem holders_eq_length {i : Nat} (h : ∀ x ∈ live, pos x ≤ i) :
    holders live pos i = live.length := by
  unfold holders
  simpa using h

variable {h : H}

theorem holders_pos (hh : h ∈ live) {i : Nat} (hi : pos h ≤ i) : 0 < holders live pos i :=
  countP_pos_iff.mpr ⟨h, hh, by simpa using hi⟩

theorem holders_update [DecidableEq H] (pos : H → Nat) (hh : h ∉ live) (p : Nat) :
    holders live (update pos h p) = holders live pos := by
  funext i
  refine countP_congr fun x hx => ?_
  have hne : x ≠ h := by
    rintro rfl
    exact hh hx
  rw [update_of_ne hne]

theorem holders_erase [DecidableEq H] (hnd : live.Nodup) (hh : h ∈ live) (pos : H → Nat) (p : Nat) :
    holders live (update pos h p) = holding (holders (live.erase h) pos) p := by
  funext i
  have hperm : live.Perm (h :: live.erase h) := perm_cons_erase hh
  have hnot : h ∉ live.erase h := fun hm => (hnd.mem_erase_iff.mp hm).1 rfl
  calc holders live (update pos h p) i
      = holders (h :: live.erase h) (update pos h p) i := hperm.countP_eq _
    _ = holders (live.erase h) (update pos h p) i + if p ≤ i then 1 else 0 := by
      simp [holders, countP_cons]
    _ = holding (holders (live.erase h) pos) p i := by
      rw [holders_update pos hnot, holding]

theorem Holder.append {h : Handle} {p : Nat} {e : Entry} (hh : Holder chain h p e) (x : Entry) :
    Holder (chain ++ [x]) h p e := by
  have hmono : ∀ {i : Nat} {y : Entry}, chain[i]? = some y → (chain ++ [x])[i]? = some y :=
    fun hi => (List.getElem?_append_left (List.getElem?_eq_some_iff.mp hi).1).trans hi
  exact ⟨hmono hh.at_pos, hh.head_eq, fun hn => hh.consumer_eq fun y hy => hn y (hmono hy)⟩

namespace Inv

variable {s : State H} {live : List H} {chain : List Entry} {pos : H → Nat}

section

variable (hs : Inv s live chain pos)

include hs

theorem pos_lt {h : H} (hh : h ∈ live) : pos h < chain.length := by
  obtain ⟨e, he⟩ := hs.holder h hh
  exact (List.getElem?_eq_some_iff.mp he.at_pos).1

theorem fresh_notMem {n : Nat} (hn : s.q.fresh ≤ n) : n ∉ chain.map Entry.name := by
  intro hm
  have := (hs.names n).mpr (.inl hm)
  omega

theorem length_le : chain.length ≤ s.q.fresh := by
  have hsub : chain.map Entry.name ⊆ range s.q.fresh := by
    intro n hn
    exact mem_range.mpr ((hs.names n).mpr (.inl hn))
  simpa using (hs.nodes.nodup.subperm hsub).length_le

theorem exists_last : ∃ e, chain[chain.length - 1]? = some e ∧ e.count = live.length := by
  have hlt : chain.length - 1 < chain.length :=
    Nat.sub_lt (length_pos_iff.mpr hs.nodes.nonempty) Nat.one_pos
  exact ⟨_, getElem?_eq_getElem hlt, hs.last _ (getElem?_eq_getElem hlt)⟩

theorem holders_last : holders live pos (chain.length - 1) = live.length :=
  holders_eq_length fun _ hx => le_sub_one_of_lt (hs.pos_lt hx)

theorem exit_lt {h : H} (hh : h ∈ live) : (s.handles h).exit < s.q.fresh :=
  (hs.names _).mpr (.inr ⟨h, hh, rfl⟩)

end

end Inv

theorem Fits.concat (hfit : Fits chain) {x : Entry} (hx : x.count ≤ 2 ^ 32) :
    Fits (chain ++ [x]) := by
  intro e he
  rcases mem_append.mp he with he | he
  · exact hfit e he
  · obtain rfl := mem_singleton.mp he
    exact hx

theorem Waiting.append {q q' : Mpmc} {n : Nat} (hn : Waiting q chain n) {x : Entry}
    (hx : n ≠ x.name) (hq : q'.nodes n = q.nodes n) : Waiting q' (chain ++ [x]) n := by
  refine ⟨?_, ?_⟩
  · simpa [hx] using hn.1
  · rw [hq]
    exact hn.2

theorem inv_start : Inv (State.start : State H) [] [⟨0, .stub, 0⟩] (fun _ => 0) := by
  have hone : ∀ {i : Nat} {e : Entry}, [(⟨0, .stub, 0⟩ : Entry)][i]? = some e →
      i = 0 ∧ e = ⟨0, .stub, 0⟩ := by
    intro i e h
    obtain ⟨hi, rfl⟩ := List.getElem?_eq_some_iff.mp h
    obtain rfl : i = 0 := by simpa using hi
    exact ⟨rfl, rfl⟩
  refine ⟨.nil, ⟨by simp, by simp, ?_, ?_, ?_, ?_, ?_, ?_, ?_⟩, by simp, by simp, by simp, ?_,
    rfl, ?_⟩
  · intro i e h
    obtain ⟨-, rfl⟩ := hone h
    rfl
  · intro i e h hne
    obtain ⟨-, rfl⟩ := hone h
    exact absurd rfl hne
  · intro i e h
    rfl
  · intro i e x _ hx
    simp at hx
  · intro i e h _
    obtain ⟨-, rfl⟩ := hone h
    exact ⟨rfl, rfl, rfl⟩
  · intro i e x _ hx
    simp at hx
  · intro i e x _ hx
    simp at hx
  · intro n
    simp [State.start, start]
  · intro e h
    obtain ⟨-, rfl⟩ := hone h
    rfl

/-! ## One call -/

section Calls

variable {s : State H} {live : List H} {chain : List Entry} {pos : H → Nat}

section

variable (hs : Inv s live chain pos)

include hs

theorem push_spec (hl : live ≠ []) : ∃ q, s.q.schedule = some (q, s.q.fresh) ∧
      Inv { s with q } live (chain ++ [⟨s.q.fresh, .stub, live.length⟩]) pos := by
  obtain ⟨e, he, hcount⟩ := hs.exists_last
  have hfresh : s.q.fresh ∉ chain.map Entry.name := hs.fresh_notMem le_rfl
  have hold : ∀ n, n ≠ s.q.fresh → (s.q.alloc (.mk' .stub 0)).nodes n = s.q.nodes n :=
    fun n hn => update_of_ne hn _ _
  have hnodes : Nodes (s.q.alloc (.mk' .stub 0)) chain (holders live pos) :=
    hs.nodes.congr (fun n hn => hold n (fun h => hfresh (h ▸ hn))) rfl
  have hself : (s.q.alloc (.mk' .stub 0)).nodes s.q.fresh = .mk' .stub 0 := by simp [alloc]
  obtain ⟨q, hpush, hq, hqf, hqc, hqn⟩ := hnodes.append (holders live pos) (n := s.q.fresh)
    (t := .stub) (c := live.length) he hfresh (congrArg Node.freed hself)
    (congrArg Node.refcount hself) (congrArg Node.type hself) (by simp) (fun _ => hcount.symm)
    (fun _ _ => rfl) (by simp [hs.holders_last, Entry.need, hcount])
    (by simpa [hs.holders_last] using length_pos_iff.mpr hl)
  have hexit : ∀ h ∈ live, (s.handles h).exit ≠ s.q.fresh := fun h hh =>
    Nat.ne_of_lt (hs.exit_lt hh)
  refine ⟨q, by simp [schedule, hpush], hs.nodup, hq, ?_, ?_, hs.exit_inj, ?_, ?_, ?_⟩
  · intro h hh
    obtain ⟨e', he'⟩ := hs.holder h hh
    exact ⟨e', he'.append _⟩
  · intro h hh
    have hw := hs.waiting h hh
    exact hw.append (hexit h hh) ((hqn _ hw.1 (hexit h hh)).trans (hold _ (hexit h hh)))
  · intro n
    have := hs.names n
    simp only [hqf, alloc, map_append, mem_append, map_cons, map_nil, mem_singleton]
    rw [Nat.lt_succ_iff_lt_or_eq, this]
    exact or_right_comm
  · exact hqc.trans hs.consumer
  · intro e' he'
    simp at he'
    simp [← he']

variable {h : H}

/-- A read moves its handle over the first message that the handle has not read. -/
theorem read_spec [DecidableEq H] (hfit : Fits chain) (hh : h ∈ live) :
    ∃ q x r p, s.q.read (s.handles h) = some (q, x, r) ∧
      Inv ⟨q, update s.handles h x⟩ live chain (update pos h p) ∧
      messages (chain.drop (pos h + 1)) = r.toList ++ messages (chain.drop (p + 1)) ∧
      (r = none → messages (chain.drop (pos h + 1)) = []) := by
  obtain ⟨e, he⟩ := hs.holder h hh
  have hnodes : Nodes s.q chain (holding (holders (live.erase h) pos) (pos h)) := by
    rw [← holders_erase hs.nodup hh, update_eq_self]
    exact hs.nodes
  obtain ⟨q, x, r, p, e', hread, hq, hx, hexit, hframe, hmsg, hnone⟩ :=
    readLoop_spec hfit (s.q.fresh + 1) (by have := hs.length_le; omega) hnodes he
  have hexits : ∀ h', (update s.handles h x h').exit = (s.handles h').exit := by
    intro h'
    by_cases hne : h' = h
    · subst hne
      simpa using hexit
    · simp [hne]
  refine ⟨q, x, r, p, hread, ⟨hs.nodup, ?_, ?_, ?_, ?_, ?_, ?_, hs.last⟩, hmsg, hnone⟩
  · rw [holders_erase hs.nodup hh]
    exact hq
  · intro h' hh'
    by_cases hne : h' = h
    · subst hne
      exact ⟨e', by simpa using hx⟩
    · simpa [hne] using hs.holder h' hh'
  · intro h' hh'
    have hw := hs.waiting h' hh'
    simp only [Waiting, hexits, hframe.nodes_eq _ hw.1]
    exact hw
  · intro a ha b hb
    simpa [hexits] using hs.exit_inj a ha b hb
  · intro n
    simpa [hexits, hframe.fresh_eq] using hs.names n
  · exact hframe.consumer_eq.trans hs.consumer

/-- The queue when `rts_mpmc_handle_init` has made its two control nodes. -/
def Mpmc.opened (q : Mpmc) : Mpmc :=
  ({ q with consumer := q.consumer + 1 }.alloc (.mk' .init (q.consumer + 1))).alloc (.mk' .exit 0)

/-- A new handle stands at the old tail, in front of its own control node. -/
theorem init_spec [DecidableEq H] (hh : h ∉ live) : ∃ q x, s.q.handleInit = some (q, x) ∧
      Inv ⟨q, update s.handles h x⟩ (h :: live)
        (chain ++ [⟨s.q.fresh, .init, live.length + 1⟩])
        (update pos h (chain.length - 1)) := by
  obtain ⟨e, he, hcount⟩ := hs.exists_last
  have hlen : 0 < chain.length := length_pos_iff.mpr hs.nodes.nonempty
  have hfresh : s.q.fresh ∉ chain.map Entry.name := hs.fresh_notMem le_rfl
  have hfresh' : s.q.fresh + 1 ∉ chain.map Entry.name := hs.fresh_notMem (Nat.le_succ _)
  have hold : ∀ n, n ≠ s.q.fresh → n ≠ s.q.fresh + 1 → s.q.opened.nodes n = s.q.nodes n := by
    intro n hn hn'
    simp [opened, alloc, hn, hn']
  have hinit : s.q.opened.nodes s.q.fresh = .mk' .init (s.q.consumer + 1) := by
    simp [opened, alloc]
  have hexit : s.q.opened.nodes (s.q.fresh + 1) = .mk' .exit 0 := by
    simp [opened, alloc]
  have hnodes : Nodes s.q.opened chain (holders live pos) :=
    hs.nodes.congr (fun n hn => hold n (fun h => hfresh (h ▸ hn)) (fun h => hfresh' (h ▸ hn))) rfl
  have hcnt : ∀ i, holders (h :: live) (update pos h (chain.length - 1)) i =
      holders live pos i + if chain.length - 1 ≤ i then 1 else 0 := by
    intro i
    rw [← holders_update pos hh (chain.length - 1)]
    simp [holders, countP_cons]
  have hcons : s.q.consumer + 1 = .ofNat (live.length + 1) := by
    rw [hs.consumer, UInt32.ofNat_add]
    rfl
  obtain ⟨q, hpush, hq, hqf, hqc, hqn⟩ := hnodes.append
    (holders (h :: live) (update pos h (chain.length - 1))) (n := s.q.fresh) (t := .init)
    (c := live.length + 1) he hfresh (congrArg Node.freed hinit) (congrArg Node.refcount hinit)
    (congrArg Node.type hinit) (fun _ => (congrArg Node.consumer hinit).trans hcons) (by simp)
    (fun i hi => by rw [hcnt, if_neg (by omega), add_zero])
    (by simp [hcnt, hs.holders_last, Entry.need])
    (by simp [hcnt])
  -- the nodes in which the old handles wait are none of the two new ones
  have hne : ∀ h' ∈ live, (s.handles h').exit ≠ s.q.fresh ∧ (s.handles h').exit ≠ s.q.fresh + 1 :=
    fun h' hh' => by have := hs.exit_lt hh'; omega
  have hother : ∀ h' ∈ live, h' ≠ h := by
    rintro h' hh' rfl
    exact hh hh'
  have hhead : Holder (chain ++ [⟨s.q.fresh, .init, live.length + 1⟩])
      ⟨e.name, s.q.fresh + 1, 0⟩ (chain.length - 1) e := by
    refine ⟨?_, rfl, fun hn => absurd rfl (hn ⟨s.q.fresh, .init, live.length + 1⟩ ?_)⟩
    · rw [getElem?_append_left (by omega)]
      exact he
    · rw [Nat.sub_add_cancel hlen]
      simp
  refine ⟨q, ⟨e.name, s.q.fresh + 1, 0⟩, ?_, ⟨hs.nodup.cons hh, hq, ?_, ?_, ?_, ?_, ?_, ?_⟩⟩
  · have : s.q.opened.push s.q.fresh = some (q, e.name) := hpush
    simp only [opened] at this
    simp [handleInit, ctrlCreate, this]
    rfl
  · intro h' hh'
    rcases mem_cons.mp hh' with rfl | hh'
    · exact ⟨e, by simpa using hhead⟩
    · obtain ⟨e', he'⟩ := hs.holder h' hh'
      exact ⟨e', by simpa [update_of_ne (hother h' hh')] using he'.append _⟩
  · intro h' hh'
    rcases mem_cons.mp hh' with rfl | hh'
    · have := hqn _ hfresh' (succ_ne_self _)
      simp [Waiting, this, hexit, Node.mk']
      simpa using hfresh'
    · have hw := hs.waiting h' hh'
      obtain ⟨h1, h2⟩ := hne h' hh'
      simpa [update_of_ne (hother h' hh')] using
        hw.append h1 ((hqn _ hw.1 h1).trans (hold _ h1 h2))
  · intro a ha b hb
    rcases mem_cons.mp ha with rfl | ha' <;> rcases mem_cons.mp hb with rfl | hb'
    · simp
    · simpa [update_of_ne (hother b hb')] using fun h => absurd h.symm (hne b hb').2
    · simpa [update_of_ne (hother a ha')] using fun h => absurd h (hne a ha').2
    · simpa [update_of_ne (hother a ha'), update_of_ne (hother b hb')] using
        hs.exit_inj a ha' b hb'
  · intro n
    have hexits : (∃ h' ∈ live, (update s.handles h ⟨e.name, s.q.fresh + 1, 0⟩ h').exit = n) ↔
        ∃ h' ∈ live, (s.handles h').exit = n :=
      exists_congr fun h' => and_congr_right fun hh' => by
        rw [update_of_ne (hother h' hh')]
    have hlt : n < s.q.fresh + 1 + 1 ↔ n < s.q.fresh ∨ n = s.q.fresh ∨ n = s.q.fresh + 1 := by omega
    simp only [hqf, opened, alloc, hlt, hs.names n]
    grind
  · rw [hqc]
    simpa [opened, alloc] using hcons
  · intro e' he'
    simp at he'
    simp [← he']

/-- A handle that leaves releases every node up to its own control node. -/
theorem exit_spec [DecidableEq H] (hfit : Fits chain) (hlen : live.length ≤ 2 ^ 32)
    (hh : h ∈ live) : ∃ q x, s.q.handleExit (s.handles h) = some (q, x) ∧
      Inv ⟨q, update s.handles h x⟩ (live.erase h)
        (chain ++ [⟨(s.handles h).exit, .exit, live.length - 1⟩]) pos := by
  obtain ⟨e, he, hcount⟩ := hs.exists_last
  obtain ⟨e0, he0⟩ := hs.holder h hh
  obtain ⟨hnot, htype, href, hfreed⟩ := hs.waiting h hh
  have hpos : 0 < live.length := length_pos_of_mem hh
  have hclen : 0 < chain.length := length_pos_iff.mpr hs.nodes.nonempty
  have hcons : s.q.consumer - 1 = .ofNat (live.length - 1) := by
    obtain ⟨k, hk⟩ : ∃ k, live.length = k + 1 := ⟨live.length - 1, by omega⟩
    rw [hs.consumer, hk]
    simp
  -- the control node gets its count and goes behind the tail
  have hstore := store_eq hfreed
    { s.q.nodes (s.handles h).exit with consumer := s.q.consumer - 1 }
  generalize hq1 : ({ s.q with nodes := _ } : Mpmc) = q1 at hstore
  have hself : q1.nodes (s.handles h).exit =
      { s.q.nodes (s.handles h).exit with consumer := s.q.consumer - 1 } := by
    simp [← hq1]
  have hold : ∀ n, n ≠ (s.handles h).exit → q1.nodes n = s.q.nodes n := by
    intro n hn
    simp [← hq1, hn]
  have hnodes1 : Nodes q1 chain (holders live pos) :=
    hs.nodes.congr (fun n hn => hold n (fun h => hnot (h ▸ hn))) (by rw [← hq1])
  obtain ⟨q2, hpush, hq2, hqf, hqc, hqn⟩ := hnodes1.append (holders live pos)
    (n := (s.handles h).exit) (t := .exit) (c := live.length - 1) he hnot (by simpa [hself])
    (by simpa [hself]) (by simpa [hself]) (fun _ => by simpa [hself] using hcons) (by simp)
    (fun _ _ => rfl) (by simp [hs.holders_last, Entry.need, hcount])
    (by simpa [hs.holders_last] using hpos)
  -- the walk, with the handle apart from the others
  have hq3 : Nodes { q2 with consumer := q2.consumer - 1 }
      (chain ++ [⟨(s.handles h).exit, .exit, live.length - 1⟩])
      (holding (holders (live.erase h) pos) (pos h)) := by
    rw [← holders_erase hs.nodup hh, update_eq_self]
    exact hq2.congr (fun _ _ => rfl) rfl
  have hfit' : Fits (chain ++ [⟨(s.handles h).exit, .exit, live.length - 1⟩]) :=
    hfit.concat (Nat.le_trans (Nat.sub_le _ _) hlen)
  have hfresh : q2.fresh = s.q.fresh := by rw [hqf, ← hq1]
  obtain ⟨q4, x, q, hloop, hrel, hq, hframe⟩ := leave_spec hfit' (q2.fresh + 1)
    (by have := hs.length_le; simp; omega) hq3 (he0.append _) (chain.length - 1)
    (x := ⟨(s.handles h).exit, .exit, live.length - 1⟩) (by rw [Nat.sub_add_cancel hclen]; simp)
    rfl rfl (by simp; omega) (Nat.le_sub_one_of_lt (hs.pos_lt hh))
  have hmem : ∀ h' ∈ live.erase h, h' ∈ live ∧ h' ≠ h := fun h' hh' =>
    ⟨mem_of_mem_erase hh', (hs.nodup.mem_erase_iff.mp hh').1⟩
  have hne : ∀ h' ∈ live.erase h, (s.handles h').exit ≠ (s.handles h).exit := fun h' hh' heq =>
    (hmem h' hh').2 (hs.exit_inj h' (hmem h' hh').1 h hh heq)
  have hlast : (live.erase h).length = live.length - 1 := length_erase_of_mem hh
  refine ⟨q, x, ?_, ⟨hs.nodup.erase h, hq, ?_, ?_, ?_, ?_, ?_, ?_⟩⟩
  · simp [handleExit, load_eq hfreed, hstore, hpush, hloop, hrel]
  · intro h' hh'
    obtain ⟨e', he'⟩ := hs.holder h' (hmem h' hh').1
    exact ⟨e', by simpa [update_of_ne (hmem h' hh').2] using he'.append _⟩
  · intro h' hh'
    have hw := hs.waiting h' (hmem h' hh').1
    have hkeep : q2.nodes (s.handles h').exit = s.q.nodes (s.handles h').exit :=
      (hqn _ hw.1 (hne h' hh')).trans (hold _ (hne h' hh'))
    have hw' := hw.append (x := ⟨(s.handles h).exit, .exit, live.length - 1⟩) (hne h' hh') hkeep
    simp only [update_of_ne (hmem h' hh').2]
    simp only [Waiting, hframe.nodes_eq _ hw'.1]
    exact hw'
  · intro a ha b hb
    simpa [update_of_ne (hmem a ha).2, update_of_ne (hmem b hb).2] using
      hs.exit_inj a (hmem a ha).1 b (hmem b hb).1
  · intro n
    have hexits : (∃ h' ∈ live.erase h, (update s.handles h x h').exit = n) ↔
        ∃ h' ∈ live.erase h, (s.handles h').exit = n :=
      exists_congr fun h' => and_congr_right fun hh' => by
        rw [update_of_ne (hmem h' hh').2]
    have hlive : (∃ h' ∈ live, (s.handles h').exit = n) ↔
        (s.handles h).exit = n ∨ ∃ h' ∈ live.erase h, (s.handles h').exit = n := by
      simp [(perm_cons_erase hh).mem_iff]
    simp [hframe.fresh_eq, hfresh, hs.names n, hexits, hlive, @eq_comm _ n (s.handles h).exit,
      or_assoc]
  · have hq₂c : q2.consumer = s.q.consumer := by rw [hqc, ← hq1]
    rw [hlast, hframe.consumer_eq]
    simpa [hq₂c] using hcons
  · intro e' he'
    simp at he'
    simp [← he', hlast]

end

end Calls

/-! ## Whole runs -/

/-- What each registered handle has still to read. -/
def Logged [DecidableEq H] (live : List H) (chain : List Entry) (pos : H → Nat)
    (tr : List (Event H)) : Prop :=
  InOrder tr ∧ ∀ h ∈ live, sent h tr = got h tr ++ messages (chain.drop (pos h + 1))

section Log

variable [DecidableEq H] {live : List H} {chain : List Entry} {pos : H → Nat}
  {tr : List (Event H)}

@[simp] theorem sent_concat (h : H) (tr : List (Event H)) (ev : Event H) :
    sent h (tr ++ [ev]) = sentStep h (sent h tr) ev := by
  simp [sent]

@[simp] theorem got_concat (h : H) (tr : List (Event H)) (ev : Event H) :
    got h (tr ++ [ev]) = gotStep h (got h tr) ev := by
  simp [got]

/-- Only the reads have to be looked at. -/
theorem InOrder.concat (htr : InOrder tr) {ev : Event H}
    (hev : ∀ h r, ev = .read h r → got h tr <+: sent h tr ∧ r = (sent h tr)[(got h tr).length]?) :
    InOrder (tr ++ [ev]) := by
  intro pre h r post heq
  rcases eq_nil_or_concat post with rfl | ⟨post', ev', rfl⟩
  · obtain ⟨rfl, hread⟩ := append_inj' heq rfl
    exact hev h r (by simpa using hread)
  · rw [concat_eq_append, ← cons_append, ← append_assoc] at heq
    exact htr pre h r post' (append_inj' heq rfl).1

theorem messages_concat {p : Nat} (hp : p < chain.length) (x : Entry) :
    messages ((chain ++ [x]).drop (p + 1)) =
      messages (chain.drop (p + 1)) ++ if x.type = .stub then [x.name] else [] := by
  rw [drop_append_of_le_length hp]
  by_cases ht : x.type = .stub <;> simp [messages, ht]

section

variable (hlog : Logged live chain pos tr)

include hlog

section

variable (hpos : ∀ h ∈ live, pos h < chain.length)

include hpos

attribute [local simp] sentStep gotStep

/-- A push adds the message to what every handle has still to read. -/
theorem Logged.push (n c : Nat)
    : Logged live (chain ++ [⟨n, .stub, c⟩]) pos (tr ++ [.pushed n]) := by
  refine ⟨hlog.1.concat (by simp), fun h hh => ?_⟩
  rw [messages_concat (hpos h hh), got_concat]
  simp [hlog.2 h hh]

omit hpos in
/-- A read takes the first message that its handle has still to read. -/
theorem Logged.read {h : H} (hh : h ∈ live) {r : Option Nat} {p : Nat}
    (hmsg : messages (chain.drop (pos h + 1)) = r.toList ++ messages (chain.drop (p + 1)))
    (hnone : r = none → messages (chain.drop (pos h + 1)) = []) :
    Logged live chain (update pos h p) (tr ++ [.read h r]) := by
  have hsent := hlog.2 h hh
  refine ⟨hlog.1.concat ?_, fun h' hh' => ?_⟩
  · rintro _ _ ⟨⟩
    refine ⟨hsent ▸ prefix_append _ _, ?_⟩
    cases r with
    | none => simp [hsent, hnone rfl]
    | some n => simp [hsent, hmsg]
  · by_cases hne : h' = h
    · subst hne
      simp [hsent, hmsg]
    · simp [Ne.symm hne, hne, hlog.2 h' hh']

theorem Logged.init (hlen : 0 < chain.length) (h : H) (hh : h ∉ live) (n c : Nat) :
    Logged (h :: live) (chain ++ [⟨n, .init, c⟩]) (update pos h (chain.length - 1))
      (tr ++ [.init h]) := by
  refine ⟨hlog.1.concat (by simp), fun h' hh' => ?_⟩
  by_cases hne : h' = h
  · subst hne
    have hdrop : chain.drop (chain.length - 1 + 1) = [] := by simp [Nat.sub_add_cancel hlen]
    rw [update_self, messages_concat (by omega), hdrop]
    simp [messages]
  · have hmem : h' ∈ live := (mem_cons.mp hh').resolve_left hne
    rw [update_of_ne hne, messages_concat (hpos h' hmem)]
    simp [Ne.symm hne, hlog.2 h' hmem]

theorem Logged.exit (h : H) (n c : Nat) :
    Logged (live.erase h) (chain ++ [⟨n, .exit, c⟩]) pos (tr ++ [.exit h]) := by
  refine ⟨hlog.1.concat (by simp), fun h' hh' => ?_⟩
  have hmem : h' ∈ live := mem_of_mem_erase hh'
  rw [messages_concat (hpos h' hmem)]
  simp [hlog.2 h' hmem]

end

end

end Log

section Run

variable [DecidableEq H] {s : State H} {live : List H} {chain : List Entry} {pos : H → Nat}
  {tr : List (Event H)}

section

variable (hs : Inv s live chain pos) (hfit : Fits chain) (hlog : Logged live chain pos tr)

include hs hfit hlog

/-- One allowed call with at most `2 ^ 32` handles before and after it. -/
theorem step_spec {op : Op H} (hop : Allowed live op) (hlen : live.length ≤ 2 ^ 32)
    (hlen' : (after live op).length ≤ 2 ^ 32) :
    ∃ s' ev chain' pos', s.step op = some (s', ev) ∧ Inv s' (after live op) chain' pos' ∧
      Fits chain' ∧ Logged (after live op) chain' pos' (tr ++ [ev]) := by
  have hpos : ∀ h ∈ live, pos h < chain.length := fun _ hh => hs.pos_lt hh
  cases op with
  | push =>
    obtain ⟨q, hpush, hinv⟩ := push_spec hs hop
    exact ⟨_, _, _, _, by simp [State.step, hpush], hinv, hfit.concat hlen, hlog.push hpos _ _⟩
  | read h =>
    obtain ⟨q, x, r, p, hread, hinv, hmsg, hnone⟩ := read_spec hs hfit hop
    exact ⟨_, _, _, _, by simp [State.step, hread], hinv, hfit, hlog.read hop hmsg hnone⟩
  | init h =>
    obtain ⟨q, x, hinit, hinv⟩ := init_spec hs hop
    exact ⟨_, _, _, _, by simp [State.step, hinit], hinv, hfit.concat hlen',
      hlog.init hpos (length_pos_iff.mpr hs.nodes.nonempty) h hop _ _⟩
  | exit h =>
    obtain ⟨q, x, hexit, hinv⟩ := exit_spec hs hfit hlen hop
    exact ⟨_, _, _, _, by simp [State.step, hexit], hinv,
      hfit.concat (Nat.le_trans (Nat.sub_le _ _) hlen), hlog.exit hpos h _ _⟩

/-- The registered handles after some calls. -/
def registered (live : List H) (ops : List (Op H)) : List H := ops.foldl after live

theorem run_spec {ops : List (Op H)} (hops : Legal live ops) (hpeak : peak live ops ≤ 2 ^ 32) :
    ∃ s' tr' chain' pos', s.run ops = some (s', tr') ∧ Inv s' (registered live ops) chain' pos' ∧
      Logged (registered live ops) chain' pos' (tr ++ tr') ∧ Fits chain' ∧
        (registered live ops).length ≤ 2 ^ 32 := by
  induction ops generalizing s live chain pos tr with
  | nil => exact ⟨s, [], chain, pos, rfl, hs, by simpa [registered] using hlog, hfit, hpeak⟩
  | cons op ops ih =>
    obtain ⟨hlen, hpeak'⟩ := Nat.max_le.mp hpeak
    have hlen' : (after live op).length ≤ 2 ^ 32 := by
      refine Nat.le_trans ?_ hpeak'
      cases ops with
      | nil => exact le_rfl
      | cons => exact Nat.le_max_left _ _
    obtain ⟨s1, ev, chain1, pos1, hstep, hs1, hfit1, hlog1⟩ :=
      step_spec hs hfit hlog hops.1 hlen hlen'
    obtain ⟨s', tr', chain', pos', hrun, hs', hlog'⟩ := ih hs1 hfit1 hlog1 hops.2 hpeak'
    refine ⟨s', ev :: tr', chain', pos', by simp [State.run, hstep, hrun], hs', ?_⟩
    simpa [registered] using hlog'

end

end Run

/-- The nodes from the head of a handle on are the entries from its position on. -/
theorem Inv.reaches_iff {s : State H} (hs : Inv s live chain pos) {h : H} (hh : h ∈ live)
    (n : Nat) :
    s.q.Reaches (s.handles h).head n ↔ ∃ i x, pos h ≤ i ∧ chain[i]? = some x ∧ n = x.name := by
  obtain ⟨e, he⟩ := hs.holder h hh
  constructor
  · intro hn
    induction hn with
    | refl => exact ⟨pos h, e, le_rfl, he.at_pos, he.head_eq⟩
    | tail _ hnext ih =>
      obtain ⟨i, x, hi, hx, rfl⟩ := ih
      rw [hs.nodes.next_eq hx, Option.map_eq_some_iff] at hnext
      obtain ⟨y, hy, rfl⟩ := hnext
      exact ⟨i + 1, y, by omega, hy, rfl⟩
  · rintro ⟨i, x, hi, hx, rfl⟩
    induction i, hi using Nat.le_induction generalizing x with
    | base =>
      obtain rfl : e = x := by simpa [he.at_pos] using hx
      exact he.head_eq ▸ .refl
    | succ i hi ih =>
      have hlt := (List.getElem?_eq_some_iff.mp hx).1
      have hy := getElem?_eq_getElem (show i < chain.length by omega)
      refine (ih _ hy).tail ?_
      rw [hs.nodes.next_eq hy, hx, Option.map_some]

theorem Inv.held {s : State H} (hs : Inv s live chain pos) {h : H} (hh : h ∈ live) {n : Nat}
    (hn : s.q.Reaches (s.handles h).head n) : (s.q.nodes n).freed = false := by
  obtain ⟨i, x, hi, hx, rfl⟩ := (hs.reaches_iff hh n).mp hn
  exact hs.nodes.not_freed hx (holders_pos hh hi)

/-- The nodes that have been freed are those that nobody can get to any more. -/
def Reclaimed (s : State H) (live : List H) : Prop :=
  ∀ n < s.q.fresh, (s.q.nodes n).freed = true ↔ n ≠ s.q.tail ∧
    ∀ h ∈ live, n ≠ (s.handles h).exit ∧ ¬s.q.Reaches (s.handles h).head n

theorem Inv.reclaimed {s : State H} (hs : Inv s live chain pos) : Reclaimed s live := by
  refine fun n hn => ⟨fun hfreed => ⟨?_, fun h hh => ⟨?_, fun hreach => ?_⟩⟩, ?_⟩
  · rintro rfl
    obtain ⟨e, he, -⟩ := hs.exists_last
    have hlast := hs.nodes.last he (getElem?_eq_none (by omega))
    simp [hlast.1, hlast.2.2] at hfreed
  · rintro rfl
    simp [(hs.waiting h hh).2.2.2] at hfreed
  · simp [hs.held hh hreach] at hfreed
  rintro ⟨htail, hfree⟩
  obtain hmem | ⟨h, hh, hexit⟩ := (hs.names n).mp hn
  · obtain ⟨x, hx, rfl⟩ := mem_map.mp hmem
    obtain ⟨i, hi⟩ := mem_iff_getElem?.mp hx
    cases hy : chain[i + 1]? with
    | none => exact absurd (hs.nodes.last hi hy).1.symm htail
    | some y =>
      refine (hs.nodes.freed hi hy).mpr (countP_eq_zero.mpr fun h hh hle => ?_)
      exact (hfree h hh).2 ((hs.reaches_iff hh _).mpr ⟨i, x, by simpa using hle, hi, rfl⟩)
  · exact absurd hexit.symm (hfree h hh).1

/-- What the invariant says about the nodes ahead of the handles. -/
theorem Inv.broadcast [DecidableEq H] {s : State H} {tr : List (Event H)}
    (hs : Inv s live chain pos) (htr : InOrder tr) : Broadcast s live tr := by
  refine ⟨htr, fun h hh n hn => hs.held hh hn, ?_⟩
  rintro rfl n hn htail
  exact (hs.reclaimed n hn).mpr ⟨htail, by simp⟩

theorem run_start [DecidableEq H] (ops : List (Op H)) (hops : Legal [] ops)
    (hpeak : peak [] ops ≤ 2 ^ 32) :
    ∃ s tr chain pos, State.start.run ops = some (s, tr) ∧ Inv s (registered [] ops) chain pos ∧
      InOrder tr ∧ Fits chain ∧ (registered [] ops).length ≤ 2 ^ 32 := by
  have hlog : Logged ([] : List H) [⟨0, .stub, 0⟩] (fun _ => 0) [] := by
    refine ⟨?_, by simp⟩
    intro pre h r post heq
    simp at heq
  obtain ⟨s, tr, chain, pos, hrun, hs, hlog', hrest⟩ :=
    run_spec inv_start (by intro e he; simp at he; simp [he]) hlog hops hpeak
  exact ⟨s, tr, chain, pos, hrun, hs, by simpa using hlog'.1, hrest⟩

/-- Every run with at most `2 ^ 32` handles at a time goes through, without a use of a freed
node and without a second `free`, and it keeps `Broadcast`. -/
theorem run_broadcast [DecidableEq H] (ops : List (Op H)) (hops : Legal [] ops)
    (hpeak : peak [] ops ≤ 2 ^ 32) :
    ∃ s tr, State.start.run ops = some (s, tr) ∧ Broadcast s (registered [] ops) tr := by
  obtain ⟨s, tr, chain, pos, hrun, hs, htr, -⟩ := run_start ops hops hpeak
  exact ⟨s, tr, hrun, hs.broadcast htr⟩

/-- Two handles, a message between their registrations, and both leave. -/
theorem run_broadcast_twoHandles :
    Legal [] [Op.init 0, .push, .init 1, .push, .read 0, .read 1, .exit 0, .exit 1] ∧
    peak [] [Op.init 0, .push, .init 1, .push, .read 0, .read 1, .exit 0, .exit 1] ≤ 2 ^ 32 ∧
    ∃ s tr, State.start.run
        [Op.init 0, .push, .init 1, .push, .read 0, .read 1, .exit 0, .exit 1] = some (s, tr) ∧
      Broadcast s (registered []
        [Op.init 0, .push, .init 1, .push, .read 0, .read 1, .exit 0, .exit 1]) tr := by
  have hops : Legal [] [Op.init 0, .push, .init 1, .push, .read 0, .read 1, .exit 0, .exit 1] := by
    simp [Legal, Allowed, after]
  have hpeak : peak [] [Op.init 0, .push, .init 1, .push, .read 0, .read 1, .exit 0, .exit 1] ≤
      2 ^ 32 := by
    decide
  exact ⟨hops, hpeak, run_broadcast _ hops hpeak⟩

/-- A node is freed as soon as it is behind all registered handles, unless it is the tail or the
node that a handle needs to leave. -/
theorem run_reclaimed [DecidableEq H] (ops : List (Op H)) (hops : Legal [] ops)
    (hpeak : peak [] ops ≤ 2 ^ 32) :
    ∃ s tr, State.start.run ops = some (s, tr) ∧ Reclaimed s (registered [] ops) := by
  obtain ⟨s, tr, chain, pos, hrun, hs, -⟩ := run_start ops hops hpeak
  exact ⟨s, tr, hrun, hs.reclaimed⟩

theorem run_reclaimed_oneHandle :
    ∃ s tr, State.start.run [Op.init 0, .push, .read 0] = some (s, tr) ∧
      Reclaimed s (registered [] [Op.init 0, .push, .read 0]) :=
  run_reclaimed _ (by simp [Legal, Allowed, after]) (by decide)

/-! ## More handles than `unsigned` counts -/

section Overflow

/-- The first `n` handles register. -/
def inits (n : Nat) : List (Op Nat) := (range n).map .init

/-- One handle more than there are values of `unsigned`, and the last one reads. -/
def overflow : List (Op Nat) := inits (2 ^ 32 + 1) ++ [.read (2 ^ 32)]

variable {s : State H} {ops : List (Op H)}

theorem run_concat [DecidableEq H] {s1 s2 : State H} {tr : List (Event H)} {op : Op H}
    {ev : Event H} (hrun : s.run ops = some (s1, tr)) (hstep : s1.step op = some (s2, ev)) :
    s.run (ops ++ [op]) = some (s2, tr ++ [ev]) := by
  induction ops generalizing s tr with
  | nil =>
    obtain ⟨rfl, rfl⟩ : s = s1 ∧ [] = tr := by simpa [State.run] using hrun
    simp [State.run, hstep]
  | cons a ops ih =>
    simp only [State.run, Option.bind_eq_bind, Option.bind_eq_some_iff, Prod.exists] at hrun
    obtain ⟨s', a', hs', s'', tr'', hs'', heq⟩ := hrun
    obtain ⟨rfl, rfl⟩ : s'' = s1 ∧ a' :: tr'' = tr := by simpa using heq
    simp [State.run, hs', ih hs'']

theorem legal_concat [DecidableEq H] {op : Op H} (hops : Legal live ops)
    (hop : Allowed (registered live ops) op) : Legal live (ops ++ [op]) := by
  induction ops generalizing live with
  | nil => exact ⟨hop, trivial⟩
  | cons a ops ih => exact ⟨hops.1, ih hops.2 hop⟩

/-- After the registrations the handle `i` stands at the entry `i`. -/
theorem inits_spec (n : Nat) :
    ∃ s tr chain pos, State.start.run (inits n) = some (s, tr) ∧ Legal [] (inits n) ∧
      registered [] (inits n) = (range n).reverse ∧
      Inv s (range n).reverse chain pos ∧ chain.length = n + 1 ∧ (∀ i < n, pos i = i) ∧
      ∀ x, n ≠ 0 → chain[n]? = some x → x.type = .init ∧ x.count = n := by
  induction n with
  | zero => exact ⟨_, _, _, _, rfl, trivial, rfl, inv_start, rfl, by simp, by simp⟩
  | succ n ih =>
    obtain ⟨s, tr, chain, pos, hrun, hlegal, hreg, hinv, hlen, hpos, -⟩ := ih
    have hnot : n ∉ (range n).reverse := by simp
    obtain ⟨q, x, hinit, hinv'⟩ := init_spec hinv hnot
    have hops : inits (n + 1) = inits n ++ [.init n] := by simp [inits, range_succ]
    have hlive : (range (n + 1)).reverse = n :: (range n).reverse := by
      simp [range_succ]
    have hstep : s.step (.init n) = some (⟨q, update s.handles n x⟩, .init n) := by
      simp [State.step, hinit]
    refine ⟨_, _, _, _, hops ▸ run_concat hrun hstep, hops ▸ legal_concat hlegal (hreg ▸ hnot), ?_,
      hlive ▸ hinv', by simp [hlen], ?_, ?_⟩
    · rw [hops, hlive, ← hreg]
      simp [registered, after]
    · intro i hi
      by_cases hin : i = n
      · subst hin
        simp [hlen]
      · rw [update_of_ne hin]
        exact hpos i (by omega)
    · intro y _ hy
      rw [← hlen] at hy
      obtain rfl : _ = y := by simpa using hy
      simp

theorem Nodes.reaches {q : Mpmc} {cnt : Nat → Nat} (hq : Nodes q chain cnt) {i j : Nat}
    (hij : i ≤ j) {e x : Entry} (he : chain[i]? = some e) (hx : chain[j]? = some x) :
    q.Reaches e.name x.name := by
  obtain ⟨k, rfl⟩ := Nat.exists_eq_add_of_le hij
  clear hij
  induction k generalizing x with
  | zero =>
    obtain rfl := Option.some.inj (he.symm.trans hx)
    exact .refl
  | succ k ih =>
    have hlt : i + k < chain.length := by
      have := (List.getElem?_eq_some_iff.mp hx).1
      omega
    have hy := getElem?_eq_getElem hlt
    exact (ih hy).tail (by rw [hq.next_eq hy, Nat.add_assoc, hx]; rfl)

/-- The newest of `2 ^ 32 + 1` handles that have read nothing reads a count of one, and its first
release frees a node that all have still to leave. -/
theorem read_overflow (hs : Inv s live chain pos) {h : H} (hh : h ∈ live) {e x : Entry}
    (he : chain[pos h]? = some e) (hx : chain[pos h + 1]? = some x) (htype : x.type = .init)
    (hlen : chain.length = pos h + 2) (hcount : x.count = 2 ^ 32 + 1)
    (hall : holders live pos (pos h) = 2 ^ 32 + 1) :
    ∃ q y, s.q.read (s.handles h) = some (q, y, none) ∧ (q.nodes e.name).freed = true ∧
      ∀ n, (q.nodes n).next = (s.q.nodes n).next := by
  obtain ⟨e', hh'⟩ := hs.holder h hh
  obtain rfl := Option.some.inj (he.symm.trans hh'.at_pos)
  have hne : x.name ≠ e.name := fun heq => by
    have := hs.nodes.name_inj hx he heq
    omega
  have hfe : (s.q.nodes e.name).freed = false := hs.nodes.not_freed he (by omega)
  have hfx : (s.q.nodes x.name).freed = false :=
    hs.nodes.not_freed hx (holders_pos hh (le_succ _))
  have hnx : (s.q.nodes x.name).next = none := by
    rw [hs.nodes.next_eq hx, getElem?_eq_none (by omega)]
    rfl
  -- no handle has left `e`, and the stored count is one
  have href : (s.q.nodes e.name).refcount = 0 := by
    obtain ⟨r, hr, hneed⟩ := hs.nodes.refs he hx
    simp only [Entry.need, htype, if_true] at hneed
    obtain rfl : r = 0 := by omega
    exact hr
  have hcx : (s.q.nodes x.name).consumer = 1 := by
    rw [hs.nodes.consumer_eq hx (by simp [htype]), hcount]
    rfl
  obtain ⟨k, hk⟩ : ∃ k, s.q.fresh = k + 1 :=
    ⟨s.q.fresh - 1, by have := hs.length_le; omega⟩
  have hrel := release_eq hfe 1
  refine ⟨{ s.q with nodes := update s.q.nodes e.name ((s.q.nodes e.name).release 1) },
    ⟨x.name, (s.handles h).exit, 1⟩, ?_, by simp [Node.release, href], fun n => ?_⟩
  · simp [Mpmc.read, hk, Mpmc.readLoop, Mpmc.advance, Mpmc.load, Handle.count, hh'.head_eq, hfe,
      hfx, hs.nodes.next_eq he, hx, hs.nodes.type_eq hx, htype, hcx, hrel,
      hne, hnx]
  · by_cases hn : n = e.name
    · subst hn
      simp [Node.release]
    · simp [hn]

/-- With one handle more than that, a node ahead of the first handle is freed. -/
theorem not_broadcast_overflow :
    Legal [] overflow ∧ ∃ s tr, State.start.run overflow = some (s, tr) ∧
      ¬ Broadcast s (registered [] overflow) tr := by
  unfold overflow
  obtain ⟨n, hn⟩ : ∃ n, n = 2 ^ 32 := ⟨_, rfl⟩
  rw [← hn]
  obtain ⟨s, tr, chain, pos, hrun, hlegal, hreg, hinv, hlen, hpos, hlast⟩ := inits_spec (n + 1)
  have hmem : ∀ i, i ∈ registered [] (inits (n + 1)) ↔ i < n + 1 := by simp [hreg]
  obtain ⟨e, he⟩ : ∃ e, chain[n]? = some e := ⟨_, getElem?_eq_getElem (by omega)⟩
  obtain ⟨e0, he0⟩ : ∃ e, chain[0]? = some e := ⟨_, getElem?_eq_getElem (by omega)⟩
  obtain ⟨x, hx⟩ : ∃ x, chain[n + 1]? = some x := ⟨_, getElem?_eq_getElem (by omega)⟩
  obtain ⟨htype, hcount⟩ := hlast x (succ_ne_zero n) hx
  have hall : holders (range (n + 1)).reverse pos n = 2 ^ 32 + 1 := by
    rw [holders_eq_length, length_reverse, length_range, hn]
    intro i hi
    have hlt : i < n + 1 := by simpa using hi
    rw [hpos i hlt]
    omega
  have hposn : pos n = n := hpos n (by omega)
  obtain ⟨q, y, hread, hfreed, hnext⟩ := read_overflow hinv (h := n) (by simp)
    (hposn.symm ▸ he) (hposn.symm ▸ hx) htype (by omega) (hn ▸ hcount) (hposn.symm ▸ hall)
  have hstep : s.step (.read n) = some (⟨q, update s.handles n y⟩, .read n none) := by
    simp [State.step, hread]
  refine ⟨legal_concat hlegal ((hmem n).mpr (by omega)), _, _, run_concat hrun hstep, ?_⟩
  intro hb
  -- the first handle is still at the first node
  obtain ⟨e', hh⟩ := hinv.holder 0 (by simp)
  rw [hpos 0 (by omega)] at hh
  obtain rfl := Option.some.inj (he0.symm.trans hh.at_pos)
  have hreach : q.Reaches e0.name e.name := by
    have := hinv.nodes.reaches (zero_le n) he0 he
    simpa [Mpmc.Reaches, hnext] using this
  have hlive : 0 ∈ registered [] (inits (n + 1) ++ [.read n]) := by
    have := (hmem 0).mpr (by omega)
    simpa [registered, after] using this
  have hhead : (update s.handles n y 0).head = e0.name := by
    rw [update_of_ne (by omega), hh.head_eq]
  have hnot : (q.nodes e.name).freed = false := hb.held 0 hlive e.name (hhead.symm ▸ hreach)
  simp [hfreed] at hnot

end Overflow

end OpenSync.Rts
