import OpenSync.Osw.Timer
import Mathlib.Data.Fintype.Card
import Mathlib.Data.List.TakeWhile

/-!
# The timer lists as queues

A `Queue` is what the pointer structure of the timers stands for: the contents of the two lists
and the deadlines.  `Lists s q` says that the state `s` holds the queue `q`, with the `list` field
of every timer naming the list that holds it, and `Represents s q` adds that the armed timers are
in the order of their deadlines.

Each function of the timer module has one lemma that says what it does to the queue.  Arming and
disarming work on whatever list the timer is in, also on the one that is being drained.
-/

namespace OpenSync.Osw.Timer

open OpenSync.Ds Function List

variable {n : Nat}

/-! ## Queues -/

/-- The contents of the lists and the deadlines. -/
structure Queue (n : Nat) where
  lists : ListId → List (Fin n)
  deadline : Fin n → Nat

namespace Queue

/-- The timer leaves the list that it is in. -/
def remove (q : Queue n) (t : Fin n) : Queue n := { q with lists := fun id => (q.lists id).erase t }

/-- The timer is put in front of the first one that is not earlier. -/
def insertAt (d : Fin n → Nat) (t : Fin n) (xs : List (Fin n)) : List (Fin n) :=
  xs.takeWhile (fun u => d u < d t) ++ t :: xs.dropWhile (fun u => d u < d t)

section

variable (q : Queue n) (id : ListId) (xs : List (Fin n))

def setLists : Queue n :=
  { q with lists := update q.lists id xs }

@[simp] theorem deadline_setLists : (q.setLists id xs).deadline = q.deadline := rfl

@[simp] theorem lists_setLists_self : (q.setLists id xs).lists id = xs := update_self _ _ _

end

theorem lists_setLists_of_ne (q : Queue n) {id id' : ListId} (xs : List (Fin n)) (h : id' ≠ id) :
    (q.setLists id xs).lists id' = q.lists id' := update_of_ne h _ _

def setDeadline (q : Queue n) (t : Fin n) (nsec : Nat) : Queue n :=
  { q with deadline := update q.deadline t nsec }

/-- The timer moves to the armed ones with a new deadline. -/
def arm (q : Queue n) (t : Fin n) (nsec : Nat) : Queue n :=
  let q := (q.setDeadline t nsec).remove t
  q.setLists .active (insertAt q.deadline t (q.lists .active))

/-- The armed timers are in the order of their deadlines. -/
def Sorted (d : Fin n → Nat) (xs : List (Fin n)) : Prop := xs.Pairwise (fun t u => d t ≤ d u)

variable {d : Fin n → Nat} {xs : List (Fin n)}

theorem mem_insertAt {t u : Fin n} : u ∈ insertAt d t xs ↔ u = t ∨ u ∈ xs := by
  have hsplit : u ∈ xs ↔ u ∈ xs.takeWhile (fun u => d u < d t) ∨
      u ∈ xs.dropWhile (fun u => d u < d t) := by
    rw [← mem_append, takeWhile_append_dropWhile]
  rw [insertAt, mem_append, mem_cons, hsplit]
  exact or_left_comm

/-- Behind the first timer that is not earlier than `k` none is. -/
theorem Sorted.le_of_mem_dropWhile {k : Nat} (h : Sorted d xs) {u : Fin n}
    (hu : u ∈ xs.dropWhile (fun u => d u < k)) : k ≤ d u := by
  induction xs with
  | nil => cases hu
  | cons x xs ih =>
    obtain ⟨hx, hxs⟩ := pairwise_cons.mp h
    by_cases hlt : d x < k
    · rw [dropWhile_cons_of_pos (by simpa using hlt)] at hu
      exact ih hxs hu
    rw [dropWhile_cons_of_neg (by simpa using hlt)] at hu
    rcases mem_cons.mp hu with rfl | hu
    · exact Nat.not_lt.mp hlt
    · exact Nat.le_trans (Nat.not_lt.mp hlt) (hx u hu)

theorem Sorted.mem_takeWhile {k : Nat} (h : Sorted d xs) {t : Fin n} :
    t ∈ xs.takeWhile (fun u => d u ≤ k) ↔ t ∈ xs ∧ d t ≤ k := by
  induction xs with
  | nil => simp
  | cons x xs ih =>
    obtain ⟨hx, hxs⟩ := pairwise_cons.mp h
    by_cases hle : d x ≤ k
    · rw [takeWhile_cons_of_pos (by simpa using hle), mem_cons, mem_cons, ih hxs, or_and_right]
      refine or_congr_left (iff_self_and.mpr ?_)
      rintro rfl
      exact hle
    · rw [takeWhile_cons_of_neg (by simpa using hle)]
      refine iff_of_false not_mem_nil ?_
      rintro ⟨ht, htk⟩
      rcases mem_cons.mp ht with rfl | ht
      · exact hle htk
      · exact hle (Nat.le_trans (hx t ht) htk)

theorem Sorted.insertAt (h : Sorted d xs) (t : Fin n) : Sorted d (insertAt d t xs) := by
  have hpre : ∀ u ∈ xs.takeWhile (fun u => d u < d t), d u < d t := by
    intro u hu
    simpa using (mem_takeWhile_imp hu)
  have hpost : ∀ u ∈ xs.dropWhile (fun u => d u < d t), d t ≤ d u :=
    fun u hu => h.le_of_mem_dropWhile hu
  unfold Sorted at h
  rw [← takeWhile_append_dropWhile (p := fun u => decide (d u < d t)) (l := xs)] at h
  obtain ⟨h1, h2, -⟩ := pairwise_append.mp h
  refine pairwise_append.mpr ⟨h1, pairwise_cons.mpr ⟨hpost, h2⟩, fun u hu v hv => ?_⟩
  have hlt := hpre u hu
  rcases mem_cons.mp hv with rfl | hv
  · exact hlt.le
  · exact hlt.le.trans (hpost v hv)

/-- Deadlines matter for the timers in the list only. -/
theorem Sorted.congr {d' : Fin n → Nat} (h : Sorted d xs) (hd : ∀ t ∈ xs, d' t = d t) :
    Sorted d' xs :=
  List.Pairwise.imp_of_mem (fun {t u} ht hu htu => by rw [hd t ht, hd u hu]; exact htu) h

end Queue

/-! ## Updates of the state -/

namespace State

variable {s : State n} {id id' : ListId} {r : Dlist (Fin n) × Dlist.Heap (Fin n)}

@[simp] theorem timers_setList : (s.setList id r).timers = s.timers := by
  cases id <;> rfl

@[simp] theorem nodes_setList : (s.setList id r).nodes = r.2 := by
  cases id <;> rfl

@[simp] theorem list_setList_self : (s.setList id r).list id = r.1 := by
  cases id <;> rfl

theorem list_setList_of_ne (h : id' ≠ id) : (s.setList id r).list id' = s.list id' := by
  cases id <;> cases id' <;> first | rfl | exact absurd rfl h

variable (t : Fin n)

@[simp] theorem list_setTimer (v : OswTimer) : (s.setTimer t v).list id = s.list id := by
  cases id <;> rfl

@[simp] theorem nodes_setTimer (v : OswTimer) : (s.setTimer t v).nodes = s.nodes := rfl

@[simp] theorem timers_setTimer (v : OswTimer) :
    (s.setTimer t v).timers = update s.timers t v := rfl

@[simp] theorem timers_unlist :
    (s.unlist id t).timers = update s.timers t { s.timers t with list := none } := by
  simp [unlist]

@[simp] theorem nodes_unlist :
    (s.unlist id t).nodes = (Dlist.nodeRemove (s.list id) s.nodes t).2 := by
  simp [unlist]

@[simp] theorem list_unlist_self :
    (s.unlist id t).list id = (Dlist.nodeRemove (s.list id) s.nodes t).1 := by
  simp [unlist]

theorem list_unlist_of_ne (h : id' ≠ id) : (s.unlist id t).list id' = s.list id' := by
  simp [unlist, list_setList_of_ne h]

end State

/-! ## What the lists hold -/

/-- The state holds the queue. -/
structure Lists (s : State n) (q : Queue n) : Prop where
  chain : ∀ id, Dlist.Chain s.nodes (s.list id) (q.lists id)
  mem : ∀ t id, (s.timers t).list = some id ↔ t ∈ q.lists id
  deadline : ∀ t, (s.timers t).atNsec = q.deadline t
  cb : ∀ t, (s.timers t).list ≠ none → (s.timers t).cb = true

/-- The state holds the queue, and the armed timers are in order. -/
structure Represents (s : State n) (q : Queue n) : Prop extends Lists s q where
  sorted : Queue.Sorted q.deadline (q.lists .active)

namespace Lists

variable {s : State n} {q : Queue n} {t : Fin n} {id : ListId}

section

variable (h : Lists s q)

include h

theorem not_mem_of_ne {id' : ListId} (ht : t ∈ q.lists id) (hne : id' ≠ id) : t ∉ q.lists id' := by
  intro ht'
  have h1 := (h.mem t id).mpr ht
  have h2 := (h.mem t id').mpr ht'
  exact hne (Option.some.inj (h2.symm.trans h1))

theorem not_mem_of_none (ht : (s.timers t).list = none) (id : ListId) : t ∉ q.lists id := by
  intro hm
  have hsome := (h.mem t id).mpr hm
  rw [ht] at hsome
  cases hsome

theorem nodup (id : ListId) : (q.lists id).Nodup := (h.chain id).nodup

theorem unlist (ht : t ∈ q.lists id) : Lists (s.unlist id t) (q.remove t) := by
  obtain ⟨pre, post, hlist⟩ := append_of_mem ht
  have hnd := h.nodup id
  have hchain := h.chain id
  have herase : (q.lists id).erase t = pre ++ post := by
    rw [hlist] at hnd ⊢
    have hpre : t ∉ pre := fun hm => (nodup_append.mp hnd).2.2 t hm t mem_cons_self rfl
    rw [erase_append_right _ hpre, erase_cons_head]
  rw [hlist] at hchain
  have hres := Dlist.nodeRemove_spec hchain
  refine ⟨fun id' => ?_, fun u id' => ?_, fun u => ?_, fun u => ?_⟩
  · by_cases hid : id' = id
    · subst hid
      simpa [Queue.remove, herase] using hres.chain
    have hother := h.not_mem_of_ne ht hid
    simp only [State.list_unlist_of_ne t hid, State.nodes_unlist, Queue.remove,
      erase_of_not_mem hother]
    refine (h.chain id').congr (fun u hu => hres.frame u ?_)
    rw [← hlist]
    exact fun hm => h.not_mem_of_ne hm hid hu
  · by_cases hu : u = t
    · subst hu
      simp only [State.timers_unlist, update_self, reduceCtorEq, false_iff]
      exact fun hm => ((List.Nodup.mem_erase_iff (h.nodup id')).mp hm).1 rfl
    · simp only [State.timers_unlist, Queue.remove, update_of_ne hu, mem_erase_of_ne hu]
      exact h.mem u id'
  · by_cases hu : u = t
    · subst hu
      simpa [Queue.remove] using h.deadline u
    · simpa [Queue.remove, hu] using h.deadline u
  · by_cases hu : u = t
    · subst hu
      simp
    · simpa [hu] using h.cb u

theorem detach (t : Fin n) : Lists (s.detach t) (q.remove t) := by
  unfold State.detach
  cases hl : (s.timers t).list with
  | some id => exact h.unlist ((h.mem t id).mp hl)
  | none =>
    have hq : q.remove t = q := by
      simp [Queue.remove, fun id => erase_of_not_mem (h.not_mem_of_none hl id)]
    rwa [hq]

omit h in
theorem detach_timers (s : State n) (t : Fin n) :
    (s.detach t).timers = update s.timers t { s.timers t with list := none } := by
  unfold State.detach
  cases hl : (s.timers t).list with
  | some id => exact State.timers_unlist t
  | none =>
    have hsame : { s.timers t with list := none } = s.timers t := by
      rw [← hl]
    rw [hsame, update_eq_self]

attribute [local simp] Queue.setLists

theorem enlist {r : Dlist (Fin n) × Dlist.Heap (Fin n)} {xs : List (Fin n)}
    (ht : (s.timers t).list = none) (hcb : (s.timers t).cb = true)
    (hr : Dlist.Result s.nodes (t :: q.lists id) r xs)
    (hxs : ∀ u, u ∈ xs ↔ u = t ∨ u ∈ q.lists id) :
    Lists ((s.setList id r).setTimer t { s.timers t with list := some id }) (q.setLists id xs) := by
  have hnone := h.not_mem_of_none ht
  refine ⟨fun id' => ?_, fun u id' => ?_, fun u => ?_, fun u => ?_⟩
  · by_cases hid : id' = id
    · subst hid
      simpa using hr.chain
    simp only [State.list_setTimer, State.nodes_setTimer, State.nodes_setList,
      State.list_setList_of_ne hid, Queue.setLists, update_of_ne hid]
    refine (h.chain id').congr (fun u hu => hr.frame u (fun hm => ?_))
    rcases mem_cons.mp hm with rfl | hm
    · exact hnone id' hu
    · exact h.not_mem_of_ne hm hid hu
  · have hset : u ∈ (q.setLists id xs).lists id' ↔ if id' = id then u = t ∨ u ∈ q.lists id
        else u ∈ q.lists id' := by
      by_cases hid : id' = id
      · subst hid
        simp [hxs]
      · simp [hid]
    rw [hset]
    by_cases hu : u = t
    · subst hu
      by_cases hid : id' = id
      · simp [hid]
      · simp [hid, hnone id', Ne.symm hid]
    · simp only [State.timers_setTimer, State.timers_setList, update_of_ne hu, h.mem u id',
        hu, false_or]
      split_ifs with hid
      · rw [hid]
      · rfl
  · by_cases hu : u = t
    · subst hu
      simpa using h.deadline u
    · simpa [hu] using h.deadline u
  · by_cases hu : u = t
    · subst hu
      simpa using hcb
    · simpa [hu] using h.cb u

attribute [local simp] Queue.setDeadline

theorem setDeadline (t : Fin n) (nsec : Nat) :
    Lists (s.setTimer t { s.timers t with atNsec := nsec }) (q.setDeadline t nsec) := by
  refine ⟨fun id => by simpa using h.chain id, fun u id => ?_, fun u => ?_,
    fun u => ?_⟩
  · by_cases hu : u = t
    · subst hu
      simpa using h.mem u id
    · simpa [hu] using h.mem u id
  · by_cases hu : u = t
    · subst hu
      simp
    · simpa [hu] using h.deadline u
  · by_cases hu : u = t
    · subst hu
      simpa using h.cb u
    · simpa [hu] using h.cb u

end

end Lists

/-! ## Arming and disarming -/

variable {s : State n}

/-- The loop of `osw_timer_arm_at_nsec` finds the place in the list. -/
theorem findNext_spec {l : Dlist (Fin n)} {pre post : List (Fin n)} {nsec fuel : Nat}
    (h : Dlist.Chain s.nodes l (pre ++ post)) (hfuel : post.length < fuel) :
    findNext s nsec fuel post.head? =
      some (post.dropWhile (fun u => (s.timers u).atNsec < nsec)).head? := by
  induction post generalizing pre fuel with
  | nil =>
    obtain ⟨fuel, rfl⟩ : ∃ m, fuel = m + 1 := ⟨fuel - 1, by omega⟩
    rfl
  | cons t post ih =>
    obtain ⟨fuel, rfl⟩ : ∃ m, fuel = m + 1 := ⟨fuel - 1, by omega⟩
    have hnext : (s.nodes t).next = post.head? := by rw [h.node]
    rw [head?_cons, findNext, hnext]
    by_cases hge : (s.timers t).atNsec ≥ nsec
    · rw [if_pos hge, dropWhile_cons_of_neg (by simpa using hge)]
      rfl
    · have h' : Dlist.Chain s.nodes l ((pre ++ [t]) ++ post) := by simpa using h
      rw [if_neg hge, dropWhile_cons_of_pos (by simpa using hge)]
      exact ih h' (by simpa using hfuel)

/-- The insertion of `osw_timer_arm_at_nsec` in front of the timer that was found. -/
theorem insertNext_spec {xs : List (Fin n)} {t : Fin n} {d : Fin n → Nat}
    (h : Dlist.Chain s.nodes s.active xs) (ht : t ∉ xs) :
    Dlist.Result s.nodes (t :: xs) (insertNext s t (xs.dropWhile (fun u => d u < d t)).head?)
      (Queue.insertAt d t xs) := by
  have hsplit : xs.takeWhile (fun u => d u < d t) ++ xs.dropWhile (fun u => d u < d t) = xs :=
    takeWhile_append_dropWhile
  unfold Queue.insertAt
  generalize xs.takeWhile (fun u => d u < d t) = pre at hsplit ⊢
  generalize xs.dropWhile (fun u => d u < d t) = post at hsplit ⊢
  subst hsplit
  cases post with
  | nil =>
    rw [append_nil] at h ht ⊢
    exact Dlist.insertTail_spec h ht
  | cons u post => exact Dlist.insertBefore_spec h ht

variable {q : Queue n}

theorem Lists.length_lt (h : Lists s q) (id : ListId) : (q.lists id).length < n + 1 := by
  have hle := List.Nodup.length_le_card (h.nodup id)
  rw [Fintype.card_fin] at hle
  omega

theorem Represents.disarm (h : Represents s q) (t : Fin n) : Represents (disarm s t) (q.remove t) :=
  ⟨h.toLists.detach t, .sublist erase_sublist h.sorted⟩

theorem Represents.armAtNsec {t : Fin n} (h : Represents s q) (hcb : (s.timers t).cb = true)
    (nsec : Nat) :
    ∃ s', armAtNsec s t nsec = some s' ∧ Represents s' (q.arm t nsec) ∧
      ∀ u, (s'.timers u).cb = (s.timers u).cb := by
  -- the timer gets its deadline and leaves its list
  have h1 := (h.toLists.setDeadline t nsec).detach t
  have htimers := Lists.detach_timers (s.setTimer t { s.timers t with atNsec := nsec }) t
  generalize hs1 : (s.setTimer t { s.timers t with atNsec := nsec }).detach t = s1 at h1 htimers
  generalize hq1 : (q.setDeadline t nsec).remove t = q1 at h1
  have ht1 : s1.timers t = { s.timers t with atNsec := nsec, list := none } := by
    simp [htimers]
  have hmem := h1.not_mem_of_none (show (s1.timers t).list = none by rw [ht1])
  -- it is put into the list of the armed ones
  have hfind : findNext s1 (s1.timers t).atNsec (n + 1) s1.active.head =
      some ((q1.lists .active).dropWhile (fun u => q1.deadline u < q1.deadline t)).head? := by
    have hchain : Dlist.Chain s1.nodes s1.active ([] ++ q1.lists .active) := h1.chain .active
    rw [hchain.head, nil_append, findNext_spec hchain (h1.length_lt .active)]
    simp [h1.deadline]
  have hins := insertNext_spec (d := q1.deadline) (h1.chain .active) (hmem .active)
  have h2 := h1.enlist (by rw [ht1]) (by rw [ht1]; exact hcb) hins (fun u => Queue.mem_insertAt)
  have harm : q.arm t nsec =
      q1.setLists .active (Queue.insertAt q1.deadline t (q1.lists .active)) := by
    rw [Queue.arm, hq1]
  have hsorted : Queue.Sorted q1.deadline (q1.lists .active) := by
    have herase : Queue.Sorted q.deadline ((q.lists .active).erase t) :=
      .sublist erase_sublist h.sorted
    rw [← hq1]
    refine herase.congr (fun u hu => update_of_ne ?_ _ _)
    exact ((List.Nodup.mem_erase_iff (h.nodup .active)).mp hu).1
  rw [harm]
  refine ⟨_, ?_, ⟨h2, ?_⟩, ?_⟩
  · have hstep : Timer.armAtNsec s t nsec =
        (findNext s1 (s1.timers t).atNsec (n + 1) s1.active.head).bind (fun next =>
          some ((s1.setList .active (insertNext s1 t next)).setTimer t
            { s1.timers t with list := some .active })) := by
      subst hs1
      rw [Timer.armAtNsec, if_neg (by simp [hcb])]
      rfl
    rw [hstep, hfind, Option.bind_some]
  · simpa using hsorted.insertAt t
  · intro u
    by_cases hu : u = t
    · subst hu
      simp [ht1]
    · simp [hu, htimers]

theorem Represents.disarm_cb (s : State n) (t u : Fin n) :
    ((Timer.disarm s t).timers u).cb = (s.timers u).cb := by
  rw [Timer.disarm, Lists.detach_timers]
  by_cases hu : u = t
  · subst hu
    rw [update_self]
  · rw [update_of_ne hu]

/-! ## Callbacks -/

/-- The timer that a call is about. -/
def Act.target : Act n → Fin n
  | .arm t _ => t
  | .disarm t => t

/-- What a call does to the queue. -/
def Queue.act (q : Queue n) : Act n → Queue n
  | .arm t nsec => q.arm t nsec
  | .disarm t => q.remove t

/-- The calls are about timers that are initialised. -/
def Allowed (s : State n) (as : List (Act n)) : Prop :=
  ∀ t nsec, Act.arm t nsec ∈ as → (s.timers t).cb = true

theorem Allowed.of_subset {as as' : List (Act n)} (h : Allowed s as) (hsub : as' ⊆ as) :
    Allowed s as' := fun t nsec hm => h t nsec (hsub hm)

theorem Allowed.congr {s' : State n} {as : List (Act n)} (h : Allowed s as)
    (hcb : ∀ u, (s'.timers u).cb = (s.timers u).cb) : Allowed s' as := fun t nsec hm => by
  rw [hcb]
  exact h t nsec hm

theorem Represents.act {a : Act n} (h : Represents s q) (ha : Allowed s [a]) :
    ∃ s', act s a = some s' ∧ Represents s' (q.act a) ∧
      ∀ u, (s'.timers u).cb = (s.timers u).cb := by
  cases a with
  | arm t nsec => exact h.armAtNsec (ha t nsec (by simp)) nsec
  | disarm t => exact ⟨_, rfl, h.disarm t, disarm_cb s t⟩

theorem Represents.acts {as : List (Act n)} (h : Represents s q) (ha : Allowed s as) :
    ∃ s', acts s as = some s' ∧ Represents s' (as.foldl Queue.act q) ∧
      ∀ u, (s'.timers u).cb = (s.timers u).cb := by
  induction as generalizing s q with
  | nil => exact ⟨s, rfl, h, fun _ => rfl⟩
  | cons a as ih =>
    obtain ⟨s1, h1, hr1, hcb1⟩ := h.act (a := a) (ha.of_subset (by simp))
    obtain ⟨s2, h2, hr2, hcb2⟩ := ih hr1 ((ha.of_subset (subset_cons_self a as)).congr hcb1)
    refine ⟨s2, ?_, hr2, fun u => (hcb2 u).trans (hcb1 u)⟩
    unfold Timer.acts at h2 ⊢
    rw [foldlM_cons, h1]
    exact h2

/-! ## For when a timer is armed -/

/-- The deadline of a timer, if it is armed. -/
def armedFor (s : State n) (t : Fin n) : Option Nat :=
  if isArmed s t then some (s.timers t).atNsec else none

def Queue.armedFor (q : Queue n) (t : Fin n) : Option Nat :=
  if t ∈ q.lists .active ∨ t ∈ q.lists .pending then some (q.deadline t) else none

/-- What a call makes of the deadline of a timer. -/
def Act.armedFor (t : Fin n) (deadline : Option Nat) : Act n → Option Nat
  | .arm u nsec => if u = t then some nsec else deadline
  | .disarm u => if u = t then none else deadline

theorem Represents.armedFor_eq (h : Represents s q) (t : Fin n) :
    armedFor s t = q.armedFor t := by
  have harmed : isArmed s t = true ↔ t ∈ q.lists .active ∨ t ∈ q.lists .pending := by
    rw [isArmed, Option.isSome_iff_exists, ← h.mem, ← h.mem]
    constructor
    · rintro ⟨id, hid⟩
      cases id
      · exact .inl hid
      · exact .inr hid
    · rintro (hid | hid) <;> exact ⟨_, hid⟩
  simp only [armedFor, Queue.armedFor, harmed, h.deadline]

theorem Queue.armedFor_remove (hnd : ∀ id, (q.lists id).Nodup) (t u : Fin n) :
    (q.remove u).armedFor t = if u = t then none else q.armedFor t := by
  by_cases hu : u = t
  · subst hu
    simp [armedFor, remove, (hnd _).mem_erase_iff]
  · simp [armedFor, remove, hu, mem_erase_of_ne (Ne.symm hu)]

theorem Queue.armedFor_act (hnd : ∀ id, (q.lists id).Nodup) (t : Fin n) (a : Act n) :
    (q.act a).armedFor t = a.armedFor t (q.armedFor t) := by
  cases a with
  | disarm u => exact armedFor_remove hnd t u
  | arm u nsec =>
    by_cases hu : u = t
    · subst hu
      simp [act, arm, armedFor, Act.armedFor, mem_insertAt, remove, setDeadline]
    · simp [act, arm, armedFor, Act.armedFor, mem_insertAt, remove, setDeadline, hu, Ne.symm hu,
        mem_erase_of_ne, lists_setLists_of_ne]

theorem Represents.armedFor_acts {as : List (Act n)} (h : Represents s q) (ha : Allowed s as)
    (t : Fin n) :
    (as.foldl Queue.act q).armedFor t = as.foldl (Act.armedFor t) (q.armedFor t) := by
  induction as generalizing s q with
  | nil => rfl
  | cons a as ih =>
    obtain ⟨s1, -, h1, hcb1⟩ := h.act (a := a) (ha.of_subset (by simp))
    rw [foldl_cons, foldl_cons, ih h1 ((ha.of_subset (subset_cons_self a as)).congr hcb1),
      Queue.armedFor_act (fun id => h.nodup id)]

/-- A call about the timer is among the calls. -/
def touched (as : List (Act n)) (t : Fin n) : Bool := as.any (fun a => a.target = t)

/-- A callback takes the timers that it touches out of the pending ones. -/
theorem Queue.lists_acts_pending (as : List (Act n)) (hnd : (q.lists .pending).Nodup) :
    (as.foldl Queue.act q).lists .pending = (q.lists .pending).filter (fun t => !touched as t) := by
  induction as generalizing q with
  | nil => simp [touched]
  | cons a as ih =>
    have hpend : (q.act a).lists .pending = (q.lists .pending).erase a.target := by
      cases a <;> rfl
    rw [foldl_cons, ih (hpend ▸ hnd.erase _), hpend, hnd.erase_eq_filter, filter_filter]
    refine filter_congr (fun t _ => ?_)
    by_cases hta : t = a.target
    · simp [touched, hta]
    · simp [touched, hta, Ne.symm hta]

end OpenSync.Osw.Timer
