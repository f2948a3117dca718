import OpenSync.Osw.TimerQueue

/-!
# A round of the timers

The first loop of `osw_timer_core_dispatch` moves the timers that are due to the pending list, and
the second loop runs them.  `Served beh k pend calls` describes a round over the pending timers
`pend`: each step runs the first one, and the timers that its callback touches are out of the round.

The invariant of the lists holds in every state that arming, disarming and the steps of a dispatch
can reach, also in the middle of a callback.
-/

namespace OpenSync.Osw.Timer

open OpenSync.Ds Function List Option OpenSync.Osw.Timer

variable {n : Nat}

/-! ## The first loop -/

variable {s : State n} {q : Queue n} {fuel : Nat} {s' : State n}

variable {t : Fin n} {ts : List (Fin n)} {now : Nat} {beh : Nat → List (Act n)}

/-- A step moves the first armed timer to the end of the pending ones. -/
theorem Represents.prepareStep (h : Represents s q) (hact : q.lists .active = t :: ts)
    (hdue : q.deadline t ≤ now) :
    ∃ s', prepareStep now s = some s' ∧
      Represents s' ((q.setLists .active ts).setLists .pending (q.lists .pending ++ [t])) ∧
      ∀ u, (s'.timers u).cb = (s.timers u).cb := by
  have ht : t ∈ q.lists .active := hact ▸ mem_cons_self
  have hpend : t ∉ q.lists .pending := h.not_mem_of_ne ht (by decide)
  have hq : q.remove t = q.setLists .active ts := by
    unfold Queue.remove Queue.setLists
    congr 1
    funext id
    cases id with
    | active => simp [hact]
    | pending => simp [erase_of_not_mem hpend]
  have h1 := h.toLists.unlist ht
  rw [hq] at h1
  have hnone : ((s.unlist .active t).timers t).list = none := by simp
  have hcb : ((s.unlist .active t).timers t).cb = true := by
    simpa using h.cb t (by rw [(h.mem t .active).mpr ht]; simp)
  have hins := Dlist.insertTail_spec (h1.chain .pending) hpend
  have h2 := h1.enlist hnone hcb hins (fun u => by
    rw [mem_append, mem_singleton]
    exact or_comm)
  refine ⟨_, ?_, ⟨h2, ?_⟩, ?_⟩
  · have hhead : s.active.head = some t := by
      have := (h.chain .active).head
      rw [hact] at this
      exact this
    have hnow : ¬ (s.timers t).atNsec > now := by
      rw [h.deadline]
      exact Nat.not_lt.mpr hdue
    rw [Timer.prepareStep, hhead]
    simp only [if_neg hnow]
    rfl
  · have hs := h.sorted
    rw [hact] at hs
    rw [Queue.lists_setLists_of_ne _ _ (by decide), Queue.lists_setLists_self]
    exact (pairwise_cons.mp hs).2
  · intro u
    by_cases hu : u = t
    · subst hu
      simp
    · simp [hu]

theorem Represents.prepareStep_none (h : Represents s q)
    (hhead : ∀ t ∈ (q.lists .active).head?, now < q.deadline t) :
    Timer.prepareStep now s = none := by
  have hchain : s.active.head = (q.lists .active).head? := (h.chain .active).head
  rw [Timer.prepareStep, hchain]
  cases hh : (q.lists .active).head? with
  | none => rfl
  | some t =>
    have hlt := hhead t hh
    rw [← h.deadline] at hlt
    exact if_pos hlt

/-- The first loop makes the timers that are due pending. -/
theorem Represents.prepare (now : Nat) (h : Represents s q)
    (hfuel : (q.lists .active).length < fuel) :
    ∃ s' q', prepare now fuel s = some s' ∧ Represents s' q' ∧ q'.lists .pending =
        q.lists .pending ++ (q.lists .active).takeWhile (fun t => q.deadline t ≤ now) ∧
      (∀ u, (s'.timers u).cb = (s.timers u).cb) ∧ ∀ u, q'.armedFor u = q.armedFor u := by
  induction hact : q.lists .active generalizing s q fuel with
  | nil =>
    obtain ⟨fuel, rfl⟩ : ∃ m, fuel = m + 1 := ⟨fuel - 1, by omega⟩
    refine ⟨s, q, ?_, h, by simp, fun _ => rfl, fun _ => rfl⟩
    rw [prepare, h.prepareStep_none (by simp [hact])]
  | cons t ts ih =>
    obtain ⟨fuel, rfl⟩ : ∃ m, fuel = m + 1 := ⟨fuel - 1, by omega⟩
    by_cases hdue : q.deadline t ≤ now
    · obtain ⟨s1, hs1, h1, hcb1⟩ := h.prepareStep hact hdue
      rw [hact] at hfuel
      have hact1 :
          ((q.setLists .active ts).setLists .pending (q.lists .pending ++ [t])).lists .active =
          ts := by
        rw [Queue.lists_setLists_of_ne _ _ (by decide), Queue.lists_setLists_self]
      obtain ⟨s2, q2, hs2, h2, hpend, hcb2, harm2⟩ :=
        ih h1 (by rw [hact1]; simpa using hfuel) hact1
      refine ⟨s2, q2, ?_, h2, ?_, fun u => (hcb2 u).trans (hcb1 u), fun u => ?_⟩
      · rw [prepare, hs1]
        exact hs2
      · rw [hpend, takeWhile_cons_of_pos (by simpa using hdue), Queue.lists_setLists_self,
          append_assoc, singleton_append]
        rfl
      · rw [harm2, Queue.armedFor, Queue.armedFor, hact1, hact, Queue.lists_setLists_self]
        simp only [mem_append, mem_cons, not_mem_nil, or_false]
        congr 1
        simp only [eq_iff_iff]
        tauto
    · refine ⟨s, q, ?_, h, ?_, fun _ => rfl, fun _ => rfl⟩
      · rw [prepare, h.prepareStep_none (by simpa [hact] using Nat.not_le.mp hdue)]
      · rw [takeWhile_cons_of_neg (by simpa using hdue), append_nil]

/-! ## The second loop -/

/-- A round over the pending timers, from the `k`-th callback on. -/
inductive Served (beh : Nat → List (Act n)) : Nat → List (Fin n) → List (Call n) → Prop where
  | done (k : Nat) : Served beh k [] []
  | call {k : Nat} {t : Fin n} {ts : List (Fin n)} {calls : List (Call n)}
      (h : Served beh (k + 1) (ts.filter (fun u => !touched (beh k) u)) calls) :
      Served beh k (t :: ts) (⟨t, beh k⟩ :: calls)

theorem Represents.popPending (h : Represents s q) (hpend : q.lists .pending = t :: ts) :
    popPending s = some (t, s.unlist .pending t) ∧
      Represents (s.unlist .pending t) (q.remove t) ∧ (q.remove t).lists .pending = ts ∧
      (s.timers t).cb = true ∧ ∀ u, ((s.unlist .pending t).timers u).cb = (s.timers u).cb := by
  have ht : t ∈ q.lists .pending := hpend ▸ mem_cons_self
  have hhead : s.pending.head = some t := by
    have := (h.chain .pending).head
    rw [hpend] at this
    exact this
  refine ⟨?_, ⟨h.toLists.unlist ht, .sublist erase_sublist h.sorted⟩, ?_, ?_, ?_⟩
  · rw [Timer.popPending, hhead]
  · simp [Queue.remove, hpend]
  · exact h.cb t (by rw [(h.mem t .pending).mpr ht]; simp)
  · intro u
    rw [State.timers_unlist]
    by_cases hu : u = t
    · subst hu
      rw [update_self]
    · rw [update_of_ne hu]

/-- A timer is disarmed when it runs, and then its callback acts. -/
def Call.armedFor (t : Fin n) (deadline : Option Nat) (c : Call n) : Option Nat :=
  c.acts.foldl (Act.armedFor t) (if c.timer = t then none else deadline)

/-- The second loop is such a round. -/
theorem Represents.dispatch {k : Nat} (h : Represents s q) (hbeh : ∀ k, Allowed s (beh k))
    (hfuel : (q.lists .pending).length < fuel) :
    ∃ s' q' calls, dispatch beh fuel k s = some (s', calls) ∧ Represents s' q' ∧
      q'.lists .pending = [] ∧ Served beh k (q.lists .pending) calls ∧
      ∀ u, q'.armedFor u = calls.foldl (Call.armedFor u) (q.armedFor u) := by
  induction fuel generalizing s q k with
  | zero => omega
  | succ fuel ih =>
    cases hpend : q.lists .pending with
    | nil =>
      have hhead : s.pending.head = (q.lists .pending).head? := (h.chain .pending).head
      refine ⟨s, q, [], ?_, h, hpend, .done k, fun _ => rfl⟩
      rw [Timer.dispatch, Timer.popPending, hhead, hpend]
      rfl
    | cons t ts =>
      -- the timer leaves the pending ones and its callback runs
      obtain ⟨hpop, h1, hts, hcb, hcb1⟩ := h.popPending hpend
      have hallow := (hbeh k).congr hcb1
      obtain ⟨s2, hs2, h2, hcb2⟩ := h1.acts hallow
      have hpend2 := Queue.lists_acts_pending (beh k) (h1.nodup .pending)
      rw [hts] at hpend2
      -- the rest of the round
      have hbeh2 : ∀ k, Allowed s2 (beh k) := fun k => ((hbeh k).congr hcb1).congr hcb2
      have hlen : ((foldl Queue.act (q.remove t) (beh k)).lists .pending).length < fuel := by
        rw [hpend] at hfuel
        rw [hpend2]
        exact Nat.lt_of_le_of_lt (length_filter_le _ ts) (by simpa using hfuel)
      obtain ⟨s3, q3, calls, hs3, h3, hempty, hserved, harm⟩ := ih (k := k + 1) h2 hbeh2 hlen
      rw [hpend2] at hserved
      refine ⟨s3, q3, ⟨t, beh k⟩ :: calls, ?_, h3, hempty, .call hserved, fun u => ?_⟩
      · have hcbt : ((s.unlist .pending t).timers t).cb = true := (hcb1 t).trans hcb
        rw [dispatch, hpop]
        simp only [hcbt, Bool.not_true, Bool.false_eq_true, if_false, hs2, bind_eq_bind,
          bind_some, hs3]
        rfl
      · rw [harm, h1.armedFor_acts hallow, Queue.armedFor_remove (fun id => h.nodup id)]
        rfl

/-! ## What a round runs -/

namespace Served

variable {beh : Nat → List (Act n)} {k : Nat} {pend : List (Fin n)} {calls : List (Call n)}

section

variable (h : Served beh k pend calls)

include h

theorem sublist : (calls.map Call.timer).Sublist pend := by
  induction h with
  | done k => exact .refl _
  | call h ih => exact (ih.trans filter_sublist).cons_cons _

/-- No callback touches a timer that runs after it. -/
theorem untouched : calls.Pairwise (fun c c' => touched c.acts c'.timer = false) := by
  induction h with
  | done k => exact .nil
  | @call k t ts calls h ih =>
    refine pairwise_cons.mpr ⟨fun c hc => ?_, ih⟩
    have hmem := h.sublist.subset (mem_map_of_mem (f := Call.timer) hc)
    simpa using (mem_filter.mp hmem).2

/-- A pending timer runs exactly if no timer before it touches it. -/
theorem mem_iff (hnd : pend.Nodup) {pre post : List (Fin n)} {t : Fin n}
    (hpend : pend = pre ++ t :: post) : t ∈ calls.map Call.timer ↔
      ∀ c ∈ calls, c.timer ∈ pre → touched c.acts t = false := by
  induction h generalizing pre post with
  | done k => simp at hpend
  | @call k u ts calls h ih =>
    obtain ⟨hu, hnd'⟩ := nodup_cons.mp hnd
    cases pre with
    | nil =>
      cases hpend
      simp
    | cons v pre =>
      obtain ⟨rfl, rfl⟩ := cons.inj hpend
      have htu : t ≠ u := by
        rintro rfl
        simp at hu
      have hran : ∀ c ∈ calls, touched (beh k) c.timer = false := by
        intro c hc
        have hmem := h.sublist.subset (mem_map_of_mem (f := Call.timer) hc)
        simpa using (mem_filter.mp hmem).2
      have hhead : t ∈ (⟨u, beh k⟩ :: calls : List (Call n)).map Call.timer ↔
          t ∈ calls.map Call.timer := by
        simp [htu]
      rw [hhead]
      by_cases htouch : touched (beh k) t = false
      · -- the timer stays in the round, and so does the order around it
        have hfilter : (pre ++ t :: post).filter (fun w => !touched (beh k) w) =
            pre.filter (fun w => !touched (beh k) w) ++
              t :: post.filter (fun w => !touched (beh k) w) := by
          rw [filter_append, filter_cons_of_pos (by simpa using htouch)]
        rw [ih (hnd'.filter _) hfilter]
        constructor
        · intro hall c hc hcpre
          rcases mem_cons.mp hc with rfl | hc
          · exact htouch
          refine hall c hc (mem_filter.mpr ⟨?_, by simpa using hran c hc⟩)
          rcases mem_cons.mp hcpre with hcu | hcpre
          · have hmem := h.sublist.subset (mem_map_of_mem (f := Call.timer) hc)
            exact absurd (hcu ▸ (mem_filter.mp hmem).1) hu
          · exact hcpre
        · intro hall c hc hcpre
          exact hall c (mem_cons_of_mem _ hc)
            (mem_cons_of_mem _ (mem_filter.mp hcpre).1)
      · constructor
        · intro hmem
          obtain ⟨c, hc, rfl⟩ := mem_map.mp hmem
          exact absurd (hran c hc) htouch
        · intro hall
          exact absurd (hall ⟨u, beh k⟩ mem_cons_self mem_cons_self) htouch

/-- The `j`-th call has done what the behaviour says. -/
theorem acts_eq {j : Nat} {c : Call n} (hc : calls[j]? = some c) : c.acts = beh (k + j) := by
  induction h generalizing j with
  | done k => simp at hc
  | @call k t ts calls h ih =>
    cases j with
    | zero =>
      simp only [getElem?_cons_zero, some.injEq] at hc
      rw [← hc, Nat.add_zero]
    | succ j =>
      rw [ih hc]
      congr 1
      omega

end

end Served

/-! ## Reachable states -/

/-- The states that calls and the steps of a dispatch can reach. -/
inductive Reachable : State n → Prop where
  | start : Reachable State.start
  | init {s : State n} (t : Fin n) (h : Reachable s) (ht : (s.timers t).list = none) :
      Reachable (timerInit s t)
  | act {s s' : State n} {a : Act n} (h : Reachable s) (hs : act s a = some s') : Reachable s'
  | enter {s : State n} (h : Reachable s) (hp : s.pending.head = none) :
      Reachable { s with pending := Dlist.init }
  | prepare {s s' : State n} {now : Nat} (h : Reachable s) (hs : prepareStep now s = some s') :
      Reachable s'
  | pop {s s' : State n} {t : Fin n} (h : Reachable s) (hs : popPending s = some (t, s')) :
      Reachable s'

attribute [local simp] Timer.timerInit Queue.setDeadline

theorem Represents.timerInit (h : Represents s q) (ht : (s.timers t).list = none) :
    Represents (timerInit s t) (q.setDeadline t 0) := by
  have hnone := h.not_mem_of_none ht
  have hother : ∀ id, ∀ u ∈ q.lists id, u ≠ t := by
    rintro id u hu rfl
    exact hnone id hu
  refine ⟨⟨fun id => ?_, fun u id => ?_, fun u => ?_, fun u => ?_⟩, ?_⟩
  · have hchain := h.chain id
    have hnodes : Dlist.Chain (update s.nodes t ⟨none, none⟩) (s.list id) (q.lists id) :=
      hchain.congr (fun u hu => update_of_ne (hother id u hu) _ _)
    cases id <;> exact hnodes
  · by_cases hu : u = t
    · subst hu
      simpa using hnone id
    · simpa [hu] using
        h.mem u id
  · by_cases hu : u = t
    · subst hu
      simp
    · simpa [hu] using
        h.deadline u
  · by_cases hu : u = t
    · subst hu
      simp
    · simpa [hu] using h.cb u
  · exact h.sorted.congr (fun u hu => update_of_ne (hother .active u hu) _ _)

theorem Represents.pending_eq_nil (h : Represents s q) (hp : s.pending.head = none) :
    q.lists .pending = [] := by
  have hhead : s.pending.head = (q.lists .pending).head? := (h.chain .pending).head
  exact head?_eq_none_iff.mp (hhead.symm.trans hp)

theorem Represents.enter (h : Represents s q) (hp : s.pending.head = none) :
    Represents { s with pending := Dlist.init } q := by
  refine ⟨⟨fun id => ?_, h.mem, h.deadline, h.cb⟩, h.sorted⟩
  cases id with
  | active => exact h.chain .active
  | pending =>
    rw [h.pending_eq_nil hp]
    exact Dlist.chain_init

/-- In every reachable state the lists are in order. -/
theorem Reachable.represents (h : Reachable s) : ∃ q, Represents s q := by
  induction h with
  | start =>
    refine ⟨⟨fun _ => [], fun _ => 0⟩, ⟨fun id => ?_, by simp [State.start], fun t => rfl,
      by simp [State.start]⟩, .nil⟩
    cases id <;> exact Dlist.chain_init
  | init t _ ht ih =>
    obtain ⟨q, hq⟩ := ih
    exact ⟨_, hq.timerInit ht⟩
  | @act s s' a _ hs ih =>
    obtain ⟨q, hq⟩ := ih
    have hallow : Allowed s [a] := by
      intro t nsec hm
      rw [mem_singleton] at hm
      subst hm
      by_contra hcb
      simp [Timer.act, armAtNsec, hcb] at hs
    obtain ⟨s1, hs1, h1, -⟩ := hq.act hallow
    cases some.inj (hs.symm.trans hs1)
    exact ⟨_, h1⟩
  | enter _ hp ih =>
    obtain ⟨q, hq⟩ := ih
    exact ⟨q, hq.enter hp⟩
  | @prepare s s' now _ hs ih =>
    obtain ⟨q, hq⟩ := ih
    cases hact : q.lists .active with
    | nil =>
      rw [hq.prepareStep_none (by simp [hact])] at hs
      cases hs
    | cons t ts =>
      by_cases hdue : q.deadline t ≤ now
      · obtain ⟨s1, hs1, h1, -⟩ := hq.prepareStep hact hdue
        cases some.inj (hs.symm.trans hs1)
        exact ⟨_, h1⟩
      · rw [hq.prepareStep_none (by simpa [hact] using Nat.not_le.mp hdue)] at hs
        cases hs
  | @pop s s' t _ hs ih =>
    obtain ⟨q, hq⟩ := ih
    cases hpend : q.lists .pending with
    | nil =>
      have hhead : s.pending.head = (q.lists .pending).head? := (hq.chain .pending).head
      rw [popPending, hhead, hpend] at hs
      cases hs
    | cons u ts =>
      obtain ⟨hpop, h1, -⟩ := hq.popPending hpend
      cases some.inj (hs.symm.trans hpop)
      exact ⟨_, h1⟩

theorem Reachable.acts {as : List (Act n)} (h : Reachable s) (hs : acts s as = some s') :
    Reachable s' := by
  induction as generalizing s with
  | nil =>
    cases hs
    exact h
  | cons a as ih =>
    obtain ⟨s1, hs1, hs2⟩ := bind_eq_some_iff.mp hs
    exact ih (h.act hs1) hs2

theorem Reachable.prepareLoop (h : Reachable s) (hs : Timer.prepare now fuel s = some s') :
    Reachable s' := by
  induction fuel generalizing s with
  | zero => cases hs
  | succ fuel ih =>
    rw [Timer.prepare] at hs
    cases hstep : prepareStep now s with
    | none =>
      rw [hstep] at hs
      cases hs
      exact h
    | some s1 =>
      rw [hstep] at hs
      exact ih (h.prepare hstep) hs

theorem Reachable.dispatchLoop {k : Nat} {calls : List (Call n)} (h : Reachable s)
    (hs : Timer.dispatch beh fuel k s = some (s', calls)) : Reachable s' := by
  induction fuel generalizing s k calls with
  | zero => cases hs
  | succ fuel ih =>
    rw [dispatch] at hs
    cases hpop : popPending s with
    | none =>
      rw [hpop] at hs
      cases hs
      exact h
    | some r =>
      obtain ⟨t, s1⟩ := r
      simp only [hpop] at hs
      split_ifs at hs
      obtain ⟨s2, hs2, hs⟩ := bind_eq_some_iff.mp hs
      obtain ⟨⟨s3, calls'⟩, hs3, hs⟩ := bind_eq_some_iff.mp hs
      cases hs
      exact ih ((h.pop hpop).acts hs2) hs3

/-! ## A whole dispatch -/

/-- What a dispatch at the time `now` does when the callbacks behave as `beh` says.  `due` are the
timers due at entry, in the order of their deadlines. -/
structure Round (now : Nat) (beh : Nat → List (Act n)) (s s' : State n) (due : List (Fin n))
    (calls : List (Call n)) : Prop where
  mem_due : ∀ t, t ∈ due ↔ (s.timers t).list = some .active ∧ (s.timers t).atNsec ≤ now
  nodup : due.Nodup
  ordered : due.Pairwise (fun t u => (s.timers t).atNsec ≤ (s.timers u).atNsec)
  /-- the callbacks that ran did what the behaviour says -/
  acts : ∀ k c, calls[k]? = some c → c.acts = beh k
  /-- the timers that run are due, each runs once, and they run in order -/
  sublist : (calls.map Call.timer).Sublist due
  /-- a timer that is due runs unless it is disarmed or armed again before its turn -/
  ran : ∀ pre t post, due = pre ++ t :: post →
    (t ∈ calls.map Call.timer ↔ ∀ c ∈ calls, c.timer ∈ pre → touched c.acts t = false)
  /-- no timer runs that was armed or disarmed earlier in the round -/
  untouched : calls.Pairwise (fun c c' => touched c.acts c'.timer = false)
  /-- a timer that runs is disarmed before its callback, and each callback arms and disarms -/
  armed : ∀ t, armedFor s' t = calls.foldl (Call.armedFor t) (armedFor s t)
  /-- no timer is pending after the round -/
  idle : s'.pending.head = none ∧ ∀ t, (s'.timers t).list ≠ some .pending
  /-- the next deadline is the least one of the armed timers -/
  next : ∀ m, getNextAt s' = some m → (∃ t, isArmed s' t = true ∧ (s'.timers t).atNsec = m) ∧
      ∀ t, isArmed s' t = true → m ≤ (s'.timers t).atNsec
  next_none : getNextAt s' = none ↔ ∀ t, isArmed s' t = false

theorem Represents.isArmed_iff (h : Represents s q) (hp : q.lists .pending = []) (t : Fin n) :
    isArmed s t = true ↔ t ∈ q.lists .active := by
  rw [isArmed, isSome_iff_exists]
  constructor
  · rintro ⟨id, hid⟩
    have hmem := (h.mem t id).mp hid
    cases id with
    | active => exact hmem
    | pending =>
      rw [hp] at hmem
      cases hmem
  · intro hmem
    exact ⟨.active, (h.mem t .active).mpr hmem⟩

/-- The head of the armed timers has the least deadline. -/
theorem Represents.getNextAt (h : Represents s q) (hp : q.lists .pending = []) :
    (∀ m, getNextAt s = some m → (∃ t, isArmed s t = true ∧ (s.timers t).atNsec = m) ∧
        ∀ t, isArmed s t = true → m ≤ (s.timers t).atNsec) ∧
      (Timer.getNextAt s = none ↔ ∀ t, isArmed s t = false) := by
  have harmed := h.isArmed_iff hp
  have hhead : s.active.head = (q.lists .active).head? := (h.chain .active).head
  have hsorted := h.sorted
  rw [Timer.getNextAt, hhead]
  cases hact : q.lists .active with
  | nil =>
    rw [hact] at harmed
    refine ⟨(fun m hm => nomatch hm), iff_of_true rfl (fun t => ?_)⟩
    exact Bool.eq_false_iff.mpr (fun ht => not_mem_nil ((harmed t).mp ht))
  | cons t ts =>
    rw [hact] at harmed hsorted
    refine ⟨fun m hm => ?_, iff_of_false (by simp) (fun hall => ?_)⟩
    · cases hm
      refine ⟨⟨t, (harmed t).mpr mem_cons_self, rfl⟩, fun u hu => ?_⟩
      simp only [h.deadline]
      rcases mem_cons.mp ((harmed u).mp hu) with rfl | hu
      · exact le_rfl
      · exact (pairwise_cons.mp hsorted).1 u hu
    · have := (harmed t).mpr mem_cons_self
      rw [hall t] at this
      cases this

/-- The lists are in order in every reachable state, and a dispatch ends and is a round. -/
theorem coreDispatch_round {s : State n} (hs : Reachable s) :
    (∃ q, Represents s q) ∧
      ∀ (now : Nat) (beh : Nat → List (Act n)), s.pending.head = none → (∀ k, Allowed s (beh k)) →
        ∃ s' due calls, coreDispatch now beh s = some (s', calls) ∧ Reachable s' ∧
          Round now beh s s' due calls := by
  obtain ⟨q, hq⟩ := hs.represents
  refine ⟨⟨q, hq⟩, fun now beh hp hbeh => ?_⟩
  have hpend := hq.pending_eq_nil hp
  -- the two loops
  obtain ⟨s1, q1, hs1, h1, hpend1, hcb1, harm1⟩ :=
    (hq.enter hp).prepare now (hq.length_lt .active)
  rw [hpend] at hpend1
  have hbeh1 : ∀ k, Allowed s1 (beh k) := fun k => (hbeh k).congr hcb1
  obtain ⟨s2, q2, calls, hs2, h2, hpend2, hserved, harm2⟩ :=
    h1.dispatch (k := 0) hbeh1 (h1.length_lt .pending)
  rw [hpend1] at hserved
  have hrun : coreDispatch now beh s = some (s2, calls) := by
    rw [coreDispatch, hs1]
    exact hs2
  refine ⟨s2, (q.lists .active).takeWhile (fun t => q.deadline t ≤ now), calls, hrun,
    ((hs.enter hp).prepareLoop hs1).dispatchLoop hs2, ?_⟩
  -- the timers that are due are the first ones of the list
  have hfront := takeWhile_sublist (l := q.lists .active) fun t => decide (q.deadline t ≤ now)
  have hnd := (hq.nodup .active).sublist hfront
  have hhead2 : s2.pending.head = (q2.lists .pending).head? := (h2.chain .pending).head
  exact
    { mem_due := fun t => by rw [hq.mem, hq.deadline]; exact hq.sorted.mem_takeWhile
      nodup := hnd
      ordered := by
        simp only [hq.deadline]
        exact hq.sorted.sublist hfront
      acts := fun k c hc => by simpa using hserved.acts_eq hc
      sublist := hserved.sublist
      ran := fun pre t post hdue => hserved.mem_iff hnd hdue
      untouched := hserved.untouched
      armed := fun t => by rw [h2.armedFor_eq, hq.armedFor_eq, harm2, harm1]
      idle := ⟨by rw [hhead2, hpend2]; rfl, fun t ht => by
        have hmem := (h2.mem t .pending).mp ht
        rw [hpend2] at hmem
        cases hmem⟩
      next := (h2.getNextAt hpend2).1
      next_none := (h2.getNextAt hpend2).2 }

/-- Three timers, with deadlines 5, 7 and 20. -/
def threeTimers : Option (State 3) :=
  acts (timerInit (timerInit (timerInit State.start 0) 1) 2) [.arm 2 20, .arm 0 5, .arm 1 7]

/-- The first callback disarms the second timer and arms its own again. -/
def rearming (k : Nat) : List (Act 3) := if k = 0 then [.disarm 1, .arm 0 3] else []

theorem coreDispatch_round_threeTimers :
    ∃ s, threeTimers = some s ∧ Reachable s ∧ s.pending.head = none ∧
      (∀ k, Allowed s (rearming k)) ∧
      ∃ s' due calls, coreDispatch 10 rearming s = some (s', calls) ∧
        Round 10 rearming s s' due calls := by
  obtain ⟨s, hs⟩ := isSome_iff_exists.mp (show threeTimers.isSome = true by decide +kernel)
  have hreach : Reachable s :=
    (((Reachable.start.init 0 rfl).init 1 rfl).init 2 rfl).acts hs
  have hidle : s.pending.head = none := by
    have : threeTimers.map (fun s => s.pending.head) = some none := by decide +kernel
    rw [hs] at this
    exact some.inj this
  have hallow : ∀ k, Allowed s (rearming k) := by
    have hcb : threeTimers.map (fun s => (s.timers 0).cb) = some true := by decide +kernel
    rw [hs] at hcb
    intro k t nsec hm
    unfold rearming at hm
    split_ifs at hm
    · simp only [mem_cons, reduceCtorEq, Act.arm.injEq, not_mem_nil, or_false, false_or] at hm
      rw [hm.1]
      exact some.inj hcb
    · cases hm
  obtain ⟨s', due, calls, hrun, -, hround⟩ := (coreDispatch_round hreach).2 10 rearming hidle hallow
  exact ⟨s, hs, hreach, hidle, hallow, s', due, calls, hrun, hround⟩

end OpenSync.Osw.Timer
