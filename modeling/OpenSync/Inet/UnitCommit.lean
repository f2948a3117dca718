import Mathlib.Data.List.Chain
import OpenSync.Inet.Unit

/-!
# The two walks of a commit

All callbacks succeed here.  The stop walk visits every unit after the units that depend on
it, the start walk visits it before them.  A visit changes the flags of its unit alone, and
issues a callback exactly when it changes `un_status`.
-/

namespace OpenSync.Inet

open OpenSync.Lib List

def succeed : Nat → Bool := fun _ => true

/-- The unit and all units above it are enabled. -/
def State.allEnabled (s : State) (u : InetUnit) : Bool :=
  u.path.all fun a => (s.flags a).enabled

/-- A callback for a unit of the tree, started while its parent was started, or stopped while no
unit that depends on it was. -/
def Call.Orderly (t : Lib.Tree Int) (c : Call) : Prop :=
  ∃ u ∈ t.nodes, u.val = c.id ∧
    (c.enable = true → ∀ p, u.parent = some p → (c.before p).status = true) ∧
    (c.enable = false → ∀ m ∈ t.nodes, m.parent = some c.id → (c.before m.val).status = false)

/-- A unit that is started and not pending has only such units above it, and all enabled. -/
def State.Live (t : Lib.Tree Int) (s : State) : Prop :=
  ∀ u ∈ t.nodes, (s.flags u.val).status = true → (s.flags u.val).pending = false →
    ∀ a ∈ u.path, (s.flags a).enabled = true ∧ (s.flags a).pending = false

/-- One visit of a unit: at most one callback, which turns the status over. -/
structure Visited (n : InetUnit) (s s' : State) : Prop where
  other : ∀ id, id ≠ n.val → s'.flags id = s.flags id
  enabled : ∀ id, (s'.flags id).enabled = (s.flags id).enabled
  calls : s'.calls = s.calls ∧ (s'.flags n.val).status = (s.flags n.val).status ∨
    ∃ e, s'.calls = s.calls ++ [⟨n.val, e, true, s.flags⟩] ∧
      (s.flags n.val).status = !e ∧ (s'.flags n.val).status = e

section Issued

variable {s s' : State} {n : InetUnit}

theorem issued_of_calls_eq (h : s'.calls = s.calls) (id : Int) : s'.issued id = s.issued id := by
  rw [State.issued, h, State.issued]

theorem issued_of_call {e : Bool} (h : s'.calls = s.calls ++ [⟨n.val, e, true, s.flags⟩])
    (id : Int) : s'.issued id = s.issued id ++ if n.val = id then [e] else [] := by
  rw [State.issued, h, State.issued, filter_append]
  by_cases hid : n.val = id <;> simp [hid]

end Issued

/-- The callbacks for each unit alternate, from the status that it was created with to the one
that it has. -/
def Alternates (started : Int → Bool) (s : State) : Prop :=
  ∀ id, (started id :: s.issued id).IsChain (· ≠ ·) ∧
    (started id :: s.issued id).getLast? = some (s.flags id).status

variable {n : InetUnit} {s : State} {t : Lib.Tree Int} {s₀ : State} {l₁ l₂ : List InetUnit}

theorem Visited.alternates {started : Int → Bool} {s' : State} (h : Visited n s s')
    (alt : Alternates started s) : Alternates started s' := by
  intro id
  obtain ⟨chain, last⟩ := alt id
  rcases h.calls with ⟨calls, status⟩ | ⟨e, calls, before, after⟩
  · rw [issued_of_calls_eq calls]
    refine ⟨chain, last.trans ?_⟩
    by_cases hid : id = n.val
    · rw [hid, status]
    · rw [h.other id hid]
  rw [issued_of_call calls]
  by_cases hid : n.val = id
  · subst hid
    rw [if_pos rfl, ← cons_append]
    refine ⟨isChain_append.mpr ⟨chain, .singleton _, ?_⟩, ?_⟩
    · intro x hx y hy
      rw [last, Option.mem_some_iff] at hx
      simp only [head?_cons, Option.mem_some_iff] at hy
      rw [← hx, ← hy, before]
      simp
    · rw [getLast?_concat, after]
  · rw [if_neg hid, append_nil, h.other id (Ne.symm hid)]
    exact ⟨chain, last⟩

theorem Visited.refl (n : InetUnit) (s : State) : Visited n s s :=
  ⟨fun _ _ => rfl, fun _ => rfl, .inl ⟨rfl, rfl⟩⟩

attribute [local simp] State.call

theorem Visited.call {e : Bool} (h : (s.flags n.val).status = !e) :
    Visited n s (s.call succeed n.val e) where
  other id hid := Function.update_of_ne hid _ _
  enabled id := by
    by_cases hid : id = n.val <;> simp [hid]
  calls := .inr ⟨e, rfl, h, by simp⟩

theorem Visited.clear (h : (s.flags n.val).status = false) :
    Visited n s (s.set n.val { s.flags n.val with pending := false, status := false }) where
  other id hid := Function.update_of_ne hid _ _
  enabled id := by
    by_cases hid : id = n.val <;> simp [hid]
  calls := .inl ⟨rfl, by simp [h]⟩

/-! ## The stop walk -/

/-- Leaving a unit on the stop walk. -/
def stopLeave (s : State) (n : InetUnit) : State := (commitStop succeed n false s).2

theorem commitStop_leave (n : InetUnit) (s : State) :
    commitStop succeed n false s = (true, stopLeave s n) := by
  unfold stopLeave commitStop
  split_ifs <;> simp_all

/-- The unit is to be stopped. -/
def State.toStop (s : State) (id : Int) : Bool :=
  (s.flags id).status && ((s.flags id).pending || !(s.flags id).enabled)

attribute [local simp] State.toStop

theorem stopLeave_spec (s : State) (n : InetUnit) :
    Visited n s (stopLeave s n) ∧ ((stopLeave s n).flags n.val).pending = false ∧
      ((stopLeave s n).flags n.val).status = ((s.flags n.val).status && !s.toStop n.val) ∧
      (stopLeave s n).calls =
        s.calls ++ if s.toStop n.val then [⟨n.val, false, true, s.flags⟩] else [] := by
  cases hen : !(s.flags n.val).pending && (s.flags n.val).enabled with
  | true =>
    have same : stopLeave s n = s := by simp [stopLeave, commitStop, hen]
    simp only [Bool.and_eq_true, Bool.not_eq_true'] at hen
    rw [same]
    exact ⟨.refl n s, hen.1, by simp [hen]⟩
  | false =>
    have hen' : ((s.flags n.val).pending || !(s.flags n.val).enabled) = true := by
      simpa using congrArg not hen
    cases hst : (s.flags n.val).status with
    | true =>
      have eq : stopLeave s n = s.call succeed n.val false := by
        simp [stopLeave, commitStop, hen, hst]
      rw [eq]
      exact ⟨.call hst, by simp, by simp [hen', hst], by simp [hen', hst, succeed]⟩
    | false =>
      have eq : stopLeave s n =
          s.set n.val { s.flags n.val with pending := false, status := false } := by
        simp [stopLeave, commitStop, hen, hst]
      rw [eq]
      exact ⟨.clear hst, by simp, by simp, by simp [hst, State.set]⟩

/-- The stop walk so far, with the units `l` visited. -/
structure Stopping (t : Lib.Tree Int) (s₀ : State) (l : List InetUnit) (s : State) : Prop where
  enabled : ∀ id, (s.flags id).enabled = (s₀.flags id).enabled
  seen : ∀ u ∈ l, (s.flags u.val).pending = false ∧
    (s.flags u.val).status = ((s₀.flags u.val).status && !s₀.toStop u.val)
  rest : ∀ id, id ∉ l.map Node.val → s.flags id = s₀.flags id
  issued : ∀ id, s.issued id =
    s₀.issued id ++ if id ∈ l.map Node.val ∧ s₀.toStop id = true then [false] else []
  calls : ∀ c ∈ s.calls, c ∈ s₀.calls ∨ c.Orderly t
  alternates : ∀ started, Alternates started s₀ → Alternates started s

theorem Stopping.leave (live : s₀.Live t) (split : t.root.post = l₁ ++ n :: l₂)
    (h : Stopping t s₀ l₁ s) : Stopping t s₀ (l₁ ++ [n]) (stopLeave s n) := by
  have hn : n ∈ t.nodes :=
    Tree.mem_post_iff.mp (split ▸ mem_append_right _ mem_cons_self)
  have fresh : n.val ∉ l₁.map Node.val := by
    have nodup := t.nodup_map_val_post
    rw [split, map_append] at nodup
    exact fun mem => (nodup_append.mp nodup).2.2 _ mem _ mem_cons_self rfl
  have flags : s.flags n.val = s₀.flags n.val := h.rest _ fresh
  have toStop : s.toStop n.val = s₀.toStop n.val := by
    rw [State.toStop, flags, State.toStop]
  obtain ⟨visited, pending, status, calls⟩ := stopLeave_spec s n
  have other : ∀ u ∈ l₁, (stopLeave s n).flags u.val = s.flags u.val := fun u hu =>
    visited.other _ fun e => fresh (e ▸ mem_map_of_mem hu)
  refine ⟨fun id => (visited.enabled id).trans (h.enabled id), ?_, ?_, ?_, ?_,
    fun started alt => visited.alternates (h.alternates started alt)⟩
  · intro u hu
    rcases mem_append.mp hu with hu | hu
    · rw [other u hu]
      exact h.seen u hu
    · obtain rfl := mem_singleton.mp hu
      exact ⟨pending, by rw [status, toStop, flags]⟩
  · intro id hid
    rw [map_append, mem_append, not_or] at hid
    rw [visited.other id (by simpa using hid.2), h.rest id hid.1]
  · intro id
    rw [State.issued, calls, filter_append, map_append, ← State.issued, h.issued id, toStop]
    by_cases hid : n.val = id
    · subst hid
      cases s₀.toStop n.val <;> simp [fresh]
    · cases s₀.toStop n.val <;> simp [hid, Ne.symm hid]
  · intro c hc
    rw [calls, mem_append] at hc
    rcases hc with hc | hc
    · exact h.calls c hc
    rw [toStop] at hc
    split at hc
    · next stops =>
      obtain rfl := mem_singleton.mp hc
      refine .inr ⟨n, hn, rfl, by simp, fun _ m hm parent => ?_⟩
      have above : n.val ∈ m.above := mem_of_mem_head? parent
      rw [(h.seen m (Tree.mem_of_post_split split hm above)).2, Bool.eq_false_iff]
      intro started
      simp only [Bool.and_eq_true] at started
      obtain ⟨status, keep⟩ := started
      simp [status] at keep
      obtain ⟨enabled, pending⟩ := live m hm status keep.1 n.val (mem_cons_of_mem _ above)
      simp [enabled, pending] at stops
    · cases hc

theorem walk_commitStop (live : s₀.Live t) :
    ∃ s, t.root.walk (commitStop succeed) s₀ = (true, s) ∧ Stopping t s₀ t.root.post s := by
  have enter : ∀ n s, commitStop succeed n true s = (true, s) := fun _ _ => rfl
  refine ⟨_, Node.walk_leave enter commitStop_leave t.root s₀, ?_⟩
  refine foldl_prefixes ?_ fun l₁ n l₂ s split h => h.leave live split
  exact ⟨fun _ => rfl, by simp, fun _ _ => rfl, by simp, fun _ => .inl, fun _ => id⟩

/-! ## The start walk -/

/-- Entering a unit on the start walk. -/
def startEnter (s : State) (n : InetUnit) : State := (commitStart succeed n true s).2

theorem commitStart_enter (n : InetUnit) (s : State) :
    commitStart succeed n true s = (true, startEnter s n) := by
  unfold startEnter commitStart
  split_ifs <;> simp_all [succeed]

/-- The unit can be started. -/
def State.toStart (s : State) (n : InetUnit) : Bool :=
  !s.parentStopped n && (s.flags n.val).enabled && !(s.flags n.val).status

theorem startEnter_spec (s : State) (n : InetUnit) :
    Visited n s (startEnter s n) ∧ ((startEnter s n).flags n.val).pending =
        ((s.flags n.val).pending && !s.toStart n) ∧
      ((startEnter s n).flags n.val).status = ((s.flags n.val).status || s.toStart n) ∧
      (startEnter s n).calls =
        s.calls ++ if s.toStart n then [⟨n.val, true, true, s.flags⟩] else [] := by
  cases hs : s.toStart n with
  | true =>
    have hs' := hs
    simp only [State.toStart, Bool.and_eq_true, Bool.not_eq_true'] at hs'
    have eq : startEnter s n = s.call succeed n.val true := by
      simp [startEnter, commitStart, hs']
    rw [eq]
    exact ⟨.call hs'.2, by simp, by simp, by simp [succeed]⟩
  | false =>
    have same : startEnter s n = s := by
      unfold startEnter commitStart
      split_ifs <;> simp_all [State.toStart]
    rw [same]
    exact ⟨.refl n s, by simp, by simp, by simp⟩

/-- The start walk so far, with the units `l` visited. -/
structure Starting (t : Lib.Tree Int) (s₀ : State) (l : List InetUnit) (s : State) : Prop where
  enabled : ∀ id, (s.flags id).enabled = (s₀.flags id).enabled
  seen : ∀ u ∈ l, (s.flags u.val).status = s₀.allEnabled u
  pending : ∀ id, (s₀.flags id).pending = false → (s.flags id).pending = false
  rest : ∀ id, id ∉ l.map Node.val → s.flags id = s₀.flags id
  issued : ∀ u ∈ t.nodes, s.issued u.val = s₀.issued u.val ++
    if u.val ∈ l.map Node.val ∧ (s₀.allEnabled u && !(s₀.flags u.val).status) = true then [true]
    else []
  calls : ∀ c ∈ s.calls, c ∈ s₀.calls ∨ c.Orderly t
  alternates : ∀ started, Alternates started s₀ → Alternates started s

/-- When a unit is entered, its parent is started if all units above are enabled. -/
theorem Starting.parentStopped (split : t.nodes = l₁ ++ n :: l₂) (h : Starting t s₀ l₁ s) :
    s.parentStopped n = !n.above.all fun a => (s₀.flags a).enabled := by
  have hn : n ∈ t.nodes := split ▸ mem_append_right _ mem_cons_self
  rcases Tree.parent_mem hn with top | ⟨p, hp, above, -⟩
  · simp [State.parentStopped, Node.parent, top]
  have mem : p.val ∈ n.above := above ▸ mem_cons_self
  have status := h.seen p (Tree.mem_of_pre_split split hp mem)
  rw [State.parentStopped, Node.parent, above, Node.path, head?_cons]
  dsimp only
  rw [status, State.allEnabled, Node.path]

section

variable (live : ∀ u ∈ t.nodes, (s₀.flags u.val).status = true → s₀.allEnabled u = true)

include live

theorem Starting.enter (split : t.nodes = l₁ ++ n :: l₂) (h : Starting t s₀ l₁ s) :
    Starting t s₀ (l₁ ++ [n]) (startEnter s n) := by
  have hn : n ∈ t.nodes := split ▸ mem_append_right _ mem_cons_self
  have fresh : n.val ∉ l₁.map Node.val := by
    have nodup := t.nodup_map_val
    rw [split, map_append] at nodup
    exact fun mem => (nodup_append.mp nodup).2.2 _ mem _ mem_cons_self rfl
  have flags : s.flags n.val = s₀.flags n.val := h.rest _ fresh
  have parent := h.parentStopped split
  have toStart : s.toStart n = (s₀.allEnabled n && !(s₀.flags n.val).status) := by
    rw [State.toStart, parent, flags, State.allEnabled, Node.path, all_cons, Bool.not_not,
      Bool.and_comm (all _ _)]
  obtain ⟨visited, pending, status, calls⟩ := startEnter_spec s n
  have other : ∀ u ∈ l₁, (startEnter s n).flags u.val = s.flags u.val := fun u hu =>
    visited.other _ fun e => fresh (e ▸ mem_map_of_mem hu)
  refine ⟨fun id => (visited.enabled id).trans (h.enabled id), ?_, ?_, ?_, ?_, ?_,
    fun started alt => visited.alternates (h.alternates started alt)⟩
  · intro u hu
    rcases mem_append.mp hu with hu | hu
    · rw [other u hu]
      exact h.seen u hu
    · obtain rfl := mem_singleton.mp hu
      cases hs : (s₀.flags u.val).status <;> simp_all
  · intro id hid
    by_cases e : id = n.val
    · rw [e, pending, flags, ← e, hid, Bool.false_and]
    · rw [visited.other id e]
      exact h.pending id hid
  · intro id hid
    rw [map_append, mem_append, not_or] at hid
    rw [visited.other id (by simpa using hid.2), h.rest id hid.1]
  · intro u hu
    rw [State.issued, calls, filter_append, map_append, ← State.issued, h.issued u hu, toStart]
    by_cases e : n = u
    · subst e
      cases s₀.allEnabled n && !(s₀.flags n.val).status <;> simp [fresh]
    · have hid : n.val ≠ u.val := fun h => e (Tree.eq_of_val hn hu h)
      cases s₀.allEnabled n && !(s₀.flags n.val).status <;> simp [hid, hid.symm]
  · intro c hc
    rw [calls, mem_append] at hc
    rcases hc with hc | hc
    · exact h.calls c hc
    split at hc
    · next starts =>
      obtain rfl := mem_singleton.mp hc
      refine .inr ⟨n, hn, rfl, fun _ p hp => ?_, by simp⟩
      simp only [State.toStart, State.parentStopped, hp, Bool.and_eq_true, Bool.not_not]
        at starts
      exact starts.1.1
    · cases hc

theorem walk_commitStart :
    ∃ s, t.root.walk (commitStart succeed) s₀ = (true, s) ∧ Starting t s₀ t.nodes s := by
  refine ⟨_, Node.walk_enter commitStart_enter (fun _ _ => rfl) t.root s₀, ?_⟩
  refine foldl_prefixes ?_ fun l₁ n l₂ s split h => h.enter live split
  exact ⟨fun _ => rfl, by simp, fun _ => id, fun _ _ => rfl, by simp, fun _ => .inl, fun _ => id⟩

end

/-! ## A commit -/

/-- What a commit does. -/
structure Committed (t : Lib.Tree Int) (s s' : State) : Prop where
  enabled : ∀ id, (s'.flags id).enabled = (s.flags id).enabled
  status : ∀ u ∈ t.nodes, (s'.flags u.val).status = s.allEnabled u
  pending : ∀ u ∈ t.nodes, (s'.flags u.val).pending = false
  issued : ∀ u ∈ t.nodes, s'.issued u.val = s.issued u.val ++
    (if s.toStop u.val = true then [false] else []) ++
    if (s.allEnabled u && !((s.flags u.val).status && !s.toStop u.val)) = true then [true]
    else []
  calls : ∀ c ∈ s'.calls, c ∈ s.calls ∨ c.Orderly t
  alternates : ∀ started, Alternates started s → Alternates started s'

theorem commit_spec (live : s.Live t) :
    ∃ s', commit succeed t.root s = (true, s') ∧ Committed t s s' := by
  obtain ⟨s1, eq1, stopped⟩ := walk_commitStop live
  have enabled1 : ∀ u, s1.allEnabled u = s.allEnabled u := fun u =>
    congrArg (u.path.all ·) (funext stopped.enabled)
  have mem_post : ∀ u ∈ t.nodes, u.val ∈ t.root.post.map Node.val := fun u hu =>
    mem_map_of_mem (Tree.mem_post_iff.mpr hu)
  have seen := fun u hu => stopped.seen u (Tree.mem_post_iff.mpr hu)
  have live1 : ∀ u ∈ t.nodes, (s1.flags u.val).status = true → s1.allEnabled u = true := by
    intro u hu status
    rw [(seen u hu).2, Bool.and_eq_true, Bool.not_eq_true'] at status
    obtain ⟨status, keep⟩ := status
    simp only [State.toStop, status, Bool.true_and, Bool.or_eq_false_iff] at keep
    rw [enabled1, State.allEnabled, all_eq_true]
    exact fun a ha => (live u hu status keep.1 a ha).1
  obtain ⟨s2, eq2, started⟩ := walk_commitStart live1
  refine ⟨s2, by rw [commit, eq1, eq2]; rfl, ?_⟩
  refine ⟨fun id => (started.enabled id).trans (stopped.enabled id), ?_, ?_, ?_, ?_, ?_⟩
  · exact fun u hu => (started.seen u hu).trans (enabled1 u)
  · exact fun u hu => started.pending _ (seen u hu).1
  · intro u hu
    rw [started.issued u hu, stopped.issued, enabled1, (seen u hu).2]
    simp [mem_post u hu, mem_map_of_mem hu]
  · intro c hc
    exact (started.calls c hc).elim (stopped.calls c) .inr
  · exact fun st alt => started.alternates st (stopped.alternates st alt)

end OpenSync.Inet
