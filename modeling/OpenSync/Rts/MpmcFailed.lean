import OpenSync.Rts.MpmcRun

/-!
# Failed registrations with the broadcast queue

`rts_mpmc_handle_init` counts the new consumer before it allocates its control nodes, and it
keeps the count when an allocation fails.  Later control nodes carry the wrong count, and the
handles that go by it do not free the nodes behind them.
-/

namespace OpenSync.Rts

open Function List Mpmc Option

namespace Mpmc

/-- The queue apart from its nodes. -/
def core (q : Mpmc) : Nat × Nat × UInt32 := (q.fresh, q.tail, q.consumer)

section

variable {q q' : Mpmc} {h : Handle} {r : Mpmc × Handle}

theorem store_core {n : Nat} {x : Node} (hs : q.store n x = some q') : q'.core = q.core := by
  unfold store at hs
  split_ifs at hs
  cases hs
  rfl

theorem release_core {c : UInt32} {n : Nat} (hr : q.release c n = some q') :
    q'.core = q.core := by
  obtain ⟨x, -, hs⟩ := bind_eq_some_iff.mp hr
  exact store_core hs

theorem push_core {n : Nat} {p : Mpmc × Nat} (hp : q.push n = some p) :
    p.1.core = (q.fresh, n, q.consumer) := by
  simp only [push, bind_eq_bind, bind_eq_some_iff] at hp
  obtain ⟨x, -, q1, h1, y, -, q2, h2, hp⟩ := hp
  cases hp
  have hcore := store_core h1
  rw [store_core h2]
  simp only [core, Prod.mk.injEq] at hcore
  simp [core, hcore]

theorem advance_core {next : Nat} (ha : q.advance h next = some r) :
    r.1.core = q.core ∧ r.2.exit = h.exit := by
  simp only [advance, bind_eq_bind, bind_eq_some_iff] at ha
  obtain ⟨x, -, q1, h1, y, -, ha⟩ := ha
  cases ha
  exact ⟨release_core h1, rfl⟩

theorem exitLoop_core {fuel : Nat} (hl : q.exitLoop h fuel = some r) :
    r.1.core = q.core ∧ r.2.exit = h.exit := by
  induction fuel generalizing q h with
  | zero => cases hl
  | succ fuel ih =>
    obtain ⟨x, -, hl⟩ := bind_eq_some_iff.mp hl
    cases hx : x.next with
    | none =>
      simp only [hx] at hl
      exact ih hl
    | some next =>
      simp only [hx] at hl
      split_ifs at hl
      · cases hl
        exact ⟨rfl, rfl⟩
      obtain ⟨a, ha, hl⟩ := bind_eq_some_iff.mp hl
      obtain ⟨hcore, hexit⟩ := advance_core ha
      obtain ⟨hcore', hexit'⟩ := ih hl
      exact ⟨hcore'.trans hcore, hexit'.trans hexit⟩

theorem handleExit_core (he : q.handleExit h = some r) :
    r.1.core = (q.fresh, h.exit, q.consumer - 1) ∧ r.2.exit = h.exit := by
  simp only [handleExit, bind_eq_bind, bind_eq_some_iff] at he
  obtain ⟨x, -, q1, h1, p, hp, l, hl, q2, h2, he⟩ := he
  cases he
  have hcore := push_core hp
  have hcore1 := store_core h1
  obtain ⟨hcore2, hexit⟩ := exitLoop_core hl
  rw [release_core h2, hcore2]
  simp only [core, Prod.mk.injEq] at hcore hcore1 ⊢
  simp [hcore, hcore1, hexit]

end

/-- `rts_mpmc_handle_init` when an allocation fails.  A control node that it has is freed before any
node knows it. -/
def handleInitFailed (q : Mpmc) : Mpmc := { q with consumer := q.consumer + 1 }

theorem handleInitFailed_iterate (k : Nat) (q : Mpmc) :
    handleInitFailed^[k] q = { q with consumer := q.consumer + .ofNat k } := by
  induction k with
  | zero => simp
  | succ k ih =>
    rw [iterate_succ_apply', ih, handleInitFailed, UInt32.ofNat_add, UInt32.add_assoc]
    rfl

end Mpmc

variable {H : Type} [DecidableEq H]

namespace State

/-- The queue after `k` failed calls of `rts_mpmc_handle_init`. -/
def failed (s : State H) (k : Nat) : State H := { s with q := handleInitFailed^[k] s.q }

/-- Which nodes are freed after the calls. -/
def frees (s : State H) (ops : List (Op H)) : Option (Nat → Bool) :=
  (s.run ops).map fun r n => (r.1.q.nodes n).freed

theorem frees_cons (s : State H) (op : Op H) (ops : List (Op H)) :
    s.frees (op :: ops) = (s.step op).bind fun r => r.1.frees ops := by
  simp only [frees, run]
  rcases s.step op with - | ⟨s1, ev⟩
  · rfl
  · simp
    rcases s1.run ops with - | r <;> rfl

/-- A handle that registers and reads a message goes past its own control node. -/
theorem frees_read (s : State H) (h : H) (hlt : s.q.tail < s.q.fresh) :
    (s.q.nodes s.q.tail).freed = true ∧ s.frees [.init h, .push, .read h] = none ∨
      ∃ f, s.frees [.init h, .push, .read h] = some f ∧
        f s.q.fresh = decide (s.q.consumer = 0) := by
  have hne : s.q.tail ≠ s.q.fresh := by omega
  have hne' : s.q.tail ≠ s.q.fresh + 1 := by omega
  have hne2 : s.q.tail ≠ s.q.fresh + 2 := by omega
  cases ht : (s.q.nodes s.q.tail).freed <;>
  simp [frees, run, step, handleInit, ctrlCreate, alloc, push, load, store, Mpmc.read, readLoop,
    schedule, advance, release, Handle.count, Node.release, Node.mk', Node.link, update_apply, hne,
    hne.symm, hne', hne2, hne2.symm, ht, Nat.add_assoc]

end State

/-- Whatever calls come later, they free the same nodes at the same points as without the `k`
failed calls. -/
def Harmless (s : State H) (live : List H) (k : Nat) : Prop :=
  ∀ ops, Legal live ops → (s.failed k).frees ops = s.frees ops

/-- The second queue is like the first with another count. -/
structure Skewed (k : UInt32) (s t : State H) : Prop where
  core_eq : t.q.core = (s.q.fresh, s.q.tail, s.q.consumer + k)
  exit_eq : ∀ h, (t.handles h).exit = (s.handles h).exit

theorem Skewed.exit {k : UInt32} {s t : State H} (h : Skewed k s t) {x : H} {r r' : Mpmc × Handle}
    (hr : s.q.handleExit (s.handles x) = some r) (hr' : t.q.handleExit (t.handles x) = some r') :
    Skewed k ⟨r.1, update s.handles x r.2⟩ ⟨r'.1, update t.handles x r'.2⟩ := by
  obtain ⟨hcore, hexit⟩ := handleExit_core hr
  obtain ⟨hcore', hexit'⟩ := handleExit_core hr'
  have hcore0 := h.core_eq
  simp only [core, Prod.mk.injEq] at hcore hcore' hcore0
  refine ⟨?_, fun y => ?_⟩
  · simp [core, hcore, hcore', hcore0, h.exit_eq, UInt32.sub_eq_add_neg, UInt32.add_assoc,
      UInt32.add_comm k]
  by_cases hy : y = x
  · subst hy
    simp [hexit, hexit', h.exit_eq]
  · simp [hy, h.exit_eq]

/-- The registered handles leave one after another. -/
theorem exits_spec {s t : State H} {live : List H} {chain : List Entry} {pos : H → Nat}
    {k : UInt32} (hs : Inv s live chain pos) (hfit : Fits chain) (hlen : live.length ≤ 2 ^ 32)
    (hst : Skewed k s t) (ops : List (Op H)) :
    ∃ s' chain' pos', Inv s' [] chain' pos' ∧ s.frees (live.map .exit ++ ops) = s'.frees ops ∧
      (t.frees (live.map .exit ++ ops) = none ∨
        ∃ t', Skewed k s' t' ∧ t.frees (live.map .exit ++ ops) = t'.frees ops) := by
  induction live generalizing s t chain with
  | nil => exact ⟨s, chain, pos, hs, rfl, .inr ⟨t, hst, rfl⟩⟩
  | cons h live ih =>
    obtain ⟨q, x, hexit, hinv⟩ := exit_spec hs hfit hlen mem_cons_self
    rw [erase_cons_head] at hinv
    have hfit' := hfit.concat (x := ⟨(s.handles h).exit, .exit, (h :: live).length - 1⟩)
      (Nat.le_trans (Nat.sub_le _ _) hlen)
    have hlen' := Nat.le_of_succ_le hlen
    simp only [map_cons, cons_append, State.frees_cons, State.step, hexit]
    cases ht : t.q.handleExit (t.handles h) with
    | none =>
      -- The second queue has failed; any other in its place shows what the first one does.
      obtain ⟨s', chain', pos', h', hs', -⟩ := ih hinv hfit' hlen'
        (t := ⟨{ q with consumer := q.consumer + k }, update s.handles h x⟩) ⟨rfl, fun _ => rfl⟩
      exact ⟨s', chain', pos', h', hs', .inl rfl⟩
    | some r => exact ih hinv hfit' hlen' (hst.exit hexit ht)

theorem legal_exits (live : List H) (h : H) :
    Legal live (live.map .exit ++ [.init h, .push, .read h]) := by
  induction live with
  | nil => simp [Legal, Allowed, after]
  | cons x live ih => simpa [Legal, Allowed, after] using ih

/-- Failed calls are harmless only when their number is a multiple of `2 ^ 32`.  Otherwise all
handles may leave, and the next handle does not free its control node when it goes past it. -/
theorem harmless_iff [Nonempty H] (ops : List (Op H)) (hops : Legal [] ops)
    (hpeak : peak [] ops ≤ 2 ^ 32) {s : State H} {tr : List (Event H)}
    (hrun : State.start.run ops = some (s, tr)) (k : Nat) :
    Harmless s (registered [] ops) k ↔ 2 ^ 32 ∣ k := by
  rw [show 2 ^ 32 ∣ k ↔ UInt32.ofNat k = 0 by
    rw [← UInt32.toNat_inj, Nat.dvd_iff_mod_eq_zero]
    rfl]
  constructor
  · intro hk
    obtain ⟨s1, tr1, chain, pos, hrun1, hs, -, hfit, hlen⟩ := run_start ops hops hpeak
    obtain ⟨rfl, rfl⟩ : s = s1 ∧ tr = tr1 := by simpa [hrun] using hrun1
    obtain ⟨h⟩ := ‹Nonempty H›
    have hst : Skewed (.ofNat k) s (s.failed k) := by
      rw [State.failed, handleInitFailed_iterate]
      exact ⟨rfl, fun _ => rfl⟩
    obtain ⟨s', chain', pos', hs', hgood, hbad⟩ :=
      exits_spec hs hfit hlen hst [.init h, .push, .read h]
    rw [hk _ (legal_exits _ h), hgood] at hbad
    obtain ⟨e, he, -⟩ := hs'.exists_last
    obtain ⟨htail, -, hfreed⟩ := hs'.nodes.last he (getElem?_eq_none (by omega))
    have hlt : s'.q.tail < s'.q.fresh :=
      (hs'.names _).mpr (.inl (htail ▸ mem_map_of_mem (mem_of_getElem? he)))
    obtain ⟨hyes, -⟩ | ⟨f, hf, hff⟩ := s'.frees_read h hlt
    · simp [htail, hfreed] at hyes
    obtain hnone | ⟨t', ⟨hcore, -⟩, ht'⟩ := hbad
    · simp [hf] at hnone
    simp only [core, Prod.mk.injEq] at hcore
    obtain ⟨-, hnone⟩ | ⟨g, hg, hgf⟩ := t'.frees_read h (by omega)
    · simp [← ht', hf] at hnone
    · -- Both handles would have to free the control node, or neither.
      obtain rfl : f = g := by simpa [hf, hg] using ht'
      simpa [hcore, hs'.consumer, hff] using hgf
  · intro hzero later _
    rw [State.failed, handleInitFailed_iterate, hzero, UInt32.add_zero]

theorem harmless_iff_registered : ∃ s tr, State.start.run [Op.init 0, .push] = some (s, tr) ∧
    ¬Harmless s (registered [] [Op.init 0, .push]) 1 :=
  ⟨_, _, rfl, fun h => absurd ((harmless_iff [Op.init 0, .push]
    (by simp [Legal, Allowed, after]) (by decide) rfl 1).mp h) (by decide)⟩

/-- One failed call, and the only handle does not free its control node. -/
theorem not_harmless_start : ¬Harmless (State.start : State Nat) [] 1 := by
  intro h
  have hfrees := congrArg (Option.map (· 1)) (h [.init 0, .push, .read 0] (legal_exits [] 0))
  revert hfrees
  decide

end OpenSync.Rts
