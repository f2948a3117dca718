import OpenSync.Osw.Channel
import Mathlib.Data.List.Rotate

/-!
# The rotation of the scan scheduler

`osw_scan_sched` keeps a list of channels and a cursor.  Every scan asks
`osw_scan_sched_build_scan_chan` for the next channels, at most as many as it has room for; the
channel that the interface is on is left out.

The loop ends when the room is used up or when the cursor is back at the channel it started from;
the model counts iterations and `buildLoop_spec` says how many are enough.  In terms of the list
the function walks along a rotation of it: `rotation` is the list from the cursor on.
-/

namespace OpenSync.Osw

open List

/-- The fields of `struct osw_scan_sched` that choose channels. -/
structure ScanSched where
  channels : List Channel
  nextChannel : Nat
deriving DecidableEq

namespace ScanSched

/-! ## The loop -/

/-- `next_channel` as the loop corrects it. -/
def wrap (n next : Nat) : Nat := if n ≤ next then 0 else next

/-- The loop of `osw_scan_sched_build_scan_chan`: `out` are the channels written and `first` is the
place of the first one seen.  The answer has the cursor at the end, or is `none` after more than
`fuel` iterations. -/
def buildLoop (channels : List Channel) (homeFreq : Int) (nChannels : Nat) :
    (fuel : Nat) → (next : Nat) → (out : List Channel) → (first : Option Nat) →
      Option (List Channel × Nat)
  | 0, _, _, _ => none
  | fuel + 1, next, out, first =>
    if channels.length = 0 then some (out, next)
    else
      let next := wrap channels.length next
      if out.length = nChannels then some (out, next)
      else if out.length = channels.length then some (out, next)
      else if first = some next then some (out, next)
      else
        match channels[next]? with
        | none => none
        | some c =>
          let first := first.or (some next)
          if c.controlFreq = homeFreq then
            buildLoop channels homeFreq nChannels fuel (next + 1) out first
          else buildLoop channels homeFreq nChannels fuel (next + 1) (out ++ [c]) first

/-- The frequency to leave out; without a home channel it is 0. -/
def homeFreq (home : Option Channel) : Int :=
  match home with
  | none => 0
  | some c => c.controlFreq

/-- `osw_scan_sched_build_scan_chan` with room for `nChannels` channels. -/
def buildScanChan (ss : ScanSched) (home : Option Channel) (nChannels fuel : Nat) :
    Option (List Channel × ScanSched) :=
  (buildLoop ss.channels (homeFreq home) nChannels fuel ss.nextChannel [] none).map fun r =>
    (r.1, { ss with nextChannel := r.2 })

/-! ## The walk along the list -/

/-- The channels that are not home. -/
def others (home : Option Channel) (l : List Channel) : List Channel :=
  l.filter fun c => c.controlFreq ≠ homeFreq home

/-- The list of channels from the cursor on. -/
def rotation (ss : ScanSched) : List Channel :=
  ss.channels.rotate (wrap ss.channels.length ss.nextChannel)

variable (home : Option Channel) {n : Nat} (ss : ScanSched)

theorem others_append (l l' : List Channel) :
    others home (l ++ l') = others home l ++ others home l' :=
  filter_append ..

theorem wrap_lt (hn : 0 < n) (next : Nat) : wrap n next < n := by
  unfold wrap
  split <;> omega

theorem wrap_succ_mod (hn : 0 < n) (i : Nat) : wrap n (i % n + 1) = (i + 1) % n := by
  have hlt := Nat.mod_lt i hn
  rw [wrap]
  by_cases h : n ≤ i % n + 1
  · have hlast : i % n + 1 = n := by omega
    rw [if_pos h, ← Nat.mod_add_mod, hlast, Nat.mod_self]
  · rw [if_neg h, ← Nat.mod_add_mod i n 1, Nat.mod_eq_of_lt (a := i % n + 1) (by omega)]

theorem wrap_mod (hn : 0 < n) (i : Nat) : wrap n (i % n) = i % n :=
  if_neg (Nat.not_le.mpr (Nat.mod_lt i hn))

/-- The cursor is back at its start after a whole round and not before. -/
theorem add_mod_eq_self_iff {s j : Nat} (hs : s < n) (hj : j ≤ n) :
    (s + j) % n = s ↔ j = 0 ∨ j = n := by
  constructor
  · intro h
    by_contra hne
    by_cases hlt : s + j < n
    · rw [Nat.mod_eq_of_lt hlt] at h
      omega
    · rw [Nat.mod_eq_sub_mod (by omega), Nat.mod_eq_of_lt (by omega)] at h
      omega
  · rintro (rfl | rfl)
    · exact Nat.mod_eq_of_lt hs
    · rw [Nat.add_mod_right, Nat.mod_eq_of_lt hs]

/-- From the place `s` with `j` channels seen and `k` left, the loop goes on to some place `v`: it
has written the channels up to there, and the room is used up or the round is over. -/
theorem buildLoop_spec {channels : List Channel} (nChannels : Nat) {s : Nat}
    (hs : s < channels.length) {k j next : Nat} {out : List Channel} {first : Option Nat}
    (hj : j + k = channels.length) (hnext : wrap channels.length next = (s + j) % channels.length)
    (hfirst : first = if j = 0 then none else some s)
    (hout : out = others home ((channels.rotate s).take j)) (hroom : out.length ≤ nChannels) :
    ∃ v ≤ channels.length, (∀ fuel, k < fuel →
        buildLoop channels (homeFreq home) nChannels fuel next out first =
          some (others home ((channels.rotate s).take v), (s + v) % channels.length)) ∧
      (others home ((channels.rotate s).take v)).length ≤ nChannels ∧
      ((others home ((channels.rotate s).take v)).length = nChannels ∨ v = channels.length) := by
  have hn : 0 < channels.length := by omega
  induction k generalizing j next out first with
  | zero =>
    refine ⟨j, by omega, ?_, hout ▸ hroom, .inr hj⟩
    rintro (_ | fuel) hfuel
    · omega
    have hback : (s + j) % channels.length = s :=
      (add_mod_eq_self_iff hs (by omega)).mpr (.inr hj)
    have hend : first = some ((s + j) % channels.length) := by
      rw [hfirst, if_neg (by omega), hback]
    rw [buildLoop, if_neg (by omega)]
    simp only [hnext]
    rw [if_pos hend, ite_self, ite_self, hout]
  | succ k ih =>
    by_cases hfull : out.length = nChannels
    · refine ⟨j, by omega, ?_, hout ▸ hroom, .inl (hout ▸ hfull)⟩
      rintro (_ | fuel) hfuel
      · omega
      rw [buildLoop, if_neg (by omega)]
      simp only [hnext]
      rw [if_pos hfull, hout]
    have hcount : out.length ≤ j := by
      rw [hout]
      exact (length_filter_le ..).trans (length_take_le ..)
    have hnot : first ≠ some ((s + j) % channels.length) := by
      rw [hfirst]
      intro h
      by_cases hzero : j = 0
      · rw [if_pos hzero] at h
        cases h
      · rw [if_neg hzero] at h
        have := (add_mod_eq_self_iff hs (by omega)).mp (Option.some.inj h).symm
        omega
    obtain ⟨c, hc⟩ : ∃ c, channels[(s + j) % channels.length]? = some c :=
      ⟨_, getElem?_eq_getElem (Nat.mod_lt _ hn)⟩
    have htake : others home ((channels.rotate s).take (j + 1)) = out ++ others home [c] := by
      rw [take_add_one, getElem?_rotate (by omega), Nat.add_comm j s, hc, others_append, hout]
      rfl
    have hfirst' : first.or (some ((s + j) % channels.length)) =
        if j + 1 = 0 then none else some s := by
      rw [hfirst]
      by_cases hzero : j = 0
      · rw [if_pos hzero, (add_mod_eq_self_iff hs (by omega)).mpr (.inl hzero)]
        rfl
      · rw [if_neg hzero]
        rfl
    -- What the iteration adds is the channel seen, unless it is home.
    have hroom' : (out ++ others home [c]).length ≤ nChannels := by
      have : (others home [c]).length ≤ 1 := length_filter_le ..
      rw [length_append]
      omega
    obtain ⟨v, hv, hloop, hres⟩ :=
      ih (by omega) (wrap_succ_mod hn (s + j)) hfirst' htake.symm hroom'
    refine ⟨v, hv, ?_, hres⟩
    rintro (_ | fuel) hfuel
    · omega
    rw [← hloop fuel (by omega), buildLoop, if_neg (by omega)]
    simp only [hnext]
    rw [if_neg hfull, if_neg (by omega), if_neg hnot, hc]
    by_cases hhome : c.controlFreq = homeFreq home <;> simp [others, hhome]

/-! ## Calls -/

/-- A call writes the channels of the round that are not home, as many as there is room for, and
leaves the cursor behind those it has seen. -/
theorem buildScanChan_spec (nChannels : Nat) :
    ∃ ss' v, ss'.channels = ss.channels ∧ ss'.rotation = ss.rotation.rotate v ∧
      v ≤ ss.channels.length ∧
      (∀ fuel, ss.channels.length < fuel → ss.buildScanChan home nChannels fuel =
          some (others home (ss.rotation.take v), ss')) ∧
      (others home (ss.rotation.take v)).length ≤ nChannels ∧
      ((others home (ss.rotation.take v)).length = nChannels ∨ v = ss.channels.length) := by
  by_cases hn : ss.channels.length = 0
  · refine ⟨ss, 0, rfl, (rotate_zero _).symm, by omega, ?_, Nat.zero_le _, .inr hn.symm⟩
    rintro (_ | fuel) hfuel
    · omega
    rw [buildScanChan, buildLoop, if_pos hn]
    rfl
  have hpos : 0 < ss.channels.length := by omega
  have hs := wrap_lt hpos ss.nextChannel
  obtain ⟨v, hv, hloop, hres⟩ :=
    buildLoop_spec home nChannels hs (zero_add _) (Nat.mod_eq_of_lt hs).symm
      (show none = _ from rfl) (show [] = _ from rfl) (Nat.zero_le _)
  refine ⟨⟨ss.channels, (wrap ss.channels.length ss.nextChannel + v) % ss.channels.length⟩, v,
    rfl, ?_, hv, ?_, hres⟩
  · simp [rotation, wrap_mod hpos]
  · intro fuel hfuel
    rw [buildScanChan, hloop fuel hfuel]
    rfl

/-- A rotation of the list is a rotation of the channels that are not home. -/
theorem others_rotate {l : List Channel} {v : Nat} (hv : v ≤ l.length) :
    others home (l.rotate v) = (others home l).rotate (others home (l.take v)).length := by
  rw [rotate_eq_drop_append_take hv, others_append]
  nth_rewrite 3 [← take_append_drop v l]
  rw [others_append, rotate_append_length_eq]

/-- A call in terms of the channels that are not home: it takes the first ones and leaves the
cursor behind them. -/
theorem buildScanChan_others (nChannels : Nat) :
    ∃ ss', ss'.channels = ss.channels ∧ others home ss'.rotation =
        (others home ss.rotation).rotate ((others home ss.rotation).take nChannels).length ∧
      ∀ fuel, ss.channels.length < fuel → ss.buildScanChan home nChannels fuel =
          some ((others home ss.rotation).take nChannels, ss') := by
  obtain ⟨ss', v, hch, hrot, hv, hbuild, hle, hend⟩ := ss.buildScanChan_spec home nChannels
  have hlen : ss.rotation.length = ss.channels.length := length_rotate ..
  have hsplit : others home ss.rotation =
      others home (ss.rotation.take v) ++ others home (ss.rotation.drop v) := by
    rw [← others_append, take_append_drop]
  have hout : others home (ss.rotation.take v) = (others home ss.rotation).take nChannels := by
    obtain hfull | hround := hend
    · rw [hsplit, ← hfull, take_left]
    · rw [take_of_length_le (hlen.trans hround.symm).le] at hle ⊢
      rw [take_of_length_le hle]
  refine ⟨ss', hch, ?_, fun fuel hfuel => hout ▸ hbuild fuel hfuel⟩
  rw [hrot, others_rotate home (hlen ▸ hv), hout]

theorem others_rotation : others home ss.rotation ~r others home ss.channels := by
  by_cases hn : ss.channels.length = 0
  · rw [rotation, length_eq_zero_iff.mp hn, rotate_nil]
  · rw [rotation, others_rotate home (wrap_lt (by omega) _).le]
    exact .forall ..

/-! ## Successive calls -/

/-- What some calls with room for one channel each write, with the same home channel. -/
def scanRun (home : Option Channel) (fuel : Nat) : Nat → ScanSched → Option (List (List Channel))
  | 0, _ => some []
  | calls + 1, ss =>
    match ss.buildScanChan home 1 fuel with
    | none => none
    | some (out, ss') => (scanRun home fuel calls ss').map (out :: ·)

theorem scanRun_eq (calls : Nat) (ss : ScanSched) {fuel : Nat} (hfuel : ss.channels.length < fuel) :
    ss.scanRun home fuel calls =
      some ((List.range calls).map fun i => ((others home ss.rotation).rotate i).take 1) := by
  induction calls generalizing ss with
  | zero => rfl
  | succ calls ih =>
    obtain ⟨ss', hch, hrot, hbuild⟩ := ss.buildScanChan_others home 1
    rw [scanRun, hbuild fuel hfuel]
    simp only
    rw [ih ss' (hch ▸ hfuel), hrot, Option.map_some, range_succ_eq_map, map_cons,
      map_map, rotate_zero]
    congr 2
    refine map_congr_left fun i _ => ?_
    rw [Function.comp_apply, rotate_rotate]
    cases others home ss.rotation with
    | nil => simp
    | cons c l =>
      rw [Nat.succ_eq_one_add]
      rfl

/-- The first elements of all rotations are the elements of the list. -/
theorem flatMap_rotate_take_one {α : Type} (l : List α) :
    ((List.range l.length).flatMap fun i => (l.rotate i).take 1) = l := by
  have hfront : ∀ j ≤ l.length, ((range j).flatMap fun i => (l.rotate i).take 1) = l.take j := by
    intro j hj
    induction j with
    | zero => rfl
    | succ j ih =>
      rw [range_succ, flatMap_append, ih (by omega), take_add_one,
        ← head?_rotate (by omega), flatMap_singleton, take_one]
  rw [hfront _ le_rfl, take_length]

/-- The scheduler goes round: a call ends and takes channels that are not home, all of them once
if there is room for the whole list, and calls with room for one channel take them in turn. -/
theorem scan_rotation (ss : ScanSched) (home : Option Channel)
    (hdistinct : (ss.channels.map Channel.controlFreq).Nodup) :
    (others home ss.channels).Nodup ∧
    (∀ nChannels, ∃ out ss', (∀ fuel, ss.channels.length < fuel →
        ss.buildScanChan home nChannels fuel = some (out, ss')) ∧
      (∀ c ∈ out, c ∈ ss.channels ∧ c.controlFreq ≠ homeFreq home) ∧
      (ss.channels.length ≤ nChannels → out.Perm (others home ss.channels))) ∧
    ∃ cycle, cycle ~r others home ss.channels ∧ ∀ calls, ∃ outs,
      (∀ fuel, ss.channels.length < fuel → ss.scanRun home fuel calls = some outs) ∧
      (∀ i < calls, outs[i]? = some ((cycle.rotate i).take 1)) ∧
      ∀ i, i + (others home ss.channels).length ≤ calls →
        ((outs.drop i).take (others home ss.channels).length).flatten.Perm
          (others home ss.channels) := by
  have hcycle := ss.others_rotation home
  refine ⟨(List.Nodup.of_map _ hdistinct).filter _, fun nChannels => ?_,
    others home ss.rotation, hcycle, fun calls => ?_⟩
  · obtain ⟨ss', -, -, hbuild⟩ := ss.buildScanChan_others home nChannels
    refine ⟨_, ss', hbuild, ?_, ?_⟩
    · intro c hc
      have := hcycle.mem_iff.mp (mem_of_mem_take hc)
      simpa [others] using this
    · intro hroom
      rw [take_of_length_le]
      · exact hcycle.perm
      · rw [hcycle.perm.length_eq]
        exact (length_filter_le ..).trans hroom
  · refine ⟨_, fun fuel hfuel => ss.scanRun_eq home calls hfuel, ?_, ?_⟩
    · intro i hi
      simp [hi]
    intro i hi
    rw [← hcycle.perm.length_eq] at hi ⊢
    generalize others home ss.rotation = cycle at hcycle hi ⊢
    -- The calls from `i` on start with the `i`-th rotation.
    have hslice : (((range calls).map fun t => (cycle.rotate t).take 1).drop i).take
          cycle.length =
        (range cycle.length).map fun t => ((cycle.rotate i).rotate t).take 1 := by
      refine ext_getElem? fun t => ?_
      by_cases ht : t < cycle.length
      · simp [ht, show i + t < calls by omega]
      · simp [ht]
    have hround := flatMap_rotate_take_one (cycle.rotate i)
    rw [length_rotate] at hround
    rw [hslice, ← flatMap_def, hround]
    exact (rotate_perm cycle i).trans hcycle.perm

theorem scan_rotation_home :
    ∃ (out : List Channel) (ss' : ScanSched), buildScanChan
          ⟨[⟨.w20, 2412, 2412, 0, 0⟩, ⟨.w20, 2437, 2437, 0, 0⟩, ⟨.w20, 2462, 2462, 0, 0⟩], 1⟩
          (some ⟨.w20, 2437, 2437, 0, 0⟩) 3 4 = some (out, ss') ∧
        out.Perm [⟨.w20, 2412, 2412, 0, 0⟩, ⟨.w20, 2462, 2462, 0, 0⟩] := by
  obtain ⟨-, hcall, -⟩ :=
    scan_rotation
      ⟨[⟨.w20, 2412, 2412, 0, 0⟩, ⟨.w20, 2437, 2437, 0, 0⟩, ⟨.w20, 2462, 2462, 0, 0⟩], 1⟩
      (some ⟨.w20, 2437, 2437, 0, 0⟩) (by decide)
  obtain ⟨out, ss', hbuild, -, hperm⟩ := hcall 3
  exact ⟨out, ss', hbuild 4 (by decide), hperm (by decide)⟩

end ScanSched

end OpenSync.Osw
