import OpenSync.Lib.CInt
import OpenSync.Osw.Hwaddr
import Mathlib.Data.List.Induction

/-!
# The filter for BTM responses

A station answers a request for a transition with the BSSs it would go to.
`ow_steer_policy_btm_response.c` adds them to its list, and for a while after the answer it takes
all other candidates out of the scope of steering.
-/

namespace OpenSync.Ow.BtmResponse

open OpenSync.Lib OpenSync.Osw List

/-- `enum ow_steer_candidate_preference`. -/
inductive Preference
  | none
  | available
  | hardBlocked
  | softBlocked
  | outOfScope
deriving DecidableEq

/-- `struct ow_steer_candidate`. -/
structure Candidate where
  bssid : Hwaddr
  preference : Preference := .none
  reason : Option String := .none

/-- `ow_steer_candidate_set_preference`. -/
def Candidate.setPreference (c : Candidate) (reason : String) (preference : Preference) :
    Candidate :=
  if c.preference ≠ .none then c else { c with preference, reason }

/-- `struct ow_steer_policy_btm_retry_neigh`. -/
structure Neigh where
  bssid : Hwaddr
  preference : Int

/-- `struct ow_steer_policy_btm_response`. -/
structure Policy where
  name : String
  neighs : List Neigh := []
  timestamp : Nat := 0

/-- The conversion of a `double` to `int`, which is undefined for numbers that do not fit. -/
structure ToInt where
  conv : Nat → Int
  conv_of_lt : ∀ n < 2 ^ 31, conv n = n

/-- `OW_STEER_POLICY_RESPONSE_RELEVANCE_SEC`. -/
def relevanceSec : Int := 10

/-- `OSW_TIME_SEC`. -/
def timeSec (sec : Nat) : Nat := sec * 10 ^ 9

/-- The test of `ow_steer_policy_btm_response_recalc_cb` for the time of the last response. -/
def Fresh (i : ToInt) (now timestamp : Nat) : Prop :=
  i.conv (timeSec (toSize (now - timestamp))) ≤ relevanceSec

instance (i : ToInt) (now timestamp : Nat) : Decidable (Fresh i now timestamp) :=
  inferInstanceAs (Decidable (_ ≤ _))

/-- `ow_steer_policy_btm_response_is_bssid_present`. -/
def Policy.isBssidPresent (p : Policy) (bssid : Hwaddr) : Bool :=
  p.neighs.any fun neigh => bssid.cmp neigh.bssid = 0

/-- `ow_steer_policy_btm_response_recalc_cb`. -/
def Policy.recalc (i : ToInt) (p : Policy) (now : Nat) (cands : List Candidate) : List Candidate :=
  if ¬ Fresh i now p.timestamp then cands
  else cands.map fun c =>
    if p.isBssidPresent c.bssid = false then c.setPreference p.name .outOfScope else c

/-- A response with the time at which it arrives. -/
structure Response where
  time : Nat
  list : List Neigh

/-- `ow_steer_policy_btm_response_cb`. -/
def Policy.response (p : Policy) (r : Response) : Policy :=
  { p with neighs := p.neighs ++ r.list, timestamp := r.time }

section

variable (name : String) (rs : List Response)

/-- The policy after the responses; the recalculations between them do not change it. -/
def run : Policy := rs.foldl Policy.response { name }

/-- The response lists the BSS. -/
def Response.Lists (r : Response) (bssid : Hwaddr) : Prop := bssid ∈ r.list.map Neigh.bssid

/-- The list grows with every response, and the time is that of the last one. -/
theorem run_eq :
    run name rs = ⟨name, rs.flatMap Response.list, (rs.getLast?.map Response.time).getD 0⟩ := by
  induction rs using reverseRecOn with
  | nil => rfl
  | append_singleton rs r ih =>
    have hrun : run name (rs ++ [r]) = (run name rs).response r := by simp [run]
    simp [hrun, ih, Policy.response]

theorem isBssidPresent_run (b : Hwaddr) :
    (run name rs).isBssidPresent b = false ↔ ∀ r ∈ rs, ¬ r.Lists b := by
  have hpresent : (run name rs).isBssidPresent b = true ↔ ∃ r ∈ rs, r.Lists b := by
    simp only [run_eq, Policy.isBssidPresent, Hwaddr.cmp_eq_zero_iff, any_eq_true, mem_flatMap,
      decide_eq_true_eq, Response.Lists, mem_map]
    exact ⟨fun ⟨n, ⟨r, hr, hn⟩, hb⟩ => ⟨r, hr, n, hn, hb.symm⟩,
      fun ⟨r, hr, n, hn, hb⟩ => ⟨n, ⟨r, hr, hn⟩, hb.symm⟩⟩
  rw [← Bool.not_eq_true, hpresent]
  simp

end

/-- A recalculation takes a candidate without a preference out of scope exactly if the last
response is recent and does not list it. -/
def Filters (i : ToInt) (name : String) (rs : List Response) (now : Nat) : Prop :=
  ∀ (cands : List Candidate) (k : Nat) (c : Candidate), cands[k]? = some c → c.preference = .none →
    (((run name rs).recalc i now cands)[k]?.map Candidate.preference = some .outOfScope ↔
      ∃ r, rs.getLast? = some r ∧ now ≤ r.time + timeSec relevanceSec.toNat ∧ ¬ r.Lists c.bssid)

theorem recalc_outOfScope_iff (i : ToInt) (p : Policy) (now : Nat) {cands : List Candidate}
    {k : Nat} {c : Candidate} (hc : cands[k]? = some c) (hnone : c.preference = .none) :
    (p.recalc i now cands)[k]?.map Candidate.preference = some .outOfScope ↔
      Fresh i now p.timestamp ∧ p.isBssidPresent c.bssid = false := by
  rw [Policy.recalc]
  split_ifs with hfresh
  · cases hb : p.isBssidPresent c.bssid <;> simp [hc, hb, hfresh, hnone, Candidate.setPreference]
  · simp [hc, hnone, hfresh]

/-- The conversion takes an age for a recent one.  From three nanoseconds on it is undefined. -/
def ToInt.Small (i : ToInt) (age : Nat) : Prop := i.conv (timeSec age) ≤ relevanceSec

/-- An age of one or two nanoseconds is taken for seconds, and a longer one is not converted. -/
theorem fresh_iff (i : ToInt) {now timestamp : Nat} (h : timestamp ≤ now) (hnow : now < 2 ^ 53) :
    Fresh i now timestamp ↔
      now = timestamp ∨ timestamp + 3 ≤ now ∧ i.Small (now - timestamp) := by
  have hage : toSize ((now : Int) - timestamp) = now - timestamp := by
    rw [← Int.ofNat_sub h, toSize_of_lt (by omega)]
  rw [Fresh, hage, ← ToInt.Small]
  have hsmall : ∀ age < 3, i.Small age ↔ age = 0 := by
    intro age hlt
    rw [ToInt.Small, i.conv_of_lt _ (by rw [timeSec]; omega), timeSec, relevanceSec]
    omega
  rcases Nat.lt_or_ge (now - timestamp) 3 with hlt | hge
  · rw [hsmall _ hlt]
    omega
  · have hne : now ≠ timestamp := by omega
    have hold : timestamp + 3 ≤ now := by omega
    simp [hne, hold]

section

variable (i : ToInt) (name : String) (rs : List Response) (now : Nat)

theorem filters_iff_fresh : Filters i name rs now ↔ ∀ b,
    ((Fresh i now (run name rs).timestamp ∧ ∀ r ∈ rs, ¬ r.Lists b) ↔
      ∃ r, rs.getLast? = some r ∧ now ≤ r.time + timeSec relevanceSec.toNat ∧ ¬ r.Lists b) := by
  refine ⟨fun h b => ?_, fun h cands k c hc hnone => ?_⟩
  · rw [← h [⟨b, .none, none⟩] 0 _ rfl rfl, recalc_outOfScope_iff i _ now rfl rfl,
      isBssidPresent_run]
  · rw [recalc_outOfScope_iff i _ now hc hnone, isBssidPresent_run, h]

/-- A candidate that the last response lists is right in any case. -/
theorem filters_iff_unlisted {r : Response} (hlast : rs.getLast? = some r) :
    Filters i name rs now ↔ ∀ b, ¬ r.Lists b →
      ((Fresh i now r.time ∧ ∀ r' ∈ rs, ¬ r'.Lists b) ↔
        now ≤ r.time + timeSec relevanceSec.toNat) := by
  have hmem : r ∈ rs := mem_of_getLast? hlast
  rw [filters_iff_fresh, run_eq]
  simp only [hlast, Option.map_some, Option.getD_some]
  refine forall_congr' fun b => ?_
  by_cases hb : r.Lists b
  · simpa [hb] using fun _ => ⟨r, hmem, hb⟩
  · simp [hb]

/-- In the ten seconds after a response, every candidate that it does not list has to go. -/
theorem filters_iff_recent {r : Response} (hlast : rs.getLast? = some r)
    (hrecent : now ≤ r.time + timeSec relevanceSec.toNat) :
    Filters i name rs now ↔ (∀ b, r.Lists b) ∨
      Fresh i now r.time ∧ ∀ r' ∈ rs, ∀ b, r'.Lists b → r.Lists b := by
  rw [filters_iff_unlisted i name rs now hlast]
  simp only [hrecent, iff_true]
  constructor
  · intro h
    by_cases hevery : ∀ b, r.Lists b
    · exact .inl hevery
    obtain ⟨b, hb⟩ := not_forall.mp hevery
    refine .inr ⟨(h b hb).1, fun r' hr' b hb' => ?_⟩
    by_contra hnot
    exact (h b hnot).2 r' hr' hb'
  · rintro (hevery | ⟨hf, hsub⟩) b hb
    · exact absurd (hevery b) hb
    · exact ⟨hf, fun r' hr' hb' => hb (hsub r' hr' b hb')⟩

/-- After that every candidate has to stay. -/
theorem filters_iff_old {r : Response} (hlast : rs.getLast? = some r)
    (hold : ¬ now ≤ r.time + timeSec relevanceSec.toNat) :
    Filters i name rs now ↔ ¬ Fresh i now r.time ∨ ∀ b, ∃ r' ∈ rs, r'.Lists b := by
  rw [filters_iff_unlisted i name rs now hlast]
  simp only [hold, iff_false, not_and]
  constructor
  · intro h
    by_cases hfresh : Fresh i now r.time
    · refine .inr fun b => ?_
      by_cases hb : r.Lists b
      · exact ⟨r, mem_of_getLast? hlast, hb⟩
      · simpa using h b hb hfresh
    · exact .inl hfresh
  · rintro (hfresh | hevery) b - hf
    · exact absurd hf hfresh
    · obtain ⟨r', hr', hb⟩ := hevery b
      exact fun hnone => hnone r' hr' hb

/-- When the filter is right.  Without a response: not at time 0, and later only if the conversion
takes the time for a long age.  In the ten seconds after the last response: at once, or if the
conversion takes the age for a recent one, and if no earlier response lists anything else.  After
that: if the conversion takes the age for a long one, or everything is listed.  A response that
lists everything takes nothing out. -/
theorem filters_iff (hnow : now < 2 ^ 53) (htime : ∀ r ∈ rs.getLast?, r.time ≤ now) :
    Filters i name rs now ↔
      match rs.getLast? with
      | none => now ≠ 0 ∧ (3 ≤ now → ¬ i.Small now)
      | some r =>
        if now ≤ r.time + timeSec relevanceSec.toNat then
          (∀ b, r.Lists b) ∨ (now = r.time ∨ r.time + 3 ≤ now ∧ i.Small (now - r.time)) ∧
            ∀ r' ∈ rs, ∀ b, r'.Lists b → r.Lists b
        else ¬ i.Small (now - r.time) ∨ ∀ b, ∃ r' ∈ rs, r'.Lists b := by
  cases hlast : rs.getLast? with
  | none =>
    have hwitness : Nonempty Hwaddr := ⟨.zero⟩
    have hfresh := fresh_iff i (Nat.zero_le now) hnow
    simp only [Nat.zero_add, Nat.sub_zero] at hfresh
    rw [filters_iff_fresh, run_eq]
    simp [getLast?_eq_none_iff.mp hlast, hfresh]
  | some r =>
    have hfresh := fresh_iff i (htime r hlast) hnow
    dsimp only
    split_ifs with hrecent
    · rw [filters_iff_recent i name rs now hlast hrecent, hfresh]
    · have hlong : r.time + 3 ≤ now := by
        simp only [timeSec, relevanceSec] at hrecent
        omega
      have hne : now ≠ r.time := by omega
      rw [filters_iff_old i name rs now hlast hrecent, hfresh]
      simp only [hne, hlong, false_or, true_and]

end

/-- Numbers that do not fit become the least `int`. -/
def least : ToInt := ⟨fun n => if n < 2 ^ 31 then n else -2 ^ 31, by simp⟩

/-- Five seconds after the second of two responses, which lists what the first one does. -/
theorem filters_iff_twoResponses :
    let first : Response := ⟨5, [⟨.ofLast 1, 255⟩]⟩
    let second : Response := ⟨9, [⟨.ofLast 2, 255⟩, ⟨.ofLast 1, 255⟩]⟩
    Filters least "" [first, second] (9 + timeSec 5) := by
  intro first second
  have hlast : [first, second].getLast? = some second := rfl
  rw [filters_iff least "" [first, second] _ (by decide) (by simp [hlast, second]), hlast]
  dsimp only
  rw [if_pos (by decide)]
  refine .inr ⟨.inr ⟨by decide, by rw [ToInt.Small]; decide⟩, fun r hr b hb => ?_⟩
  simp only [mem_cons, not_mem_nil, or_false] at hr
  rcases hr with rfl | rfl
  · exact mem_cons_of_mem _ hb
  · exact hb

/-- A response is too old after a nanosecond, and what an earlier one listed stays listed. -/
theorem not_filters :
    let r : Response := ⟨5, [⟨.ofLast 1, 255⟩]⟩
    ¬ Filters least "" [r] 6 ∧ ¬ Filters least "" [r, ⟨5, [⟨.ofLast 2, 255⟩]⟩] 5 := by
  intro r
  constructor
  · intro h
    have hout := (h [⟨.ofLast 2, .none, none⟩] 0 _ rfl rfl).mpr
      ⟨r, rfl, by decide, by rw [Response.Lists]; decide⟩
    exact absurd hout (by decide)
  · intro h
    have hout := (h [⟨.ofLast 1, .none, none⟩] 0 _ rfl rfl).mpr
      ⟨_, rfl, by decide, by rw [Response.Lists]; decide⟩
    exact absurd hout (by decide)

end OpenSync.Ow.BtmResponse
