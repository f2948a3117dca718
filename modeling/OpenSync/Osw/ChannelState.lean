import OpenSync.Osw.ChannelDowngrade

/-!
# The states of the channels of a radio

A radio reports its 20 MHz channels with their DFS states, `struct osw_channel_state` without the
seconds left of a non-occupancy period.  The functions `osw_cs_chan_*` of `osw_types.c` look up the
segments of a channel in such a list.

`stack` is what the array `freqs` has at the start.  Entries that were not written are read only
for channels of 80+80 MHz.
-/

namespace OpenSync.Osw

open List

/-- `enum osw_channel_state_dfs`. -/
inductive DfsState where
  | nonDfs
  | cacPossible
  | cacInProgress
  | cacCompleted
  | nol
deriving DecidableEq

/-- `struct osw_channel_state`. -/
structure ChannelState where
  channel : Channel
  dfsState : DfsState
deriving DecidableEq

namespace ChannelState

/-- The array `freqs` after `osw_channel_20mhz_segments`. -/
def segments (stack : List Int) (c : Channel) : Option (List Int) :=
  (c.segments20mhz stack).map fun r => r.2.take r.1

/-- The inner loop of the functions below: a state with the control frequency `freq` and the DFS
state `state`. -/
def hasState (states : List ChannelState) (freq : Int) (state : DfsState) : Bool :=
  states.any fun cs => cs.channel.controlFreq = freq ∧ cs.dfsState = state

section

variable (stack : List Int) (states : List ChannelState) (c : Channel)

/-- `osw_cs_chan_intersects_state`; `none` is the `ASSERT` on the centre frequency. -/
def chanIntersectsState (state : DfsState) : Option Bool :=
  if c.centerFreq0 = 0 then none
  else
    (segments stack c).map fun freqs =>
      freqs.zipIdx.any fun seg =>
        !c.punctureBitmap.getLsbD seg.2 && hasState states seg.1 state

/-- `osw_cs_chan_is_valid`. -/
def chanIsValid : Option Bool :=
  if c.centerFreq0 = 0 then none
  else
    (segments stack c).map fun freqs =>
      freqs.length ≠ 0 && freqs.all fun freq => states.any (·.channel.controlFreq = freq)

/-- `osw_cs_chan_is_usable`. -/
def chanIsUsable : Option Bool :=
  (chanIsValid stack states c).bind fun valid =>
    (chanIntersectsState stack states c .nol).map fun containsNol => valid && !containsNol

end

/-! ## What usable means -/

/-- There is a state for the frequency. -/
def Listed (states : List ChannelState) (freq : Int) : Prop :=
  ∃ cs ∈ states, cs.channel.controlFreq = freq

/-- Every segment that is in non-occupancy is punctured. -/
def NolPunctured (states : List ChannelState) (c : Channel) : Prop :=
  ∀ i freq, c.covered[i]? = some freq → hasState states freq .nol = true →
    c.punctureBitmap.getLsbD i = true

variable {stack : List Int} {states : List ChannelState} {c : Channel}

theorem segments_eq_covered (hstack : 16 ≤ stack.length) (hpair : c.width ≠ .w80p80)
    (hcontrol : c.controlFreq ≠ 0) (hcenter : c.centerFreq0 ≠ 0) :
    segments stack c = some c.covered := by
  have hlength : c.covered.length = Channel.numSegments c.width := by
    rw [Channel.covered, if_neg hpair, Channel.length_freqsAround]
  rw [segments, Channel.segments20mhz_eq hcontrol hcenter hpair hstack, Option.map_some,
    ← hlength, take_left]

theorem segments_control_zero (hcontrol : c.controlFreq = 0) : segments stack c = some [] := by
  rw [segments, Channel.segments20mhz, if_pos hcontrol, Option.map_some, take_zero]

theorem listed_iff {freq : Int} :
    states.any (fun cs => cs.channel.controlFreq = freq) = true ↔ Listed states freq := by
  simp [Listed]

theorem covered_ne_nil (hpair : c.width ≠ .w80p80) : c.covered.length ≠ 0 := by
  rw [Channel.covered, if_neg hpair, Channel.length_freqsAround]
  exact (Channel.numSegments_pos c.width).ne'

/-- With a centre frequency the answer is `true` if all segments are listed and those in
non-occupancy punctured. -/
theorem chanIsUsable_spec (states : List ChannelState) (hstack : 16 ≤ stack.length)
    (hpair : c.width ≠ .w80p80) (hcenter : c.centerFreq0 ≠ 0) :
    ∃ usable, chanIsUsable stack states c = some usable ∧
      (usable = true ↔ c.controlFreq ≠ 0 ∧ (∀ f ∈ c.covered, Listed states f) ∧
        NolPunctured states c) := by
  by_cases hcontrol : c.controlFreq = 0
  · refine ⟨false, ?_, by simp [hcontrol]⟩
    rw [chanIsUsable, chanIsValid, chanIntersectsState, if_neg hcenter, if_neg hcenter,
      segments_control_zero hcontrol]
    rfl
  rw [chanIsUsable, chanIsValid, chanIntersectsState, if_neg hcenter, if_neg hcenter,
    segments_eq_covered hstack hpair hcontrol hcenter]
  refine ⟨_, rfl, ?_⟩
  rw [Bool.and_eq_true, Bool.and_eq_true, all_eq_true, Bool.not_eq_true', any_eq_false]
  simp only [listed_iff, decide_eq_true_eq, Bool.and_eq_true, not_and,
    Prod.forall, mem_zipIdx_iff_getElem?]
  constructor
  · rintro ⟨⟨-, hlisted⟩, hnol⟩
    refine ⟨hcontrol, hlisted, fun i f hi hf => ?_⟩
    by_contra hbit
    exact hnol f i hi (by simpa using hbit) hf
  · rintro ⟨-, hlisted, hnol⟩
    refine ⟨⟨covered_ne_nil hpair, hlisted⟩, fun f i hi hbit hf => ?_⟩
    rw [hnol i f hi hf] at hbit
    cases hbit

end ChannelState

end OpenSync.Osw
