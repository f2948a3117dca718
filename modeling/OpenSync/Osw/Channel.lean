import OpenSync.Osw.AssocReq
import Mathlib.Data.List.Nodup
import Mathlib.Tactic.Ring

/-!
# Channels and their 20 MHz segments

`struct osw_channel` has a width, a control frequency, a centre frequency (two of them for 80+80
MHz) and a bitmap with the punctured segments, the lowest segment first.
`osw_channel_20mhz_segments` writes the frequencies of the segments to an array of the caller,
and `osw_channel_downgrade` halves the width around the control frequency.

Frequencies are integers without bounds; those of a band stay far within an `int`.  A centre
frequency of zero stops the program in `osw_channel_20mhz_segments`, which is `none` here.
-/

namespace OpenSync.Osw

open AssocReq (ChannelWidth)

/-- `struct osw_channel`, with frequencies in MHz. -/
structure Channel where
  width : ChannelWidth
  controlFreq : Int
  centerFreq0 : Int
  centerFreq1 : Int
  punctureBitmap : BitVec 16
deriving DecidableEq

namespace Channel

/-! ## Widths -/

/-- `osw_channel_width_down`. -/
def widthDown : ChannelWidth → Option ChannelWidth
  | .w20 => none
  | .w40 => some .w20
  | .w80 => some .w40
  | .w160 => some .w80
  | .w80p80 => some .w80
  | .w320 => some .w160

/-- `osw_channel_width_offsets`. -/
def widthOffsets : ChannelWidth → Int
  | .w20 => 0
  | .w40 => 2
  | .w80 => 6
  | .w160 => 14
  | .w80p80 => 6
  | .w320 => 30

/-- `osw_channel_downgrade`; `none` is the answer `false`, which leaves the channel alone. -/
def downgrade (c : Channel) : Option Channel :=
  if c.width = .w80p80 then none
  else
    (widthDown c.width).map fun w =>
      let offsetOld := widthOffsets c.width * 5
      let offsetNew := widthOffsets w * 5
      let freqLeftmost := c.centerFreq0 - offsetOld
      let freqRightmost := c.centerFreq0 + offsetOld
      let nSegmentsNew := (((freqRightmost - freqLeftmost + 20) / 20) / 2).toNat
      let segmentsShift := if c.controlFreq < c.centerFreq0 then 0 else nSegmentsNew
      { c with
        width := w
        centerFreq0 :=
          if c.controlFreq < c.centerFreq0 then freqLeftmost + offsetNew
          else freqRightmost - offsetNew
        punctureBitmap :=
          (c.punctureBitmap >>> segmentsShift) &&& BitVec.ofNat 16 (2 ^ nSegmentsNew - 1) }

theorem rank_downgrade {c c' : Channel} (h : c.downgrade = some c') :
    c'.width.rank < c.width.rank := by
  rw [downgrade] at h
  by_cases hpair : c.width = .w80p80
  · rw [if_pos hpair] at h
    cases h
  · rw [if_neg hpair] at h
    obtain ⟨w, hw, rfl⟩ := Option.map_eq_some_iff.mp h
    change w.rank < c.width.rank
    revert hw
    cases c.width <;> rintro ⟨⟩ <;> decide

/-- The loop of `osw_channel_downgrade_to`: the answer, and the channel that is left. -/
def downgradeLoop (c : Channel) (w : ChannelWidth) : Bool × Channel :=
  if c.width = w then (true, c)
  else
    match h : c.downgrade with
    | none => (false, c)
    | some c' => c'.downgradeLoop w
termination_by c.width.rank
decreasing_by exact rank_downgrade h

/-- `osw_channel_downgrade_to`. -/
def downgradeTo (c : Channel) (w : ChannelWidth) : Bool × Channel :=
  if c.width.rank < w.rank then (false, c) else c.downgradeLoop w

/-! ## Segments -/

/-- The loop of `osw_channel_20mhz_segments_raw` from `freq` on.  `segments` is the rest of the
array of the caller, which comes back as it is left, and `n` counts the entries written. -/
def segmentsLoop (rightmost : Int) : Int → List Int → Nat → Nat × List Int
  | freq, [], n => if freq ≤ rightmost then (0, []) else (n, [])
  | freq, s :: segments, n =>
    if freq ≤ rightmost then
      let r := segmentsLoop rightmost (freq + 20) segments (n + 1)
      (r.1, freq :: r.2)
    else (n, s :: segments)

/-- `osw_channel_20mhz_segments_raw`. -/
def segmentsRaw (centerFreq : Int) (numSegments : Nat) (segments : List Int) : Nat × List Int :=
  let half := 5 * 4 * (numSegments : Int) / 2
  segmentsLoop (centerFreq - 10 + half) (centerFreq + 10 - half) segments 0

/-- `osw_channel_20mhz_segments`.  With a centre frequency
`osw_channel_compute_center_freq` does nothing. -/
def segments20mhz (c : Channel) (segments : List Int) : Option (Nat × List Int) :=
  if c.controlFreq = 0 then some (0, segments)
  else if c.centerFreq0 = 0 then none
  else
    some <|
      match c.width with
      | .w20 => segmentsRaw c.centerFreq0 1 segments
      | .w40 => segmentsRaw c.centerFreq0 2 segments
      | .w80 => segmentsRaw c.centerFreq0 4 segments
      | .w160 => segmentsRaw c.centerFreq0 8 segments
      | .w320 => segmentsRaw c.centerFreq0 16 segments
      | .w80p80 =>
        -- Both calls get the start of the array.
        let r := segmentsRaw c.centerFreq0 4 segments
        let r' := segmentsRaw c.centerFreq1 4 r.2
        (if r.1 = 0 then 0 else if r'.1 = 0 then 0 else r.1 + r'.1, r'.2)

/-- `dfs_freqs`. -/
def dfsFreqs : List Int :=
  [5260, 5280, 5300, 5320, 5500, 5520, 5540, 5560, 5580, 5600, 5620, 5640, 5660, 5680, 5700, 5720]

/-- `osw_freq_is_dfs`. -/
def freqIsDfs (freq : Int) : Bool := dfsFreqs.any (· = freq)

/-- `osw_channel_overlaps_dfs`.  `stack` is what its array `segs` has at the start. -/
def overlapsDfs (c : Channel) (stack : List Int) : Option Bool :=
  if c.controlFreq = 0 then some false
  else (c.segments20mhz stack).map fun r => (r.2.take r.1).any freqIsDfs

/-! ## The frequencies of a channel -/

/-- The frequencies of `n` segments around a centre. -/
def freqsAround (center : Int) (n : Nat) : List Int :=
  (List.range n).map fun i : Nat => center - 10 * ((n : Int) - 1) + 20 * (i : Int)

def numSegments : ChannelWidth → Nat
  | .w20 => 1
  | .w40 => 2
  | .w80 => 4
  | .w160 => 8
  | .w80p80 => 8
  | .w320 => 16

def covered (c : Channel) : List Int :=
  if c.width = .w80p80 then freqsAround c.centerFreq0 4 ++ freqsAround c.centerFreq1 4
  else freqsAround c.centerFreq0 (numSegments c.width)

variable (center : Int) {segments : List Int}

@[simp] theorem length_freqsAround (n : Nat) : (freqsAround center n).length = n := by
  simp [freqsAround]

/-- The loop writes the frequencies that are left, if there is room for them. -/
theorem segmentsLoop_eq {rightmost freq : Int} {k : Nat} (hk : rightmost + 20 = freq + 20 * k)
    (hlen : k ≤ segments.length) (n : Nat) :
    segmentsLoop rightmost freq segments n =
      (n + k, (List.range k).map (fun i : Nat => freq + 20 * (i : Int)) ++ segments.drop k) := by
  induction k generalizing freq segments n with
  | zero =>
    have hgt : ¬ freq ≤ rightmost := by omega
    cases segments <;> simp [segmentsLoop, hgt]
  | succ k ih =>
    cases segments with
    | nil => simp at hlen
    | cons s segments =>
      have hle : freq ≤ rightmost := by omega
      rw [segmentsLoop, if_pos hle, ih (by push_cast at hk; omega) (by simpa using hlen),
        List.range_succ_eq_map, List.map_cons, List.map_map]
      simp only [Nat.cast_zero, mul_zero, add_zero, List.cons_append, Function.comp_def,
        Nat.cast_succ]
      refine Prod.ext (by simp only; omega) ?_
      simp only [List.cons.injEq, true_and]
      congr 1
      refine List.map_congr_left fun i _ => ?_
      ring

theorem segmentsRaw_eq {n : Nat} (hlen : n ≤ segments.length) :
    segmentsRaw center n segments = (n, freqsAround center n ++ segments.drop n) := by
  have hhalf : 5 * 4 * (n : Int) / 2 = 10 * n := by omega
  rw [segmentsRaw, hhalf, segmentsLoop_eq (k := n) (by omega) hlen, Nat.zero_add]
  refine Prod.ext rfl (congrArg (· ++ _) (List.map_congr_left fun i _ => ?_))
  ring

section

variable {c : Channel} (hcontrol : c.controlFreq ≠ 0) (hcenter : c.centerFreq0 ≠ 0)

include hcontrol hcenter

/-- Outside of 80+80 MHz the function writes the frequencies that the channel covers. -/
theorem segments20mhz_eq (hwidth : c.width ≠ .w80p80) (hlen : 16 ≤ segments.length) :
    c.segments20mhz segments =
      some (numSegments c.width, c.covered ++ segments.drop (numSegments c.width)) := by
  rw [segments20mhz, if_neg hcontrol, if_neg hcenter, covered]
  cases hw : c.width with
  | w80p80 => exact absurd hw hwidth
  | _ => exact congrArg some (segmentsRaw_eq _ (by omega))

/-- With 80+80 MHz the frequencies of the second half overwrite the first, and the four entries
behind them stay. -/
theorem segments20mhz_80p80 (hwidth : c.width = .w80p80) (hlen : 16 ≤ segments.length) :
    c.segments20mhz segments = some (8, freqsAround c.centerFreq1 4 ++ segments.drop 4) := by
  rw [segments20mhz, if_neg hcontrol, if_neg hcenter, hwidth]
  simp only [segmentsRaw_eq _ (by omega : 4 ≤ segments.length)]
  rw [segmentsRaw_eq _ (by simp)]
  rfl

end

/-- The enumeration is right, and with it the test for DFS frequencies, exactly if the channel is
not one of 80+80 MHz. -/
theorem segments_enumerated_iff {c : Channel} (hcontrol : c.controlFreq ≠ 0)
    (hcenter : c.centerFreq0 ≠ 0) :
    ((∀ out : List Int, 16 ≤ out.length →
        ∃ out', c.segments20mhz out = some (numSegments c.width, out') ∧
          (out'.take (numSegments c.width)).Nodup ∧
          ∀ f, f ∈ out'.take (numSegments c.width) ↔ f ∈ c.covered) ∧
      ∀ stack : List Int, stack.length = 16 →
        c.overlapsDfs stack = some (c.covered.any freqIsDfs)) ↔
    c.width ≠ .w80p80 := by
  constructor
  · rintro ⟨h, -⟩ hwidth
    obtain ⟨out', hout, hnodup, -⟩ := h (List.replicate 16 0) (by simp)
    rw [segments20mhz_80p80 hcontrol hcenter hwidth (by simp)] at hout
    obtain ⟨-, rfl⟩ := Prod.mk.inj (Option.some.inj hout)
    -- The entries behind the first four are the zeros that were there before.
    rw [hwidth, List.take_append, length_freqsAround] at hnodup
    exact absurd (List.nodup_append.mp hnodup).2.1 (by decide)
  · intro hwidth
    have htake : ∀ rest : List Int, (c.covered ++ rest).take (numSegments c.width) = c.covered := by
      intro rest
      refine List.take_left' ?_
      rw [covered, if_neg hwidth, length_freqsAround]
    refine ⟨fun out hlen => ⟨_, segments20mhz_eq hcontrol hcenter hwidth hlen, ?_, ?_⟩,
      fun stack hlen => ?_⟩
    · rw [htake, covered, if_neg hwidth]
      refine .map (fun i j h => ?_) List.nodup_range
      omega
    · intro f
      rw [htake]
    · rw [overlapsDfs, if_neg hcontrol, segments20mhz_eq hcontrol hcenter hwidth hlen.ge,
        Option.map_some, htake]

theorem segments_enumerated_iff_160 :
    ∃ c : Channel, c.width = .w160 ∧ c.controlFreq ≠ 0 ∧ c.centerFreq0 ≠ 0 ∧
      c.overlapsDfs (List.replicate 16 7) = some true :=
  let c : Channel := ⟨.w160, 5180, 5250, 0, 0⟩
  ⟨c, rfl, by decide, by decide,
    ((segments_enumerated_iff (c := c) (by decide) (by decide)).mpr (by decide)).2 _ rfl⟩

/-- 80+80 MHz with the first half in DFS: the four frequencies of that half are lost, and the
channel passes for one without DFS. -/
theorem second_half_overwrites :
    let c : Channel := ⟨.w80p80, 5260, 5290, 5775, 0⟩
    c.segments20mhz (List.replicate 16 0) =
        some (8, [5745, 5765, 5785, 5805] ++ List.replicate 12 0) ∧
      c.overlapsDfs (List.replicate 16 0) = some false ∧
      c.covered.any freqIsDfs = true := by
  decide +kernel

end Channel

end OpenSync.Osw
