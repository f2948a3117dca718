import OpenSync.Osw.Channel

/-!
# What a downgrade leaves of a channel

`osw_channel_downgrade` works with offsets to the centre frequency and shifts the bitmap of
punctured segments.  `IsBlock` says what comes out of it: the narrower channel is an aligned block
of the wider one, with the control frequency where it was and the bits of its own segments.  Blocks
of blocks are blocks, so this carries over to `osw_channel_downgrade_to`.
-/

namespace OpenSync.Osw.Channel

open AssocReq (ChannelWidth)

/-! ## Blocks of segments -/

/-- The frequency of the lowest segment of a channel with one centre. -/
def lowest (c : Channel) : Int := c.centerFreq0 - 10 * ((numSegments c.width : Int) - 1)

/-- `c'` is the `j`-th block of the segments of `c`, counted in blocks of its own width. -/
structure IsBlock (c c' : Channel) (j : Nat) : Prop where
  control : c'.controlFreq = c.controlFreq
  aligned : numSegments c'.width ∣ numSegments c.width
  inside : (j + 1) * numSegments c'.width ≤ numSegments c.width
  lowest : c'.lowest = c.lowest + 20 * ((j * numSegments c'.width : Nat) : Int)
  puncture : ∀ i < numSegments c'.width,
    c'.punctureBitmap.getLsbD i = c.punctureBitmap.getLsbD (j * numSegments c'.width + i)

theorem numSegments_pos (w : ChannelWidth) : 0 < numSegments w := by
  cases w <;> decide

variable {c c' : Channel} {w w' : ChannelWidth}

section

variable (hpair : c.width ≠ .w80p80)

include hpair

theorem covered_eq : c.covered =
      (List.range (numSegments c.width)).map fun i : Nat => c.lowest + 20 * (i : Int) := by
  rw [covered, if_neg hpair]
  rfl

theorem mem_covered {f : Int} :
    f ∈ c.covered ↔ ∃ i < numSegments c.width, f = c.lowest + 20 * (i : Int) := by
  simp [covered_eq hpair, eq_comm]

theorem getElem?_covered {i : Nat} {f : Int} :
    c.covered[i]? = some f ↔ i < numSegments c.width ∧ f = c.lowest + 20 * (i : Int) := by
  rw [covered_eq hpair, List.getElem?_map, Option.map_eq_some_iff]
  constructor
  · rintro ⟨k, hk, rfl⟩
    obtain ⟨hlt, rfl⟩ := List.getElem?_eq_some_iff.mp hk
    simpa using hlt
  · rintro ⟨hlt, rfl⟩
    exact ⟨i, by simp [hlt], rfl⟩

end

theorem IsBlock.refl (c : Channel) : IsBlock c c 0 where
  control := rfl
  aligned := dvd_rfl
  inside := by omega
  lowest := by simp
  puncture := by simp

theorem IsBlock.trans {c1 c2 : Channel} {j1 j2 : Nat} (h1 : IsBlock c c1 j1)
    (h2 : IsBlock c1 c2 j2) : ∃ j, IsBlock c c2 j := by
  obtain ⟨q, hq⟩ := h2.aligned
  have hoff : (j1 * q + j2) * numSegments c2.width =
      j1 * numSegments c1.width + j2 * numSegments c2.width := by
    rw [hq]
    ring
  have hin1 := h1.inside
  have hin2 := h2.inside
  rw [Nat.succ_mul] at hin1 hin2
  refine ⟨j1 * q + j2, h2.control.trans h1.control, h2.aligned.trans h1.aligned, ?_, ?_, ?_⟩
  · rw [Nat.succ_mul, hoff]
    omega
  · rw [h2.lowest, h1.lowest, hoff]
    push_cast
    ring
  · intro i hi
    rw [h2.puncture i hi, h1.puncture _ (by omega), hoff, Nat.add_assoc]

section

variable {j : Nat} (h : IsBlock c c' j) (hpair : c.width ≠ .w80p80) (hpair' : c'.width ≠ .w80p80)

include h hpair hpair'

theorem IsBlock.covered : c'.covered =
      (c.covered.drop (j * numSegments c'.width)).take (numSegments c'.width) := by
  have hin := h.inside
  rw [Nat.succ_mul] at hin
  refine List.ext_getElem? fun i => ?_
  rw [List.getElem?_take]
  by_cases hi : i < numSegments c'.width
  · rw [if_pos hi, List.getElem?_drop, (getElem?_covered hpair').mpr ⟨hi, rfl⟩,
      (getElem?_covered hpair).mpr ⟨by omega, rfl⟩, h.lowest]
    push_cast
    congr 1
    ring
  · rw [covered_eq hpair']
    simp [hi]

/-- The bits go with the frequencies. -/
theorem IsBlock.puncture_eq {i i' : Nat} {f : Int} (hi' : c'.covered[i']? = some f)
    (hi : c.covered[i]? = some f) : c'.punctureBitmap.getLsbD i' = c.punctureBitmap.getLsbD i := by
  obtain ⟨hlt', rfl⟩ := (getElem?_covered hpair').mp hi'
  obtain ⟨hlt, hfreq⟩ := (getElem?_covered hpair).mp hi
  rw [h.lowest] at hfreq
  rw [h.puncture i' hlt']
  congr 1
  omega

end

/-! ## One step -/

theorem widthOffsets_eq (hpair : w ≠ .w80p80) :
    widthOffsets w * 5 = 10 * ((numSegments w : Int) - 1) := by
  cases w <;> first | rfl | exact absurd rfl hpair

theorem widthDown_halves (hpair : w ≠ .w80p80) (h : widthDown w = some w') :
    numSegments w = 2 * numSegments w' ∧ w' ≠ .w80p80 := by
  cases w <;> first | exact absurd rfl hpair | (cases h <;> decide)

theorem getLsbD_mask (p : BitVec 16) (shift : Nat) {n i : Nat} (hi : i < n) (hn : n ≤ 16) :
    ((p >>> shift) &&& BitVec.ofNat 16 (2 ^ n - 1)).getLsbD i = p.getLsbD (shift + i) := by
  have hlow : i < 16 := by omega
  rw [BitVec.getLsbD_and, BitVec.getLsbD_ofNat]
  simp [hi, hlow]

/-- One step takes the half with the control frequency. -/
theorem downgrade_spec (hpair : c.width ≠ .w80p80) (hcontrol : c.controlFreq ∈ c.covered)
    (hw : widthDown c.width = some w) :
    ∃ c' j, c.downgrade = some c' ∧ c'.width = w ∧ IsBlock c c' j ∧ c.controlFreq ∈ c'.covered := by
  obtain ⟨hhalf, hpair'⟩ := widthDown_halves hpair hw
  have hle : numSegments w ≤ 16 := by cases w <;> decide
  obtain ⟨k, hk, hfreq⟩ := (mem_covered hpair).mp hcontrol
  have hold := widthOffsets_eq hpair
  have hnew := widthOffsets_eq hpair'
  have hcount : ∀ x : Int,
      ((x + widthOffsets c.width * 5 - (x - widthOffsets c.width * 5) + 20) / 20 / 2).toNat =
        numSegments w := by
    intro x
    omega
  rw [lowest] at hfreq
  by_cases hlt : c.controlFreq < c.centerFreq0
  · refine ⟨_, 0, by rw [downgrade, if_neg hpair, hw]; rfl, rfl, ?_, ?_⟩
    · refine ⟨rfl, ⟨2, by rw [hhalf, Nat.mul_comm]⟩, ?_, ?_, ?_⟩
      · simp only
        omega
      · simp only [lowest]
        omega
      · intro i hi
        simp only [if_pos hlt, hcount] at hi ⊢
        rw [getLsbD_mask _ _ hi hle, Nat.zero_mul]
    · refine (mem_covered hpair').mpr ⟨k, ?_, ?_⟩
      · simp only
        omega
      · simp only [lowest]
        omega
  · refine ⟨_, 1, by rw [downgrade, if_neg hpair, hw]; rfl, rfl, ?_, ?_⟩
    · refine ⟨rfl, ⟨2, by rw [hhalf, Nat.mul_comm]⟩, ?_, ?_, ?_⟩
      · simp only
        omega
      · simp only [lowest]
        omega
      · intro i hi
        simp only [if_neg hlt, hcount] at hi ⊢
        rw [getLsbD_mask _ _ hi hle, Nat.one_mul]
    · refine (mem_covered hpair').mpr ⟨k - numSegments w, ?_, ?_⟩
      · simp only
        omega
      · simp only [lowest]
        omega

/-! ## Down to a width -/

/-- A width that is not the narrowest has a next one, with only 80+80 MHz in between. -/
theorem exists_widthDown (hpair : w ≠ .w80p80) (hpair' : w' ≠ .w80p80) (hlt : w'.rank < w.rank) :
    ∃ v, widthDown w = some v ∧ w'.rank ≤ v.rank := by
  cases w <;> cases w' <;> first | exact absurd rfl hpair | exact absurd rfl hpair' |
    exact absurd hlt (by decide) | exact ⟨_, rfl, by decide⟩

theorem downgradeLoop_step {c1 : Channel} (hne : c.width ≠ w) (h : c.downgrade = some c1) :
    c.downgradeLoop w = c1.downgradeLoop w := by
  rw [downgradeLoop, if_neg hne]
  split
  · next hnone => cases h.symm.trans hnone
  · next hsome =>
    cases h.symm.trans hsome
    rfl

/-- The loop ends with the block of the width asked for. -/
theorem downgradeLoop_spec (hw : w ≠ .w80p80) (c : Channel) (hpair : c.width ≠ .w80p80)
    (hcontrol : c.controlFreq ∈ c.covered) (hle : w.rank ≤ c.width.rank) :
    ∃ c' j, c.downgradeLoop w = (true, c') ∧ c'.width = w ∧ IsBlock c c' j ∧
      c.controlFreq ∈ c'.covered := by
  induction h : c.width.rank using Nat.strong_induction_on generalizing c with
  | _ r ih =>
    by_cases hsame : c.width = w
    · refine ⟨c, 0, ?_, hsame, .refl c, hcontrol⟩
      rw [downgradeLoop, if_pos hsame]
    have hlt : w.rank < c.width.rank :=
      by
      refine lt_of_le_of_ne hle fun heq => hsame ?_
      revert heq
      cases w <;> cases c.width <;> decide
    obtain ⟨v, hv, hvle⟩ := exists_widthDown hpair hw hlt
    obtain ⟨c1, j1, hstep, rfl, hblock, hmem⟩ := downgrade_spec hpair hcontrol hv
    rw [← hblock.control] at hmem
    obtain ⟨c', j, hloop, hwidth, hblock', hmem'⟩ :=
      ih _ (h ▸ rank_downgrade hstep) c1 (widthDown_halves hpair hv).2 hmem hvle rfl
    obtain ⟨j', hj'⟩ := hblock.trans hblock'
    refine ⟨c', j', ?_, hwidth, hj', hblock.control ▸ hmem'⟩
    rw [downgradeLoop_step hsame hstep, hloop]

theorem rank_le_of_downgradeLoop (h : c.downgradeLoop w = (true, c')) : w.rank ≤ c.width.rank := by
  fun_induction downgradeLoop c w with
  | case1 c hsame => exact le_of_eq (congrArg _ hsame.symm)
  | case2 c hne hnone => cases h
  | case3 c hne c1 hstep ih => exact (ih h).trans (rank_downgrade hstep).le

theorem downgradeLoop_trans {w2 : ChannelWidth} (hlt : w2.rank < w.rank)
    (h : c.downgradeLoop w = (true, c')) : c'.downgradeLoop w2 = c.downgradeLoop w2 := by
  fun_induction downgradeLoop c w with
  | case1 c hsame =>
    cases h
    rfl
  | case2 c hne hnone => cases h
  | case3 c hne c1 hstep ih =>
    have hrank := rank_downgrade hstep
    have hle := rank_le_of_downgradeLoop h
    rw [ih h, downgradeLoop_step ?_ hstep]
    rintro rfl
    omega

/-- `osw_channel_20mhz_segments` writes the frequencies `freqs` and nothing else. -/
def Enumerates (c : Channel) (freqs : List Int) : Prop :=
  ∀ segments : List Int, 16 ≤ segments.length →
    c.segments20mhz segments = some (freqs.length, freqs ++ segments.drop freqs.length)

theorem enumerates_covered (hpair : c.width ≠ .w80p80) (hcontrol : c.controlFreq ≠ 0)
    (hcenter : c.centerFreq0 ≠ 0) : c.Enumerates c.covered := by
  intro segments hlen
  have hcount : c.covered.length = numSegments c.width := by
    rw [covered, if_neg hpair, length_freqsAround]
  rw [segments20mhz_eq hcontrol hcenter hpair hlen, hcount]

/-- A downgrade leaves the aligned block of segments with the control frequency and the bits of
these segments, and it does not matter in how many steps it is done.  The segments can be listed
if the centre of the block is not zero. -/
theorem downgradeTo_block {c : Channel} {w : ChannelWidth} (hpair : c.width ≠ .w80p80)
    (hcontrol : c.controlFreq ∈ c.covered) (hnarrow : w.rank < c.width.rank)
    (hw : w ≠ .w80p80) :
    ∃ c' j, c.downgradeTo w = (true, c') ∧ c'.width = w ∧ c'.controlFreq = c.controlFreq ∧
      c.controlFreq ∈ c'.covered ∧
      (j + 1) * numSegments w ≤ numSegments c.width ∧
      c'.covered = (c.covered.drop (j * numSegments w)).take (numSegments w) ∧
      (c.controlFreq ≠ 0 → c.centerFreq0 ≠ 0 → c.Enumerates c.covered) ∧
      (c'.controlFreq ≠ 0 → c'.centerFreq0 ≠ 0 → c'.Enumerates c'.covered) ∧
      (∀ i i' f, c'.covered[i']? = some f → c.covered[i]? = some f →
        c'.punctureBitmap.getLsbD i' = c.punctureBitmap.getLsbD i) ∧
      ∀ w₂ : ChannelWidth, w₂.rank < w.rank → c'.downgradeTo w₂ = c.downgradeTo w₂ := by
  obtain ⟨c', j, hloop, rfl, hblock, hmem⟩ := downgradeLoop_spec hw c hpair hcontrol hnarrow.le
  refine ⟨c', j, ?_, rfl, hblock.control, hmem, hblock.inside, hblock.covered hpair hw,
    enumerates_covered hpair, enumerates_covered hw, fun i i' f => hblock.puncture_eq hpair hw, ?_⟩
  · rw [downgradeTo, if_neg (by omega), hloop]
  · intro w₂ hw2
    rw [downgradeTo, if_neg (by omega), downgradeTo, if_neg (by omega),
      downgradeLoop_trans hw2 hloop]

theorem downgradeTo_block_320 :
    ∃ c' : Channel, downgradeTo ⟨.w320, 6115, 6105, 0, 0x0f00⟩ .w40 = (true, c') ∧
        (6115 : Int) ∈ c'.covered := by
  obtain ⟨c', -, h, -, -, hmem, -⟩ :=
    downgradeTo_block (c := ⟨.w320, 6115, 6105, 0, 0x0f00⟩) (w := .w40) (by decide) (by decide)
      (by decide) (by decide)
  exact ⟨c', h, hmem⟩

/-- The channel of the segments -10, 10, 30 and 50 around 20 MHz: the lower half has the centre 0,
and `osw_channel_20mhz_segments` refuses it. -/
theorem center_zero_refused :
    let c : Channel := ⟨.w80, 10, 20, 0, 0⟩
    c.controlFreq ∈ c.covered ∧ (c.segments20mhz (List.replicate 16 0)).isSome ∧
      (c.downgradeTo .w40).1 = true ∧
      (c.downgradeTo .w40).2.segments20mhz (List.replicate 16 0) = none := by
  decide +kernel

end OpenSync.Osw.Channel
