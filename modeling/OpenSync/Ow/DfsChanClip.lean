import OpenSync.Osw.ChannelList
import OpenSync.Osw.ChannelState

/-!
# Channels that avoid radar

`ow_dfs_chan_clip.c` changes the channel of a configuration if the radio cannot use it.  It tries
the configured channel, punctured or narrowed if need be, then the channel that the radio is on in
the same way, then the widest channel anywhere, then any 20 MHz channel.  If there is none it
clears `enabled`.

A centre frequency of zero stops the program, which is `none`.  `stack` is what the arrays `freqs`
have at the start.
-/

namespace OpenSync.Ow.DfsChanClip

open Osw Osw.ChannelState List Option Channel
open Osw.AssocReq (Band ChannelWidth)

/-! ## The functions -/

/-- `enum ow_dfs_chan_clip_result`. -/
inductive Result where
  | unspec
  | original
  | narrowed
  | punctured
  | inheritedState
  | inheritedStateAndNarrowed
  | inheritedStateAndPunctured
  | lastResortWidest
  | lastResort
  | disabled
deriving DecidableEq

/-- The loop of `ow_dfs_chan_clip_vif_try_puncture` from the `i`-th segment on, the last one first;
`none` if the control channel is in non-occupancy. -/
def punctureLoop (states : List ChannelState) (control : Int) : List Int → Nat → Option (BitVec 16)
  | [], _ => some 0
  | freq :: freqs, i =>
    (punctureLoop states control freqs (i + 1)).bind fun bitmap =>
      if hasState states freq .nol then
        if freq = control then none else some (bitmap ||| BitVec.twoPow 16 i)
      else some bitmap

/-- `ow_dfs_chan_clip_vif_try_puncture`; the inner `none` is `false`.  It gives the size of the
array in bytes for its length, but no channel has more segments than entries. -/
def vifTryPuncture (stack : List Int) (states : List ChannelState) (src : Channel) :
    Option (Option Channel) :=
  (segments stack src).map fun freqs =>
    if freqs.length = 0 then none
    else
      (punctureLoop states src.controlFreq freqs 0).bind fun bitmap =>
        if bitmap = 0 then none else some { src with punctureBitmap := bitmap }

/-- What `ow_dfs_chan_clip_vif_try_narrow` leaves: its answer, the channel and the two flags. -/
structure Clip where
  usable : Bool
  channel : Channel
  punctured : Bool
  narrowed : Bool
deriving DecidableEq

/-- `ow_dfs_chan_clip_vif_try_narrow`. -/
def vifTryNarrow (stack : List Int) (states : List ChannelState) (puncture : Bool) (c : Channel)
    (punctured narrowed : Bool) : Option Clip :=
  match chanIsUsable stack states c with
  | none => none
  | some true => some ⟨true, c, punctured, narrowed⟩
  | some false =>
    match if puncture then vifTryPuncture stack states c else some none with
    | none => none
    | some (some newC) => some ⟨true, newC, true, narrowed⟩
    | some none =>
      let punctured := if puncture then false else punctured
      match h : c.downgrade with
      | none => some ⟨false, c, punctured, narrowed⟩
      | some c' => vifTryNarrow stack states puncture c' punctured true
termination_by c.width.rank
decreasing_by exact Channel.rank_downgrade h

/-- `ow_dfs_chan_clip_vif_inherit_state`. -/
def vifInheritState (stack : List Int) (states : List ChannelState) (stateC : Option Channel)
    (c : Channel) (puncture punctured narrowed : Bool) : Option Clip :=
  match stateC with
  | none => some ⟨false, c, punctured, narrowed⟩
  | some s => vifTryNarrow stack states puncture s punctured narrowed

/-- `ow_dfs_chan_clip_get_chanlist`; the band that it also gives is the one of `c`. -/
def getChanlist (c : Channel) (width : ChannelWidth) : Option (List Int) :=
  let chan := freqToChan c.controlFreq
  match freqToBand c.controlFreq with
  | .undefined => none
  | .ghz2 => none
  | .ghz5 => unii5gChan2list chan (widthToMhz width)
  | .ghz6 => unii6gChan2list chan (widthToMhz width)

/-- `ow_dfs_chan_clip_chanlist_is_usable`. -/
def chanlistIsUsable (chanlist : Option (List Int)) (chanlistBand : Band)
    (states : List ChannelState) : Bool :=
  match chanlist with
  | none => false
  | some chans =>
    chans.all fun chan =>
      match states.find? fun cs =>
          freqToBand cs.channel.controlFreq = chanlistBand ∧
            freqToChan cs.channel.controlFreq = chan with
      | none => false
      | some cs => cs.dfsState ≠ .nol

/-- `ow_dfs_chan_clip_vif_any_widest`; `none` is the answer `false`. -/
def vifAnyWidest (states : List ChannelState) (c : Channel) : Option Channel :=
  match states.find? fun cs =>
      chanlistIsUsable (getChanlist cs.channel c.width) (freqToBand cs.channel.controlFreq)
        states with
  | some cs =>
    let centerFreq := chanAvg ((getChanlist cs.channel c.width).getD [])
    some { c with
      controlFreq := cs.channel.controlFreq
      centerFreq0 := chanToFreq (freqToBand cs.channel.controlFreq) centerFreq }
  | none =>
    match h : c.downgrade with
    | none => none
    | some c' => vifAnyWidest states c'
termination_by c.width.rank
decreasing_by exact Channel.rank_downgrade h

/-- `ow_dfs_chan_clip_vif_any`. -/
def vifAny (states : List ChannelState) : Option Channel :=
  (states.find? (·.dfsState ≠ .nol)).map (·.channel)

/-- What `ow_dfs_chan_clip_vif_chan` answers and leaves. -/
structure Outcome where
  result : Result
  channel : Channel
  enabled : Bool
deriving DecidableEq

/-- `ow_dfs_chan_clip_vif_chan`. -/
def vifChan (stack : List Int) (states : List ChannelState) (stateC : Option Channel)
    (c : Channel) (enabled puncture postponed : Bool) : Option Outcome :=
  if enabled = false then some ⟨.unspec, c, enabled⟩
  else if 1024 < states.length then some ⟨.unspec, c, enabled⟩
  else
    let postponedStates := states.map fun cs => { cs with dfsState := .nonDfs }
    (vifTryNarrow stack states puncture c false false).bind fun clip =>
      if clip.usable then
        some ⟨if clip.punctured then .punctured else if clip.narrowed then .narrowed else .original,
          clip.channel, enabled⟩
      else
        let inheritStates := if postponed then postponedStates else states
        (vifInheritState stack inheritStates stateC c puncture clip.punctured
          false).bind fun clip =>
          if clip.usable then
            some ⟨if clip.punctured then .inheritedStateAndPunctured
              else if clip.narrowed then .inheritedStateAndNarrowed else .inheritedState,
              clip.channel, enabled⟩
          else
            match vifAnyWidest states c with
            | some c' => some ⟨.lastResortWidest, c', enabled⟩
            | none =>
              match vifAny states with
              | some c' => some ⟨.lastResort, c', enabled⟩
              | none => some ⟨.disabled, c, false⟩

/-! ## What a clipped channel has to be -/

/-- Every segment is listed, the ones in non-occupancy are punctured, and the one of the control
frequency is not. -/
structure Safe (states : List ChannelState) (c : Channel) : Prop where
  listed : ∀ f ∈ c.covered, Listed states f
  nol : NolPunctured states c
  control : ∃ i, c.covered[i]? = some c.controlFreq ∧ c.punctureBitmap.getLsbD i = false

/-- The control frequency is inside of the channel and not punctured. -/
structure Proper (c : Channel) : Prop where
  single : c.width ≠ .w80p80
  control : ∃ i, c.covered[i]? = some c.controlFreq ∧ c.punctureBitmap.getLsbD i = false

/-- The frequency is the one of its channel number; in 2.4 GHz it does not matter. -/
def OnRaster (freq : Int) : Prop :=
  freqToBand freq = .ghz5 ∨ freqToBand freq = .ghz6 →
    chanToFreq (freqToBand freq) (freqToChan freq) = freq

instance (freq : Int) : Decidable (OnRaster freq) := inferInstanceAs (Decidable (_ → _))

/-- A list of 20 MHz channels with their states. -/
structure Reported (states : List ChannelState) : Prop where
  width : ∀ cs ∈ states, cs.channel.width = .w20
  center : ∀ cs ∈ states, cs.channel.centerFreq0 = cs.channel.controlFreq
  bitmap : ∀ cs ∈ states, cs.channel.punctureBitmap = 0
  raster : ∀ cs ∈ states, OnRaster cs.channel.controlFreq
  distinct : (states.map (·.channel.controlFreq)).Nodup

instance (states : List ChannelState) : Decidable (Reported states) :=
  decidable_of_iff
    ((∀ cs ∈ states, cs.channel.width = .w20) ∧
      (∀ cs ∈ states, cs.channel.centerFreq0 = cs.channel.controlFreq) ∧
      (∀ cs ∈ states, cs.channel.punctureBitmap = 0) ∧
      (∀ cs ∈ states, OnRaster cs.channel.controlFreq) ∧
      (states.map (·.channel.controlFreq)).Nodup)
    ⟨fun ⟨hw, hc, hb, hr, hd⟩ => ⟨hw, hc, hb, hr, hd⟩, fun ⟨hw, hc, hb, hr, hd⟩ =>
      ⟨hw, hc, hb, hr, hd⟩⟩

/-! ## Where the search stops -/

/-- The channel and what `osw_channel_downgrade` makes of it, one after the other. -/
def wayDown (c : Channel) : List Channel :=
  match h : c.downgrade with
  | none => [c]
  | some c' => c :: wayDown c'
termination_by c.width.rank
decreasing_by exact Channel.rank_downgrade h

section

variable (states : List ChannelState)

/-- Every segment is listed, and the ones in non-occupancy are punctured. -/
def Usable (c : Channel) : Prop :=
  c.controlFreq ≠ 0 ∧ (∀ f ∈ c.covered, Listed states f) ∧ NolPunctured states c

/-- There is a segment in non-occupancy, and it is not the one of the control frequency. -/
def Puncturable (c : Channel) : Prop :=
  c.controlFreq ≠ 0 ∧ hasState states c.controlFreq .nol = false ∧
    ∃ f ∈ c.covered, hasState states f .nol = true

open scoped Classical in
/-- The widest channel on the way down that can be used or, with `puncture`, punctured. -/
noncomputable def stopsAt (puncture : Bool) (c : Channel) : Option Channel :=
  (wayDown c).find? fun d => Usable states d ∨ puncture = true ∧ Puncturable states d

/-- The frequencies of the block of the given width around a channel. -/
def block (c : Channel) (w : ChannelWidth) : List Int :=
  ((getChanlist c w).getD []).map (chanToFreq (freqToBand c.controlFreq))

/-- The band has a block of the given width around the channel, and all channels of it are listed
and not in non-occupancy. -/
def Free (w : ChannelWidth) (c : Channel) : Prop :=
  ∃ chans, getChanlist c w = some chans ∧ ∀ chan ∈ chans, ∃ cs ∈ states,
    freqToBand cs.channel.controlFreq = freqToBand c.controlFreq ∧
      freqToChan cs.channel.controlFreq = chan ∧ cs.dfsState ≠ .nol

open scoped Classical in
/-- The first channel of the list with a free block around it. -/
noncomputable def firstFree (w : ChannelWidth) : Option ChannelState :=
  states.find? fun cs => Free states w cs.channel

/-- The widest channel on the way down for which there is a free block, and the first channel of the
list that has one. -/
noncomputable def movesTo (c : Channel) : Option (Channel × ChannelState) :=
  (wayDown c).findSome? fun d => (firstFree states d.width).map fun cs => (d, cs)

end

variable {stack : List Int} {states : List ChannelState} {c c' : Channel}

variable {cs : ChannelState} {clip : Clip} {narrowed : Bool} {stateC : Option Channel}
  {chans : List Int} {out : Outcome}

/-- There is one state for a frequency. -/
theorem Reported.not_nol (hst : Reported states) (h : cs ∈ states) (hstate : cs.dfsState ≠ .nol) :
    hasState states cs.channel.controlFreq .nol = false := by
  refine any_eq_false.mpr fun cs' h' => ?_
  rw [decide_eq_true_eq]
  rintro ⟨heq, hnol⟩
  exact hstate (inj_on_of_nodup_map hst.distinct h' h heq ▸ hnol)

/-! ## On the way down -/

variable {c₁ : Channel} {puncture : Bool}

/-- One step down is a step to a block of segments with the control frequency. -/
theorem Proper.block (hc : Proper c) (h : c.downgrade = some c₁) :
    c₁.width ≠ .w80p80 ∧ c₁.controlFreq ∈ c₁.covered ∧ ∃ j, Channel.IsBlock c c₁ j := by
  obtain ⟨i, hi, -⟩ := hc.control
  obtain ⟨w, hw⟩ : ∃ w, widthDown c.width = some w := by
    rw [downgrade, if_neg hc.single] at h
    obtain ⟨w, hw, -⟩ := map_eq_some_iff.mp h
    exact ⟨w, hw⟩
  obtain ⟨c2, j, hstep, rfl, hblock, hmem⟩ :=
    downgrade_spec hc.single (mem_of_getElem? hi) hw
  cases h.symm.trans hstep
  exact ⟨(widthDown_halves hc.single hw).2, hblock.control ▸ hmem, j, hblock⟩

theorem Proper.downgrade (hc : Proper c) (h : c.downgrade = some c₁) : Proper c₁ := by
  obtain ⟨hpair, hmem, j, hblock⟩ := hc.block h
  obtain ⟨i, hi, hbit⟩ := hc.control
  obtain ⟨i', hi'⟩ := getElem?_of_mem hmem
  rw [← hblock.control] at hi
  exact ⟨hpair, i', hi', by rw [hblock.puncture_eq hc.single hpair hi' hi, hbit]⟩

theorem Proper.lt_sixteen (hc : Proper c) {i : Nat} {f : Int} (h : c.covered[i]? = some f) :
    i < 16 := by
  have hle : numSegments c.width ≤ 16 := by cases c.width <;> decide
  have := ((getElem?_covered hc.single).mp h).1
  omega

theorem wayDown_of_none (h : c.downgrade = none) : wayDown c = [c] := by
  rw [wayDown]
  split
  · rfl
  · next heq =>
    rw [h] at heq
    cases heq

theorem wayDown_of_some (h : c.downgrade = some c₁) : wayDown c = c :: wayDown c₁ := by
  rw [wayDown]
  split
  · next heq =>
    rw [h] at heq
    cases heq
  · next heq =>
    rw [h] at heq
    cases heq
    rfl

theorem stopsAt_self (h : Usable states c ∨ puncture = true ∧ Puncturable states c) :
    stopsAt states puncture c = some c := by
  rw [stopsAt]
  cases hdown : c.downgrade with
  | none => simp [wayDown_of_none hdown, h]
  | some c₁ => simp [wayDown_of_some hdown, h]

theorem stopsAt_step (h : ¬(Usable states c ∨ puncture = true ∧ Puncturable states c)) :
    stopsAt states puncture c = c.downgrade.bind (stopsAt states puncture) := by
  rw [stopsAt]
  cases hdown : c.downgrade with
  | none => simp [wayDown_of_none hdown, h]
  | some c₁ => simp [wayDown_of_some hdown, h, stopsAt]

/-! ## Puncturing -/

/-- Only the control channel stops the loop. -/
theorem punctureLoop_eq_none_iff {control : Int} {freqs : List Int} {i : Nat} :
    punctureLoop states control freqs i = none ↔
      control ∈ freqs ∧ hasState states control .nol = true := by
  induction freqs generalizing i with
  | nil => simp [punctureLoop]
  | cons freq freqs ih =>
    cases hrest : punctureLoop states control freqs (i + 1) with
    | none =>
      obtain ⟨hmem, hnol⟩ := ih.mp hrest
      simp [punctureLoop, hrest, hmem, hnol]
    | some bitmap =>
      have hout : ¬(control ∈ freqs ∧ hasState states control .nol = true) := fun h => by
        rw [ih.mpr h] at hrest
        cases hrest
      by_cases hfreq : freq = control
      · subst hfreq
        simp [punctureLoop, hrest]
      · simp only [punctureLoop, hrest, Option.bind_some, if_neg hfreq]
        rw [mem_cons, or_iff_right (Ne.symm hfreq)]
        split <;> simpa using hout

theorem punctureLoop_of_free {control : Int} {freqs : List Int} {i : Nat}
    (h : ∀ f ∈ freqs, hasState states f .nol = false) :
    punctureLoop states control freqs i = some 0 := by
  induction freqs generalizing i with
  | nil => rfl
  | cons freq freqs ih =>
    have hrest := ih (i := i + 1) fun f hf => h f (mem_cons_of_mem _ hf)
    simp [punctureLoop, hrest, h freq mem_cons_self]

/-- The bits of the loop are those of the segments in non-occupancy, and the control channel is
not one of them. -/
theorem punctureLoop_spec {control : Int} {freqs : List Int} {i : Nat} {bitmap : BitVec 16}
    (h : punctureLoop states control freqs i = some bitmap) :
    (∀ k < i, bitmap.getLsbD k = false) ∧ ∀ j f, freqs[j]? = some f → i + j < 16 →
        bitmap.getLsbD (i + j) = hasState states f .nol ∧
          (hasState states f .nol = true → f ≠ control) := by
  induction freqs generalizing i bitmap with
  | nil =>
    cases h
    simp
  | cons freq freqs ih =>
    obtain ⟨bitmap', hrest, hhead⟩ := bind_eq_some_iff.mp h
    obtain ⟨hlow, hbits⟩ := ih hrest
    by_cases hnol : hasState states freq .nol = true
    · rw [if_pos hnol] at hhead
      by_cases hcontrol : freq = control
      · rw [if_pos hcontrol] at hhead
        cases hhead
      rw [if_neg hcontrol] at hhead
      cases hhead
      have hor : ∀ k < 16, (bitmap' ||| BitVec.twoPow 16 i).getLsbD k =
          (bitmap'.getLsbD k || decide (k = i)) := by
        intro k hk
        simp [hk]
      refine ⟨fun k hk => ?_, fun j f hj hlt => ?_⟩
      · by_cases hk16 : k < 16
        · rw [hor k hk16, hlow k (by omega)]
          simp
          omega
        · exact BitVec.getLsbD_of_ge _ _ (by omega)
      · cases j with
        | zero =>
          obtain rfl : freq = f := by simpa using hj
          rw [hor _ hlt, hnol]
          simpa using hcontrol
        | succ j =>
          have := hbits j f (by simpa using hj) (by omega)
          rw [show i + 1 + j = i + (j + 1) from by omega] at this
          simpa using this
    · rw [if_neg hnol] at hhead
      cases hhead
      refine ⟨fun k hk => hlow k (by omega), fun j f hj hlt => ?_⟩
      cases j with
      | zero =>
        obtain rfl : freq = f := by simpa using hj
        rw [add_zero, hlow i (by omega)]
        simp [hnol]
      | succ j =>
        have := hbits j f (by simpa using hj) (by omega)
        rwa [show i + 1 + j = i + (j + 1) from by omega] at this

/-- A punctured channel has the same segments, and exactly the ones in non-occupancy are
punctured.  Nothing is said about segments that are not listed. -/
theorem vifTryPuncture_spec (hstack : 16 ≤ stack.length) (hc : Proper c)
    (hcenter : c.centerFreq0 ≠ 0) (h : vifTryPuncture stack states c = some (some c')) :
    c'.width = c.width ∧ c'.covered = c.covered ∧ NolPunctured states c' ∧
      ∃ i, c'.covered[i]? = some c'.controlFreq ∧ c'.punctureBitmap.getLsbD i = false := by
  rw [vifTryPuncture] at h
  by_cases hcontrol : c.controlFreq = 0
  · rw [segments_control_zero hcontrol] at h
    cases h
  rw [segments_eq_covered hstack hc.single hcontrol hcenter, map_some,
    some.injEq, if_neg (covered_ne_nil hc.single)] at h
  obtain ⟨bitmap, hloop, hres⟩ := bind_eq_some_iff.mp h
  split at hres
  · cases hres
  cases hres
  have hlt : ∀ i f, c.covered[i]? = some f → i < 16 := fun i f hi => hc.lt_sixteen hi
  have hbits := (punctureLoop_spec hloop).2
  simp only [zero_add] at hbits
  obtain ⟨i, hi, -⟩ := hc.control
  refine ⟨rfl, rfl, fun k f hk hnol => ?_, i, hi, ?_⟩
  · exact (hbits k f hk (hlt k f hk)).1.trans hnol
  · rw [(hbits i _ hi (hlt i _ hi)).1]
    by_contra hnol
    exact (hbits i _ hi (hlt i _ hi)).2 (by simpa using hnol) rfl

/-- The channel is punctured if it can be. -/
theorem vifTryPuncture_isSome_iff (hstack : 16 ≤ stack.length) (hc : Proper c)
    (hcenter : c.centerFreq0 ≠ 0) {r : Option Channel}
    (h : vifTryPuncture stack states c = some r) : r.isSome ↔ Puncturable states c := by
  rw [vifTryPuncture] at h
  by_cases hcontrol : c.controlFreq = 0
  · rw [segments_control_zero hcontrol] at h
    cases h
    simp [Puncturable, hcontrol]
  rw [segments_eq_covered hstack hc.single hcontrol hcenter, map_some, some.injEq,
    if_neg (covered_ne_nil hc.single)] at h
  subst h
  obtain ⟨i, hi, -⟩ := hc.control
  cases hloop : punctureLoop states c.controlFreq c.covered 0 with
  | none =>
    have hnol := (punctureLoop_eq_none_iff.mp hloop).2
    simp [Puncturable, hnol]
  | some bitmap =>
    have hfree : hasState states c.controlFreq .nol = false := by
      by_contra hnol
      rw [punctureLoop_eq_none_iff.mpr ⟨mem_of_getElem? hi, by simpa using hnol⟩] at hloop
      cases hloop
    simp only [Puncturable, hcontrol, hfree, ne_eq, not_false_eq_true, true_and,
      Option.bind_some]
    by_cases hany : ∃ f ∈ c.covered, hasState states f .nol = true
    · obtain ⟨f, hf, hnol⟩ := hany
      obtain ⟨k, hk⟩ := getElem?_of_mem hf
      have hbit := ((punctureLoop_spec hloop).2 k f hk (by rw [zero_add]; exact hc.lt_sixteen hk)).1
      have hne : bitmap ≠ 0 := by
        rintro rfl
        rw [hnol] at hbit
        simp at hbit
      rw [if_neg hne]
      exact iff_of_true rfl ⟨f, hf, hnol⟩
    · have hall : ∀ f ∈ _, hasState states f .nol = false := fun f hf => by
        by_contra hnol
        exact hany ⟨f, hf, by simpa using hnol⟩
      cases hloop.symm.trans (punctureLoop_of_free hall)
      simpa using hany

/-! ## Narrowing -/

/-- The ends of `ow_dfs_chan_clip_vif_try_narrow`.  A punctured channel has the segments of the one
where the search stops. -/
inductive Clipped (states : List ChannelState) (puncture : Bool) (c : Channel) (clip : Clip) : Prop
  | failed (usable : clip.usable = false) (punctured : clip.punctured = false)
      (stops : stopsAt states puncture c = none)
  | kept (usable : clip.usable = true) (punctured : clip.punctured = false)
      (stops : stopsAt states puncture c = some clip.channel) (safe : Safe states clip.channel)
  | punctured {d : Channel} (usable : clip.usable = true) (punctured : clip.punctured = true)
      (stops : stopsAt states puncture c = some d) (covered : clip.channel.covered = d.covered)
      (safe : (∀ f ∈ clip.channel.covered, Listed states f) → Safe states clip.channel)

theorem Clipped.congr (h : stopsAt states puncture c = stopsAt states puncture c₁)
    (hclip : Clipped states puncture c₁ clip) : Clipped states puncture c clip := by
  cases hclip with
  | failed usable punctured stops => exact .failed usable punctured (h.trans stops)
  | kept usable punctured stops safe => exact .kept usable punctured (h.trans stops) safe
  | punctured usable punctured stops covered safe =>
    exact .punctured usable punctured (h.trans stops) covered safe

theorem center_of_usable {usable : Bool} (h : chanIsUsable stack states c = some usable) :
    c.centerFreq0 ≠ 0 := by
  intro hcenter
  rw [chanIsUsable, chanIsValid, if_pos hcenter, Option.bind_none] at h
  cases h

theorem usable_iff (hstack : 16 ≤ stack.length) (hc : Proper c) {usable : Bool}
    (h : chanIsUsable stack states c = some usable) : usable = true ↔ Usable states c := by
  obtain ⟨usable', heq, hspec⟩ := chanIsUsable_spec states hstack hc.single (center_of_usable h)
  cases heq.symm.trans h
  exact hspec

/-- A step down is made where the search does not stop. -/
theorem not_stops (hstack : 16 ≤ stack.length) (hc : Proper c)
    (husable : chanIsUsable stack states c = some false)
    (hpuncture : (if puncture then vifTryPuncture stack states c else some none) = some none) :
    ¬(Usable states c ∨ puncture = true ∧ Puncturable states c) := by
  rintro (h | ⟨rfl, h⟩)
  · exact absurd ((usable_iff hstack hc husable).mpr h) (by simp)
  · have hsome := (vifTryPuncture_isSome_iff hstack hc (center_of_usable husable) hpuncture).mpr h
    cases hsome

theorem vifTryNarrow_clipped (hstack : 16 ≤ stack.length) {punctured : Bool} (hc : Proper c)
    (hpunctured : punctured = false)
    (h : vifTryNarrow stack states puncture c punctured narrowed = some clip) :
    Clipped states puncture c clip := by
  fun_induction vifTryNarrow stack states puncture c punctured narrowed with
  | case1 => cases h
  | case2 c punctured narrowed husable =>
    cases h
    have hspec := (usable_iff hstack hc husable).mp rfl
    exact .kept rfl hpunctured (stopsAt_self (.inl hspec)) ⟨hspec.2.1, hspec.2.2, hc.control⟩
  | case3 => cases h
  | case4 c punctured narrowed husable newC hpuncture =>
    cases h
    split at hpuncture
    · have hcenter := center_of_usable husable
      obtain ⟨-, hcovered, hnol, hcontrol⟩ :=
        vifTryPuncture_spec hstack hc hcenter hpuncture
      have hable := (vifTryPuncture_isSome_iff hstack hc hcenter hpuncture).mp rfl
      exact .punctured rfl rfl (stopsAt_self (.inr ⟨‹_›, hable⟩)) hcovered
        fun hlisted => ⟨hlisted, hnol, hcontrol⟩
    · cases hpuncture
  | case5 c punctured narrowed husable hpuncture punctured' hdown =>
    cases h
    refine .failed rfl (by simp [punctured', hpunctured]) ?_
    rw [stopsAt_step (not_stops hstack hc husable hpuncture), hdown]
    rfl
  | case6 c punctured narrowed husable hpuncture punctured' c₁ hstep ih =>
    refine (ih (hc.downgrade hstep) (by simp [punctured', hpunctured]) h).congr ?_
    rw [stopsAt_step (not_stops hstack hc husable hpuncture), hstep]
    rfl

/-! ## The last resorts -/

/-- The channel `d` with the control frequency of `cs` and the centre of its block. -/
def moved (d : Channel) (cs : ChannelState) : Channel :=
  { d with
    controlFreq := cs.channel.controlFreq
    centerFreq0 := chanToFreq (freqToBand cs.channel.controlFreq)
      (chanAvg ((getChanlist cs.channel d.width).getD [])) }

/-- The numbers of a list are those of the segments around its average, and the channel is one of
them. -/
theorem getChanlist_spec {w : ChannelWidth} (h : getChanlist c w = some chans) :
    w ≠ .w80p80 ∧ freqToChan c.controlFreq ∈ chans ∧
      (freqToBand c.controlFreq = .ghz5 ∨ freqToBand c.controlFreq = .ghz6) ∧
      chans.map (chanToFreq (freqToBand c.controlFreq)) =
        Channel.freqsAround (chanToFreq (freqToBand c.controlFreq) (chanAvg chans))
          (Channel.numSegments w) := by
  rw [getChanlist] at h
  cases hband : freqToBand c.controlFreq with
  | undefined | ghz2 =>
    rw [hband] at h
    cases h
  | ghz5 =>
    rw [hband] at h
    obtain ⟨hw, hmem, hfreqs⟩ := chan2listFind_spec unii5g_centered h
    exact ⟨hw, hmem, .inl rfl, hfreqs⟩
  | ghz6 =>
    rw [hband] at h
    obtain ⟨hw, hmem, hfreqs⟩ := chan2listFind_spec unii6g_centered h
    exact ⟨hw, hmem, .inr rfl, hfreqs⟩

section

variable (hst : Reported states)

include hst

/-- The channels of a usable list are listed and not in non-occupancy. -/
theorem chanlistIsUsable_spec {band : Band} (hband : band = .ghz5 ∨ band = .ghz6)
    (h : chanlistIsUsable (some chans) band states = true) {f : Int}
    (hf : f ∈ chans.map (chanToFreq band)) : Listed states f ∧ hasState states f .nol = false := by
  obtain ⟨chan, hmem, rfl⟩ := mem_map.mp hf
  have hchan := all_eq_true.mp h chan hmem
  split at hchan
  · cases hchan
  next cs hfind =>
  have hcs := mem_of_find?_eq_some hfind
  have hmatch := find?_some hfind
  simp only [decide_eq_true_eq] at hmatch hchan
  obtain ⟨rfl, rfl⟩ := hmatch
  rw [hst.raster cs hcs hband]
  exact ⟨⟨cs, hcs, rfl⟩, hst.not_nol hcs hchan⟩

theorem chanlistIsUsable_iff {w : ChannelWidth} :
    chanlistIsUsable (getChanlist c w) (freqToBand c.controlFreq) states = true ↔
      Free states w c := by
  cases hlist : getChanlist c w with
  | none => simp [chanlistIsUsable, Free, hlist]
  | some chans =>
    have hband := (getChanlist_spec hlist).2.2.1
    simp only [chanlistIsUsable, Free, hlist, some.injEq, exists_eq_left', List.all_eq_true]
    refine forall_congr' fun chan => imp_congr_right fun _ => ?_
    constructor
    · intro hchan
      split at hchan
      · cases hchan
      next cs hfind =>
      have hmatch := find?_some hfind
      simp only [decide_eq_true_eq] at hmatch hchan
      exact ⟨cs, mem_of_find?_eq_some hfind, hmatch.1, hmatch.2, hchan⟩
    · rintro ⟨cs, hcs, hsame, hchan, hnol⟩
      obtain ⟨cs', hfind⟩ : ∃ cs', states.find? (fun cs =>
          freqToBand cs.channel.controlFreq = freqToBand c.controlFreq ∧
            freqToChan cs.channel.controlFreq = chan) = some cs' :=
        isSome_iff_exists.mp (find?_isSome.mpr ⟨cs, hcs, by simp [hsame, hchan]⟩)
      have hcs' := mem_of_find?_eq_some hfind
      have hmatch := find?_some hfind
      simp only [decide_eq_true_eq] at hmatch
      -- a band and a number have one frequency, and a frequency has one state
      have hfreq : cs'.channel.controlFreq = cs.channel.controlFreq := by
        rw [← hst.raster cs' hcs' (by rw [hmatch.1]; exact hband),
          ← hst.raster cs hcs (by rw [hsame]; exact hband), hmatch.1, hmatch.2, hsame, hchan]
      obtain rfl := inj_on_of_nodup_map hst.distinct hcs' hcs hfreq
      rw [hfind]
      simpa using hnol

theorem firstFree_eq (w : ChannelWidth) :
    firstFree states w = states.find? fun cs =>
      chanlistIsUsable (getChanlist cs.channel w) (freqToBand cs.channel.controlFreq) states := by
  classical
  rw [firstFree]
  congr 1
  funext cs
  rw [Bool.eq_iff_iff, chanlistIsUsable_iff hst, decide_eq_true_iff]

theorem vifAnyWidest_eq (c : Channel) :
    vifAnyWidest states c = (movesTo states c).map fun p => moved p.1 p.2 := by
  fun_induction vifAnyWidest states c with
  | case1 c cs hfind centerFreq =>
    have hhead : ∃ cs', wayDown c = c :: cs' := by
      cases hdown : c.downgrade with
      | none => exact ⟨_, wayDown_of_none hdown⟩
      | some c₁ => exact ⟨_, wayDown_of_some hdown⟩
    obtain ⟨rest, hway⟩ := hhead
    simp [movesTo, hway, firstFree_eq hst, hfind, moved, centerFreq]
  | case2 c hfind hdown =>
    simp [movesTo, wayDown_of_none hdown, firstFree_eq hst, hfind]
  | case3 c hfind c₁ hdown ih =>
    rw [ih]
    simp [movesTo, wayDown_of_some hdown, firstFree_eq hst c.width, hfind]

omit hst in
theorem movesTo_spec {d : Channel} (h : movesTo states c = some (d, cs)) :
    cs ∈ states ∧ Free states d.width cs.channel := by
  obtain ⟨d', -, hd⟩ := exists_of_findSome?_eq_some h
  obtain ⟨cs', hfind, heq⟩ := map_eq_some_iff.mp hd
  cases heq
  exact ⟨mem_of_find?_eq_some hfind, by simpa using find?_some hfind⟩

/-- A channel in a free block is safe if the old bitmap does not puncture its control
frequency. -/
theorem moved_safe_iff {d : Channel} (h : movesTo states c = some (d, cs)) :
    Safe states (moved d cs) ↔ ∀ i, (block cs.channel d.width)[i]? = some cs.channel.controlFreq →
      d.punctureBitmap.getLsbD i = false := by
  obtain ⟨hcs, hfree⟩ := movesTo_spec h
  have husable := (chanlistIsUsable_iff hst).mpr hfree
  obtain ⟨chans, hlist, -⟩ := hfree
  obtain ⟨hw, hmem, hband, hfreqs⟩ := getChanlist_spec hlist
  rw [hlist] at husable
  have hcovered : (moved d cs).covered = block cs.channel d.width := by
    simp [covered, moved, hw, block, hlist, hfreqs]
  have hblock : block cs.channel d.width =
      chans.map (chanToFreq (freqToBand cs.channel.controlFreq)) := by
    simp [block, hlist]
  have hclear : ∀ f ∈ block cs.channel d.width,
      Listed states f ∧ hasState states f .nol = false := fun f hf =>
    chanlistIsUsable_spec hst hband husable (hblock ▸ hf)
  have hin : cs.channel.controlFreq ∈ block cs.channel d.width := by
    rw [hblock]
    exact mem_map.mpr ⟨_, hmem, hst.raster cs hcs hband⟩
  constructor
  · rintro ⟨-, -, i, hi, hbit⟩ j hj
    rw [← hcovered] at hj
    obtain rfl : i = j := by
      have hi' := ((getElem?_covered (c := moved d cs) hw).mp hi).2
      have hj' := ((getElem?_covered (c := moved d cs) hw).mp hj).2
      simp only [moved] at hi' hj'
      omega
    exact hbit
  · intro hbits
    obtain ⟨i, hi⟩ := getElem?_of_mem hin
    refine ⟨fun f hf => (hclear f (hcovered ▸ hf)).1, fun k f hk hnol => ?_, i, ?_, hbits i hi⟩
    · rw [(hclear f (hcovered ▸ mem_of_getElem? hk)).2] at hnol
      cases hnol
    · rw [hcovered]
      exact hi

theorem vifAny_safe (h : vifAny states = some c) : Safe states c := by
  obtain ⟨cs, hfind, rfl⟩ := map_eq_some_iff.mp h
  have hcs := mem_of_find?_eq_some hfind
  have hstate := find?_some hfind
  simp only [decide_eq_true_eq] at hstate
  have hcovered : cs.channel.covered = [cs.channel.controlFreq] := by
    rw [← hst.center cs hcs, covered_eq (by rw [hst.width cs hcs]; decide), lowest,
      hst.width cs hcs]
    simp [numSegments]
  refine ⟨fun f hf => ?_, fun i f hi hnol => ?_, 0, ?_, ?_⟩
  · rw [hcovered, mem_singleton] at hf
    exact ⟨cs, hcs, hf.symm⟩
  · have hf : f = cs.channel.controlFreq := by
      simpa [hcovered] using mem_of_getElem? hi
    rw [hf, hst.not_nol hcs hstate] at hnol
    cases hnol
  · rw [hcovered]
    rfl
  · rw [hst.bitmap cs hcs]
    rfl

omit hst in
theorem vifAny_none (h : vifAny states = none) : ∀ cs ∈ states, cs.dfsState = .nol := by
  intro cs hcs
  have := find?_eq_none.mp (map_eq_none_iff.mp h) cs hcs
  simpa using this

/-! ## The whole function -/

/-- A channel that is left enabled is safe, and it is disabled only if all channels are in
non-occupancy. -/
def Outcome.Sound (states : List ChannelState) (out : Outcome) : Prop :=
  (out.enabled = true → Safe states out.channel) ∧
    (out.enabled = false → ∀ cs ∈ states, cs.dfsState = .nol)

omit hst in
theorem Outcome.sound_enabled_iff (h : out.enabled = true) :
    out.Sound states ↔ Safe states out.channel := by
  rw [Outcome.Sound, h]
  simp

/-- The end of the function, behind the two channels it prefers. -/
theorem lastResort_sound_iff
    (h : (match vifAnyWidest states c with
      | some c' => some ⟨.lastResortWidest, c', true⟩
      | none =>
        match vifAny states with
        | some c' => some ⟨.lastResort, c', true⟩
        | none => some ⟨.disabled, c, false⟩) = some out) :
    out.Sound states ↔ ∀ d cs, movesTo states c = some (d, cs) → ∀ i,
      (block cs.channel d.width)[i]? = some cs.channel.controlFreq →
        d.punctureBitmap.getLsbD i = false := by
  rw [vifAnyWidest_eq hst] at h
  cases hmoves : movesTo states c with
  | some p =>
    simp only [hmoves, map_some, some.injEq] at h
    subst h
    rw [Outcome.sound_enabled_iff rfl, moved_safe_iff hst hmoves]
    refine ⟨fun hbits d cs hp => ?_, fun hbits => hbits p.1 p.2 rfl⟩
    cases hp
    exact hbits
  | none =>
    simp only [hmoves, map_none] at h
    refine iff_of_true ?_ (by simp)
    cases hany : vifAny states with
    | some c' =>
      simp only [hany, some.injEq] at h
      subst h
      rw [Outcome.sound_enabled_iff rfl]
      exact vifAny_safe hst hany
    | none =>
      simp only [hany, some.injEq] at h
      subst h
      simpa [Outcome.Sound] using vifAny_none hany

end

/-- The outcome is sound exactly if

* the widest channel on the way down from the configured one that can be used or punctured has
  only listed segments;
* if there is none, the same is true of the channel that the radio is on;
* if there is none either, and the widest free block is somewhere else, the bitmap of the
  configuration does not puncture its control frequency. -/
theorem vifChan_sound_iff (hstack : stack.length = 16) (hst : Reported states)
    (hlen : states.length ≤ 1024) {stateC : Option Channel} (hc : Proper c)
    (hstate : ∀ s, stateC = some s → Proper s) {puncture : Bool} {out : Outcome}
    (h : vifChan stack states stateC c true puncture false = some out) :
    out.Sound states ↔
      (∀ d, stopsAt states puncture c = some d → ∀ f ∈ d.covered, Listed states f) ∧
      (stopsAt states puncture c = none →
        (∀ s, stateC = some s → ∀ d, stopsAt states puncture s = some d →
          ∀ f ∈ d.covered, Listed states f) ∧
        ((∀ s, stateC = some s → stopsAt states puncture s = none) →
          ∀ d cs, movesTo states c = some (d, cs) → ∀ i,
            (block cs.channel d.width)[i]? = some cs.channel.controlFreq →
              d.punctureBitmap.getLsbD i = false)) := by
  rw [vifChan, if_neg (by decide), if_neg (by omega)] at h
  obtain ⟨clip, hclip, hrest⟩ := bind_eq_some_iff.mp h
  cases vifTryNarrow_clipped hstack.ge hc rfl hclip with
  | kept usable punctured stops safe =>
    simp only [usable, punctured, if_true, some.injEq] at hrest
    subst hrest
    rw [Outcome.sound_enabled_iff rfl]
    simpa [stops, safe] using safe.listed
  | punctured usable punctured stops covered safe =>
    simp only [usable, punctured, if_true, some.injEq] at hrest
    subst hrest
    rw [Outcome.sound_enabled_iff rfl]
    simp only [stops, some.injEq, forall_eq', reduceCtorEq, false_imp_iff, and_true, ← covered]
    exact ⟨fun hsafe => hsafe.listed, safe⟩
  | failed usable punctured stops =>
    simp only [usable, punctured, if_neg Bool.false_ne_true] at hrest
    obtain ⟨clip', hinherit, hlast⟩ := bind_eq_some_iff.mp hrest
    simp only [stops, reduceCtorEq, false_imp_iff, implies_true, true_and, forall_const]
    cases stateC with
    | none =>
      cases hinherit
      simpa using lastResort_sound_iff hst hlast
    | some s =>
      cases vifTryNarrow_clipped hstack.ge (hstate s rfl) rfl hinherit with
      | failed usable' _ stops' =>
        simp only [usable'] at hlast
        simpa [stops'] using lastResort_sound_iff hst hlast
      | kept usable' punctured' stops' safe =>
        simp only [usable', punctured', if_true, some.injEq] at hlast
        subst hlast
        rw [Outcome.sound_enabled_iff rfl]
        simpa [stops', safe] using safe.listed
      | punctured usable' punctured' stops' covered safe =>
        simp only [usable', punctured', if_true, some.injEq] at hlast
        subst hlast
        rw [Outcome.sound_enabled_iff rfl]
        refine ⟨fun hsafe => ⟨?_, ?_⟩, fun hlisted => safe ?_⟩
        · rintro _ ⟨⟩ d hd
          cases stops'.symm.trans hd
          exact covered ▸ hsafe.listed
        · intro hnone
          cases stops'.symm.trans (hnone s rfl)
        · exact covered ▸ hlisted.1 s rfl _ stops'

/-- With frequencies above zero there is always a centre frequency. -/
theorem vifTryNarrow_isSome (states : List ChannelState) (puncture punctured narrowed : Bool)
    (hstack : 16 ≤ stack.length) (hc : Proper c) (hpos : 0 < c.lowest) :
    (vifTryNarrow stack states puncture c punctured narrowed).isSome := by
  have hcenter : ∀ {c : Channel}, 0 < c.lowest → c.centerFreq0 ≠ 0 := by
    intro c hpos
    have := numSegments_pos c.width
    rw [lowest] at hpos
    omega
  fun_induction vifTryNarrow stack states puncture c punctured narrowed with
  | case1 c punctured narrowed husable =>
    obtain ⟨usable, heq, -⟩ := chanIsUsable_spec states hstack hc.single (hcenter hpos)
    cases heq.symm.trans husable
  | case2 | case4 | case5 => rfl
  | case3 c punctured narrowed _ hpuncture =>
    split at hpuncture
    · rw [vifTryPuncture] at hpuncture
      by_cases hcontrol : c.controlFreq = 0
      · rw [segments_control_zero hcontrol] at hpuncture
        cases hpuncture
      · rw [segments_eq_covered hstack hc.single hcontrol (hcenter hpos)] at hpuncture
        cases hpuncture
    · cases hpuncture
  | case6 c punctured narrowed _ _ _ c₁ hstep ih =>
    obtain ⟨-, -, j, hblock⟩ := hc.block hstep
    have hlowest := hblock.lowest
    exact ih (hc.downgrade hstep) (by omega)

/-- The function comes to an end with an outcome. -/
theorem vifChan_isSome (hstack : 16 ≤ stack.length) (hc : Proper c) (hpos : 0 < c.lowest)
    (hstate : ∀ s, stateC = some s → Proper s ∧ 0 < s.lowest) {enabled postponed : Bool} :
    (vifChan stack states stateC c enabled puncture postponed).isSome := by
  have hinherit : ∀ (states : List ChannelState) (punctured : Bool),
      (vifInheritState stack states stateC c puncture punctured false).isSome := by
    intro states punctured
    cases stateC with
    | none => rfl
    | some s => exact vifTryNarrow_isSome _ _ _ _ hstack (hstate s rfl).1 (hstate s rfl).2
  rw [vifChan]
  split
  · rfl
  split
  · rfl
  obtain ⟨clip, hclip⟩ := isSome_iff_exists.mp
    (vifTryNarrow_isSome states puncture false false hstack hc hpos)
  simp only [hclip, bind_some]
  split
  · rfl
  obtain ⟨clip', hclip'⟩ := isSome_iff_exists.mp (hinherit _ clip.punctured)
  rw [hclip', bind_some]
  split
  · rfl
  cases vifAnyWidest states c <;> cases vifAny states <;> rfl

/-- The states of 20 MHz channels at the given frequencies. -/
def statesOf (freqs : List (Int × DfsState)) : List ChannelState :=
  freqs.map fun p => ⟨⟨.w20, p.1, p.1, 0, 0⟩, p.2⟩

theorem vifChan_isSome_80mhz : (vifChan (List.replicate 16 0) (statesOf [(5220, .nol)]) none
    ⟨.w80, 5180, 5210, 0, 0⟩ true true false).isSome :=
  vifChan_isSome (by decide) ⟨by decide, 0, by decide +kernel, by decide +kernel⟩ (by decide)
    fun s hs => by cases hs

theorem vifChan_sound_iff_80mhz :
    let states := statesOf [(5180, .nonDfs), (5200, .nonDfs), (5220, .nol), (5240, .nonDfs)]
    ∃ out, vifChan (List.replicate 16 0) states (some ⟨.w20, 5240, 5240, 0, 0⟩)
        ⟨.w80, 5180, 5210, 0, 0⟩ true true false = some out ∧
      out.Sound states := by
  intro states
  have hout : vifChan (replicate 16 0) states (some ⟨.w20, 5240, 5240, 0, 0⟩)
      ⟨.w80, 5180, 5210, 0, 0⟩ true true false =
        some ⟨.punctured, ⟨.w80, 5180, 5210, 0, 4⟩, true⟩ := by
    decide +kernel
  have hstops : stopsAt states true ⟨.w80, 5180, 5210, 0, 0⟩ =
      some ⟨.w80, 5180, 5210, 0, 0⟩ :=
    stopsAt_self (.inr ⟨rfl, by decide, by decide +kernel, 5220, by decide +kernel,
      by decide +kernel⟩)
  refine ⟨_, hout, (vifChan_sound_iff (length_replicate ..) (by decide +kernel) (by decide)
    ⟨by decide, 0, by decide +kernel, by decide +kernel⟩ (fun s hs => ?_) hout).mpr
    ⟨fun d hd f hf => listed_iff.mp ?_, fun hnone => ?_⟩⟩
  · cases hs
    exact ⟨by decide, 0, by decide +kernel, by decide +kernel⟩
  · cases hstops.symm.trans hd
    revert f
    decide +kernel
  · cases hstops.symm.trans hnone

/-- An 80 MHz channel is punctured although the radio does not list its upper half, and a radio
that has to leave its 80 MHz channel takes the bitmap along to a channel where it punctures the
control frequency. -/
theorem clip_unsound :
    (∃ states c out, Reported states ∧ Proper c ∧
      vifChan (List.replicate 16 0) states none c true true false = some out ∧
      out.result = .punctured ∧ out.enabled = true ∧ 5300 ∈ out.channel.covered ∧
      ¬ Listed states 5300) ∧
    ∃ states c out, Reported states ∧ Proper c ∧
      vifChan (List.replicate 16 0) states none c true true false = some out ∧
      out.result = .lastResortWidest ∧ out.enabled = true ∧
      out.channel.covered[0]? = some out.channel.controlFreq ∧
      out.channel.punctureBitmap.getLsbD 0 = true := by
  refine ⟨⟨statesOf [(5260, .cacPossible), (5280, .nol)], ⟨.w80, 5260, 5290, 0, 0⟩,
    ⟨.punctured, ⟨.w80, 5260, 5290, 0, 2⟩, true⟩, by decide +kernel,
    ⟨by decide, 0, by decide +kernel, by decide +kernel⟩, by decide +kernel, rfl, rfl,
    by decide +kernel, fun h => ?_⟩,
    ⟨statesOf [(5180, .nol), (5200, .nol), (5220, .nol), (5240, .nol), (5260, .cacPossible),
      (5280, .cacPossible), (5300, .cacPossible), (5320, .cacPossible)],
    ⟨.w80, 5200, 5210, 0, 1⟩, ⟨.lastResortWidest, ⟨.w80, 5260, 5290, 0, 1⟩, true⟩,
    by decide +kernel, ⟨by decide, 1, by decide +kernel, by decide +kernel⟩, by decide +kernel,
    rfl, rfl, by decide +kernel, by decide +kernel⟩⟩
  exact absurd (listed_iff.mpr h) (by decide +kernel)

end OpenSync.Ow.DfsChanClip
