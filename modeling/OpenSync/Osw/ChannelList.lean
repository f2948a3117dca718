import OpenSync.Osw.Channel

/-!
# Bands, channel numbers and the channels wider than 20 MHz

The functions of `osw_types.c` that go between frequencies and channel numbers, and the two tables
of `util.c` with the channels of 5 and 6 GHz.  An entry has the numbers of the 20 MHz channels of a
channel.

The tables are checked once, in `unii5g_centered` and `unii6g_centered`: the numbers of an entry are
the segments around their average.  Everything else about them follows.
-/

namespace OpenSync.Osw

open AssocReq (Band ChannelWidth)

/-! ## Frequencies and channel numbers -/

/-- `osw_freq_to_band`. -/
def freqToBand (freq : Int) : Band :=
  if freq = 2484 then .ghz2
  else if freq = 5935 then .ghz6
  else if 2412 ≤ freq ∧ freq ≤ 2472 then .ghz2
  else if 5180 ≤ freq ∧ freq ≤ 5885 then .ghz5
  else if 5955 ≤ freq ∧ freq ≤ 7115 then .ghz6
  else .undefined

/-- `osw_freq_to_chan`. -/
def freqToChan (freq : Int) : Int :=
  if freq = 2484 then 14
  else if freq = 5935 then 2
  else if 2412 ≤ freq ∧ freq ≤ 2472 then (freq - 2407) / 5
  else if 5180 ≤ freq ∧ freq ≤ 5885 then (freq - 5000) / 5
  else if 5955 ≤ freq ∧ freq ≤ 7115 then (freq - 5950) / 5
  else 0

/-- `osw_chan_to_freq`. -/
def chanToFreq (band : Band) (chan : Int) : Int :=
  match band with
  | .undefined => 0
  | .ghz2 => if chan = 14 then 2484 else 2407 + chan * 5
  | .ghz5 => 5000 + chan * 5
  | .ghz6 => if chan = 2 then 5935 else 5950 + chan * 5

/-- `osw_chan_avg` of the numbers up to the terminator. -/
def chanAvg (chans : List Int) : Int :=
  if chans.length = 0 then 0 else chans.sum / chans.length

/-- `osw_channel_width_to_mhz`. -/
def widthToMhz : ChannelWidth → Int
  | .w20 => 20
  | .w40 => 40
  | .w80 => 80
  | .w160 => 160
  | .w80p80 => 0
  | .w320 => 320

/-! ## The tables -/

/-- The table of `unii_5g_chan2list`. -/
def unii5g : List (Int × List Int) :=
  [(20, [36]), (20, [40]), (20, [44]), (20, [48]), (20, [52]), (20, [56]), (20, [60]), (20, [64]),
   (20, [100]), (20, [104]), (20, [108]), (20, [112]), (20, [116]), (20, [120]), (20, [124]),
   (20, [128]), (20, [132]), (20, [136]), (20, [140]), (20, [144]), (20, [149]), (20, [153]),
   (20, [157]), (20, [161]), (20, [165]), (40, [36, 40]), (40, [44, 48]), (40, [52, 56]),
   (40, [60, 64]), (40, [100, 104]), (40, [108, 112]), (40, [116, 120]), (40, [124, 128]),
   (40, [132, 136]), (40, [140, 144]), (40, [149, 153]), (40, [157, 161]), (80, [36, 40, 44, 48]),
   (80, [52, 56, 60, 64]), (80, [100, 104, 108, 112]), (80, [116, 120, 124, 128]),
   (80, [132, 136, 140, 144]), (80, [149, 153, 157, 161]),
   (160, [36, 40, 44, 48, 52, 56, 60, 64]), (160, [100, 104, 108, 112, 116, 120, 124, 128])]

/-- `g_unii_6g_channels`. -/
def unii6g : List (Int × List Int) :=
  [(20, [1]), (20, [5]), (20, [9]), (20, [13]), (20, [17]), (20, [21]), (20, [25]), (20, [29]),
   (20, [33]), (20, [37]), (20, [41]), (20, [45]), (20, [49]), (20, [53]), (20, [57]), (20, [61]),
   (20, [65]), (20, [69]), (20, [73]), (20, [77]), (20, [81]), (20, [85]), (20, [89]), (20, [93]),
   (20, [97]), (20, [101]), (20, [105]), (20, [109]), (20, [113]), (20, [117]), (20, [121]),
   (20, [125]), (20, [129]), (20, [133]), (20, [137]), (20, [141]), (20, [145]), (20, [149]),
   (20, [153]), (20, [157]), (20, [161]), (20, [165]), (20, [169]), (20, [173]), (20, [177]),
   (20, [181]), (20, [185]), (20, [189]), (20, [193]), (20, [197]), (20, [201]), (20, [205]),
   (20, [209]), (20, [213]), (20, [217]), (20, [221]), (20, [225]), (20, [229]), (20, [233]),
   (40, [1, 5]), (40, [9, 13]), (40, [17, 21]), (40, [25, 29]), (40, [33, 37]), (40, [41, 45]),
   (40, [49, 53]), (40, [57, 61]), (40, [65, 69]), (40, [73, 77]), (40, [81, 85]), (40, [89, 93]),
   (40, [97, 101]), (40, [105, 109]), (40, [113, 117]), (40, [121, 125]), (40, [129, 133]),
   (40, [137, 141]), (40, [145, 149]), (40, [153, 157]), (40, [161, 165]), (40, [169, 173]),
   (40, [177, 181]), (40, [185, 189]), (40, [193, 197]), (40, [201, 205]), (40, [209, 213]),
   (40, [217, 221]), (40, [225, 229]), (80, [1, 5, 9, 13]), (80, [17, 21, 25, 29]),
   (80, [33, 37, 41, 45]), (80, [49, 53, 57, 61]), (80, [65, 69, 73, 77]), (80, [81, 85, 89, 93]),
   (80, [97, 101, 105, 109]), (80, [113, 117, 121, 125]), (80, [129, 133, 137, 141]),
   (80, [145, 149, 153, 157]), (80, [161, 165, 169, 173]), (80, [177, 181, 185, 189]),
   (80, [193, 197, 201, 205]), (80, [209, 213, 217, 221]), (160, [1, 5, 9, 13, 17, 21, 25, 29]),
   (160, [33, 37, 41, 45, 49, 53, 57, 61]), (160, [65, 69, 73, 77, 81, 85, 89, 93]),
   (160, [97, 101, 105, 109, 113, 117, 121, 125]),
   (160, [129, 133, 137, 141, 145, 149, 153, 157]),
   (160, [161, 165, 169, 173, 177, 181, 185, 189]),
   (160, [193, 197, 201, 205, 209, 213, 217, 221])]

/-- The search of `unii_5g_chan2list` and `unii_6g_chan2list_find`. -/
def chan2listFind (lists : List (Int × List Int)) (chan width : Int) : Option (List Int) :=
  (lists.find? fun e => e.1 = width ∧ chan ∈ e.2).map Prod.snd

/-- `unii_5g_chan2list`. -/
def unii5gChan2list (chan width : Int) : Option (List Int) := chan2listFind unii5g chan width

/-- `unii_6g_chan2list`. -/
def unii6gChan2list (chan width : Int) : Option (List Int) := chan2listFind unii6g chan width

/-- The numbers of an entry are those of the segments around their average. -/
def Centered (band : Band) (e : Int × List Int) : Prop :=
  e.1 ≠ 0 ∧ e.2.map (chanToFreq band) =
      Channel.freqsAround (chanToFreq band (chanAvg e.2)) (e.1 / 20).toNat

instance (band : Band) (e : Int × List Int) : Decidable (Centered band e) :=
  inferInstanceAs (Decidable (_ ∧ _))

theorem unii5g_centered : ∀ e ∈ unii5g, Centered .ghz5 e := by decide +kernel

theorem unii6g_centered : ∀ e ∈ unii6g, Centered .ghz6 e := by decide +kernel

theorem chan2listFind_spec {lists : List (Int × List Int)} {band : Band} {chan : Int}
    {w : ChannelWidth} {chans : List Int} (htable : ∀ e ∈ lists, Centered band e)
    (h : chan2listFind lists chan (widthToMhz w) = some chans) :
    w ≠ .w80p80 ∧ chan ∈ chans ∧ chans.map (chanToFreq band) =
        Channel.freqsAround (chanToFreq band (chanAvg chans)) (Channel.numSegments w) := by
  obtain ⟨e, hfind, rfl⟩ := Option.map_eq_some_iff.mp h
  have hmatch := List.find?_some hfind
  simp only [decide_eq_true_eq] at hmatch
  obtain ⟨hmhz, hfreqs⟩ := htable e (List.mem_of_find?_eq_some hfind)
  rw [hmatch.1] at hmhz hfreqs
  refine ⟨?_, hmatch.2, ?_⟩
  · rintro rfl
    exact hmhz rfl
  · rw [hfreqs, show (widthToMhz w / 20).toNat = Channel.numSegments w by
      cases w <;> first | rfl | exact absurd rfl hmhz]

end OpenSync.Osw
