import OpenSync.Osw.ListCompare
import OpenSync.Ow.BtmResponse

/-!
# The configuration of the SNR crossing policy

`ow_steer_policy_snr_xing.c` keeps its configuration when a new one compares equal.  The
comparison is set here against all places that read the configuration: the level of the signal,
the enforcement, the observers of idleness and of the SNR, and the BSSs that are blocked.
-/

namespace OpenSync.Ow.SnrXing

open OpenSync.Osw BtmResponse

/-- `enum ow_steer_policy_snr_xing_mode`. -/
inductive Mode
  | hwm
  | lwm
  | bottomLwm
deriving DecidableEq

/-- `enum ow_steer_policy_snr_xing_level`. -/
inductive Level
  | none
  | above
  | below
deriving DecidableEq

/-- `struct ow_steer_policy_snr_xing_config`.  The `txrx_bytes_limit` of two modes share their
place, and the third mode has none. -/
structure Config where
  bssids : List Hwaddr
  mode : Mode
  snr : UInt32
  snrHysteresis : UInt32
  snrAgeoutSec : UInt32
  active : Bool
  delta : UInt64

/-- `ow_steer_policy_snr_xing_config_is_equal`. -/
def configIsEqual : Option Config → Option Config → Bool
  | none, none => true
  | none, some _ => false
  | some _, none => false
  | some a, some b =>
    if hwaddrListIsEqual a.bssids b.bssids = false then false
    else if a.mode ≠ b.mode then false
    else if a.snr ≠ b.snr then false
    else match a.mode with
      | .hwm => a.delta = b.delta
      | .lwm => a.delta = b.delta
      | .bottomLwm => true

/-- The configuration after `ow_steer_policy_snr_xing_set_config`. -/
def setConfig (config new : Option Config) : Option Config :=
  if configIsEqual config new then config else new

/-! ## The readers -/

/-- `below_thr` of `ow_steer_policy_snr_xing_next_level`. -/
def Config.belowThr (c : Config) : UInt8 :=
  c.snr.toUInt8 - if c.mode = .hwm then
    (if c.snrHysteresis ≥ c.snr then 1 else c.snrHysteresis.toUInt8) else 0

/-- `above_thr` of `ow_steer_policy_snr_xing_next_level`. -/
def Config.aboveThr (c : Config) : UInt8 :=
  c.snr.toUInt8 + if c.mode = .lwm then c.snrHysteresis.toUInt8 else 0

/-- The counter that a link with the given SNR goes to. -/
def Config.zone (c : Config) (snr : UInt8) : Level :=
  if snr < c.belowThr then .below else if snr > c.aboveThr then .above else .none

/-- `ow_steer_policy_snr_xing_next_level` for the SNR of the links, which is `none` where it is
not valid. -/
def nextLevel (config : Option Config) (links : List (Option UInt8)) (level : Level) : Level :=
  match config with
  | none => .none
  | some c =>
    let zones := (links.filterMap id).map c.zone
    let above := zones.count .above + if level = .above then zones.count .none else 0
    let below := zones.count .below + if level = .below then zones.count .none else 0
    if above ≠ 0 ∧ above = zones.length then
      if c.mode = .hwm ∧ level ≠ .below then level else .above
    else if below ≠ 0 ∧ below = zones.length then
      if c.mode = .lwm ∧ level ≠ .above then level else .below
    else if links = [] then .none
    else level

/-- `ow_steer_policy_snr_xing_get_bps`. -/
def getBps (config : Option Config) : Option UInt64 :=
  config.bind fun c => match c.mode with
    | .hwm => if c.active = false then none else some c.delta
    | .lwm => if c.active = false then none else some c.delta
    | .bottomLwm => none

/-- `ow_steer_policy_snr_xing_links_are_enforcable`. -/
def linksAreEnforcable (c : Config) (links : List Hwaddr) : Bool :=
  c.bssids.any fun bssid => links.contains bssid

/-- `ow_steer_policy_snr_xing_enforce_is_needed`.  A station is `legacy` without RRM and BTM. -/
def enforceIsNeeded (config : Option Config) (idle legacy : Bool) (links : List Hwaddr)
    (level : Level) : Bool :=
  match config with
  | none => false
  | some c =>
    if c.mode = .bottomLwm ∧ legacy = false then false
    else if legacy = true ∧ idle = false then false
    else if linksAreEnforcable c links = false then false
    else
      match level, c.mode with
      | .none, _ => false
      | .above, .hwm => true
      | .above, _ => false
      | .below, .hwm => false
      | .below, _ => true

/-- What `ow_steer_policy_snr_xing_alloc_idle_obs` observes. -/
def allocIdleObs (config : Option Config) (sta : Hwaddr) : Option (Hwaddr × UInt64) :=
  if sta = .zero then none else (getBps config).map fun bps => (sta, bps)

/-- What `ow_steer_policy_snr_xing_link_alloc_snr` observes, and for how long a value counts. -/
def linkAllocSnr (config : Option Config) (addr bssid : Hwaddr) :
    Option (Hwaddr × Hwaddr × UInt32) :=
  config.bind fun c => if addr = .zero then none else some (addr, bssid, c.snrAgeoutSec)

/-- `ow_steer_policy_snr_xing_bssid_is_blocked`. -/
def bssidIsBlocked (config : Option Config) (links : List Hwaddr) (bssid : Hwaddr) : Bool :=
  match config with
  | none => false
  | some c => links.contains bssid && c.bssids.contains bssid

section

variable (config : Option Config) (links : List Hwaddr) (cands : List Candidate)

/-- `ow_steer_policy_snr_xing_alternatives_avalable`. -/
def alternativesAvalable : Bool :=
  config.isSome && cands.any fun c =>
    match c.preference with
    | .none => bssidIsBlocked config links c.bssid = false
    | .available => true
    | .outOfScope | .softBlocked | .hardBlocked => false

/-- `ow_steer_policy_snr_xing_blockable`. -/
def blockable : Bool :=
  let blocked := cands.filter fun c => bssidIsBlocked config links c.bssid
  let ok (c : Candidate) : Bool := c.preference = .none ∨ c.preference = .hardBlocked
  config.isSome && blocked.countP (!ok ·) = 0 && 0 < blocked.countP ok &&
    blocked.countP ok = blocked.length

/-- `ow_steer_policy_snr_xing_recalc_cb`; the timer `enforce` may be armed. -/
def recalc (name : String) (armed : Bool) : List Candidate :=
  if config.isNone ∨ armed = false ∨ alternativesAvalable config links cands = false ∨
      blockable config links cands = false then cands
  else cands.map fun c =>
    if c.preference = .none then
      c.setPreference name
        (if bssidIsBlocked config links c.bssid then .hardBlocked else .available)
    else c

end

/-- What the decisions of the policy take from a configuration. -/
structure Agree (a b : Config) : Prop where
  bssids : ∀ bssid, bssid ∈ a.bssids ↔ bssid ∈ b.bssids
  mode : a.mode = b.mode
  snr : a.snr = b.snr
  hysteresis : a.snrHysteresis = b.snrHysteresis
  ageout : a.snrAgeoutSec = b.snrAgeoutSec
  limit : a.mode ≠ .bottomLwm → a.active = b.active ∧ a.delta = b.delta

/-- All that reads the configuration gives the same. -/
structure SameDecisions (a b : Config) : Prop where
  nextLevel : nextLevel (some a) = nextLevel (some b)
  enforceIsNeeded : enforceIsNeeded (some a) = enforceIsNeeded (some b)
  allocIdleObs : allocIdleObs (some a) = allocIdleObs (some b)
  linkAllocSnr : linkAllocSnr (some a) = linkAllocSnr (some b)
  recalc : recalc (some a) = recalc (some b)

section

variable {a b : Config}

theorem Agree.bssidIsBlocked (h : Agree a b) :
    bssidIsBlocked (some a) = bssidIsBlocked (some b) := by
  funext links bssid
  rw [Bool.eq_iff_iff]
  simp [SnrXing.bssidIsBlocked, h.bssids]

theorem Agree.linksAreEnforcable (h : Agree a b) : linksAreEnforcable a = linksAreEnforcable b := by
  funext links
  rw [Bool.eq_iff_iff]
  simp [SnrXing.linksAreEnforcable, h.bssids]

theorem Agree.sameDecisions (h : Agree a b) : SameDecisions a b := by
  have hbps : getBps (some a) = getBps (some b) := by
    have hlimit := h.limit
    cases hmode : a.mode <;> simp_all [getBps, ← h.mode]
  refine ⟨?_, ?_, ?_, ?_, ?_⟩
  · obtain ⟨bssids, mode, snr, hysteresis, ageout, active, delta⟩ := a
    obtain ⟨-, rfl, rfl, rfl, -, -⟩ := h
    rfl
  · funext idle legacy links level
    simp only [enforceIsNeeded, h.mode, h.linksAreEnforcable]
  · funext sta
    simp only [allocIdleObs, hbps]
  · funext addr bssid
    simp only [linkAllocSnr, Option.bind_some, h.ageout]
  · funext links cands name armed
    have halternatives : alternativesAvalable (some a) links cands =
        alternativesAvalable (some b) links cands := by
      rw [alternativesAvalable, h.bssidIsBlocked]
      rfl
    have hblockable : blockable (some a) links cands = blockable (some b) links cands := by
      rw [blockable, h.bssidIsBlocked]
      rfl
    rw [recalc, halternatives, hblockable, h.bssidIsBlocked]
    rfl

/-- What the comparison looks at. -/
structure Compared (a b : Config) : Prop where
  length : a.bssids.length = b.bssids.length
  bssids : a.bssids ⊆ b.bssids
  mode : a.mode = b.mode
  snr : a.snr = b.snr
  delta : a.mode ≠ .bottomLwm → a.delta = b.delta

theorem configIsEqual_iff : configIsEqual (some a) (some b) = true ↔ Compared a b := by
  have hlist := hwaddrListIsEqual_iff (a := a.bssids) (b := b.bssids)
  rw [configIsEqual]
  constructor
  · intro h
    split_ifs at h with h1 h2 h3
    obtain ⟨hlen, hsub⟩ := hlist.mp (by simpa using h1)
    refine ⟨hlen, hsub, by simpa using h2, by simpa using h3, fun hm => ?_⟩
    cases ha : a.mode with
    | hwm => simpa [ha] using h
    | lwm => simpa [ha] using h
    | bottomLwm => exact absurd ha hm
  · rintro ⟨hlen, hsub, hmode, hsnr, hdelta⟩
    have h1 := hlist.mpr ⟨hlen, hsub⟩
    rw [if_neg (by simp [h1]), if_neg (not_not_intro hmode), if_neg (not_not_intro hsnr)]
    cases ha : a.mode with
    | hwm => simpa using hdelta (by simp [ha])
    | lwm => simpa using hdelta (by simp [ha])
    | bottomLwm => rfl

/-- What the comparison leaves out. -/
structure Omitted (a b : Config) : Prop where
  bssids : b.bssids ⊆ a.bssids
  hysteresis : a.snrHysteresis = b.snrHysteresis
  ageout : a.snrAgeoutSec = b.snrAgeoutSec
  active : a.mode ≠ .bottomLwm → a.active = b.active

theorem agree_iff (h : Compared a b) : Agree a b ↔ Omitted a b := by
  constructor
  · intro hagree
    exact ⟨fun x hx => (hagree.bssids x).mpr hx, hagree.hysteresis, hagree.ageout,
      fun hm => (hagree.limit hm).1⟩
  · intro ho
    exact ⟨fun x => ⟨@h.bssids x, @ho.bssids x⟩, h.mode, h.snr, ho.hysteresis, ho.ageout,
      fun hm => ⟨ho.active hm, h.delta hm⟩⟩

end

/-- After `ow_steer_policy_snr_xing_set_config` the policy decides by the new configuration. -/
def TakesEffect (a b : Config) : Prop :=
  ∃ c, setConfig (some a) (some b) = some c ∧ Agree c b ∧ SameDecisions c b

/-- A new configuration takes effect exactly if it differs in a field that is compared, or agrees
with the old one in the fields that are not: the hysteresis, the age, the activity flag where the
mode has one, and BSSIDs that the old list has not. -/
theorem takesEffect_iff (a b : Config) :
    TakesEffect a b ↔ ¬ Compared a b ∨ Omitted a b := by
  rw [TakesEffect, setConfig]
  split_ifs with heq
  · refine ⟨?_, fun h => ?_⟩
    · rintro ⟨c, hc, hagree, -⟩
      obtain rfl := Option.some.inj hc
      exact .inr ((agree_iff (configIsEqual_iff.mp heq)).mp hagree)
    · have hcompared := configIsEqual_iff.mp heq
      have hagree := (agree_iff hcompared).mpr (h.resolve_left (not_not_intro hcompared))
      exact ⟨a, rfl, hagree, hagree.sameDecisions⟩
  · have hagree : Agree b b := ⟨fun _ => Iff.rfl, rfl, rfl, rfl, rfl, fun _ => ⟨rfl, rfl⟩⟩
    exact iff_of_true ⟨b, rfl, hagree, hagree.sameDecisions⟩
      (.inl fun h => heq (configIsEqual_iff.mpr h))

/-- A new hysteresis is dropped, and with it the policy would decide otherwise. -/
theorem not_takesEffect :
    let a : Config := ⟨[.ofLast 1], .lwm, 20, 5, 30, true, 1000⟩
    let b : Config := { a with snrHysteresis := 1 }
    configIsEqual (some a) (some b) = true ∧ ¬ TakesEffect a b ∧
      nextLevel (some a) [some 22] .below = .below ∧
      nextLevel (some b) [some 22] .below = .above := by
  refine ⟨by decide, ?_, by decide, by decide⟩
  rintro ⟨c, hc, hagree, -⟩
  obtain rfl := Option.some.inj hc
  exact absurd hagree.hysteresis (by decide)

end OpenSync.Ow.SnrXing
