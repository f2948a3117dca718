import OpenSync.Osw.StaAssocEvents
import OpenSync.Lib.Keyed
import Mathlib.Computability.Language

/-!
# What observers hear

An observer hears of a station that it has connected, then any number of changes, then that it has
disconnected, and so on.  The reason is that the last event of an observer for a station agrees with
the active links of the entry, which in turn agree with the links, unless a timer is armed.

`Inv` has both facts.  The updates only arm timers, and keep the active links; the recalculation of
an entry changes them and says so to everybody who listens.
-/

namespace OpenSync.Osw.StaAssoc

open OpenSync.Lib List Link

/-! ## The protocol -/

/-- The events of whole associations: `(connected (reconnected | undefined)* disconnected)*`. -/
def associations : Language Event :=
  KStar.kstar ({[.connected]} * KStar.kstar {[.reconnected], [.undefined]} * {[.disconnected]})

/-- The events up to now, and whether the station is connected after them. -/
inductive Protocol : Bool → List Event → Prop where
  | nil : Protocol false []
  | connect {t : List Event} (h : Protocol false t) : Protocol true (t ++ [.connected])
  | change {t : List Event} {ev : Event} (h : Protocol true t)
      (hev : ev = .reconnected ∨ ev = .undefined) : Protocol true (t ++ [ev])
  | disconnect {t : List Event} (h : Protocol true t) : Protocol false (t ++ [.disconnected])

theorem append_mem_kstar {l : Language Event} {x y : List Event} (hx : x ∈ KStar.kstar l)
    (hy : y ∈ l) : x ++ y ∈ KStar.kstar l := by
  obtain ⟨L, rfl, hL⟩ := Language.mem_kstar.mp hx
  refine Language.mem_kstar.mpr ⟨L ++ [y], by simp, fun z hz => ?_⟩
  rcases mem_append.mp hz with hz | hz
  · exact hL z hz
  · exact mem_singleton.mp hz ▸ hy

/-- A whole number of associations, or all but the end of the last one. -/
theorem Protocol.mem_associations {b : Bool} {t : List Event} (h : Protocol b t) :
    if b then
      ∃ t1 ∈ associations, ∃ t2 ∈ KStar.kstar ({[.reconnected], [.undefined]} : Language Event),
        t = t1 ++ ([.connected] ++ t2)
    else t ∈ associations := by
  induction h with
  | nil => exact Language.nil_mem_kstar _
  | @connect t h ih => exact ⟨t, ih, [], Language.nil_mem_kstar _, rfl⟩
  | @change t ev h hev ih =>
    obtain ⟨t1, h1, t2, h2, rfl⟩ := ih
    refine ⟨t1, h1, t2 ++ [ev], append_mem_kstar h2 ?_, by simp⟩
    rcases hev with rfl | rfl
    · exact .inl rfl
    · exact .inr rfl
  | @disconnect t h ih =>
    obtain ⟨t1, h1, t2, h2, rfl⟩ := ih
    have hone : [.connected] ++ t2 ++ [.disconnected] ∈
        ({[.connected]} * KStar.kstar {[.reconnected], [.undefined]} * {[.disconnected]} :
          Language Event) :=
      Language.append_mem_mul (Language.append_mem_mul rfl h2) rfl
    have := append_mem_kstar h1 hone
    rw [append_assoc]
    rwa [append_assoc] at this

/-- What has been heard is the beginning of a sequence of associations. -/
theorem Protocol.exists_rest {b : Bool} {t : List Event} (h : Protocol b t) :
    ∃ rest, t ++ rest ∈ associations := by
  cases b with
  | false => exact ⟨[], by simpa using h.mem_associations⟩
  | true => exact ⟨[.disconnected], by simpa using h.disconnect.mem_associations⟩

/-! ## The invariant -/

/-- The entry that a link should be in. -/
def Link.target (l : Link) : Option Hwaddr := if l.connected then l.staAddr else none

namespace State

/-- Some link of the entry is on an interface with an address. -/
def Reaches (m : State) (a : Hwaddr) : Prop :=
  ∃ l ∈ m.links, l.entry = some a ∧ (m.vif l.vif).macAddr ≠ .zero

/-- The entry agrees with its links, or is going to be recalculated. -/
def Synced (m : State) (a : Hwaddr) : Prop :=
  (m.entry a).deadline = false → ((m.entry a).isConnected = true ↔ m.Reaches a)

/-- The events that an observer has heard about a station. -/
def events (m : State) (o : Nat) (a : Hwaddr) : List Event := (m.heard o a).map Heard.ev

/-- What the observers know. -/
structure Told (m : State) : Prop where
  ids : (m.observers.map Prod.fst).Nodup
  fresh : ∀ p ∈ m.observers, p.1 < m.nextObserver
  silent : ∀ o a, m.nextObserver ≤ o → m.heard o a = []
  listens : ∀ o x a, (o, x) ∈ m.observers → x = a ∨ x = .zero →
    Protocol (m.entry a).isConnected (m.events o a)
  deaf : ∀ o x a, (o, x) ∈ m.observers → x ≠ a → x ≠ .zero → m.heard o a = []
  orderly : ∀ o a, ∃ b, Protocol b (m.events o a)
  counts : ∀ o a, ∀ h ∈ m.heard o a, (h.ev = .disconnected ↔ h.count = 0)

/-- The links are in the entries they should be in. -/
structure Placed (m : State) : Prop where
  keys : (m.links.map Link.key).Nodup
  placed : ∀ l ∈ m.links, l.entry = l.target

/-- An entry without active links has nothing else, and the entry of the observers of all stations
is never used. -/
structure Tidy (m : State) : Prop where
  empty : ∀ a, (m.entry a).isConnected = false → (m.entry a).stale = [] ∧ (m.entry a).ies = []
  zero : (m.entry .zero).isConnected = false ∧ (m.entry .zero).settle = false ∧
    (m.entry .zero).deadline = false

structure Inv (m : State) : Prop where
  told : m.Told
  placed : m.Placed
  tidy : m.Tidy
  synced : ∀ a, m.Synced a

/-! ## What an update does -/

/-- Nobody who would miss an event listens to the entry. -/
def Unheard (m : State) (a : Hwaddr) : Prop :=
  (∀ p ∈ m.observers, p.2 ≠ a) ∧
    ((∀ p ∈ m.observers, p.2 ≠ .zero) ∨ (m.entry a).isConnected = false)

/-- An update tells nobody, and changes an entry only in its timers, or drops it. -/
structure Updated (m m' : State) : Prop where
  observers : m'.observers = m.observers
  nextObserver : m'.nextObserver = m.nextObserver
  heard : m'.heard = m.heard
  entry : ∀ a, ∃ settle deadline,
    m'.entry a = { m.entry a with settle := settle, deadline := deadline } ∨
      m'.entry a = { settle := settle, deadline := deadline } ∧ m.Unheard a
  zero : m'.entry .zero = m.entry .zero ∨ m'.entry .zero = {}

theorem Updated.refl (m : State) : Updated m m :=
  ⟨rfl, rfl, rfl, fun _ => ⟨_, _, .inl rfl⟩, .inl rfl⟩

variable {m m' : State} {a : Hwaddr} {k : CStr × Hwaddr} {l : Link}

theorem Updated.trans {m1 m2 : State} (h1 : Updated m m1) (h2 : Updated m1 m2) : Updated m m2 := by
  refine ⟨h2.observers.trans h1.observers, h2.nextObserver.trans h1.nextObserver,
    h2.heard.trans h1.heard, fun a => ?_, ?_⟩
  · obtain ⟨s2, d2, e2 | ⟨e2, hu2⟩⟩ := h2.entry a <;>
      obtain ⟨s1, d1, e1 | ⟨e1, hu1⟩⟩ := h1.entry a
    · exact ⟨s2, d2, .inl (by rw [e2, e1])⟩
    · exact ⟨s2, d2, .inr ⟨by rw [e2, e1], hu1⟩⟩
    · rw [Unheard, h1.observers, e1] at hu2
      exact ⟨s2, d2, .inr ⟨e2, hu2⟩⟩
    · exact ⟨s2, d2, .inr ⟨e2, hu1⟩⟩
  · rcases h2.zero with e2 | e2
    · rw [e2]
      exact h1.zero
    · exact .inr e2

theorem Updated.tidy (h : Updated m m') (tidy : m.Tidy) : m'.Tidy := by
  refine ⟨fun a ha => ?_, ?_⟩
  · obtain ⟨s, d, e | ⟨e, -⟩⟩ := h.entry a
    · rw [e] at ha ⊢
      exact tidy.empty a ha
    · rw [e]
      exact ⟨rfl, rfl⟩
  · rcases h.zero with e | e
    · rw [e]
      exact tidy.zero
    · rw [e]
      exact ⟨rfl, rfl, rfl⟩

/-- Nobody who listens to a station sees a change of its state. -/
theorem Updated.told (h : Updated m m') (told : m.Told) : m'.Told := by
  have hevents : m'.events = m.events := by
    funext o a
    rw [events, h.heard, events]
  refine ⟨h.observers ▸ told.ids, ?_, ?_, ?_, ?_, ?_, ?_⟩
  · rw [h.observers, h.nextObserver]
    exact told.fresh
  · rw [h.heard, h.nextObserver]
    exact told.silent
  · intro o x a hox hxa
    rw [h.observers] at hox
    have hlistens := told.listens o x a hox hxa
    rw [hevents]
    obtain ⟨s, d, e | ⟨e, hunheard, hglobal⟩⟩ := h.entry a
    · rw [e]
      exact hlistens
    -- The entry has been dropped, so that the observer is one of all stations.
    rcases hxa with rfl | rfl
    · exact absurd rfl (hunheard _ hox)
    rcases hglobal with hnone | hoff
    · exact absurd rfl (hnone _ hox)
    · rw [hoff] at hlistens
      rw [e]
      exact hlistens
  · rw [h.observers, h.heard]
    exact told.deaf
  · rw [hevents]
    exact told.orderly
  · rw [h.heard]
    exact told.counts

/-! ### Entries -/

theorem entry_setEntry (m : State) (a b : Hwaddr) (f : Entry → Entry) :
    (m.setEntry a f).entry b = if b = a then f (m.entry b) else m.entry b := rfl

theorem scheduleRecalc_updated (m : State) (ha : a ≠ .zero) : Updated m (m.scheduleRecalc a) := by
  refine ⟨rfl, rfl, rfl, fun b => ?_, .inl (if_neg (Ne.symm ha))⟩
  rw [scheduleRecalc, entry_setEntry]
  split_ifs
  · exact ⟨_, _, .inl rfl⟩
  · exact ⟨_, _, .inl rfl⟩

/-- An entry that is dropped has no links, and nobody who would miss an event. -/
theorem entryGc_cases (m : State) (a : Hwaddr) :
    m.entryGc a = m ∨ m.entryGc a = m.setEntry a (fun _ => {}) ∧
      (∀ l ∈ m.links, l.entry ≠ some a) ∧ m.Unheard a := by
  rw [entryGc]
  by_cases hlinks : m.links.any fun l => l.entry = some a
  · exact .inl (if_pos hlinks)
  rw [if_neg hlinks]
  by_cases hobs : m.observers.any fun o => o.2 = a
  · exact .inl (if_pos hobs)
  rw [if_neg hobs]
  by_cases hkeep : m.globalObserversPresent && (m.entry a).settling
  · exact .inl (if_pos hkeep)
  refine .inr ⟨if_neg hkeep, by simpa using hlinks, fun p hp hpa => ?_, ?_⟩
  · exact hobs (any_eq_true.mpr ⟨p, hp, decide_eq_true hpa⟩)
  cases hglobal : m.globalObserversPresent with
  | false => exact .inl (by simpa [globalObserversPresent] using hglobal)
  | true =>
    have hsettling : (m.entry a).settling = false := by simpa [hglobal] using hkeep
    refine .inr ?_
    simp only [Entry.settling, Bool.or_eq_false_iff] at hsettling
    simpa [Entry.isConnected] using hsettling.1.1

theorem entryGc_updated (m : State) (a : Hwaddr) : Updated m (m.entryGc a) := by
  rcases entryGc_cases m a with h | ⟨h, -, hunheard⟩
  · rw [h]
    exact .refl m
  rw [h]
  refine ⟨rfl, rfl, rfl, fun b => ?_, ?_⟩
  · rw [entry_setEntry]
    by_cases hb : b = a
    · rw [if_pos hb]
      exact ⟨_, _, .inr ⟨rfl, hb ▸ hunheard⟩⟩
    · rw [if_neg hb]
      exact ⟨_, _, .inl rfl⟩
  · rw [entry_setEntry]
    split_ifs
    · exact .inr rfl
    · exact .inl rfl

/-! ### Links -/

theorem findLink_eq_some_iff (keys : (m.links.map Link.key).Nodup) :
    m.findLink k = some l ↔ l ∈ m.links ∧ l.key = k :=
  findKey_eq_some_iff keys

theorem findLink_eq_none_iff : m.findLink k = none ↔ ∀ l ∈ m.links, l.key ≠ k := by
  have h : m.findLink k = none ↔ k ∉ m.links.map key := findKey_eq_none_iff
  simpa using h

/-- The link with the key moved to the entry it should be in. -/
def relocate (k : CStr × Hwaddr) (l : Link) : Link :=
  if l.key = k then { l with entry := l.target } else l

theorem relocate_key (k : CStr × Hwaddr) (l : Link) : (relocate k l).key = l.key := by
  unfold relocate
  split_ifs <;> rfl

theorem map_key_relocate (k : CStr × Hwaddr) (ls : List Link) :
    (ls.map (relocate k)).map Link.key = ls.map Link.key := by
  rw [map_map]
  exact map_congr_left fun l _ => relocate_key k l

theorem relocate_vif (k : CStr × Hwaddr) (l : Link) : (relocate k l).vif = l.vif := by
  unfold relocate
  split_ifs <;> rfl

theorem relocate_target (k : CStr × Hwaddr) (l : Link) : (relocate k l).target = l.target := by
  unfold relocate
  split_ifs <;> rfl

theorem relocate_entry (h : l.key = k) : (relocate k l).entry = l.target := by
  rw [relocate, if_pos h]

theorem relocate_of_ne (h : l.key ≠ k) : relocate k l = l :=
  if_neg h

theorem staAddr_ne_zero (h : l.staAddr = some a) : a ≠ .zero := by
  rw [staAddr, firstNonzero] at h
  split_ifs at h with h1 h2
  · cases h
    simpa using h1
  · cases h
    simpa using h2

theorem target_ne_zero (h : l.target = some a) : a ≠ .zero := by
  rw [target] at h
  split_ifs at h
  exact staAddr_ne_zero h

/-- The part of `osw_sta_assoc_link_info_recalc` before the link is freed. -/
def moveLink (m : State) (l : Link) : State :=
  if l.entry ≠ l.target then (m.linkInfoDetach l).linkInfoAttach l l.target
  else
    match l.staAddr with
    | none => m
    | some a => m.scheduleRecalc a

theorem linkInfoRecalc_eq (h : m.findLink k = some l) :
    m.linkInfoRecalc k = (m.moveLink l).linkInfoGc k := by
  rw [linkInfoRecalc, h]
  rfl

/-- A link that is where it should be is freed if it is not connected. -/
theorem linkInfoGc_eq (keys : (m.links.map Link.key).Nodup)
    (placed : ∀ l ∈ m.links, l.key = k → l.entry = l.target) :
    m.linkInfoGc k = { m with links := m.links.filter fun l => l.key ≠ k ∨ l.connected } := by
  have keep : (∀ l ∈ m.links, l.key = k → l.connected = true) →
      m = { m with links := m.links.filter fun l => l.key ≠ k ∨ l.connected } := by
    intro h
    have hall : (m.links.filter fun l => l.key ≠ k ∨ l.connected) = m.links := by
      rw [filter_eq_self]
      intro l hl
      by_cases hk : l.key = k
      · simp [h l hl hk]
      · simp [hk]
    rw [hall]
  rw [linkInfoGc]
  cases hfind : m.findLink k with
  | none => exact keep fun l hl hk => absurd hk (findLink_eq_none_iff.mp hfind l hl)
  | some l =>
    obtain ⟨hl, hk⟩ := (findLink_eq_some_iff keys).mp hfind
    have only : ∀ l' ∈ m.links, l'.key = k → l' = l := fun l' hl' hk' =>
      inj_on_of_nodup_map keys hl' hl (hk'.trans hk.symm)
    simp only
    cases hc : l.connected with
    | true =>
      rw [if_pos rfl, ite_self]
      exact keep fun l' hl' hk' => only l' hl' hk' ▸ hc
    | false =>
      have hnone : l.entry = none := by
        rw [placed l hl hk, target, hc]
        rfl
      rw [if_neg (not_not.mpr hnone), if_neg (by decide)]
      congr 1
      refine filter_congr fun l' hl' => ?_
      by_cases hk' : l'.key = k
      · have hc' : l'.connected = false := only l' hl' hk' ▸ hc
        simp [hc']
      · simp [hk']

theorem reaches_relocate {b : Hwaddr} (hvif : m'.vif = m.vif)
    (hlinks : m'.links = m.links.map (relocate k))
    (hb : ∀ l ∈ m.links, l.key = k → (l.entry = some b ↔ l.target = some b)) :
    m'.Reaches b ↔ m.Reaches b := by
  have same : ∀ l ∈ m.links, ((relocate k l).entry = some b ↔ l.entry = some b) := by
    intro l hl
    by_cases hk : l.key = k
    · rw [relocate_entry hk, hb l hl hk]
    · rw [relocate_of_ne hk]
  rw [Reaches, hlinks, hvif]
  constructor
  · rintro ⟨l', hl', he, hm⟩
    obtain ⟨l, hl, rfl⟩ := mem_map.mp hl'
    exact ⟨l, hl, (same l hl).mp he, relocate_vif k l ▸ hm⟩
  · rintro ⟨l, hl, he, hm⟩
    exact ⟨_, mem_map_of_mem hl, (same l hl).mpr he, (relocate_vif k l).symm ▸ hm⟩

/-- The link with the key taken out of its entry. -/
def release (k : CStr × Hwaddr) (l : Link) : Link :=
  if l.key = k then { l with entry := none } else l

section

variable (hl : ∀ l' ∈ m.links, l'.key = l.key → l' = l) (hnz : l.entry ≠ some .zero)

include hl hnz

/-- The entry that the link is detached from is going to be recalculated, or is dropped. -/
theorem linkInfoDetach_spec : Updated m (m.linkInfoDetach l) ∧ (m.linkInfoDetach l).vif = m.vif ∧
      (m.linkInfoDetach l).links = m.links.map (release l.key) ∧
      (∀ b, l.entry ≠ some b → (m.linkInfoDetach l).entry b = m.entry b) ∧
      ∀ b, l.entry = some b → ((m.linkInfoDetach l).entry b).deadline = true ∨
        (m.linkInfoDetach l).entry b = {} ∧ ∀ l' ∈ m.links, l'.key ≠ l.key → l'.entry ≠ some b := by
  cases he : l.entry with
  | none =>
    have hdef : m.linkInfoDetach l = m := by rw [linkInfoDetach, he]
    rw [hdef]
    refine ⟨.refl m, rfl, ?_, fun _ _ => rfl, fun b hb => by cases hb⟩
    conv_lhs => rw [← map_id m.links]
    refine map_congr_left fun l' hl' => ?_
    rw [release]
    split_ifs with hk
    · rw [hl l' hl' hk, ← he]
      rfl
    · rfl
  | some a =>
    have ha : a ≠ .zero := fun h => hnz (he.trans (congrArg some h))
    have hdef : m.linkInfoDetach l =
        ((m.setLink l.key fun l => { l with entry := none }).scheduleRecalc a).entryGc a := by
      rw [linkInfoDetach, he]
    have hset : Updated m (m.setLink l.key fun l => { l with entry := none }) :=
      ⟨rfl, rfl, rfl, fun b => ⟨_, _, .inl rfl⟩, .inl rfl⟩
    have hschedule : ∀ b, b ≠ a →
        ((m.setLink l.key fun l => { l with entry := none }).scheduleRecalc a).entry b =
          m.entry b := fun b hb => if_neg hb
    rw [hdef]
    refine ⟨(hset.trans (scheduleRecalc_updated _ ha)).trans (entryGc_updated _ a), ?_⟩
    rcases entryGc_cases
        ((m.setLink l.key fun l => { l with entry := none }).scheduleRecalc a) a with
      hgc | ⟨hgc, hnone, -⟩
    · rw [hgc]
      refine ⟨rfl, rfl, fun b hb => hschedule b fun h => hb (h ▸ rfl), fun b hb => .inl ?_⟩
      cases hb
      rw [scheduleRecalc, entry_setEntry, if_pos rfl]
    rw [hgc]
    refine ⟨rfl, rfl, fun b hb => ?_, fun b hb => .inr ?_⟩
    · have hba : b ≠ a := fun h => hb (h ▸ rfl)
      rw [entry_setEntry, if_neg hba, hschedule b hba]
    cases hb
    refine ⟨if_pos rfl, fun l' hl' hk => ?_⟩
    have := hnone _ (mem_map_of_mem hl')
    rwa [if_neg hk] at this

omit hl hnz in
/-- The entry that the link is attached to is going to be recalculated. -/
theorem linkInfoAttach_spec (m : State) (l : Link) {t : Option Hwaddr} (hnz : t ≠ some .zero) :
    Updated m (m.linkInfoAttach l t) ∧ (m.linkInfoAttach l t).vif = m.vif ∧
      (m.linkInfoAttach l t).links = m.links.map (fun l' =>
        if l'.key = l.key ∧ t ≠ none then { l' with entry := t } else l') ∧
      (∀ b, t ≠ some b → (m.linkInfoAttach l t).entry b = m.entry b) ∧
      ∀ b, t = some b → ((m.linkInfoAttach l t).entry b).deadline = true := by
  cases t with
  | none => exact ⟨.refl m, rfl, by simp [linkInfoAttach], fun _ _ => rfl, fun b hb => by cases hb⟩
  | some a =>
    have ha : a ≠ .zero := fun h => hnz (congrArg some h)
    obtain ⟨h1, h2, h3, h4, h5⟩ := scheduleRecalc_updated m ha
    refine ⟨⟨h1, h2, h3, h4, h5⟩, rfl, ?_, fun b hb => if_neg fun h : b = a => hb (h ▸ rfl),
      fun b hb => ?_⟩
    · refine map_congr_left fun l' _ => ?_
      simp
    · cases hb
      rw [linkInfoAttach, setLink, scheduleRecalc, entry_setEntry, if_pos rfl]

/-- Moving a link: it is where it should be, and the entries that it has left and come to are going
to be recalculated. -/
theorem moveLink_spec : Updated m (m.moveLink l) ∧ (m.moveLink l).vif = m.vif ∧
      (m.moveLink l).links = m.links.map (relocate l.key) ∧
      (∀ a, l.target = some a → ((m.moveLink l).entry a).deadline = true) ∧
      ∀ a, m.Synced a → (m.moveLink l).Synced a := by
  by_cases hsame : l.entry = l.target
  · -- The link stays where it is.
    have hlinks : m.links = m.links.map (relocate l.key) := by
      conv_lhs => rw [← map_id m.links]
      refine map_congr_left fun l' hl' => ?_
      by_cases hk : l'.key = l.key
      · obtain rfl := hl l' hl' hk
        rw [relocate, if_pos rfl, ← hsame]
        rfl
      · exact (relocate_of_ne hk).symm
    rw [moveLink, if_neg (not_not.mpr hsame)]
    cases hsta : l.staAddr with
    | none =>
      refine ⟨.refl m, rfl, hlinks, fun a ha => ?_, fun a h => h⟩
      rw [target, hsta, ite_self] at ha
      cases ha
    | some a =>
      refine ⟨scheduleRecalc_updated m (staAddr_ne_zero hsta), rfl, hlinks, fun b hb => ?_,
        fun b h => ?_⟩
      · have : a = b := by
          rw [target, hsta] at hb
          split_ifs at hb
          exact Option.some.inj hb
        rw [← this]
        simp [scheduleRecalc, entry_setEntry]
      · intro hdeadline
        simp only [scheduleRecalc, entry_setEntry] at hdeadline ⊢
        by_cases hb : b = a
        · rw [if_pos hb] at hdeadline
          cases hdeadline
        · rw [if_neg hb] at hdeadline ⊢
          exact h hdeadline
  · rw [moveLink, if_pos hsame]
    obtain ⟨hu1, hvif1, hlinks1, hother1, hold⟩ := linkInfoDetach_spec hl hnz
    obtain ⟨hu2, hvif2, hlinks2, hother2, hnew⟩ := linkInfoAttach_spec (m.linkInfoDetach l) l
      (t := l.target) fun h => target_ne_zero h rfl
    have hvif := hvif2.trans hvif1
    have hlinks : ((m.linkInfoDetach l).linkInfoAttach l l.target).links =
        m.links.map (relocate l.key) := by
      rw [hlinks2, hlinks1, map_map]
      refine map_congr_left fun l' hl' => ?_
      by_cases hk : l'.key = l.key
      · obtain rfl := hl l' hl' hk
        have hkey : ({ l' with entry := none } : Link).key = l'.key := rfl
        cases ht : l'.target <;> simp [release, relocate, ht, hkey]
      · simp [release, relocate, hk]
    refine ⟨hu1.trans hu2, hvif, hlinks, hnew, fun b h => ?_⟩
    by_cases hb : l.target = some b
    · intro hdeadline
      rw [hnew b hb] at hdeadline
      cases hdeadline
    by_cases hb' : l.entry = some b
    · -- The entry that the link has left.
      intro hdeadline
      rw [hother2 b hb] at hdeadline ⊢
      rcases hold b hb' with hon | ⟨he, hnone⟩
      · rw [hon] at hdeadline
        cases hdeadline
      rw [he]
      refine ⟨fun hc => absurd hc (by decide), ?_⟩
      rintro ⟨l', hl', hlb, -⟩
      rw [hlinks] at hl'
      obtain ⟨l0, hl0, rfl⟩ := mem_map.mp hl'
      by_cases hk : l0.key = l.key
      · rw [relocate_entry hk, hl l0 hl0 hk] at hlb
        exact absurd hlb hb
      · rw [relocate_of_ne hk] at hlb
        exact absurd hlb (hnone l0 hl0 hk)
    · rw [Synced, hother2 b hb, hother1 b hb', reaches_relocate hvif hlinks]
      · exact h
      · intro l' hl' hk
        rw [hl l' hl' hk]
        exact iff_of_false hb' hb

end

section

variable (keys : (m.links.map Link.key).Nodup) (hnz : ∀ l ∈ m.links, l.entry ≠ some .zero)

include keys hnz

theorem linkInfoRecalc_spec (k : CStr × Hwaddr) :
    Updated m (m.linkInfoRecalc k) ∧ (m.linkInfoRecalc k).vif = m.vif ∧ (m.linkInfoRecalc k).links =
        (m.links.map (relocate k)).filter (fun l => l.key ≠ k ∨ l.connected) ∧
      (∀ l ∈ m.links, l.key = k → ∀ a, l.target = some a →
        ((m.linkInfoRecalc k).entry a).deadline = true) ∧
      ∀ a, m.Synced a → (m.linkInfoRecalc k).Synced a := by
  cases hfind : m.findLink k with
  | none =>
    have hne := findLink_eq_none_iff.mp hfind
    have hdef : m.linkInfoRecalc k = m := by rw [linkInfoRecalc, hfind]
    have hmap : m.links.map (relocate k) = m.links := by
      conv_rhs => rw [← map_id m.links]
      exact map_congr_left fun l hl => relocate_of_ne (hne l hl)
    rw [hdef, hmap]
    refine ⟨.refl m, rfl, ?_, fun l hl hk => absurd hk (hne l hl), fun a h => h⟩
    rw [eq_comm, filter_eq_self]
    exact fun l hl => by simp [hne l hl]
  | some l =>
    obtain ⟨hl, rfl⟩ := (findLink_eq_some_iff keys).mp hfind
    have only : ∀ l' ∈ m.links, l'.key = l.key → l' = l := fun l' hl' hk' =>
      inj_on_of_nodup_map keys hl' hl hk'
    obtain ⟨hu, hvif, hlinks, hnew, hsynced⟩ := moveLink_spec only (hnz l hl)
    have hkeys : ((m.moveLink l).links.map key).Nodup := by
      rw [hlinks, map_key_relocate]
      exact keys
    have hgc := linkInfoGc_eq hkeys (k := l.key) fun l' hl' hk' => by
      rw [hlinks] at hl'
      obtain ⟨l0, -, rfl⟩ := mem_map.mp hl'
      rw [relocate_key] at hk'
      rw [relocate_entry hk', relocate_target]
    rw [linkInfoRecalc_eq hfind, hgc]
    refine ⟨⟨hu.observers, hu.nextObserver, hu.heard, hu.entry, hu.zero⟩, hvif, by rw [hlinks],
      fun l' hl' hk' a ha => hnew a (only l' hl' hk' ▸ ha), fun a h hdeadline => ?_⟩
    -- A link that is freed is in no entry.
    refine (hsynced a h hdeadline).trans ⟨?_, ?_⟩
    · rintro ⟨l', hl', he, hm⟩
      refine ⟨l', mem_filter.mpr ⟨hl', ?_⟩, he, hm⟩
      rw [hlinks] at hl'
      obtain ⟨l0, -, rfl⟩ := mem_map.mp hl'
      by_cases hk : l0.key = l.key
      · rw [relocate_entry hk, target] at he
        split_ifs at he with hc
        unfold relocate
        split_ifs
        simp [hc]
      · simp [relocate_key, hk]
    · rintro ⟨l', hl', he, hm⟩
      exact ⟨l', (mem_filter.mp hl').1, he, hm⟩

/-! ## Updates keep the invariant -/

omit keys hnz in
theorem Placed.entry_ne_zero (placed : m.Placed) : ∀ l ∈ m.links, l.entry ≠ some .zero := by
  intro l hl he
  rw [placed.placed l hl] at he
  exact target_ne_zero he rfl

/-- The links are in the right entries once one that is not has been moved. -/
theorem linkInfoRecalc_placed (placed : ∀ l ∈ m.links, l.key ≠ k → l.entry = l.target)
    : (m.linkInfoRecalc k).Placed := by
  obtain ⟨-, -, hlinks, -, -⟩ := linkInfoRecalc_spec keys hnz k
  refine ⟨?_, fun l' hl' => ?_⟩
  · rw [← map_key_relocate k] at keys
    rw [hlinks]
    exact keys.sublist (filter_sublist.map _)
  rw [hlinks] at hl'
  obtain ⟨l, hl, rfl⟩ := mem_map.mp (mem_filter.mp hl').1
  by_cases hk : l.key = k
  · rw [relocate_entry hk, relocate_target]
  · rw [relocate_of_ne hk]
    exact placed l hl hk

end

/-- An update after which everything is in order again. -/
structure Settles (m m' : State) : Prop where
  updated : Updated m m'
  placed : m'.Placed
  synced : ∀ a, m'.Synced a

theorem Settles.inv (h : Settles m m') (inv : m.Inv) : m'.Inv :=
  ⟨h.updated.told inv.told, h.placed, h.updated.tidy inv.tidy, h.synced⟩

theorem Settles.trans {m1 m2 : State} (h1 : Updated m m1) (h2 : Settles m1 m2) : Settles m m2 :=
  ⟨h1.trans h2.updated, h2.placed, h2.synced⟩

/-- The links of an interface are recalculated one by one.  An entry that disagrees with its links
has one to come. -/
theorem foldl_linkInfoRecalc (v : CStr) (addrs : List Hwaddr) (placed : m.Placed)
    (h : ∀ a, m.Synced a ∨ ∃ x ∈ addrs, ∃ l ∈ m.links, l.key = (v, x) ∧ l.entry = some a) :
    Settles m (addrs.foldl (fun m a => m.linkInfoRecalc (v, a)) m) := by
  induction addrs generalizing m with
  | nil => exact ⟨.refl m, placed, fun a => (h a).resolve_right (by simp)⟩
  | cons x addrs ih =>
    have hnz := placed.entry_ne_zero
    obtain ⟨hu, -, hlinks, hnew, hsynced⟩ := linkInfoRecalc_spec placed.keys hnz (v, x)
    have hplaced := linkInfoRecalc_placed (k := (v, x)) placed.keys hnz
      fun l hl _ => placed.placed l hl
    refine .trans hu (ih hplaced fun a => ?_)
    rcases h a with ha | ⟨y, hy, l, hl, hkey, ha⟩
    · exact .inl (hsynced a ha)
    have htarget : l.target = some a := (placed.placed l hl).symm.trans ha
    by_cases hk : l.key = (v, x)
    · refine .inl fun hdeadline => ?_
      rw [hnew l hl hk a htarget] at hdeadline
      cases hdeadline
    rcases mem_cons.mp hy with rfl | hy
    · exact absurd hkey hk
    refine .inr ⟨y, hy, l, ?_, hkey, ha⟩
    rw [hlinks]
    refine mem_filter.mpr ⟨mem_map.mpr ⟨l, hl, relocate_of_ne hk⟩, ?_⟩
    simp [hk]

theorem setVif_updated (m : State) (v : CStr) (f : Vif → Vif) : Updated m (m.setVif v f) :=
  ⟨rfl, rfl, rfl, fun _ => ⟨_, _, .inl rfl⟩, .inl rfl⟩

/-- An entry without a link on the interface. -/
theorem synced_setVif {v : CStr} {f : Vif → Vif} (h : ∀ l ∈ m.links, l.entry = some a → l.vif ≠ v) :
    (m.setVif v f).Synced a ↔ m.Synced a := by
  have hvif : ∀ l ∈ m.links, l.entry = some a → (m.setVif v f).vif l.vif = m.vif l.vif :=
    fun l hl ha => if_neg (h l hl ha)
  have hreaches : (m.setVif v f).Reaches a ↔ m.Reaches a :=
    ⟨fun ⟨l, hl, ha, hm⟩ => ⟨l, hl, ha, hvif l hl ha ▸ hm⟩,
      fun ⟨l, hl, ha, hm⟩ => ⟨l, hl, ha, (hvif l hl ha).symm ▸ hm⟩⟩
  rw [Synced, hreaches]
  rfl

section

variable (placed : m.Placed) (synced : ∀ a, m.Synced a) (v : CStr)

include placed synced

theorem vifRecalcInfos_settles (f : Vif → Vif) : Settles m ((m.setVif v f).vifRecalcInfos v) := by
  have hplaced : (m.setVif v f).Placed := ⟨placed.keys, placed.placed⟩
  refine .trans (setVif_updated m v f) (foldl_linkInfoRecalc v _ hplaced fun a => ?_)
  by_cases h : ∀ l ∈ m.links, l.entry = some a → l.vif ≠ v
  · exact .inl ((synced_setVif h).mpr (synced a))
  push Not at h
  obtain ⟨l, hl, ha, hv⟩ := h
  refine .inr ⟨l.linkAddr, ?_, l, hl, by rw [key, hv], ha⟩
  rw [vifLinks, mem_mergeSort]
  exact mem_map_of_mem (mem_filter.mpr ⟨hl, decide_eq_true hv⟩)

theorem vifGc_settles : Settles m (m.vifGc v) := by
  rw [vifGc]
  split_ifs with h1 h2
  · exact ⟨.refl m, placed, synced⟩
  · exact ⟨.refl m, placed, synced⟩
  · refine ⟨setVif_updated m v _, ⟨placed.keys, placed.placed⟩, fun a => ?_⟩
    refine (synced_setVif fun l hl _ hv => h2 ?_).mpr (synced a)
    exact any_eq_true.mpr ⟨l, hl, decide_eq_true hv⟩

theorem vifUpdate_settles (macAddr mldAddr : Hwaddr)
    : Settles m (m.vifUpdate v macAddr mldAddr) := by
  have h1 : Settles m (m.vifSetMacAddr v macAddr) := by
    rw [vifSetMacAddr]
    split_ifs
    · exact ⟨.refl m, placed, synced⟩
    · exact vifRecalcInfos_settles placed synced v _
  have h2 : Settles (m.vifSetMacAddr v macAddr)
      ((m.vifSetMacAddr v macAddr).vifSetMldAddr v mldAddr) := by
    rw [vifSetMldAddr]
    split_ifs
    · exact ⟨.refl _, h1.placed, h1.synced⟩
    · exact vifRecalcInfos_settles h1.placed h1.synced v _
  exact .trans h1.updated (.trans h2.updated (vifGc_settles h2.placed h2.synced v))

end

/-! ### Stations -/

theorem linkInfoGet_spec (placed : m.Placed) (synced : ∀ a, m.Synced a) (k : CStr × Hwaddr)
    (pos : Nat) : Settles m (m.linkInfoGet k pos) := by
  rw [linkInfoGet]
  cases hfind : m.findLink k with
  | some l => exact ⟨.refl m, placed, synced⟩
  | none =>
    have hne := findLink_eq_none_iff.mp hfind
    have hmem : ∀ l : Link, l ∈ m.links.take pos ++ { vif := k.1, linkAddr := k.2 } ::
        m.links.drop pos ↔ l = { vif := k.1, linkAddr := k.2 } ∨ l ∈ m.links := by
      intro l
      conv_rhs => rw [← take_append_drop pos m.links]
      simp only [mem_append, mem_cons]
      tauto
    refine ⟨⟨rfl, rfl, rfl, fun _ => ⟨_, _, .inl rfl⟩, .inl rfl⟩, ⟨?_, fun l hl => ?_⟩,
      fun a hdeadline => ?_⟩
    · have hperm : (m.links.take pos ++ { vif := k.1, linkAddr := k.2 } :: m.links.drop pos).Perm
          ({ vif := k.1, linkAddr := k.2 } :: m.links) := by
        refine perm_middle.trans ?_
        rw [take_append_drop]
      refine (hperm.map key).nodup_iff.mpr (nodup_cons.mpr ⟨?_, placed.keys⟩)
      simpa [key] using hne
    · rcases (hmem l).mp hl with rfl | hl
      · rfl
      · exact placed.placed l hl
    · refine (synced a hdeadline).trans ⟨?_, ?_⟩
      · rintro ⟨l, hl, ha, hm⟩
        exact ⟨l, (hmem l).mpr (.inr hl), ha, hm⟩
      rintro ⟨l, hl, ha, hm⟩
      rcases (hmem l).mp hl with rfl | hl
      · cases ha
      · exact ⟨l, hl, ha, hm⟩

/-- The assignments of an update leave the link where it is. -/
theorem setLink_update_spec (m : State) (i : StaInfo) :
    Updated m (m.setLink i.key fun l => l.update i) ∧
      ((m.setLink i.key fun l => l.update i).links.map Link.key) = m.links.map Link.key ∧
      (∀ l' ∈ (m.setLink i.key fun l => l.update i).links, ∃ l ∈ m.links,
        l'.key = l.key ∧ l'.entry = l.entry ∧ (l'.key ≠ i.key → l' = l)) ∧
      ∀ a, (m.setLink i.key fun l => l.update i).Synced a ↔ m.Synced a := by
  have hkeep : ∀ l : Link, (if l.key = i.key then l.update i else l).key = l.key ∧
      (if l.key = i.key then l.update i else l).vif = l.vif ∧
      (if l.key = i.key then l.update i else l).entry = l.entry := by
    intro l
    split_ifs <;> exact ⟨rfl, rfl, rfl⟩
  refine ⟨⟨rfl, rfl, rfl, fun _ => ⟨_, _, .inl rfl⟩, .inl rfl⟩, ?_, ?_, fun a => ?_⟩
  · rw [setLink, map_map]
    exact map_congr_left fun l _ => (hkeep l).1
  · intro l' hl'
    obtain ⟨l, hl, rfl⟩ := mem_map.mp hl'
    refine ⟨l, hl, (hkeep l).1, (hkeep l).2.2, fun hk => ?_⟩
    rw [(hkeep l).1] at hk
    exact if_neg hk
  · refine imp_congr_right fun _ => iff_congr Iff.rfl ⟨?_, ?_⟩
    · rintro ⟨l', hl', ha, hm⟩
      obtain ⟨l, hl, rfl⟩ := mem_map.mp hl'
      exact ⟨l, hl, (hkeep l).2.2.symm.trans ha, (hkeep l).2.1 ▸ hm⟩
    · rintro ⟨l, hl, ha, hm⟩
      exact ⟨_, mem_map_of_mem hl, (hkeep l).2.2.trans ha, (hkeep l).2.1.symm ▸ hm⟩

theorem update_eq_self {i : StaInfo}
    (h : ¬(l.mldAddr ≠ i.linkMldAddr || l.connected ≠ i.connected ||
      l.connectedAt ≠ i.connectedAt || iesChanged l.ies i.ies) = true) :
    l.update i = l := by
  simp only [Bool.or_eq_true, decide_eq_true_eq, not_or, not_not] at h
  obtain ⟨⟨⟨h1, h2⟩, h3⟩, h4⟩ := h
  rw [update, if_neg h4, ← h1, ← h2, ← h3]

theorem staUpdate_settles (placed : m.Placed) (synced : ∀ a, m.Synced a) (i : StaInfo) (pos : Nat) :
    Settles m (m.staUpdate i pos) := by
  obtain ⟨hu, placed, synced⟩ := linkInfoGet_spec placed synced i.key pos
  refine .trans hu ?_
  rw [staUpdate]
  generalize m.linkInfoGet i.key pos = m at placed synced
  cases hfind : m.findLink i.key with
  | none => exact ⟨.refl m, placed, synced⟩
  | some l =>
    obtain ⟨hl, hk⟩ := (findLink_eq_some_iff placed.keys).mp hfind
    have only : ∀ l' ∈ m.links, l'.key = i.key → l' = l := fun l' hl' hk' =>
      inj_on_of_nodup_map placed.keys hl' hl (hk'.trans hk.symm)
    simp only
    split_ifs with hchanged
    · -- The link has new values, and may have to be moved.
      obtain ⟨hu, hkeys, hlinks, hsynced⟩ := setLink_update_spec m i
      have keys : ((m.setLink i.key fun l => l.update i).links.map key).Nodup :=
        hkeys ▸ placed.keys
      have hnz : ∀ l ∈ (m.setLink i.key fun l => l.update i).links, l.entry ≠ some .zero := by
        intro l' hl'
        obtain ⟨l, hl, -, he, -⟩ := hlinks l' hl'
        exact he ▸ placed.entry_ne_zero l hl
      have hmoved := linkInfoRecalc_spec keys hnz i.key
      have hplaced := linkInfoRecalc_placed (k := i.key) keys hnz fun l' hl' hk' => by
        obtain ⟨l, hl, -, -, hsame⟩ := hlinks l' hl'
        exact hsame hk' ▸ placed.placed l hl
      exact .trans (hu.trans hmoved.1) (vifGc_settles hplaced
        (fun a => hmoved.2.2.2.2 a ((hsynced a).mpr (synced a))) i.vif)
    · have hsame : m.setLink i.key (fun l => l.update i) = m := by
        have : (m.links.map fun l => if l.key = i.key then l.update i else l) = m.links := by
          conv_rhs => rw [← map_id m.links]
          refine map_congr_left fun l' hl' => ?_
          split_ifs with hk'
          · rw [only l' hl' hk', update_eq_self hchanged]
            rfl
          · rfl
        rw [setLink, this]
      rw [hsame]
      exact vifGc_settles placed synced i.vif

end State

end OpenSync.Osw.StaAssoc
