import OpenSync.Osw.Hwaddr
import Mathlib.Data.List.Perm.Subperm
import Mathlib.Data.List.Nodup

/-!
# The links of an associated station

`osw_sta_assoc` keeps an entry for each station, with its links to the interfaces of the device,
in a tree by their addresses in memory.  `osw_sta_assoc_entry_recalc` sorts them into the active
and the stale ones: the newest link is active, and with multi-link operation all links of the same
association are.

The lists are arrays of `OSW_STA_MAX_LINKS` elements.  A link beyond the end of the active ones is
left out, together with all links behind it; a link beyond the end of the stale ones is written
behind the array, which is `none`.
-/

namespace OpenSync.Osw.StaAssoc

open List

/-! ## Links -/

/-- `OSW_STA_MAX_LINKS`. -/
def maxLinks : Nat := 16

/-- `osw_sta_assoc_link_t`. -/
@[ext]
structure AssocLink where
  localStaAddr : Hwaddr
  remoteStaAddr : Hwaddr
deriving DecidableEq

/-- `struct osw_sta_assoc_link_info` at an address, with the addresses of its interface.  No
information elements are the empty list. -/
structure LinkInfo where
  place : Nat
  linkAddr : Hwaddr
  mldAddr : Hwaddr
  connectedAt : Int
  ies : List UInt8
  vifMacAddr : Hwaddr
  vifMldAddr : Hwaddr
deriving DecidableEq

/-- The link as the lists have it. -/
def LinkInfo.link (l : LinkInfo) : AssocLink := ⟨l.vifMacAddr, l.linkAddr⟩

/-- The interface of the link has an address. -/
def LinkInfo.valid (l : LinkInfo) : Bool := !l.vifMacAddr.isZero

/-- `is_mlo`, for the newest link. -/
def LinkInfo.isMlo (newest : LinkInfo) : Bool := !newest.mldAddr.isZero && !newest.vifMldAddr.isZero

/-- `same_assoc`. -/
def LinkInfo.sameAssoc (newest l : LinkInfo) : Bool :=
  l.vifMldAddr.isEqual newest.vifMldAddr && l.mldAddr.isEqual newest.mldAddr

/-- The body of the loop of `osw_sta_assoc_entry_newest_link_info`. -/
def newestStep (newest : Option LinkInfo) (l : LinkInfo) : Option LinkInfo :=
  if l.vifMacAddr.isZero then newest
  else
    match newest with
    | none => some l
    | some n => if l.connectedAt > n.connectedAt then some l else some n

/-- `osw_sta_assoc_entry_newest_link_info`. -/
def newestLinkInfo (infos : List LinkInfo) : Option LinkInfo := infos.foldl newestStep none

/-! ## The lists -/

/-- `links`, `stale` and `ies` of `osw_sta_assoc_entry_recalc`. -/
structure Lists where
  links : List AssocLink := []
  stale : List AssocLink := []
  ies : List UInt8 := []
deriving DecidableEq

/-- An assignment to `stale[num_stale]`. -/
def Lists.addStale (s : Lists) (l : LinkInfo) : Option Lists :=
  if s.stale.length < maxLinks then some { s with stale := s.stale ++ [l.link] } else none

/-- The loop for multi-link operation. -/
def mloLoop (newest : LinkInfo) : List LinkInfo → Lists → Option Lists
  | [], s => some s
  | l :: infos, s =>
    if l.vifMacAddr.isZero then mloLoop newest infos s
    else if newest.sameAssoc l then
      if maxLinks ≤ s.links.length then some s
      else
        mloLoop newest infos { s with
          links := s.links ++ [l.link]
          ies := if l.ies = [] then s.ies else l.ies }
    else
      match s.addStale l with
      | none => none
      | some s => mloLoop newest infos s

/-- The loop for a station without multi-link operation. -/
def staleLoop (newest : LinkInfo) : List LinkInfo → Lists → Option Lists
  | [], s => some s
  | l :: infos, s =>
    if l.place ≠ newest.place then
      match s.addStale l with
      | none => none
      | some s => staleLoop newest infos s
    else staleLoop newest infos s

/-- The first part of `osw_sta_assoc_entry_recalc`. -/
def recalcLists (infos : List LinkInfo) : Option Lists :=
  match newestLinkInfo infos with
  | none => some {}
  | some newest =>
    if newest.isMlo then mloLoop newest infos {}
    else staleLoop newest infos { links := [newest.link], ies := newest.ies }

/-- `osw_sta_assoc_entry_link_array_contains`. -/
def linkArrayContains (links : List AssocLink) (l : AssocLink) : Bool :=
  links.any fun m =>
    m.localStaAddr.isEqual l.localStaAddr && m.remoteStaAddr.isEqual l.remoteStaAddr

/-- `osw_sta_assoc_entry_links_changed`, and `osw_sta_assoc_entry_stale_changed`. -/
def linksChanged (old new : List AssocLink) : Bool :=
  old.length ≠ new.length || new.any fun l => !linkArrayContains old l

/-- The list of the entry afterwards. -/
def keepOrTake (old new : List AssocLink) : List AssocLink :=
  if linksChanged old new then new else old

/-- The lists `active` and `stale` of an entry after `osw_sta_assoc_entry_recalc`. -/
def recalcEntry (active stale : List AssocLink) (infos : List LinkInfo) :
    Option (List AssocLink × List AssocLink) :=
  (recalcLists infos).map fun s => (keepOrTake active s.links, keepOrTake stale s.stale)

/-! ## The newest link -/

theorem LinkInfo.valid_iff {l : LinkInfo} : l.valid = true ↔ ¬l.vifMacAddr.isZero = true := by
  cases h : l.vifMacAddr.isZero <;> simp only [LinkInfo.valid, h] <;> decide

theorem LinkInfo.not_valid_iff {l : LinkInfo} : l.valid = false ↔ l.vifMacAddr.isZero = true := by
  cases h : l.vifMacAddr.isZero <;> simp only [LinkInfo.valid, h] <;> decide

/-- `newest` is one of the links on an interface with an address, and none of these is newer. -/
def IsNewest (infos : List LinkInfo) : Option LinkInfo → Prop
  | none => ∀ l ∈ infos, l.valid = false
  | some n => n ∈ infos ∧ n.valid ∧ ∀ l ∈ infos, l.valid → l.connectedAt ≤ n.connectedAt

theorem newestStep_isNewest {seen : List LinkInfo} {newest : Option LinkInfo}
    (h : IsNewest seen newest) (l : LinkInfo) : IsNewest (seen ++ [l]) (newestStep newest l) := by
  cases hvalid : l.valid with
  | true =>
    have hzero := LinkInfo.valid_iff.mp hvalid
    cases newest with
    | none =>
      simp only [newestStep, if_neg hzero]
      refine ⟨by simp, hvalid, fun m hm hmv => ?_⟩
      rcases mem_append.mp hm with hm | hm
      · rw [h m hm] at hmv
        cases hmv
      · obtain rfl := mem_singleton.mp hm
        omega
    | some n =>
      obtain ⟨hn, hnv, hmax⟩ := h
      simp only [newestStep, if_neg hzero]
      by_cases hgt : l.connectedAt > n.connectedAt
      · rw [if_pos hgt]
        refine ⟨by simp, hvalid, fun m hm hmv => ?_⟩
        rcases mem_append.mp hm with hm | hm
        · have := hmax m hm hmv
          omega
        · obtain rfl := mem_singleton.mp hm
          omega
      · rw [if_neg hgt]
        refine ⟨mem_append_left _ hn, hnv, fun m hm hmv => ?_⟩
        rcases mem_append.mp hm with hm | hm
        · exact hmax m hm hmv
        · obtain rfl := mem_singleton.mp hm
          omega
  | false =>
    have hstep : newestStep newest l = newest := if_pos (LinkInfo.not_valid_iff.mp hvalid)
    rw [hstep]
    cases newest with
    | none =>
      intro m hm
      rcases mem_append.mp hm with hm | hm
      · exact h m hm
      · rw [mem_singleton.mp hm, hvalid]
    | some n =>
      obtain ⟨hn, hnv, hmax⟩ := h
      refine ⟨mem_append_left _ hn, hnv, fun m hm hmv => ?_⟩
      rcases mem_append.mp hm with hm | hm
      · exact hmax m hm hmv
      · rw [mem_singleton.mp hm, hvalid] at hmv
        cases hmv

theorem newestLinkInfo_isNewest (infos : List LinkInfo) :
    IsNewest infos (newestLinkInfo infos) := by
  have go : ∀ (rest seen : List LinkInfo) (newest : Option LinkInfo), IsNewest seen newest →
      IsNewest (seen ++ rest) (rest.foldl newestStep newest) := by
    intro rest
    induction rest with
    | nil =>
      intro seen newest h
      rwa [append_nil]
    | cons l rest ih =>
      intro seen newest h
      have := ih (seen ++ [l]) _ (newestStep_isNewest h l)
      rwa [append_assoc] at this
  exact go infos [] none (fun l hl => absurd hl not_mem_nil)

/-! ## The loops -/

section

variable (newest : LinkInfo) (infos : List LinkInfo)

def sameLinks : List LinkInfo :=
  infos.filter fun l => l.valid && newest.sameAssoc l

def otherLinks : List LinkInfo :=
  infos.filter fun l => l.valid && !newest.sameAssoc l

/-- How the loop for multi-link operation ends: too many stale links, all links in their lists, or
the active links that there is room for. -/
def MloOutcome (s : Lists) : Option Lists → Prop
  | none => maxLinks < s.stale.length + (otherLinks newest infos).length
  | some r => r.links.length ≤ maxLinks ∧ r.stale.length ≤ maxLinks ∧
    (r.links = s.links ++ (sameLinks newest infos).map LinkInfo.link ∧
        r.stale = s.stale ++ (otherLinks newest infos).map LinkInfo.link ∨
      r.links.length = maxLinks ∧ maxLinks < s.links.length + (sameLinks newest infos).length ∧
        r.links.length + r.stale.length <
          s.links.length + s.stale.length + (sameLinks newest infos).length +
            (otherLinks newest infos).length)

theorem mloLoop_outcome (s : Lists) (hlinks : s.links.length ≤ maxLinks)
    (hstale : s.stale.length ≤ maxLinks) : MloOutcome newest infos s (mloLoop newest infos s) := by
  induction infos generalizing s with
  | nil => exact ⟨hlinks, hstale, .inl (by simp [sameLinks, otherLinks])⟩
  | cons l infos ih =>
    rw [mloLoop]
    by_cases hzero : l.vifMacAddr.isZero
    · have hvalid := LinkInfo.not_valid_iff.mpr hzero
      have hsame : sameLinks newest (l :: infos) = sameLinks newest infos := by
        simp [sameLinks, hvalid]
      have hother : otherLinks newest (l :: infos) = otherLinks newest infos := by
        simp [otherLinks, hvalid]
      rw [if_pos hzero]
      have := ih s hlinks hstale
      rwa [MloOutcome.eq_def, ← hsame, ← hother] at this
    have hvalid := LinkInfo.valid_iff.mpr hzero
    rw [if_neg hzero]
    by_cases hassoc : newest.sameAssoc l
    · have hsame : sameLinks newest (l :: infos) = l :: sameLinks newest infos := by
        simp [sameLinks, hvalid, hassoc]
      have hother : otherLinks newest (l :: infos) = otherLinks newest infos := by
        simp [otherLinks, hassoc]
      rw [if_pos hassoc]
      by_cases hfull : maxLinks ≤ s.links.length
      · rw [if_pos hfull]
        refine ⟨hlinks, hstale, .inr ?_⟩
        rw [hsame, length_cons]
        omega
      rw [if_neg hfull]
      have := ih
        ⟨s.links ++ [l.link], s.stale, if l.ies = [] then s.ies else l.ies⟩
        (by simp; omega) hstale
      revert this
      cases mloLoop newest infos _ with
      | none => exact fun h => by simpa [MloOutcome, hother] using h
      | some r =>
        rintro ⟨hl, hs, h | h⟩
        · exact ⟨hl, hs, .inl (by simpa [hsame, hother] using h)⟩
        refine ⟨hl, hs, .inr ?_⟩
        simp only [length_append, length_singleton] at h
        rw [hsame, hother, length_cons]
        omega
    · have hsame : sameLinks newest (l :: infos) = sameLinks newest infos := by
        simp [sameLinks, hassoc]
      have hother : otherLinks newest (l :: infos) = l :: otherLinks newest infos := by
        simp [otherLinks, hvalid, hassoc]
      rw [if_neg hassoc, Lists.addStale]
      by_cases hroom : s.stale.length < maxLinks
      · rw [if_pos hroom]
        have := ih ⟨s.links, s.stale ++ [l.link], s.ies⟩ hlinks
          (by simp; omega)
        revert this
        simp only
        cases mloLoop newest infos _ with
        | none =>
          intro h
          simp only [MloOutcome, length_append, length_singleton] at h
          simp only [MloOutcome, hother, length_cons]
          omega
        | some r =>
          rintro ⟨hl, hs, h | h⟩
          · exact ⟨hl, hs, .inl (by simpa [hsame, hother] using h)⟩
          refine ⟨hl, hs, .inr ?_⟩
          simp only [length_append, length_singleton] at h
          rw [hsame, hother, length_cons]
          omega
      · rw [if_neg hroom]
        simp only [MloOutcome, hother, length_cons]
        omega

/-- The loop without multi-link operation goes through if the other links fit in the array. -/
theorem staleLoop_eq (s : Lists) (hstale : s.stale.length ≤ maxLinks) : staleLoop newest infos s =
      let others := infos.filter fun l => l.place ≠ newest.place
      if s.stale.length + others.length ≤ maxLinks then
        some { s with stale := s.stale ++ others.map LinkInfo.link }
      else none := by
  induction infos generalizing s with
  | nil => simp [staleLoop, hstale]
  | cons l infos ih =>
    rw [staleLoop]
    by_cases hplace : l.place ≠ newest.place
    · rw [if_pos hplace, Lists.addStale]
      by_cases hroom : s.stale.length < maxLinks
      · rw [if_pos hroom]
        simp only
        rw [ih _ (by simp only [length_append, length_singleton]; omega),
          filter_cons_of_pos (by simpa using hplace)]
        simp [Nat.add_assoc, Nat.add_comm 1]
      · rw [if_neg hroom, filter_cons_of_pos (by simpa using hplace)]
        simp only [length_cons]
        rw [if_neg (by omega)]
    · rw [if_neg hplace, ih s hstale, filter_cons_of_neg (by simpa using hplace)]

end

end OpenSync.Osw.StaAssoc
