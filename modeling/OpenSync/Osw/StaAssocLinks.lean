import OpenSync.Osw.StaAssoc
import Mathlib.Data.List.Perm.Lattice

/-!
# When the lists of links are right

The active and the stale list of an entry should have the links on interfaces with an address, each
once.  `recalc_wellFormed_iff` says when: the links have to be different and fit in the arrays, and
without multi-link operation all have to be on interfaces with an address, since the second loop
does not look for that.
-/

namespace OpenSync.Osw.StaAssoc

open List LinkInfo

/-- The tree of the links of an entry, in the order of their addresses in memory. -/
structure LinkTree where
  infos : List LinkInfo
  sorted : infos.Pairwise fun a b => a.place < b.place

/-- What the lists should be for the links of an entry. -/
structure WellFormed (infos : List LinkInfo) (active stale : List AssocLink) : Prop where
  distinct : (active ++ stale).Nodup
  activeFits : active.length ≤ maxLinks
  staleFits : stale.length ≤ maxLinks
  exact : (active ++ stale).Perm ((infos.filter LinkInfo.valid).map LinkInfo.link)
  newest : (∀ l ∈ infos, l.valid = false) ∧ active = [] ∨ ∃ n, IsNewest infos (some n) ∧
      if n.isMlo then active.Perm ((sameLinks n infos).map LinkInfo.link)
      else active = [n.link]

/-- The links are different, and there is room for them. -/
def Fits (infos : List LinkInfo) : Prop :=
  ((infos.filter LinkInfo.valid).map LinkInfo.link).Nodup ∧ ∀ n, newestLinkInfo infos = some n →
      if n.isMlo then
        (sameLinks n infos).length ≤ maxLinks ∧ (otherLinks n infos).length ≤ maxLinks
      else (∀ l ∈ infos, l.valid) ∧ infos.length ≤ maxLinks + 1

/-! ## The lists of the entry -/

theorem linkArrayContains_iff {links : List AssocLink} {l : AssocLink} :
    linkArrayContains links l = true ↔ l ∈ links := by
  rw [linkArrayContains, any_eq_true]
  constructor
  · rintro ⟨m, hm, h⟩
    rw [Bool.and_eq_true, Hwaddr.isEqual_iff, Hwaddr.isEqual_iff] at h
    exact AssocLink.ext h.1 h.2 ▸ hm
  · intro h
    exact ⟨l, h, by simp⟩

/-- An entry that keeps its list has the new one, in another order. -/
theorem keepOrTake_perm {new : List AssocLink} (hnew : new.Nodup) (old : List AssocLink) :
    (keepOrTake old new).Perm new := by
  rw [keepOrTake]
  by_cases h : linksChanged old new
  · rw [if_pos h]
  rw [if_neg h]
  simp only [linksChanged, Bool.or_eq_true, decide_eq_true_eq, any_eq_true, not_or,
    not_exists, not_and, not_not, Bool.not_eq_true', Bool.not_eq_false] at h
  have hsub : new ⊆ old := fun l hl => linkArrayContains_iff.mp (h.2 l hl)
  exact ((hnew.subperm hsub).perm_of_length_le h.1.le).symm

theorem keepOrTake_nil (new : List AssocLink) : keepOrTake [] new = new := by
  cases new with
  | nil => rfl
  | cons l new => rfl

/-- The links of the same and of other associations are all links on interfaces with an address. -/
theorem same_append_other_perm (n : LinkInfo) (infos : List LinkInfo) :
    (sameLinks n infos ++ otherLinks n infos).Perm (infos.filter LinkInfo.valid) := by
  have h := filter_append_perm (fun l => n.sameAssoc l) (infos.filter valid)
  simp only [filter_filter] at h
  refine .trans (List.Perm.of_eq ?_) h
  congr 1 <;> exact filter_congr fun l _ => Bool.and_comm ..

theorem LinkTree.place_inj (t : LinkTree) {l m : LinkInfo} (hl : l ∈ t.infos) (hm : m ∈ t.infos)
    (h : l.place = m.place) : l = m := by
  have hnodup : (t.infos.map place).Nodup :=
    pairwise_map.mpr (t.sorted.imp fun hlt => hlt.ne)
  exact inj_on_of_nodup_map hnodup hl hm h

theorem LinkTree.others_perm (t : LinkTree) {n : LinkInfo} (hn : n ∈ t.infos) :
    (n :: t.infos.filter fun l => l.place ≠ n.place).Perm t.infos := by
  have hnodup : t.infos.Nodup := t.sorted.imp fun hlt heq => absurd hlt (by simp [heq])
  have herase : (t.infos.filter fun l => l.place ≠ n.place) = t.infos.erase n := by
    rw [hnodup.erase_eq_filter]
    refine filter_congr fun l hl => ?_
    by_cases h : l = n
    · simp [h]
    · have hplace : l.place ≠ n.place := fun hp => h (t.place_inj hl hn hp)
      simp [h, hplace]
  rw [herase]
  exact (perm_cons_erase hn).symm

/-! ## The condition -/

/-- Links that fit give lists as they should be, whatever the entry had before. -/
theorem recalcEntry_wellFormed (t : LinkTree) (h : Fits t.infos) (active stale : List AssocLink) :
    ∃ active' stale', recalcEntry active stale t.infos = some (active', stale') ∧
      WellFormed t.infos active' stale' := by
  obtain ⟨hnodup, hfits⟩ := h
  have hnewest := newestLinkInfo_isNewest t.infos
  -- It is enough that the lists of the loop are right.
  suffices ∃ s : Lists, recalcLists t.infos = some s ∧ WellFormed t.infos s.links s.stale by
    obtain ⟨s, hs, hwf⟩ := this
    have hperm := (keepOrTake_perm hwf.distinct.of_append_left active).append
      (keepOrTake_perm hwf.distinct.of_append_right stale)
    have hactive := keepOrTake_perm hwf.distinct.of_append_left active
    refine ⟨_, _, by rw [recalcEntry, hs]; rfl, ?_⟩
    refine ⟨hperm.nodup_iff.mpr hwf.distinct, ?_, ?_, hperm.trans hwf.exact, ?_⟩
    · rw [hactive.length_eq]
      exact hwf.activeFits
    · rw [(keepOrTake_perm hwf.distinct.of_append_right stale).length_eq]
      exact hwf.staleFits
    rcases hwf.newest with ⟨hnone, hnil⟩ | ⟨n, hn, hlinks⟩
    · rw [hnil] at hactive ⊢
      exact .inl ⟨hnone, perm_nil.mp hactive⟩
    refine .inr ⟨n, hn, ?_⟩
    by_cases hmlo : n.isMlo
    · rw [if_pos hmlo] at hlinks ⊢
      exact hactive.trans hlinks
    · rw [if_neg hmlo] at hlinks ⊢
      rw [hlinks] at hactive ⊢
      exact perm_singleton.mp hactive
  rw [recalcLists]
  cases hcase : newestLinkInfo t.infos with
  | none =>
    rw [hcase] at hnewest
    refine ⟨{}, rfl, nodup_nil, Nat.zero_le _, Nat.zero_le _, ?_, .inl ⟨hnewest, rfl⟩⟩
    rw [filter_eq_nil_iff.mpr fun l hl => by simp [hnewest l hl]]
    rfl
  | some n =>
    rw [hcase] at hnewest
    have hfits := hfits n hcase
    by_cases hmlo : n.isMlo
    · simp only [if_pos hmlo] at hfits ⊢
      have hout := mloLoop_outcome n t.infos {} (Nat.zero_le _) (Nat.zero_le _)
      cases hloop : mloLoop n t.infos {} with
      | none =>
        rw [hloop] at hout
        simp only [MloOutcome, length_nil] at hout
        omega
      | some s =>
        rw [hloop] at hout
        obtain ⟨hl, hs, ⟨hlinks, hstale⟩ | ⟨-, hmore, -⟩⟩ := hout
        · change s.links = (sameLinks n t.infos).map link at hlinks
          change s.stale = (otherLinks n t.infos).map link at hstale
          have hperm := (same_append_other_perm n t.infos).map link
          rw [map_append, ← hlinks, ← hstale] at hperm
          refine ⟨s, rfl, hperm.nodup_iff.mpr hnodup, hl, hs, hperm, .inr ⟨n, hnewest, ?_⟩⟩
          rw [if_pos hmlo, hlinks]
        · simp only [length_nil] at hmore
          omega
    · simp only [if_neg hmlo] at hfits ⊢
      obtain ⟨hvalid, hlen⟩ := hfits
      have hothers := t.others_perm hnewest.1
      have hcount := hothers.length_eq
      rw [length_cons] at hcount
      rw [staleLoop_eq _ _ _ (Nat.zero_le _)]
      simp only [length_nil, nil_append]
      rw [if_pos (by omega)]
      have hall : t.infos.filter valid = t.infos := filter_eq_self.mpr hvalid
      have hperm := hothers.map link
      refine ⟨_, rfl, ?_, ?_, ?_, ?_, .inr ⟨n, hnewest, by rw [if_neg hmlo]⟩⟩
      · exact hperm.nodup_iff.mpr (hall ▸ hnodup)
      · simp only [length_singleton]
        decide
      · simp only [length_map]
        omega
      · rw [hall]
        exact hperm

/-- Lists that are as they should be come from links that fit. -/
theorem fits_of_wellFormed (t : LinkTree) {s : Lists} (hs : recalcLists t.infos = some s)
    (hwf : WellFormed t.infos s.links s.stale) : Fits t.infos := by
  have hlength := hwf.exact.length_eq
  rw [length_append, length_map] at hlength
  refine ⟨hwf.exact.nodup_iff.mp hwf.distinct, fun n hn => ?_⟩
  have hnewest := newestLinkInfo_isNewest t.infos
  rw [hn] at hnewest
  rw [recalcLists, hn] at hs
  by_cases hmlo : n.isMlo
  · simp only [if_pos hmlo] at hs ⊢
    have hout := mloLoop_outcome n t.infos {} (Nat.zero_le _) (Nat.zero_le _)
    have hsplit := (same_append_other_perm n t.infos).length_eq
    rw [length_append] at hsplit
    rw [hs] at hout
    obtain ⟨hl, hst, ⟨hlinks, hstale⟩ | ⟨-, -, hless⟩⟩ := hout
    · rw [hlinks, length_append, length_map] at hl
      rw [hstale, length_append, length_map] at hst
      omega
    · simp only [length_nil] at hless
      omega
  · simp only [if_neg hmlo] at hs ⊢
    have hcount := (t.others_perm hnewest.1).length_eq
    rw [length_cons] at hcount
    rw [staleLoop_eq _ _ _ (Nat.zero_le _)] at hs
    simp only [length_nil, zero_add, nil_append] at hs
    by_cases hroom : (t.infos.filter fun l => l.place ≠ n.place).length ≤ maxLinks
    · rw [if_pos hroom] at hs
      cases hs
      simp only [length_singleton, length_map] at hlength
      refine ⟨?_, by omega⟩
      exact length_filter_eq_length_iff.mp (by omega)
    · rw [if_neg hroom] at hs
      cases hs

/-- The lists of links are as they should be exactly for links that fit. -/
theorem recalc_wellFormed_iff (t : LinkTree) :
    (∀ active stale, ∃ active' stale', recalcEntry active stale t.infos = some (active', stale') ∧
        WellFormed t.infos active' stale') ↔ Fits t.infos := by
  refine ⟨fun h => ?_, recalcEntry_wellFormed t⟩
  obtain ⟨active', stale', hrecalc, hwf⟩ := h [] []
  obtain ⟨s, hs, heq⟩ := Option.map_eq_some_iff.mp hrecalc
  rw [keepOrTake_nil, keepOrTake_nil] at heq
  cases heq
  exact fits_of_wellFormed t hs hwf

/-- A station on an interface without an address next to one with an address, and a station on 18
interfaces: the first one gets a stale link without a local address, and the second one writes
behind the array. -/
theorem stale_links_unchecked :
    let info (k : Nat) (vif : Hwaddr) : LinkInfo := ⟨k, .ofLast 7, .zero, 0, [], vif, .zero⟩
    recalcEntry [] [] [info 0 (.ofLast 1), info 1 .zero] =
        some ([⟨.ofLast 1, .ofLast 7⟩], [⟨.zero, .ofLast 7⟩]) ∧
      recalcEntry [] []
        ((List.range 18).map fun k => info k (.ofLast (UInt8.ofNat (k + 1)))) = none := by
  decide +kernel

end OpenSync.Osw.StaAssoc
