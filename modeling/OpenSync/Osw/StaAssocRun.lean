import OpenSync.Osw.StaAssocUpdate

/-!
# The events along a run

The recalculation of an entry sorts its links anew and tells the observers what has changed.
`recalculate_told` says that the event goes on with the protocol: `connected` if the entry had no
active links and now has some, `disconnected` the other way round, and nothing at all if it had none
and still has none, since such an entry has no stale links and no information elements either.

A run ends when a recalculation writes a stale link behind the array.
-/

namespace OpenSync.Osw.StaAssoc

open OpenSync.Lib List

/-! ## The lists of a recalculation -/

/-- There are active links if some link is on an interface with an address, and else there is
nothing. -/
theorem recalcLists_links {infos : List LinkInfo} {s : Lists} (h : recalcLists infos = some s) :
    (s.links ≠ [] ↔ ∃ l ∈ infos, l.valid = true) ∧
      (s.links = [] → s = {} ∧ newestLinkInfo infos = none) := by
  have hnewest := newestLinkInfo_isNewest infos
  rw [recalcLists] at h
  revert h hnewest
  cases newestLinkInfo infos with
  | none =>
    intro h hnewest
    cases h
    refine ⟨iff_of_false (fun hne => hne rfl) ?_, fun _ => ⟨rfl, rfl⟩⟩
    rintro ⟨l, hl, hv⟩
    rw [hnewest l hl] at hv
    cases hv
  | some n =>
    rintro h ⟨hn, hvalid, -⟩
    have hne : s.links ≠ [] := by
      simp only at h
      split_ifs at h with hmlo
      · have hout := mloLoop_outcome n infos {} (Nat.zero_le _) (Nat.zero_le _)
        rw [h] at hout
        obtain ⟨-, -, ⟨hlinks, -⟩ | ⟨hfull, -⟩⟩ := hout
        · have hmem : n ∈ sameLinks n infos :=
            mem_filter.mpr ⟨hn, by simp [hvalid, LinkInfo.sameAssoc]⟩
          rw [hlinks]
          exact ne_nil_of_mem (mem_map_of_mem hmem)
        · intro hnil
          rw [hnil] at hfull
          cases hfull
      · rw [staleLoop_eq _ _ _ (Nat.zero_le _)] at h
        simp only at h
        split_ifs at h
        cases h
        exact cons_ne_nil _ _
    exact ⟨iff_of_true hne ⟨n, hn, hvalid⟩, fun hnil => absurd hnil hne⟩

/-- No stale link is written behind the array.  With multi-link operation the loop ends at the first
active link without room. -/
def StaleFits (infos : List LinkInfo) : Prop :=
  ∀ n, newestLinkInfo infos = some n →
    if n.isMlo then
      ∀ seen, seen <+: infos → (sameLinks n seen).length ≤ maxLinks →
        (otherLinks n seen).length ≤ maxLinks
    else (infos.filter fun l => l.place ≠ n.place).length ≤ maxLinks

theorem mloLoop_isSome_iff (n : LinkInfo) (infos : List LinkInfo) (s : Lists)
    (hlinks : s.links.length ≤ maxLinks) (hstale : s.stale.length ≤ maxLinks) :
    (mloLoop n infos s).isSome ↔ ∀ seen, seen <+: infos →
      s.links.length + (sameLinks n seen).length ≤ maxLinks →
        s.stale.length + (otherLinks n seen).length ≤ maxLinks := by
  induction infos generalizing s with
  | nil =>
    refine iff_of_true rfl fun seen hseen _ => ?_
    rw [prefix_nil.mp hseen]
    exact hstale
  | cons l infos ih =>
    have hcons : ∀ P : List LinkInfo → Prop, P [] →
        ((∀ seen, seen <+: l :: infos → P seen) ↔ ∀ seen, seen <+: infos → P (l :: seen)) := by
      refine fun P hnil => ⟨fun h seen hs => h _ (cons_prefix_cons.mpr ⟨rfl, hs⟩), ?_⟩
      intro h seen hs
      cases seen with
      | nil => exact hnil
      | cons l' seen =>
        rw [cons_prefix_cons] at hs
        rw [hs.1]
        exact h seen hs.2
    rw [hcons _ fun _ => hstale, mloLoop]
    by_cases hzero : l.vifMacAddr.isZero
    · have hvalid := LinkInfo.not_valid_iff.mpr hzero
      rw [if_pos hzero, ih s hlinks hstale]
      simp [sameLinks, otherLinks, hvalid]
    have hvalid := LinkInfo.valid_iff.mpr hzero
    rw [if_neg hzero]
    by_cases hassoc : n.sameAssoc l
    · rw [if_pos hassoc]
      by_cases hfull : maxLinks ≤ s.links.length
      · -- The loop ends here, and no longer list of links is looked at.
        rw [if_pos hfull]
        refine iff_of_true rfl fun seen _ h => ?_
        simp only [sameLinks, filter_cons, hvalid, hassoc, Bool.and_self, if_true, length_cons] at h
        omega
      · have hlinks' : (s.links ++ [l.link]).length ≤ maxLinks := by
          rw [length_append, length_singleton]
          omega
        rw [if_neg hfull, ih ⟨s.links ++ [l.link], s.stale, _⟩ hlinks' hstale]
        simp [sameLinks, otherLinks, hvalid, hassoc, Nat.add_assoc, Nat.add_comm 1]
    · rw [if_neg hassoc, Lists.addStale]
      by_cases hroom : s.stale.length < maxLinks
      · have hstale' : (s.stale ++ [l.link]).length ≤ maxLinks := by
          rw [length_append, length_singleton]
          omega
        rw [if_pos hroom]
        rw [ih ⟨s.links, s.stale ++ [l.link], s.ies⟩ hlinks hstale']
        simp [sameLinks, otherLinks, hvalid, hassoc, Nat.add_assoc, Nat.add_comm 1]
      · rw [if_neg hroom]
        refine iff_of_false (by simp) fun h => ?_
        have := h [] nil_prefix
        simp only [sameLinks, otherLinks, filter_cons, hvalid, hassoc, Bool.not_false,
          Bool.and_self, Bool.and_false, filter_nil, if_true, length_cons,
          length_nil, Bool.false_eq_true, if_false] at this
        omega

theorem recalcLists_isSome_iff (infos : List LinkInfo) :
    (recalcLists infos).isSome ↔ StaleFits infos := by
  rw [recalcLists, StaleFits]
  cases newestLinkInfo infos with
  | none => exact iff_of_true rfl fun n hn => by cases hn
  | some n =>
    simp only [Option.some.injEq, forall_eq']
    by_cases hmlo : n.isMlo
    · rw [if_pos hmlo, if_pos hmlo, mloLoop_isSome_iff n infos {} (Nat.zero_le _) (Nat.zero_le _)]
      simp
    · rw [if_neg hmlo, if_neg hmlo, staleLoop_eq _ _ _ (Nat.zero_le _)]
      simp

/-! ## The event of a recalculation -/

variable {old new : List AssocLink}

theorem length_eq_of_not_linksChanged (h : linksChanged old new = false) :
    old.length = new.length := by
  rw [linksChanged, Bool.or_eq_false_iff] at h
  simpa using h.1

theorem linksChanged_of_length_ne (h : old.length ≠ new.length) : linksChanged old new = true := by
  rw [linksChanged, decide_eq_true h, Bool.true_or]

theorem length_keepOrTake (old new : List AssocLink) :
    (keepOrTake old new).length = new.length := by
  rw [keepOrTake]
  by_cases h : linksChanged old new
  · rw [if_pos h]
  · rw [if_neg h]
    exact length_eq_of_not_linksChanged (Bool.eq_false_iff.mpr h)

section

variable (e : Entry) (newest : Option LinkInfo) (s : Lists)

theorem apply_changes :
    ((changes e newest s).apply e newest s).active = keepOrTake e.active s.links ∧
      ((changes e newest s).apply e newest s).stale = keepOrTake e.stale s.stale ∧
      ((changes e newest s).apply e newest s).ies = s.ies := by
  refine ⟨rfl, rfl, ?_⟩
  have hies : ((changes e newest s).apply e newest s).ies =
      if decide (e.ies ≠ s.ies) then s.ies else e.ies := rfl
  rw [hies]
  by_cases h : e.ies = s.ies <;> simp

/-- The number of active links afterwards is that of the new list. -/
theorem length_apply_active :
    ((changes e newest s).apply e newest s).active.length = s.links.length := by
  rw [(apply_changes e newest s).1, length_keepOrTake]

end

section Recalculation

variable {e : Entry} {infos : List LinkInfo} {s : Lists}

section

variable
  (h : recalcLists infos = some s) (hempty : e.isConnected = false → e.stale = [] ∧ e.ies = [])

include h hempty

/-- Without active links before and after there is no change. -/
theorem any_changes_eq_false (hold : e.active = []) (hnew : s.links = [])
    : (changes e (newestLinkInfo infos) s).any = false := by
  obtain ⟨rfl, hnone⟩ := (recalcLists_links h).2 hnew
  obtain ⟨hstale, hies⟩ := hempty (by rw [Entry.isConnected, hold]; rfl)
  simp [Changes.any, changes, hold, hstale, hies, hnone, linksChanged]

theorem protocol_event (hany : (changes e (newestLinkInfo infos) s).any = true) {t : List Event}
    (ht : Protocol e.isConnected t) : Protocol (decide (s.links.length ≠ 0))
      (t ++ [(changes e (newestLinkInfo infos) s).event e.active.length s.links.length]) := by
  rw [Entry.isConnected] at ht
  by_cases hold : e.active.length = 0 <;> by_cases hnew : s.links.length = 0
  · rw [any_changes_eq_false h hempty (length_eq_zero_iff.mp hold)
      (length_eq_zero_iff.mp hnew)] at hany
    cases hany
  · have hlinks : (changes e (newestLinkInfo infos) s).links = true :=
      linksChanged_of_length_ne (by omega)
    have hev : (changes e (newestLinkInfo infos) s).event e.active.length s.links.length =
        .connected := by
      simp [Changes.event, hlinks, hold, Nat.pos_of_ne_zero hnew]
    rw [hev, decide_eq_true hnew]
    rw [decide_eq_false (not_not.mpr hold)] at ht
    exact ht.connect
  · have hlinks : (changes e (newestLinkInfo infos) s).links = true :=
      linksChanged_of_length_ne (by omega)
    have hat : (changes e (newestLinkInfo infos) s).connectedAt = false := by
      rw [((recalcLists_links h).2 (length_eq_zero_iff.mp hnew)).2]
      rfl
    have hev : (changes e (newestLinkInfo infos) s).event e.active.length s.links.length =
        .disconnected := by
      simp [Changes.event, hlinks, hat, hnew, Nat.pos_of_ne_zero hold]
    rw [hev, decide_eq_false (not_not.mpr hnew)]
    rw [decide_eq_true hold] at ht
    exact ht.disconnect
  · have hev : (changes e (newestLinkInfo infos) s).event e.active.length s.links.length =
        .reconnected ∨
        (changes e (newestLinkInfo infos) s).event e.active.length s.links.length = .undefined := by
      simp only [Changes.event, hold, hnew, decide_false, Bool.and_false, Bool.false_and,
        Bool.false_eq_true, if_false]
      split_ifs
      · exact .inl rfl
      · exact .inr rfl
    rw [decide_eq_true hnew]
    rw [decide_eq_true hold] at ht
    exact ht.change hev

end

/-- The last event of a station that is not connected is `disconnected`. -/
theorem Protocol.last {b : Bool} {t : List Event} {ev : Event} (h : Protocol b (t ++ [ev])) :
    ev = .disconnected ↔ b = false := by
  generalize hu : t ++ [ev] = u at h
  cases h with
  | nil => simp at hu
  | connect h | disconnect h =>
    obtain ⟨-, rfl⟩ := append_inj' hu rfl |>.imp_right singleton_inj.mp
    simp
  | change h hev =>
    obtain ⟨-, rfl⟩ := append_inj' hu rfl |>.imp_right singleton_inj.mp
    rcases hev with rfl | rfl <;> simp

end Recalculation

namespace State

/-! ## Recalculation -/

/-- The entry with new lists, and its observers told about it. -/
def recalculate (m : State) (a : Hwaddr) (s : Lists) : State :=
  let newest := newestLinkInfo (m.infos a)
  let c := changes (m.entry a) newest s
  let m' := m.setEntry a fun e => c.apply e newest s
  if c.any then m'.notifyObservers a (c.event (m.entry a).active.length s.links.length) else m'

variable {m : State} {a : Hwaddr} {m' : State}

theorem entryRecalc_eq (h : (m.busy && (m.entry a).deadline) = false) :
    m.entryRecalc a = (recalcLists (m.infos a)).map fun s => (m.recalculate a s).entryGc a := by
  rw [entryRecalc, h]
  rfl

/-- Each observer of the station hears an event once. -/
theorem heard_notifyObservers (m : State) (ids : (m.observers.map Prod.fst).Nodup)
    (ha : a ≠ .zero) (ev : Event) (o : Nat) (b : Hwaddr) :
    (m.notifyObservers a ev).heard o b = m.heard o b ++
      if b = a ∧ ((o, a) ∈ m.observers ∨ (o, .zero) ∈ m.observers) then
        [⟨ev, (m.entry a).active.length⟩] else [] := by
  have hone : (o, a) ∈ m.observers → (o, .zero) ∉ m.observers := fun h1 h2 =>
    ha (congrArg Prod.snd (inj_on_of_nodup_map ids h1 h2 rfl))
  rw [notifyObservers]
  by_cases hb : b = a
  · by_cases h1 : (o, a) ∈ m.observers
    · simp [hb, hone h1]
    · by_cases h2 : (o, Hwaddr.zero) ∈ m.observers <;> simp [hb, h1]
  · simp [hb]

section

variable (m : State) (a : Hwaddr) (s : Lists)

theorem entry_recalculate (b : Hwaddr) : (m.recalculate a s).entry b =
      if b = a then
        (changes (m.entry a) (newestLinkInfo (m.infos a)) s).apply (m.entry b)
          (newestLinkInfo (m.infos a)) s
      else m.entry b := by
  rw [recalculate]
  cases (changes (m.entry a) (newestLinkInfo (m.infos a)) s).any <;> rfl

theorem recalculate_frame :
    (m.recalculate a s).observers = m.observers ∧ (m.recalculate a s).vif = m.vif ∧
      (m.recalculate a s).nextObserver = m.nextObserver ∧
      (m.recalculate a s).links = m.links := by
  rw [recalculate]
  cases (changes (m.entry a) (newestLinkInfo (m.infos a)) s).any <;> exact ⟨rfl, rfl, rfl, rfl⟩

theorem isConnected_recalculate :
    ((m.recalculate a s).entry a).isConnected = decide (s.links.length ≠ 0) := by
  rw [entry_recalculate, if_pos rfl, Entry.isConnected, length_apply_active]

end

theorem heard_recalculate (ids : (m.observers.map Prod.fst).Nodup) (ha : a ≠ .zero) (s : Lists)
    (o : Nat) (b : Hwaddr) :
    let c := changes (m.entry a) (newestLinkInfo (m.infos a)) s
    (m.recalculate a s).heard o b = m.heard o b ++
      if c.any ∧ b = a ∧ ((o, a) ∈ m.observers ∨ (o, .zero) ∈ m.observers) then
        [⟨c.event (m.entry a).active.length s.links.length, s.links.length⟩] else [] := by
  simp only [recalculate]
  cases hany : (changes (m.entry a) (newestLinkInfo (m.infos a)) s).any with
  | false => simp [setEntry]
  | true =>
    have hcount := length_apply_active (m.entry a) (newestLinkInfo (m.infos a)) s
    rw [if_pos rfl, heard_notifyObservers (m.setEntry a _) ids ha, entry_setEntry, if_pos rfl,
      hcount]
    simp [setEntry]

/-- Some link of the entry can be active. -/
theorem exists_valid_infos_iff (m : State) (a : Hwaddr) :
    (∃ l ∈ m.infos a, l.valid = true) ↔ m.Reaches a := by
  simp only [infos, mem_map, mem_filter, decide_eq_true_eq]
  constructor
  · rintro ⟨_, ⟨p, ⟨hp, he⟩, rfl⟩, hv⟩
    exact ⟨p.1, fst_mem_of_mem_zipIdx hp, he, by simpa [LinkInfo.valid] using hv⟩
  rintro ⟨l, hl, he, hm⟩
  obtain ⟨i, hi⟩ := mem_iff_getElem?.mp hl
  have hp : (l, i) ∈ m.links.zipIdx := mem_zipIdx_iff_getElem?.mpr hi
  exact ⟨_, ⟨(l, i), ⟨hp, he⟩, rfl⟩, by simpa [LinkInfo.valid] using hm⟩

section Recalculate

variable {m : State} {a : Hwaddr} {s : Lists} (ha : a ≠ .zero)
  (hs : recalcLists (m.infos a) = some s)

include ha hs

theorem recalculate_told (told : m.Told) (tidy : m.Tidy) : (m.recalculate a s).Told := by
  obtain ⟨hobs, -, hnext, -⟩ := recalculate_frame m a s
  have hheard := heard_recalculate told.ids ha s
  -- An observer that hears the event goes on with the protocol.
  have hgo : ∀ o, (changes (m.entry a) (newestLinkInfo (m.infos a)) s).any = true →
      ((o, a) ∈ m.observers ∨ (o, .zero) ∈ m.observers) →
      Protocol (decide (s.links.length ≠ 0)) (m.events o a ++
        [(changes (m.entry a) (newestLinkInfo (m.infos a)) s).event
          (m.entry a).active.length s.links.length]) := by
    rintro o hany (ho | ho)
    · exact protocol_event hs (tidy.empty a) hany (told.listens o a a ho (.inl rfl))
    · exact protocol_event hs (tidy.empty a) hany (told.listens o .zero a ho (.inr rfl))
  refine ⟨hobs ▸ told.ids, ?_, fun o b ho => ?_, fun o x b ho hx => ?_, fun o x b ho hx hz => ?_,
    fun o b => ?_, fun o b h hh => ?_⟩
  · rw [hobs, hnext]
    exact told.fresh
  · rw [hnext] at ho
    rw [hheard, told.silent o b ho, if_neg, append_nil]
    rintro ⟨-, -, hmem | hmem⟩ <;> exact absurd (told.fresh _ hmem) (Nat.not_lt.mpr ho)
  · rw [hobs] at ho
    have hlistens := told.listens o x b ho hx
    by_cases hb : b = a
    · subst hb
      have hmem : (o, b) ∈ m.observers ∨ (o, .zero) ∈ m.observers := by
        rcases hx with rfl | rfl
        · exact .inl ho
        · exact .inr ho
      rw [isConnected_recalculate, events, hheard]
      cases hany : (changes (m.entry b) (newestLinkInfo (m.infos b)) s).any with
      | true =>
        rw [if_pos ⟨rfl, rfl, hmem⟩, map_append]
        exact hgo o hany hmem
      | false =>
        have hlinks := hany
        simp only [Changes.any, Bool.or_eq_false_iff] at hlinks
        rw [if_neg (fun h => Bool.false_ne_true h.1), append_nil,
          ← length_eq_of_not_linksChanged hlinks.1.1.1]
        exact hlistens
    · rw [events, hheard, if_neg (fun h => hb h.2.1), append_nil, entry_recalculate, if_neg hb]
      exact hlistens
  · rw [hobs] at ho
    rw [hheard, told.deaf o x b ho hx hz, if_neg, append_nil]
    rintro ⟨-, rfl, hmem | hmem⟩
    · exact hx (congrArg Prod.snd (inj_on_of_nodup_map told.ids ho hmem rfl))
    · exact hz (congrArg Prod.snd (inj_on_of_nodup_map told.ids ho hmem rfl))
  · rw [events, hheard]
    split_ifs with h
    · obtain ⟨hany, rfl, hmem⟩ := h
      rw [map_append]
      exact ⟨_, hgo o hany hmem⟩
    · rw [append_nil]
      exact told.orderly o b
  · rw [hheard] at hh
    rcases mem_append.mp hh with hh | hh
    · exact told.counts o b h hh
    split_ifs at hh with hc
    · obtain ⟨hany, rfl, hmem⟩ := hc
      obtain rfl := mem_singleton.mp hh
      simpa using (hgo o hany hmem).last
    · cases hh

theorem recalculate_tidy (tidy : m.Tidy) : (m.recalculate a s).Tidy := by
  refine ⟨fun b hb => ?_, ?_⟩
  · by_cases hba : b = a
    · subst hba
      rw [isConnected_recalculate, decide_eq_false_iff_not, not_not, length_eq_zero_iff] at hb
      obtain ⟨rfl, hnone⟩ := (recalcLists_links hs).2 hb
      obtain ⟨-, hstale, hies⟩ := apply_changes (m.entry b) (newestLinkInfo (m.infos b)) {}
      rw [entry_recalculate, if_pos rfl, hies]
      exact ⟨length_eq_zero_iff.mp (length_keepOrTake _ _), rfl⟩
    · rw [entry_recalculate, if_neg hba] at hb ⊢
      exact tidy.empty b hb
  · rw [entry_recalculate, if_neg ha.symm]
    exact tidy.zero

omit ha in
theorem recalculate_synced : (m.recalculate a s).Synced a := by
  intro _
  obtain ⟨-, hvif, -, hlinks⟩ := recalculate_frame m a s
  have hreaches : (m.recalculate a s).Reaches a ↔ ∃ l ∈ m.infos a, l.valid = true := by
    rw [exists_valid_infos_iff, Reaches, Reaches, hvif, hlinks]
  rw [isConnected_recalculate, hreaches, ← (recalcLists_links hs).1, decide_eq_true_eq, ne_eq,
    length_eq_zero_iff]

theorem recalculate_inv (told : m.Told) (placed : m.Placed) (tidy : m.Tidy)
    (synced : ∀ b, b ≠ a → m.Synced b) : (m.recalculate a s).Inv := by
  obtain ⟨-, hvif, -, hlinks⟩ := recalculate_frame m a s
  refine ⟨recalculate_told ha hs told tidy, ⟨hlinks ▸ placed.keys, hlinks ▸ placed.placed⟩,
    recalculate_tidy ha hs tidy, fun b => ?_⟩
  by_cases hb : b = a
  · subst hb
    exact recalculate_synced hs
  · have := synced b hb
    rwa [Synced, Reaches, entry_recalculate, if_neg hb, hvif, hlinks]

end Recalculate

theorem entryGc_settles (placed : m.Placed) (synced : ∀ a, m.Synced a) (a : Hwaddr) :
    Settles m (m.entryGc a) := by
  refine ⟨entryGc_updated m a, ?_, fun b => ?_⟩
  · rcases entryGc_cases m a with h | ⟨h, -, -⟩
    · rw [h]
      exact placed
    · exact h ▸ ⟨placed.keys, placed.placed⟩
  rcases entryGc_cases m a with h | ⟨h, hnone, -⟩
  · rw [h]
    exact synced b
  rw [h]
  by_cases hb : b = a
  · intro _
    rw [entry_setEntry, if_pos hb]
    refine ⟨fun hc => absurd hc (by decide), ?_⟩
    rintro ⟨l, hl, he, -⟩
    exact absurd (hb ▸ he) (hnone l hl)
  · rw [Synced, entry_setEntry, if_neg hb]
    exact synced b

/-! ## Timers -/

/-- An entry other than that of the observers of all stations. -/
theorem Tidy.ne_zero (tidy : m.Tidy) (h : (m.entry a).settle = true ∨ (m.entry a).deadline = true) :
    a ≠ .zero := by
  rintro rfl
  obtain ⟨-, h1, h2⟩ := tidy.zero
  rw [h1, h2] at h
  simp at h

theorem setEntry_updated (ha : a ≠ .zero) {f : Entry → Entry}
    (hf : ∀ e, ∃ settle deadline, f e = { e with settle := settle, deadline := deadline }) :
    Updated m (m.setEntry a f) := by
  refine ⟨rfl, rfl, rfl, fun b => ?_, .inl (if_neg ha.symm)⟩
  obtain ⟨s, d, h⟩ := hf (m.entry b)
  rw [entry_setEntry]
  split_ifs
  · exact ⟨s, d, .inl h⟩
  · exact ⟨_, _, .inl rfl⟩

theorem entryRecalc_inv (ha : a ≠ .zero) (hgo : (m.busy && (m.entry a).deadline) = false)
    (told : m.Told) (placed : m.Placed) (tidy : m.Tidy) (synced : ∀ b, b ≠ a → m.Synced b)
    (h : m.entryRecalc a = some m') : m'.Inv := by
  rw [entryRecalc_eq hgo, Option.map_eq_some_iff] at h
  obtain ⟨s, hs, rfl⟩ := h
  have inv := recalculate_inv ha hs told placed tidy synced
  exact (entryGc_settles inv.placed inv.synced a).inv inv

/-- The map once the time to settle is over. -/
abbrev settled (m : State) (a : Hwaddr) : State := m.setEntry a fun e => { e with settle := false }

theorem settleExpires_inv (inv : m.Inv) (h : m.settleExpires a = some m') : m'.Inv := by
  rw [settleExpires] at h
  split_ifs at h with hsettle
  · have ha := inv.tidy.ne_zero (.inl hsettle)
    have hu : Updated m (m.settled a) := setEntry_updated ha fun e => ⟨_, _, rfl⟩
    have hsynced : ∀ b, (m.settled a).Synced b := by
      intro b
      rw [Synced, entry_setEntry]
      split_ifs
      · exact inv.synced b
      · exact inv.synced b
    have inv' : (m.settled a).Inv :=
      Settles.inv ⟨hu, ⟨inv.placed.keys, inv.placed.placed⟩, hsynced⟩ inv
    cases hgo : (m.settled a).busy &&
        ((m.settled a).entry a).deadline with
    | true =>
      rw [entryRecalc, hgo] at h
      exact Option.some.inj h ▸ inv'
    | false =>
      exact entryRecalc_inv ha hgo inv'.told inv'.placed inv'.tidy (fun b _ => hsynced b) h
  · exact Option.some.inj h ▸ inv

theorem deadlineExpires_inv (inv : m.Inv) (h : m.deadlineExpires a = some m') : m'.Inv := by
  rw [deadlineExpires] at h
  split_ifs at h with hdeadline
  · have ha := inv.tidy.ne_zero (.inr hdeadline)
    have hu : Updated m (m.setEntry a fun e => { e with deadline := false }) :=
      setEntry_updated ha fun e => ⟨_, _, rfl⟩
    have hgo : ((m.setEntry a fun e => { e with deadline := false }).busy &&
        ((m.setEntry a fun e => { e with deadline := false }).entry a).deadline) = false := by
      rw [entry_setEntry, if_pos rfl, Bool.and_false]
    refine entryRecalc_inv ha hgo (hu.told inv.told) ⟨inv.placed.keys, inv.placed.placed⟩
      (hu.tidy inv.tidy) (fun b hb => ?_) h
    rw [Synced, entry_setEntry, if_neg hb]
    exact inv.synced b
  · exact Option.some.inj h ▸ inv

theorem idle_settles (inv : m.Inv) : Settles m m.idle := by
  have hentry : ∀ a, ∃ settle, m.idle.entry a = { m.entry a with settle := settle } := by
    intro a
    simp only [idle]
    split_ifs with h
    · exact ⟨true, by rw [← h]⟩
    · exact ⟨_, rfl⟩
  refine ⟨⟨rfl, rfl, rfl, fun a => ?_, .inl ?_⟩, ⟨inv.placed.keys, inv.placed.placed⟩,
    fun a => ?_⟩
  · obtain ⟨settle, h⟩ := hentry a
    exact ⟨settle, _, .inl h⟩
  · exact if_neg (by rw [inv.tidy.zero.2.2]; decide)
  · obtain ⟨settle, h⟩ := hentry a
    rw [Synced, h]
    exact inv.synced a

/-! ## Observers -/

section

variable (told : m.Told) (tidy : m.Tidy)

include told tidy

/-- A new observer hears of the stations that are connected. -/
theorem heard_observerAlloc (x : Hwaddr) (o : Nat) (a : Hwaddr) : (m.observerAlloc x).heard o a =
      if o = m.nextObserver then
        if (m.entry a).isConnected ∧ (x = a ∨ x = .zero) then
          [⟨.connected, (m.entry a).active.length⟩] else []
      else m.heard o a := by
  simp only [observerAlloc]
  by_cases ho : o = m.nextObserver
  · rw [if_pos ho, if_pos ho, told.silent o a ho.symm.le]
    by_cases hz : a = .zero
    · simp [hz, tidy.zero.1]
    · by_cases hx : x = a
      · simp [hx, hz]
      · simp [hx, Ne.symm hx, hz, and_comm]
  · rw [if_neg ho, if_neg ho]

/-- What a new observer has heard agrees with the entry. -/
theorem protocol_observerAlloc (x a : Hwaddr) :
    Protocol ((m.entry a).isConnected && decide (x = a ∨ x = .zero))
      ((m.observerAlloc x).events m.nextObserver a) := by
  rw [events, heard_observerAlloc told tidy, if_pos rfl]
  by_cases h : (m.entry a).isConnected = true ∧ (x = a ∨ x = .zero)
  · rw [if_pos h, h.1, decide_eq_true h.2]
    exact Protocol.nil.connect
  have hoff : ((m.entry a).isConnected && decide (x = a ∨ x = .zero)) = false := by
    rw [Bool.and_eq_false_iff, decide_eq_false_iff_not, ← Bool.not_eq_true]
    exact not_and_or.mp h
  rw [if_neg h, hoff]
  exact .nil

theorem observerAlloc_told (x : Hwaddr) : (m.observerAlloc x).Told := by
  have hheard := heard_observerAlloc told tidy x
  have hmem : ∀ o y, (o, y) ∈ (m.observerAlloc x).observers ↔
      (o, y) ∈ m.observers ∨ o = m.nextObserver ∧ y = x := by
    simp [observerAlloc]
  have hold : ∀ {o y}, (o, y) ∈ m.observers → o ≠ m.nextObserver := fun h =>
    Nat.ne_of_lt (told.fresh _ h)
  have hevents : ∀ {o}, o ≠ m.nextObserver → ∀ a, (m.observerAlloc x).heard o a = m.heard o a :=
    fun ho a => by rw [hheard, if_neg ho]
  refine ⟨?_, fun ⟨o, y⟩ ho => ?_, fun o a ho => ?_, fun o y a ho hy => ?_,
    fun o y a ho hy hz => ?_, fun o a => ?_, fun o a h hh => ?_⟩
  · have : m.nextObserver ∉ m.observers.map Prod.fst := by
      intro h
      obtain ⟨p, hp, he⟩ := mem_map.mp h
      exact hold hp he
    rw [observerAlloc, map_append]
    exact nodup_append'.mpr ⟨told.ids, nodup_singleton _, by simpa using this⟩
  · rcases (hmem o y).mp ho with ho | ⟨rfl, -⟩
    · exact Nat.lt_succ_of_lt (told.fresh _ ho)
    · exact Nat.lt_succ_self _
  · have ho : m.nextObserver + 1 ≤ o := ho
    rw [hevents (by omega)]
    exact told.silent o a (by omega)
  · rcases (hmem o y).mp ho with ho | ⟨rfl, rfl⟩
    · rw [events, hevents (hold ho)]
      exact told.listens o y a ho hy
    · have := protocol_observerAlloc told tidy y a
      rwa [decide_eq_true hy, Bool.and_true] at this
  · rcases (hmem o y).mp ho with ho | ⟨rfl, rfl⟩
    · rw [hevents (hold ho)]
      exact told.deaf o y a ho hy hz
    · rw [hheard, if_pos rfl, if_neg fun h => h.2.elim hy hz]
  · by_cases ho : o = m.nextObserver
    · exact ⟨_, ho ▸ protocol_observerAlloc told tidy x a⟩
    · rw [events, hevents ho]
      exact told.orderly o a
  · rw [hheard] at hh
    split_ifs at hh with ho hc
    · obtain rfl := mem_singleton.mp hh
      simpa [Entry.isConnected] using hc.1
    · cases hh
    · exact told.counts o a h hh

end

theorem observerAlloc_inv (inv : m.Inv) (x : Hwaddr) : (m.observerAlloc x).Inv :=
  ⟨observerAlloc_told inv.told inv.tidy x, ⟨inv.placed.keys, inv.placed.placed⟩,
    ⟨inv.tidy.empty, inv.tidy.zero⟩, inv.synced⟩

theorem observerDrop_inv (inv : m.Inv) (o : Nat) : (m.observerDrop o).Inv := by
  rw [observerDrop]
  cases hfind : m.observers.find? fun p => p.1 = o with
  | none => exact inv
  | some p =>
    have inv' : { m with observers := m.observers.filter fun p => p.1 ≠ o }.Inv := by
      have hmem : ∀ {p}, p ∈ m.observers.filter (fun p => p.1 ≠ o) → p ∈ m.observers :=
        fun h => (mem_filter.mp h).1
      obtain ⟨ids, fresh, silent, listens, deaf, orderly, counts⟩ := inv.told
      exact ⟨⟨ids.sublist (filter_sublist.map _), fun p hp => fresh p (hmem hp), silent,
        fun o x a ho => listens o x a (hmem ho), fun o x a ho => deaf o x a (hmem ho), orderly,
        counts⟩, ⟨inv.placed.keys, inv.placed.placed⟩, ⟨inv.tidy.empty, inv.tidy.zero⟩,
        inv.synced⟩
    exact (entryGc_settles inv'.placed inv'.synced p.2).inv inv'

/-! ## Runs -/

theorem step_inv {op : Op} (inv : m.Inv) (h : m.step op = some m') : m'.Inv := by
  cases op with
  | vifUpdate v macAddr mldAddr =>
    exact Option.some.inj h ▸ (vifUpdate_settles inv.placed inv.synced v macAddr mldAddr).inv inv
  | staUpdate i pos =>
    exact Option.some.inj h ▸ (staUpdate_settles inv.placed inv.synced i pos).inv inv
  | busy =>
    cases h
    exact ⟨⟨inv.told.ids, inv.told.fresh, inv.told.silent, inv.told.listens, inv.told.deaf,
      inv.told.orderly, inv.told.counts⟩, ⟨inv.placed.keys, inv.placed.placed⟩,
      ⟨inv.tidy.empty, inv.tidy.zero⟩, inv.synced⟩
  | idle => exact Option.some.inj h ▸ (idle_settles inv).inv inv
  | settleExpires a => exact settleExpires_inv inv h
  | deadlineExpires a => exact deadlineExpires_inv inv h
  | observerAlloc x => exact Option.some.inj h ▸ observerAlloc_inv inv x
  | observerDrop o => exact Option.some.inj h ▸ observerDrop_inv inv o

theorem run_inv {ops : List Op} (inv : m.Inv) (h : m.run ops = some m') : m'.Inv := by
  induction ops generalizing m with
  | nil => exact Option.some.inj h ▸ inv
  | cons op ops ih =>
    obtain ⟨m1, h1, h2⟩ := Option.bind_eq_some_iff.mp h
    exact ih (step_inv inv h1) h2

theorem inv_empty : ({} : State).Inv where
  told := ⟨nodup_nil, fun _ h => (by cases h), fun _ _ _ => rfl, fun _ _ _ h => (by cases h),
    fun _ _ _ h => (by cases h), fun _ _ => ⟨false, .nil⟩, fun _ _ _ h => (by cases h)⟩
  placed := ⟨nodup_nil, fun _ h => (by cases h)⟩
  tidy := ⟨fun _ _ => ⟨rfl, rfl⟩, rfl, rfl, rfl⟩
  synced := fun _ _ => ⟨fun h => Bool.noConfusion h, fun ⟨_, h, _⟩ => by cases h⟩

/-- What the observers may rely on. -/
structure Conforms (m : State) : Prop where
  protocol : ∀ o a, ∃ rest, m.events o a ++ rest ∈ associations
  counts : ∀ o a, ∀ h ∈ m.heard o a,
    (h.ev ≠ .disconnected → 0 < h.count) ∧ (h.ev = .disconnected → h.count = 0)
  settled : ∀ a, (m.entry a).settle = false → (m.entry a).deadline = false →
    ((m.entry a).isConnected = true ↔
      ∃ l ∈ m.links, l.connected = true ∧ l.staAddr = some a ∧ (m.vif l.vif).macAddr ≠ .zero)

theorem Inv.conforms (inv : m.Inv) : m.Conforms := by
  refine ⟨fun o a => ?_, fun o a h hh => ?_, fun a _ hdeadline => ?_⟩
  · obtain ⟨b, hb⟩ := inv.told.orderly o a
    exact hb.exists_rest
  · have := inv.told.counts o a h hh
    exact ⟨fun hne => Nat.pos_of_ne_zero fun hz => hne (this.mpr hz), this.mp⟩
  have htarget : ∀ l : Link, l.target = some a ↔ l.connected = true ∧ l.staAddr = some a := by
    intro l
    rw [Link.target]
    split_ifs with hc <;> simp [hc]
  refine (inv.synced a hdeadline).trans (exists_congr fun l => and_congr_right fun hl => ?_)
  rw [inv.placed.placed l hl, htarget, and_assoc]

/-- The entry that a step recalculates. -/
def recalculates (m : State) : Op → Option Hwaddr
  | .settleExpires a =>
    if (m.entry a).settle && !(m.busy && (m.entry a).deadline) then some a else none
  | .deadlineExpires a => if (m.entry a).deadline then some a else none
  | _ => none

/-- All recalculations of a run have room for their stale links. -/
def RunFits (m : State) : List Op → Prop
  | [] => True
  | op :: ops => (∀ a, m.recalculates op = some a → StaleFits (m.infos a)) ∧
    ∀ m', m.step op = some m' → RunFits m' ops

theorem step_isSome_iff (m : State) (op : Op) :
    (m.step op).isSome ↔ ∀ a, m.recalculates op = some a → StaleFits (m.infos a) := by
  have hrest : ∀ {m' : State}, m.step op = some m' → m.recalculates op = none →
      ((m.step op).isSome ↔ ∀ a, m.recalculates op = some a → StaleFits (m.infos a)) := by
    intro m' h1 h2
    rw [h1, h2]
    exact iff_of_true rfl fun a ha => by cases ha
  cases op with
  | settleExpires a =>
    simp only [step, settleExpires, recalculates]
    by_cases hsettle : (m.entry a).settle = true
    · rw [if_pos hsettle, hsettle]
      have hdeadline : ((m.settled a).entry a).deadline =
          (m.entry a).deadline := by rw [entry_setEntry, if_pos rfl]
      cases hskip : m.busy && (m.entry a).deadline with
      | true =>
        have : (m.settled a).entryRecalc a =
            some (m.settled a) := by
          rw [← hdeadline] at hskip
          exact if_pos hskip
        rw [this]
        simp
      | false =>
        rw [← hdeadline] at hskip
        rw [entryRecalc_eq hskip, Option.isSome_map, recalcLists_isSome_iff]
        simp
        rfl
    · simp [hsettle]
  | deadlineExpires a =>
    simp only [step, deadlineExpires, recalculates]
    by_cases hdeadline : (m.entry a).deadline = true
    · rw [if_pos hdeadline, if_pos hdeadline, entryRecalc_eq (by simp [entry_setEntry]),
        Option.isSome_map, recalcLists_isSome_iff]
      simp
      rfl
    · simp [hdeadline]
  | vifUpdate v macAddr mldAddr => exact hrest rfl rfl
  | staUpdate i pos | busy | idle | observerAlloc x | observerDrop o => exact hrest rfl rfl

theorem run_isSome_iff (m : State) (ops : List Op) : (m.run ops).isSome ↔ m.RunFits ops := by
  induction ops generalizing m with
  | nil => exact iff_of_true rfl trivial
  | cons op ops ih =>
    rw [RunFits, ← step_isSome_iff, run, foldlM_cons]
    cases h : m.step op with
    | none => simp
    | some m' =>
      have := ih m'
      rw [run] at this
      simp [this]

/-- The events of each observer for each station are a sequence of associations, in every run whose
recalculations have room for their stale links. -/
theorem events_protocol_iff (ops : List Op) :
    (∃ m, run {} ops = some m ∧ m.Conforms) ↔ RunFits {} ops := by
  rw [← run_isSome_iff, Option.isSome_iff_exists]
  constructor
  · rintro ⟨m, h, -⟩
    exact ⟨m, h⟩
  · rintro ⟨m, h⟩
    exact ⟨m, h, (run_inv inv_empty h).conforms⟩

/-- A station with 18 links. -/
theorem run_stale_overflow :
    (run {} ((List.range 18).map (fun k => .vifUpdate (cstrOf [UInt8.ofNat (k + 1)])
        (.ofLast (UInt8.ofNat (k + 1))) .zero) ++
      (List.range 18).map (fun k => .staUpdate
        ⟨cstrOf [UInt8.ofNat (k + 1)], .ofLast 7, .zero, none, true, 0⟩ k) ++
      [.settleExpires (.ofLast 7)])).isNone = true := by
  decide +kernel

end State

end OpenSync.Osw.StaAssoc
