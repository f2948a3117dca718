import OpenSync.NetworkZone.Zone
import Mathlib.Algebra.Order.Group.Multiset

/-!
# The zones of a device

The list of the zones of a device is sorted by priority, and what matters beyond that is how often
a zone is in it.  `Adds` and `Dels` say of a part of the work that it adds, or deletes, one entry
of a zone for each of a multiset of devices, so such parts compose.

The deletion takes the first entry with the name of the zone.  That is an entry of the zone as long
as all entries with its name are the same (`Uniform`).
-/

namespace OpenSync.NetworkZone

open OpenSync.Lib OpenSync.Tags Function List

/-- The zones with the highest priority come first. -/
def SortedZones (zones : List DeviceZone) : Prop :=
  zones.Pairwise fun a b => b.priority ≤ a.priority

/-- The entries with the name of a zone are entries of that zone. -/
def Uniform (d : DeviceZone) (mgr : Mgr) : Prop :=
  ∀ mac, ∀ x ∈ mgr.deviceCache mac, x.name = d.name → x = d

/-- One more entry of a zone for each of the devices. -/
structure Adds (d : DeviceZone) (macs : Multiset Mac) (mgr mgr' : Mgr) : Prop where
  entries : ∀ mac, (mgr'.deviceCache mac : Multiset DeviceZone) =
    mgr.deviceCache mac + Multiset.replicate (macs.count mac) d
  sorted : (∀ mac, SortedZones (mgr.deviceCache mac)) → ∀ mac, SortedZones (mgr'.deviceCache mac)

/-- One entry of a zone less for each of the devices. -/
structure Dels (d : DeviceZone) (macs : Multiset Mac) (mgr mgr' : Mgr) : Prop where
  sub : ∀ mac, (mgr'.deviceCache mac).Sublist (mgr.deviceCache mac)
  entries : Uniform d mgr → ∀ mac, (mgr'.deviceCache mac : Multiset DeviceZone) =
    (mgr.deviceCache mac : Multiset DeviceZone) - Multiset.replicate (macs.count mac) d

section

variable {d : DeviceZone} {macs macs' : Multiset Mac} {mgr mgr' mgr'' : Mgr}

theorem Adds.refl (h : mgr'.deviceCache = mgr.deviceCache) : Adds d 0 mgr mgr' :=
  ⟨fun mac => by simp [h], fun hs => by rw [h]; exact hs⟩

theorem Adds.trans (h : Adds d macs mgr mgr') (h' : Adds d macs' mgr' mgr'') :
    Adds d (macs + macs') mgr mgr'' where
  entries := fun mac => by
    rw [h'.entries, h.entries, Multiset.count_add, Multiset.replicate_add, add_assoc]
  sorted := fun hs => h'.sorted (h.sorted hs)

theorem Dels.refl (h : mgr'.deviceCache = mgr.deviceCache) : Dels d 0 mgr mgr' :=
  ⟨fun mac => by rw [h], fun _ mac => by simp [h]⟩

theorem Dels.uniform (h : Dels d macs mgr mgr') (hu : Uniform d mgr) : Uniform d mgr' :=
  fun mac x hx => hu mac x ((h.sub mac).subset hx)

theorem Dels.trans (h : Dels d macs mgr mgr') (h' : Dels d macs' mgr' mgr'') :
    Dels d (macs + macs') mgr mgr'' where
  sub := fun mac => (h'.sub mac).trans (h.sub mac)
  entries := fun hu mac => by
    rw [h'.entries (h.uniform hu), h.entries hu, Multiset.count_add, Multiset.replicate_add,
      Multiset.sub_add_eq_sub_sub]

theorem Adds.uniform (h : Adds d macs mgr mgr') (hu : Uniform d mgr) : Uniform d mgr' := by
  intro mac x hx hname
  rw [← Multiset.mem_coe, h.entries, Multiset.mem_add] at hx
  rcases hx with hx | hx
  · exact hu mac x hx hname
  · exact Multiset.eq_of_mem_replicate hx

theorem Dels.sorted (h : Dels d macs mgr mgr') (hs : ∀ mac, SortedZones (mgr.deviceCache mac)) :
    ∀ mac, SortedZones (mgr'.deviceCache mac) :=
  fun mac => (hs mac).sublist (h.sub mac)

end

/-! ## One device -/

theorem networkZoneAddDeviceZone_perm (d : DeviceZone) (zones : List DeviceZone) :
    (networkZoneAddDeviceZone d zones).Perm (d :: zones) := by
  induction zones with
  | nil => exact .refl _
  | cons z zones ih =>
    rw [networkZoneAddDeviceZone]
    split_ifs
    · exact .refl _
    · exact (ih.cons z).trans (List.Perm.swap d z zones)

theorem networkZoneAddDeviceZone_sorted {zones : List DeviceZone} (d : DeviceZone)
    (h : SortedZones zones) : SortedZones (networkZoneAddDeviceZone d zones) := by
  induction zones with
  | nil => exact pairwise_singleton _ _
  | cons z zones ih =>
    obtain ⟨hz, hzones⟩ := pairwise_cons.mp h
    rw [networkZoneAddDeviceZone]
    split_ifs with hd
    · refine pairwise_cons.mpr ⟨fun x hx => ?_, h⟩
      rcases mem_cons.mp hx with rfl | hx
      · exact hd
      · exact Int.le_trans (hz x hx) hd
    · refine pairwise_cons.mpr ⟨fun x hx => ?_, ih hzones⟩
      rcases mem_cons.mp ((networkZoneAddDeviceZone_perm d zones).mem_iff.mp hx) with rfl | hx
      · omega
      · exact hz x hx

/-- Entries with the name of a zone that are all the same. -/
theorem networkZoneDeleteMacEntry_coe {zones : List DeviceZone} {d : DeviceZone}
    (h : ∀ x ∈ zones, x.name = d.name → x = d) :
    (networkZoneDeleteMacEntry d.name zones : Multiset DeviceZone) =
      (zones : Multiset DeviceZone) - {d} := by
  have hp : networkZoneDeleteMacEntry d.name zones = zones.erase d := by
    unfold networkZoneDeleteMacEntry
    induction zones with
    | nil => rfl
    | cons x zones ih =>
      have htail := ih fun y hy => h y (mem_cons_of_mem x hy)
      by_cases hx : x.name = d.name
      · obtain rfl := h x mem_cons_self hx
        simp
      · have hne : x ≠ d := fun heq => hx (congrArg DeviceZone.name heq)
        rw [eraseP_cons_of_neg (by simpa using hx), htail, erase_cons_tail (by simpa using hne)]
  rw [hp, Multiset.sub_singleton, Multiset.coe_erase]

/-- The devices of an element, which are at most one. -/
def NzMac.macs (P : MacParser) (m : NzMac) : Multiset Mac :=
  if m.type = .mac then ((P.parse m.val).toList : Multiset Mac) else 0

theorem networkZoneAddMac_adds (P : MacParser) (mgr : Mgr) (m : NzMac) :
    Adds ⟨m.nzName, m.priority⟩ (m.macs P) mgr (networkZoneAddMac P mgr m) := by
  rw [networkZoneAddMac, NzMac.macs]
  by_cases ht : m.type = .mac
  · rw [if_neg (not_not.mpr ht), if_pos ht]
    cases P.parse m.val with
    | none => exact .refl rfl
    | some a =>
      refine ⟨fun mac => ?_, fun hs mac => ?_⟩
      · by_cases hmac : mac = a
        · subst hmac
          have hperm := networkZoneAddDeviceZone_perm ⟨m.nzName, m.priority⟩ (mgr.deviceCache mac)
          simp only [update_self, Multiset.coe_eq_coe.mpr hperm]
          simp [add_comm]
        · simp [hmac]
      · by_cases hmac : mac = a
        · subst hmac
          simp only [update_self]
          exact networkZoneAddDeviceZone_sorted _ (hs mac)
        · simp only [update_of_ne hmac]
          exact hs mac
  · rw [if_pos ht, if_neg ht]
    exact .refl rfl

theorem networkZoneDeleteMac_dels (P : MacParser) (mgr : Mgr) (m : NzMac) :
    Dels ⟨m.nzName, m.priority⟩ (m.macs P) mgr (networkZoneDeleteMac P mgr m) := by
  rw [networkZoneDeleteMac, NzMac.macs]
  by_cases ht : m.type = .mac
  · rw [if_neg (not_not.mpr ht), if_pos ht]
    cases P.parse m.val with
    | none => exact .refl rfl
    | some a =>
      refine ⟨fun mac => ?_, fun hu mac => ?_⟩
      · by_cases hmac : mac = a
        · subst hmac
          simp only [update_self]
          exact eraseP_sublist
        · simp only [update_of_ne hmac]
          exact .refl _
      · by_cases hmac : mac = a
        · subst hmac
          have hdel := networkZoneDeleteMacEntry_coe (d := ⟨m.nzName, m.priority⟩) (hu mac)
          simp [hdel]
        · simp [hmac]
  · rw [if_pos ht, if_neg ht]
    exact .refl rfl

end OpenSync.NetworkZone
