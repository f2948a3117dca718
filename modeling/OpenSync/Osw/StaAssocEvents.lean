import OpenSync.Osw.StaAssoc
import OpenSync.Lib.CString

/-!
# The events of associated stations

`osw_sta_assoc` hears from `osw_state` about interfaces and stations and tells its observers when a
station has connected or disconnected.  An update arms two timers of the entry of the station,
`settle` which each update puts off, and `deadline` which none does.  When a timer expires the
entry is recalculated, unless the state is about to change further (`busy`) and the deadline is
not over.

An entry that is not in the tree is the same as one that has just been allocated, and so is an
interface; the links are in the order of their addresses.  An armed timer may expire at any
moment.  What an observer hears is kept for each station.  A callback does not call the module.
-/

namespace OpenSync.Osw.StaAssoc

open OpenSync.Lib

/-! ## State -/

/-- `osw_sta_assoc_event_e`. -/
inductive Event where
  | connected
  | disconnected
  | reconnected
  | undefined
deriving DecidableEq

/-- The addresses of `struct osw_sta_assoc_vif`. -/
structure Vif where
  macAddr : Hwaddr := .zero
  mldAddr : Hwaddr := .zero

/-- `struct osw_sta_assoc_link_info`; the entry is named by its address. -/
structure Link where
  vif : CStr
  linkAddr : Hwaddr
  mldAddr : Hwaddr := .zero
  connected : Bool := false
  connectedAt : Int := 0
  ies : List UInt8 := []
  entry : Option Hwaddr := none

/-- `struct osw_sta_assoc_entry`; `settle` and `deadline` say which timers are armed. -/
structure Entry where
  active : List AssocLink := []
  stale : List AssocLink := []
  ies : List UInt8 := []
  connectedAt : Int := 0
  isMlo : Bool := false
  settle : Bool := false
  deadline : Bool := false

/-- A notification, with the number of active links at that time. -/
structure Heard where
  ev : Event
  count : Nat
deriving DecidableEq

/-- `struct osw_sta_assoc`, and what the observers have heard.  An observer is a number and an
address, zero for all stations. -/
structure State where
  busy : Bool := false
  vif : CStr → Vif := fun _ => {}
  links : List Link := []
  entry : Hwaddr → Entry := fun _ => {}
  observers : List (Nat × Hwaddr) := []
  nextObserver : Nat := 0
  heard : Nat → Hwaddr → List Heard := fun _ _ => []

/-- `osw_sta_assoc_entry_is_connected`. -/
def Entry.isConnected (e : Entry) : Bool := e.active.length ≠ 0

/-- `osw_sta_assoc_entry_settling`. -/
def Entry.settling (e : Entry) : Bool := e.active.length > 0 || e.deadline || e.settle

/-- The tree of links of an interface has at most one for an address. -/
def Link.key (l : Link) : CStr × Hwaddr := (l.vif, l.linkAddr)

/-- `osw_hwaddr_first_nonzero`. -/
def firstNonzero (a b : Hwaddr) : Option Hwaddr :=
  if !a.isZero then some a else if !b.isZero then some b else none

/-- The address of the station of a link. -/
def Link.staAddr (l : Link) : Option Hwaddr := firstNonzero l.mldAddr l.linkAddr

/-! ## What a recalculation changes -/

/-- What has changed, as `osw_sta_assoc_entry_recalc` finds out. -/
structure Changes where
  links : Bool
  stale : Bool
  ies : Bool
  connectedAt : Bool

def changes (e : Entry) (newest : Option LinkInfo) (s : Lists) : Changes where
  links := linksChanged e.active s.links
  stale := linksChanged e.stale s.stale
  ies := e.ies ≠ s.ies
  connectedAt := newest.any fun n => n.connectedAt ≠ e.connectedAt

/-- `anything_changed`. -/
def Changes.any (c : Changes) : Bool := c.links || c.stale || c.ies || c.connectedAt

/-- The event for a number of active links before and after. -/
def Changes.event (c : Changes) (old new : Nat) : Event :=
  if c.links && old = 0 && new > 0 then .connected
  else if (c.links && old > 0 && new > 0) || c.connectedAt then .reconnected
  else if c.links && old > 0 && new = 0 then .disconnected
  else .undefined

/-- The entry with the changes. -/
def Changes.apply (c : Changes) (e : Entry) (newest : Option LinkInfo) (s : Lists) : Entry where
  active := if c.links then s.links else e.active
  stale := if c.stale then s.stale else e.stale
  ies := if c.ies then s.ies else e.ies
  connectedAt := if c.connectedAt then (newest.map LinkInfo.connectedAt).getD 0 else e.connectedAt
  isMlo := newest.any LinkInfo.isMlo

/-! ## Updates -/

/-- `osw_sta_assoc_ies_changed` for the elements of a link; `none` is `NULL`. -/
def iesChanged (ies : List UInt8) (new : Option (List UInt8)) : Bool :=
  match new with
  | none => ies ≠ []
  | some new => ies = [] || ies ≠ new

/-- The state of a station on an interface: `info` of `osw_sta_assoc_update_cb`. -/
structure StaInfo where
  vif : CStr
  linkAddr : Hwaddr
  mldAddr : Hwaddr
  ies : Option (List UInt8)
  connected : Bool
  connectedAt : Int

/-- The address of `osw_sta_assoc_state_to_mld_addr`, or zero. -/
def StaInfo.linkMldAddr (i : StaInfo) : Hwaddr := if i.connected then i.mldAddr else .zero

def StaInfo.key (i : StaInfo) : CStr × Hwaddr := (i.vif, i.linkAddr)

/-- The link after the assignments of `osw_sta_assoc_update`. -/
def Link.update (l : Link) (i : StaInfo) : Link :=
  { l with
    mldAddr := i.linkMldAddr
    connected := i.connected
    connectedAt := i.connectedAt
    ies := if iesChanged l.ies i.ies then i.ies.getD [] else l.ies }

namespace State

variable (m : State)

/-! ## Entries -/

def setEntry (a : Hwaddr) (f : Entry → Entry) : State :=
  { m with entry := fun b => if b = a then f (m.entry b) else m.entry b }

/-- `osw_sta_assoc_global_observers_present`. -/
def globalObserversPresent : Bool := m.observers.any fun o => o.2 = .zero

/-- `osw_sta_assoc_entry_gc`. -/
def entryGc (a : Hwaddr) : State :=
  if m.links.any fun l => l.entry = some a then m
  else if m.observers.any fun o => o.2 = a then m
  else if m.globalObserversPresent && (m.entry a).settling then m
  else m.setEntry a fun _ => {}

/-- `osw_sta_assoc_entry_schedule_recalc`. -/
def scheduleRecalc (a : Hwaddr) : State :=
  m.setEntry a fun e => { e with settle := true, deadline := true }

/-! ## Links -/

def findLink (k : CStr × Hwaddr) : Option Link := m.links.find? fun l => l.key = k

def setLink (k : CStr × Hwaddr) (f : Link → Link) : State :=
  { m with links := m.links.map fun l => if l.key = k then f l else l }

/-- `osw_sta_assoc_link_info_detach`. -/
def linkInfoDetach (l : Link) : State :=
  match l.entry with
  | none => m
  | some a => ((m.setLink l.key fun l => { l with entry := none }).scheduleRecalc a).entryGc a

/-- `osw_sta_assoc_link_info_attach`. -/
def linkInfoAttach (l : Link) (entry : Option Hwaddr) : State :=
  match entry with
  | none => m
  | some a => (m.scheduleRecalc a).setLink l.key fun l => { l with entry := some a }

/-- `osw_sta_assoc_link_info_gc`. -/
def linkInfoGc (k : CStr × Hwaddr) : State :=
  match m.findLink k with
  | none => m
  | some l =>
    if l.entry ≠ none then m
    else if l.connected then m
    else { m with links := m.links.filter fun l => l.key ≠ k }

/-- `osw_sta_assoc_link_info_recalc`. -/
def linkInfoRecalc (k : CStr × Hwaddr) : State :=
  match m.findLink k with
  | none => m
  | some l =>
    let newE := if l.connected then l.staAddr else none
    let m :=
      if l.entry ≠ newE then (m.linkInfoDetach l).linkInfoAttach l newE
      else
        match l.staAddr with
        | none => m
        | some a => m.scheduleRecalc a
    m.linkInfoGc k

/-! ## Recalculation -/

/-- The links of an entry, with the addresses of their interfaces. -/
def infos (a : Hwaddr) : List LinkInfo :=
  (m.links.zipIdx.filter fun p => p.1.entry = some a).map fun p =>
    { place := p.2
      linkAddr := p.1.linkAddr
      mldAddr := p.1.mldAddr
      connectedAt := p.1.connectedAt
      ies := p.1.ies
      vifMacAddr := (m.vif p.1.vif).macAddr
      vifMldAddr := (m.vif p.1.vif).mldAddr }

/-- `osw_sta_assoc_entry_notify_observers`: first the observers of the entry, then those of all
stations. -/
def notifyObservers (a : Hwaddr) (ev : Event) : State :=
  { m with
    heard := fun o b =>
      if b = a then
        let h : Heard := ⟨ev, (m.entry a).active.length⟩
        m.heard o b ++ (if (o, a) ∈ m.observers then [h] else []) ++
          (if (o, .zero) ∈ m.observers then [h] else [])
      else m.heard o b }

/-- `osw_sta_assoc_entry_recalc`.  It is `none` if the stale links are written behind their
array. -/
def entryRecalc (a : Hwaddr) : Option State :=
  let e := m.entry a
  if m.busy && e.deadline then some m
  else
    let newest := newestLinkInfo (m.infos a)
    (recalcLists (m.infos a)).map fun s =>
      let c := changes e newest s
      let m := m.setEntry a fun e => c.apply e newest s
      let m := if c.any then m.notifyObservers a (c.event e.active.length s.links.length) else m
      m.entryGc a

/-! ## Interfaces -/

section

variable (v : CStr)

def setVif (f : Vif → Vif) : State :=
  { m with vif := fun w => if w = v then f (m.vif w) else m.vif w }

/-- `osw_sta_assoc_vif_gc`. -/
def vifGc : State :=
  if !(m.vif v).macAddr.isZero then m
  else if m.links.any fun l => l.vif = v then m
  else m.setVif v fun _ => {}

/-- The links of an interface, in the order of their addresses. -/
def vifLinks : List Hwaddr :=
  ((m.links.filter fun l => l.vif = v).map Link.linkAddr).mergeSort fun a b => a.cmp b ≤ 0

/-- `osw_sta_assoc_vif_recalc_infos`. -/
def vifRecalcInfos : State :=
  (m.vifLinks v).foldl (fun m a => m.linkInfoRecalc (v, a)) m

/-- `osw_sta_assoc_vif_set_mac_addr`. -/
def vifSetMacAddr (a : Hwaddr) : State :=
  if (m.vif v).macAddr.isEqual a then m
  else (m.setVif v fun w => { w with macAddr := a }).vifRecalcInfos v

/-- `osw_sta_assoc_vif_set_mld_addr`. -/
def vifSetMldAddr (a : Hwaddr) : State :=
  if (m.vif v).mldAddr.isEqual a then m
  else (m.setVif v fun w => { w with mldAddr := a }).vifRecalcInfos v

/-- `osw_sta_assoc_vif_update`. -/
def vifUpdate (macAddr mldAddr : Hwaddr) : State :=
  ((m.vifSetMacAddr v macAddr).vifSetMldAddr v mldAddr).vifGc v

end

/-! ## Stations -/

/-- `osw_sta_assoc_link_info_get`; a new link is at the place `pos` among the others. -/
def linkInfoGet (k : CStr × Hwaddr) (pos : Nat) : State :=
  match m.findLink k with
  | some _ => m
  | none =>
    { m with links := m.links.take pos ++ { vif := k.1, linkAddr := k.2 } :: m.links.drop pos }

/-- `osw_sta_assoc_update_cb`. -/
def staUpdate (i : StaInfo) (pos : Nat) : State :=
  let m := m.linkInfoGet i.key pos
  match m.findLink i.key with
  | none => m
  | some l =>
    let changed := l.mldAddr ≠ i.linkMldAddr || l.connected ≠ i.connected ||
      l.connectedAt ≠ i.connectedAt || iesChanged l.ies i.ies
    let m := m.setLink i.key fun l => l.update i
    let m := if changed then m.linkInfoRecalc i.key else m
    m.vifGc i.vif

/-! ## Busy and idle, timers, observers -/

/-- `osw_sta_assoc_idle_cb`. -/
def idle : State :=
  { m with
    busy := false
    entry := fun a =>
      let e := m.entry a
      if e.deadline then { e with settle := true, deadline := true } else e }

/-- `osw_sta_assoc_entry_settle_cb`, when the timer has expired. -/
def settleExpires (a : Hwaddr) : Option State :=
  if (m.entry a).settle then (m.setEntry a fun e => { e with settle := false }).entryRecalc a
  else some m

/-- `osw_sta_assoc_entry_deadline_cb`, when the timer has expired. -/
def deadlineExpires (a : Hwaddr) : Option State :=
  if (m.entry a).deadline then (m.setEntry a fun e => { e with deadline := false }).entryRecalc a
  else some m

/-- `osw_sta_assoc_observer_alloc`.  An observer is told about the stations that are connected. -/
def observerAlloc (x : Hwaddr) : State :=
  let o := m.nextObserver
  { m with
    observers := m.observers ++ [(o, x)]
    nextObserver := o + 1
    heard := fun o' a =>
      if o' = o then
        let h : Heard := ⟨.connected, (m.entry a).active.length⟩
        m.heard o' a ++ (if a = x ∧ (m.entry a).isConnected then [h] else []) ++
          (if x = .zero ∧ a ≠ .zero ∧ (m.entry a).isConnected then [h] else [])
      else m.heard o' a }

/-- `osw_sta_assoc_observer_drop`. -/
def observerDrop (o : Nat) : State :=
  match m.observers.find? fun p => p.1 = o with
  | none => m
  | some p => { m with observers := m.observers.filter fun p => p.1 ≠ o }.entryGc p.2

end State

/-! ## Runs -/

/-- What can happen.  A new link is at the place `pos` among the others. -/
inductive Op where
  | vifUpdate (v : CStr) (macAddr mldAddr : Hwaddr)
  | staUpdate (i : StaInfo) (pos : Nat)
  | busy
  | idle
  | settleExpires (a : Hwaddr)
  | deadlineExpires (a : Hwaddr)
  | observerAlloc (x : Hwaddr)
  | observerDrop (o : Nat)

def State.step (m : State) : Op → Option State
  | .vifUpdate v macAddr mldAddr => some (m.vifUpdate v macAddr mldAddr)
  | .staUpdate i pos => some (m.staUpdate i pos)
  | .busy => some { m with busy := true }
  | .idle => some m.idle
  | .settleExpires a => m.settleExpires a
  | .deadlineExpires a => m.deadlineExpires a
  | .observerAlloc x => some (m.observerAlloc x)
  | .observerDrop o => some (m.observerDrop o)

def State.run (m : State) (ops : List Op) : Option State := ops.foldlM State.step m

end OpenSync.Osw.StaAssoc
