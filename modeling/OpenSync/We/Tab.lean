import OpenSync.Lib.PowTwo
import OpenSync.Lib.Probe
import Mathlib.Data.Set.Card

/-!
# The tables of `vm.c`

A table is an array of key/value pairs with a power of two of slots, and a key is looked for from
the slot of its hash on.  A deleted pair has the key nil and the value zero.  The table grows when
a key has no slot at all, and a small positive number is moved to the slot of its index.

Buffers are their bytes, and tables and arrays as keys or values are their addresses.  Reference
counts and metatables are not modelled, so `gc` of `we_kvp_find` has nothing to evaluate.  Every
allocation succeeds.  Growing sets all pairs again; this recursion is cut at a depth (`none`).
-/

namespace OpenSync.We

open OpenSync.Lib Function

/-! ## Objects -/

/-- The types of objects. -/
inductive ObjType where
  | nil
  | num
  | buf
  | tab
  | arr
deriving DecidableEq

/-- `struct we_obj`. -/
inductive Obj where
  | nil
  | num (val : Int64)
  | buf (bytes : List UInt8)
  | tab (addr : Nat)
  | arr (addr : Nat)
deriving DecidableEq

namespace Obj

def type : Obj → ObjType
  | .nil => .nil
  | .num _ => .num
  | .buf _ => .buf
  | .tab _ => .tab
  | .arr _ => .arr

/-- `we_buf_hash`. -/
def bufHash (bytes : List UInt8) : UInt32 :=
  bytes.foldl (fun hash b => (hash ^^^ b.toUInt32) * 16777619) 2166136261

/-- `we_obj_hash`. -/
def hash : Obj → UInt32
  | .nil => 0
  | .num val => val.toUInt64.toUInt32
  | .buf bytes => bufHash bytes
  | .tab addr => .ofNat addr
  | .arr addr => .ofNat addr

/-- `we_obj_equal`.  The comparison of two buffers of one length is that of their bytes. -/
def equal : Obj → Obj → Bool
  | .nil, .nil => true
  | .num a, .num b => a == b
  | .buf a, .buf b => a.length == b.length && a == b
  | .tab a, .tab b => a == b
  | .arr a, .arr b => a == b
  | _, _ => false

theorem equal_iff (a b : Obj) : a.equal b = true ↔ a = b := by
  cases a <;> cases b <;> simp [equal]
  rintro rfl
  rfl

end Obj

/-! ## Tables -/

/-- `struct we_kvp`. -/
structure Kvp where
  key : Obj
  val : Obj
deriving DecidableEq

/-- `struct we_tab`. -/
structure Tab where
  size : Nat
  items : Nat
  data : Nat → Kvp

/-- The value of a sum or a product of the type `uint32_t`. -/
def u32 (n : Nat) : Nat := n % 2 ^ 32

/-- `clp2`. -/
def clp2 (n : UInt32) : UInt32 :=
  let n := n - 1
  let n := n ||| (n >>> 1)
  let n := n ||| (n >>> 2)
  let n := n ||| (n >>> 4)
  let n := n ||| (n >>> 8)
  let n := n ||| (n >>> 16)
  n + 1

namespace Tab

/-- A table of empty slots, as `we_calloc` makes it. -/
def cleared (size : Nat) : Tab := { size, items := 0, data := fun _ => ⟨.nil, .nil⟩ }

/-- `we_tab`. -/
def new : Tab := cleared 0

/-- `we_obj_hash(key) & (size - 1)`. -/
def home (t : Tab) (key : Obj) : Nat := key.hash.toNat &&& (t.size - 1)

/-- The loop of `we_kvp_find`.  An empty slot and the key end it, and the first deleted slot
is kept. -/
def findLoop (t : Tab) (key : Obj) : Nat → Nat → Option Nat → Option Nat
  | 0, _, res => res
  | fuel + 1, idx, res =>
    if (t.data idx).key = .nil ∧ (t.data idx).val = .nil then res.or (some idx)
    else if (t.data idx).key ≠ .nil ∧ (t.data idx).key.equal key then some idx
    else
      let res := if (t.data idx).key = .nil then res.or (some idx) else res
      let idx := (idx + 1) &&& (t.size - 1)
      if idx = t.home key then res else findLoop t key fuel idx res

/-- `we_kvp_find`, with the index of the pair. -/
def find (t : Tab) (key : Obj) : Option Nat :=
  if t.size = 0 then none else t.findLoop key t.size (t.home key) none

/-- `we_kvp_del`. -/
def kvpDel (t : Tab) (key : Obj) : Tab :=
  match t.find key with
  | none => t
  | some p =>
    { t with
      items := if (t.data p).key = .nil then t.items else u32 (t.items + (2 ^ 32 - 1))
      data := update t.data p ⟨.nil, .num 0⟩ }

/-- The loop of `we_tab_rehash`, over the slots `is` of the old table. -/
def rehashLoop (set : Tab → Obj → Obj → Option (Tab × Bool)) (old : Nat → Kvp) (num : Nat) :
    List Nat → Tab → Option Tab
  | [], t => some t
  | i :: is, t =>
    if (old i).key ≠ .nil ∧ t.items < num then do
      let (t, _) ← set t (old i).key (old i).val
      rehashLoop set old num is t
    else rehashLoop set old num is t

section

variable (set : Tab → Obj → Obj → Option (Tab × Bool)) (t : Tab)

/-- `we_tab_rehash`, with the function for `we_tab_set`. -/
def rehash (size num : Nat) : Option Tab :=
  rehashLoop set t.data num (List.range t.size) (cleared size)

/-- `we_tab_capacity`. -/
def capacity : Option Tab :=
  if u32 (t.items + 1) < t.size >>> 1 then some t
  else t.rehash set (if t.size = 0 then 2 else u32 (t.size <<< 2)) t.items

/-- `we_kvp_get`. -/
def kvpGet (key : Obj) : Option (Tab × Option Nat) :=
  match t.find key with
  | some p => some (t, some p)
  | none => do
    let t ← t.capacity set
    some (t, t.find key)

end

/-- The pair that a key and a value are stored in. -/
def store (t : Tab) (key val : Obj) (p : Nat) : Tab :=
  { t with
    items := if (t.data p).key = .nil then u32 (t.items + 1) else t.items
    data := update t.data p
      ⟨if (t.data p).key = .nil then key else (t.data p).key, val⟩ }

/-- `we_kvp_swap`. -/
def swap (t : Tab) (a b : Nat) : Tab :=
  { t with data := update (update t.data a (t.data b)) b (t.data a) }

/-- The end of `we_tab_set`: a number goes to the slot of its index. -/
def settle (t : Tab) (key : Obj) (p : Nat) : Tab :=
  match key with
  | .num val => if val.toInt = t.home key ∧ p ≠ t.home key then t.swap (t.home key) p else t
  | _ => t

/-- `we_tab_set`, for a number of nested calls. -/
def setDepth : Nat → Tab → Obj → Obj → Option (Tab × Bool)
  | 0, _, _, _ => none
  | depth + 1, t, key, val =>
    if val = .nil then some (t.kvpDel key, true)
    else do
      let (t, p) ← t.kvpGet (setDepth depth) key
      match p with
      | none => some (t, false)
      | some p => some ((t.store key val p).settle key p, true)

/-- `we_tab_set`.  A set in a rehash can lead to another rehash, whose sets find a slot. -/
def set (t : Tab) (key val : Obj) : Option (Tab × Bool) := setDepth 3 t key val

/-- `we_tab_resize`. -/
def resize (t : Tab) (num : UInt32) : Option Tab :=
  t.rehash set (clp2 num).toNat num.toNat

/-- The end of `we_tab_get`, for the pair at `p`. -/
def getAt (dyncast : Obj → ObjType → Obj × Bool) (t : Tab) (key dflt : Obj) (p : Nat) :
    Tab × Obj × Bool :=
  if (t.data p).key = .nil then
    if dflt = .nil then (t, dflt, true)
    else
      ({ t with
        items := u32 (t.items + 1)
        data := update t.data p ⟨key, dflt⟩ }, dflt, true)
  else if dflt ≠ .nil ∧ (t.data p).val.type ≠ dflt.type then
    (t, dyncast (t.data p).val dflt.type)
  else (t, (t.data p).val, true)

/-- `we_tab_get`, with the object that replaces the key.  `we_dyncast` is a parameter. -/
def get (dyncast : Obj → ObjType → Obj × Bool) (t : Tab) (key dflt : Obj) :
    Option (Tab × Obj × Bool) :=
  match t.find key with
  | some p => some (t.getAt dyncast key dflt p)
  | none =>
    if dflt = .nil then some (t, dflt, true)
    else do
      let t ← t.capacity set
      let p ← t.find key
      some (t.getAt dyncast key dflt p)

end Tab

/-! ## Sizes -/

theorem smeared_or_shiftRight {m : Nat} {n s : UInt32} (hs : s.toNat < 32)
    (h : Smeared s.toNat m n.toNat) : Smeared (s.toNat + s.toNat) m (n ||| (n >>> s)).toNat := by
  rw [UInt32.toNat_or, UInt32.toNat_shiftRight, Nat.mod_eq_of_lt hs]
  exact h.smear

/-- `clp2` rounds up to a power of two, and zero and the numbers above `2 ^ 31` to zero. -/
theorem clp2_toNat (n : UInt32) : (clp2 n).toNat = 2 ^ (n - 1).toNat.size % 2 ^ 32 := by
  have h1 := smeared_or_shiftRight (n := n - 1) (s := 1) (by decide) (.one _)
  have h2 := smeared_or_shiftRight (s := 2) (by decide) h1
  have h3 := smeared_or_shiftRight (s := 4) (by decide) h2
  have h4 := smeared_or_shiftRight (s := 8) (by decide) h3
  have h5 := smeared_or_shiftRight (s := 16) (by decide) h4
  have hpos : 0 < 2 ^ (n - 1).toNat.size := Nat.two_pow_pos _
  rw [clp2, UInt32.toNat_add, h5.eq (n - 1).toNat_lt, UInt32.toNat_one, Nat.sub_add_cancel hpos]

theorem clp2_cases (n : UInt32) :
    (clp2 n).toNat = 0 ∨ ∃ j ≤ 31, (clp2 n).toNat = 2 ^ j ∧ n.toNat ≤ 2 ^ j := by
  rw [clp2_toNat]
  have hsize : (n - 1).toNat.size ≤ 32 := Nat.size_le.mpr (n - 1).toNat_lt
  rcases Nat.lt_or_eq_of_le hsize with hlt | heq
  · refine .inr ⟨(n - 1).toNat.size, by omega, ?_, ?_⟩
    · exact Nat.mod_eq_of_lt (Nat.pow_lt_pow_right (by omega) hlt)
    have hself := Nat.lt_size_self (n - 1).toNat
    have hn : n.toNat ≤ (n - 1).toNat + 1 := by
      rw [UInt32.toNat_sub, UInt32.toNat_one]
      have := n.toNat_lt
      omega
    omega
  · exact .inl (by rw [heq, Nat.mod_self])

/-! ## Slots -/

/-- What a pair is for a search. -/
def Kvp.slot (kvp : Kvp) : Slot Obj :=
  if kvp.key = .nil then if kvp.val = .nil then .empty else .deleted else .used kvp.key

theorem Kvp.slot_eq_used {kvp : Kvp} {k : Obj} :
    kvp.slot = .used k ↔ kvp.key = k ∧ k ≠ .nil := by
  unfold Kvp.slot
  split_ifs with hk hv
  · simp only [false_iff, not_and, not_not]
    rintro rfl
    exact hk
  · simp only [false_iff, not_and, not_not]
    rintro rfl
    exact hk
  · simp only [Slot.used.injEq]
    exact ⟨fun h => ⟨h, h ▸ hk⟩, And.left⟩

theorem Kvp.slot_eq_empty {kvp : Kvp} : kvp.slot = .empty ↔ kvp.key = .nil ∧ kvp.val = .nil := by
  unfold Kvp.slot
  split_ifs with hk hv <;> simp [*]

namespace Tab

def slots (t : Tab) (i : Nat) : Slot Obj := (t.data i).slot

theorem and_size_sub_one {j : Nat} (t : Tab) (ht : t.size = 2 ^ j) (i : Nat) :
    i &&& (t.size - 1) = i % t.size := by
  rw [ht]
  exact Nat.and_two_pow_sub_one_eq_mod i j

theorem home_lt {j : Nat} {t : Tab} (ht : t.size = 2 ^ j) (k : Obj) : t.home k < t.size := by
  rw [home, and_size_sub_one t ht]
  exact Nat.mod_lt _ (ht ▸ Nat.two_pow_pos j)

/-- A search ends at the slot of the key, or at the first free slot on its way when the key is
nowhere, or nowhere in a full table. -/
def Found (t : Tab) (k : Obj) : Option Nat → Prop
  | some p => Probe.Reach t.size t.slots (t.home k) p ∧
      ((t.data p).key = k ∨ (t.data p).key = .nil ∧ ∀ q < t.size, t.slots q ≠ .used k)
  | none => (∀ q < t.size, t.slots q ≠ .used k) ∧ ∀ q < t.size, (t.data q).key ≠ .nil

section

variable {t : Tab} {j : Nat} (ht : t.size = 2 ^ j) (hv : Probe.Valid t.size t.slots t.home)

include ht hv

/-- The loop after `d` slots without the key and without an empty slot. -/
theorem findLoop_spec {k : Obj} {d fuel : Nat} (hfuel : d + fuel = t.size) (hpos : 0 < fuel)
    (res : Option Nat)
    (hseen : ∀ i < d, t.slots ((t.home k + i) % t.size) ≠ .empty ∧
      t.slots ((t.home k + i) % t.size) ≠ .used k)
    (hsome : ∀ p, res = some p → Probe.Reach t.size t.slots (t.home k) p ∧ (t.data p).key = .nil)
    (hnone : res = none → ∀ i < d, (t.data ((t.home k + i) % t.size)).key ≠ .nil) :
    t.Found k (t.findLoop k fuel ((t.home k + d) % t.size) res) := by
  have hh : t.home k < t.size := home_lt ht k
  induction fuel generalizing d res with
  | zero => omega
  | succ fuel ih =>
    have hreach : Probe.Reach t.size t.slots (t.home k) ((t.home k + d) % t.size) :=
      ⟨d, by omega, rfl, fun i hi => (hseen i hi).1⟩
    have hnext : ((t.home k + d) % t.size + 1) &&& (t.size - 1) = (t.home k + d + 1) % t.size := by
      rw [and_size_sub_one t ht, Nat.mod_add_mod]
    generalize hidx : (t.home k + d) % t.size = idx at hreach hnext ⊢
    rw [findLoop]
    by_cases hempty : (t.data idx).key = .nil ∧ (t.data idx).val = .nil
    · -- an empty slot: the key is nowhere
      rw [if_pos hempty]
      have habs : ∀ q < t.size, t.slots q ≠ .used k :=
        hv.absent (fun i hi => (hseen i hi).2)
          (.inr (by rw [hidx]; exact Kvp.slot_eq_empty.mpr hempty))
      cases hres : res with
      | none => exact ⟨hreach, .inr ⟨hempty.1, habs⟩⟩
      | some p => exact ⟨(hsome p hres).1, .inr ⟨(hsome p hres).2, habs⟩⟩
    rw [if_neg hempty]
    by_cases hkey : (t.data idx).key ≠ .nil ∧ (t.data idx).key.equal k
    · rw [if_pos hkey]
      exact ⟨hreach, .inl ((Obj.equal_iff _ _).mp hkey.2)⟩
    have hslot : t.slots idx ≠ .empty ∧ t.slots idx ≠ .used k := by
      refine ⟨fun h => hempty (Kvp.slot_eq_empty.mp h), fun h => hkey ?_⟩
      obtain ⟨h1, h2⟩ := Kvp.slot_eq_used.mp h
      exact ⟨h1 ▸ h2, (Obj.equal_iff _ _).mpr h1⟩
    have hseen' : ∀ i < d + 1, t.slots ((t.home k + i) % t.size) ≠ .empty ∧
        t.slots ((t.home k + i) % t.size) ≠ .used k := by
      intro i hi
      rcases Nat.lt_succ_iff_lt_or_eq.mp hi with hi | rfl
      · exact hseen i hi
      · rwa [hidx]
    generalize hres : (if (t.data idx).key = .nil then res.or (some idx) else res) = res'
    have hsome' : ∀ p, res' = some p →
        Probe.Reach t.size t.slots (t.home k) p ∧ (t.data p).key = .nil := by
      intro p hp
      rw [← hres] at hp
      by_cases hnil : (t.data idx).key = .nil
      · rw [if_pos hnil] at hp
        cases hr : res with
        | none =>
          obtain rfl : idx = p := by simpa [hr] using hp
          exact ⟨hreach, hnil⟩
        | some p' => exact hsome p (by simpa [hr] using hp)
      · rw [if_neg hnil] at hp
        exact hsome p hp
    have hnone' : res' = none → ∀ i < d + 1, (t.data ((t.home k + i) % t.size)).key ≠ .nil := by
      intro hn i hi
      rw [← hres] at hn
      by_cases hnil : (t.data idx).key = .nil
      · simp [hnil] at hn
      rw [if_neg hnil] at hn
      rcases Nat.lt_succ_iff_lt_or_eq.mp hi with hi | rfl
      · exact hnone hn i hi
      · rwa [hidx]
    simp only [hnext]
    split_ifs with hback
    · -- all slots have been seen
      have hd : d + 1 = t.size := (Probe.mod_eq_home_iff hh (by omega)).mp hback
      have habs : ∀ q < t.size, t.slots q ≠ .used k :=
        hv.absent (fun i hi => (hseen' i hi).2) (.inl hd.symm.le)
      cases hr : res' with
      | none =>
        refine ⟨habs, fun q hq => ?_⟩
        obtain ⟨i, hi, rfl⟩ := Probe.exists_offset hh hq
        exact hnone' hr i (by omega)
      | some p => exact ⟨(hsome' p hr).1, .inr ⟨(hsome' p hr).2, habs⟩⟩
    · have hd : d + 1 ≠ t.size := fun h => hback ((Probe.mod_eq_home_iff hh (by omega)).mpr h)
      exact ih (d := d + 1) (by omega) (by omega) res' hseen' hsome' hnone'

theorem find_spec (k : Obj) : t.Found k (t.find k) := by
  have hpos : 0 < t.size := ht ▸ Nat.two_pow_pos j
  rw [find, if_neg (by omega)]
  have := findLoop_spec ht hv (k := k) (d := 0) (zero_add t.size) hpos none
    (by simp) (by simp) (by simp)
  rwa [add_zero, Nat.mod_eq_of_lt (home_lt ht k)] at this

end

end Tab

end OpenSync.We
