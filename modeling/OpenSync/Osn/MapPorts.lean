import Mathlib.Algebra.Order.Ring.Int
import Mathlib.Tactic.Ring

/-!
# Port sets of MAP customers

Customers with one IPv4 address share its ports.  The first `psidOffset` bits of a port are the
index of a range, the next `psidLen` bits name the customer.  So a port tells its range and its
customer, and the ranges of all customers partition the ports.
-/

namespace OpenSync.Osn

open List

structure PortSet where
  opFrom : Nat
  opTo : Nat

/-- A port of the set. -/
def PortSet.Has (r : PortSet) (port : Nat) : Prop := r.opFrom ≤ port ∧ port ≤ r.opTo

def portSetsMax : Nat := 256

section

variable (psidOffset psidLen psid : Nat)

/-- One turn of the loop of `lnx_map_calculate`. -/
def portSet (k : Nat) : Option PortSet :=
  let start := (k <<< (16 - psidOffset)) ||| (psid >>> psidOffset)
  let stop := start + (1 <<< (16 - psidOffset - psidLen)) - 1
  let start := if start = 0 then 1 else start
  if start ≤ stop then some ⟨start, stop⟩ else none

def firstIndex : Nat := if psidOffset ≠ 0 then 1 else 0

/-- The loop, which ends early when the table is full. -/
def portSets : List PortSet :=
  if 0 < psidLen then
    ((range' (firstIndex psidOffset) (1 <<< psidOffset - firstIndex psidOffset)).filterMap
      (portSet psidOffset psidLen psid)).take portSetsMax
  else []

end

/-- The port sets of the customer `psid`, whose PSID is held left-aligned in 16 bits. -/
def customer (a k psid : Nat) : List PortSet := portSets a k (psid <<< (16 - k))

variable {a k p : Nat}

/-- The bits of the index and of the PSID do not overlap. -/
theorem start_eq (hak : a + k ≤ 16) (hp : p < 2 ^ k) (i : Nat) :
    (i <<< (16 - a)) ||| ((p <<< (16 - k)) >>> a) = (i * 2 ^ k + p) * 2 ^ (16 - a - k) := by
  have split : 16 - a = k + (16 - a - k) := by omega
  have low : (p <<< (16 - k)) >>> a = p * 2 ^ (16 - a - k) := by
    rw [show 16 - k = 16 - a - k + a by omega, Nat.shiftLeft_add, Nat.shiftLeft_shiftRight,
      Nat.shiftLeft_eq]
  have bound : p * 2 ^ (16 - a - k) < 2 ^ (16 - a) := by
    rw [split, pow_add, Nat.add_sub_cancel_left]
    exact Nat.mul_lt_mul_of_pos_right hp (Nat.two_pow_pos _)
  rw [low, ← Nat.shiftLeft_add_eq_or_of_lt bound, Nat.shiftLeft_eq, split, pow_add,
    Nat.add_sub_cancel_left]
  ring

/-- The index of the range and the customer are read off a port. -/
theorem portSet_has (hak : a + k ≤ 16) (hp : p < 2 ^ k) {i x : Nat} :
    (∃ r, portSet a k (p <<< (16 - k)) i = some r ∧ r.Has x) ↔
      1 ≤ x ∧ x / 2 ^ (16 - a) = i ∧ x / 2 ^ (16 - a - k) % 2 ^ k = p := by
  have pos : 0 < 2 ^ (16 - a - k) := Nat.two_pow_pos _
  have index : x / 2 ^ (16 - a) = x / 2 ^ (16 - a - k) / 2 ^ k := by
    rw [Nat.div_div_eq_div_mul, ← pow_add, Nat.sub_add_cancel (by omega)]
  rw [index, Nat.div_mod_unique (Nat.two_pow_pos k), and_iff_left hp, Nat.add_comm, Nat.mul_comm,
    eq_comm, Nat.div_eq_iff pos]
  simp only [portSet, start_eq hak hp, Nat.one_shiftLeft, PortSet.Has]
  constructor
  · rintro ⟨r, hr, hx⟩
    obtain ⟨-, ⟨⟩⟩ := Option.ite_none_right_eq_some.mp hr
    dsimp only at hx
    split at hx <;> omega
  · intro hx
    refine ⟨_, if_pos ?_, ?_⟩
    · split <;> omega
    · dsimp only
      split <;> omega

/-- The table has room for all ranges. -/
theorem customer_eq (ha : a ≤ 8) (hk : 1 ≤ k) : customer a k p =
    (range' (firstIndex a) (2 ^ a - firstIndex a)).filterMap (portSet a k (p <<< (16 - k))) := by
  have room : 2 ^ a ≤ portSetsMax := Nat.pow_le_pow_right (by decide) ha
  rw [customer, portSets, if_pos (Nat.lt_of_succ_le hk), Nat.one_shiftLeft, take_of_length_le]
  refine (length_filterMap_le _ _).trans ?_
  rw [length_range']
  omega

theorem mem_customer (ha : a ≤ 8) (hk : 1 ≤ k) {r : PortSet} : r ∈ customer a k p ↔ ∃ i,
    (firstIndex a ≤ i ∧ i < 2 ^ a) ∧ portSet a k (p <<< (16 - k)) i = some r := by
  have one : firstIndex a ≤ 2 ^ a := by
    have := Nat.two_pow_pos a
    unfold firstIndex
    split <;> omega
  simp only [customer_eq ha hk, mem_filterMap, mem_range'_1, Nat.add_sub_cancel' one]

/-- The port ranges of two customers of a rule are disjoint, those of one customer are
disjoint and lie in the ports 1 to 65535, and together the customers have all ports but those
whose first `a` bits are zero. -/
theorem customer_partition (ha : a ≤ 8) (hk : 1 ≤ k) (hak : a + k ≤ 16) :
    (∀ p < 2 ^ k, ∀ q < 2 ^ k, p ≠ q → ∀ r ∈ customer a k p, ∀ r' ∈ customer a k q,
      ∀ x, r.Has x → ¬r'.Has x) ∧
    (∀ p < 2 ^ k, ((customer a k p).Pairwise fun r r' => ∀ x, r.Has x → ¬r'.Has x) ∧
      ∀ r ∈ customer a k p, 1 ≤ r.opFrom ∧ r.opFrom ≤ r.opTo ∧ r.opTo ≤ 65535) ∧
    ∀ x, (∃ p < 2 ^ k, ∃ r ∈ customer a k p, r.Has x) ↔
      (if a = 0 then 1 else 2 ^ (16 - a)) ≤ x ∧ x ≤ 65535 := by
  have bounds : ∀ x, 1 ≤ x ∧ firstIndex a ≤ x / 2 ^ (16 - a) ∧ x / 2 ^ (16 - a) < 2 ^ a ↔
      (if a = 0 then 1 else 2 ^ (16 - a)) ≤ x ∧ x ≤ 65535 := fun x => by
    have := Nat.two_pow_pos (16 - a)
    rw [Nat.le_div_iff_mul_le this, Nat.div_lt_iff_lt_mul this, ← pow_add,
      Nat.add_sub_cancel' (by omega)]
    by_cases h : a = 0
    · simp only [h, ↓reduceIte, firstIndex, ne_eq, not_true_eq_false, Nat.zero_mul]
      omega
    · rw [if_neg h, firstIndex, if_pos h, Nat.one_mul]
      omega
  have read : ∀ p < 2 ^ k, ∀ i x r, portSet a k (p <<< (16 - k)) i = some r → r.Has x →
      1 ≤ x ∧ x / 2 ^ (16 - a) = i ∧ x / 2 ^ (16 - a - k) % 2 ^ k = p :=
    fun p hp i x r hr hx => (portSet_has hak hp).mp ⟨r, hr, hx⟩
  have mem := fun {p r} => mem_customer (p := p) ha hk (r := r)
  refine ⟨fun p hp q hq ne r hr r' hr' x hx hx' => ?_, fun p hp => ⟨?_, fun r hr => ?_⟩,
    fun x => ?_⟩
  · obtain ⟨i, -, hi⟩ := mem.mp hr
    obtain ⟨j, -, hj⟩ := mem.mp hr'
    exact ne ((read p hp i x r hi hx).2.2.symm.trans (read q hq j x r' hj hx').2.2)
  · rw [customer_eq ha hk]
    refine (pairwise_lt_range' _ one_pos).filterMap _ fun i j lt r hr r' hr' x hx hx' => ?_
    exact lt.ne ((read p hp i x r hr hx).2.1.symm.trans (read p hp j x r' hr' hx').2.1)
  · obtain ⟨i, hi, hr⟩ := mem.mp hr
    have order : r.opFrom ≤ r.opTo := by
      obtain ⟨some, ⟨⟩⟩ := Option.ite_none_right_eq_some.mp hr
      exact some
    have first := read p hp i _ r hr ⟨le_rfl, order⟩
    have last := read p hp i _ r hr ⟨order, le_rfl⟩
    rw [← last.2.1] at hi
    exact ⟨first.1, order, ((bounds _).mp ⟨last.1, hi⟩).2⟩
  rw [← bounds]
  constructor
  · rintro ⟨p, hp, r, hr, hx⟩
    obtain ⟨i, hi, hr⟩ := mem.mp hr
    obtain ⟨first, rfl, -⟩ := read p hp i x r hr hx
    exact ⟨first, hi⟩
  · rintro ⟨first, hi⟩
    have hp : x / 2 ^ (16 - a - k) % 2 ^ k < 2 ^ k := Nat.mod_lt _ (Nat.two_pow_pos k)
    obtain ⟨r, hr, hx⟩ := (portSet_has hak hp).mpr ⟨first, rfl, rfl⟩
    exact ⟨_, hp, r, mem.mpr ⟨_, hi, hr⟩, hx⟩

/-- One of the four customers of a rule has the port 5000. -/
theorem customer_partition_six : ∃ p < 2 ^ 2, ∃ r ∈ customer 6 2 p, r.Has 5000 :=
  ((customer_partition (by decide : 6 ≤ 8) (by decide : 1 ≤ 2) (by decide)).2.2 5000).mpr
    (by decide)

end OpenSync.Osn
