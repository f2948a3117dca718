import OpenSync.Lib.Bitmap
import Mathlib.Data.List.Nodup

/-!
# Dialog tokens of `osw_token.c`

Each station has a pool of tokens while somebody has a reference to it.  A token that is taken is
marked twice, in the bitmap of the pool and in that of the reference.

A pool and a reference are named by the address that `CALLOC` gave it, a station by its own.
`g_pool_tree` is the map `tree`; the interface name in its key is always zeroed.  The bitmaps are
made of `w`-bit words, `w` being the width of a `long`.  The loop of
`osw_token_pool_fetch_token` has a bound on its rounds, which is never reached; `none` would be
the lack of rounds.
-/

namespace OpenSync.Osw.Token

open OpenSync.Lib Function

/-- `OSW_TOKEN_MIN`. -/
def tokenMin : Int := 0x80

/-- `OSW_TOKEN_MAX`. -/
def tokenMax : Int := 0xff

/-- `OSW_TOKEN_INVALID`. -/
def tokenInvalid : Int := -1

/-- `OSW_TOKEN_COUNT`. -/
def tokenCount : Nat := 128

/-- `ARRAY_SIZE(tokens)`. -/
def words (w : Nat) : Nat := (tokenCount + w - 1) / w

/-- `struct osw_token_pool`. -/
structure Pool (A R : Type) (w : Nat) where
  key : A
  lastBitUsed : Nat
  tokens : Bitmap w
  refList : List R

/-- `struct osw_token_pool_reference`. -/
structure Ref (P : Type) (w : Nat) where
  pool : P
  tokens : Bitmap w

/-- `g_pool_tree` and the memory of the pools and references. -/
structure State (A P R : Type) (w : Nat) where
  tree : A → Option P
  pools : P → Pool A R w
  refs : R → Ref P w

variable {A P R : Type} {w : Nat}

section

variable [DecidableEq A] [DecidableEq P] [DecidableEq R]

namespace State

section

variable (s : State A P R w)

def setPool (p : P) (v : Pool A R w) : State A P R w :=
  { s with pools := update s.pools p v }

def setRef (r : R) (v : Ref P w) : State A P R w :=
  { s with refs := update s.refs r v }

/-- `osw_token_pool_alloc_new` with the pool at `p`. -/
def poolAllocNew (a : A) (p : P) : State A P R w :=
  { s.setPool p ⟨a, 0, Bitmap.empty, []⟩ with tree := update s.tree a (some p) }

/-- `osw_token_pool_get_internal`; a new pool is at `p`. -/
def poolGetInternal (a : A) (p : P) : State A P R w × P :=
  match s.tree a with
  | some q => (s, q)
  | none => (s.poolAllocNew a p, p)

/-- A new reference to the pool `q` at `r`. -/
def addRef (q : P) (r : R) : State A P R w :=
  let s := s.setRef r ⟨q, Bitmap.empty⟩
  s.setPool q { s.pools q with refList := (s.pools q).refList ++ [r] }

/-- `osw_token_pool_ref_get`: the reference is at `r`, a new pool at `p`. -/
def refGet (a : A) (p : P) (r : R) : State A P R w :=
  let (s, q) := s.poolGetInternal a p
  s.addRef q r

/-- `osw_token_pool_free`. -/
def poolFree (p : P) : State A P R w :=
  if (s.pools p).refList.length ≠ 0 then s
  else if Bitmap.count (words w) (s.pools p).tokens ≠ 0 then s
  else { s with tree := update s.tree (s.pools p).key none }

/-- `osw_token_pool_ref_drop_tokens`, and the removal from the list of references. -/
def dropRef (r : R) : State A P R w :=
  let p := (s.refs r).pool
  s.setPool p { s.pools p with
    tokens := Bitmap.diff (words w) (s.pools p).tokens (s.refs r).tokens
    refList := (s.pools p).refList.erase r }

/-- `osw_token_pool_ref_free`. -/
def refFree : Option R → State A P R w
  | none => s
  | some r =>
    let p := (s.refs r).pool
    let s := s.dropRef r
    if (s.pools p).refList.length = 0 then s.poolFree p else s

/-- `SUB_CLAMP`. -/
def subClamp (x min max : Nat) : Nat := if x ≤ min then max - 1 else x - 1

/-- The loop of `osw_token_pool_fetch_token`: the bit used last and the bit that is free, if
there is one. -/
def fetchLoop (tokens : Bitmap w) (started : Nat) : Nat → Nat → Option (Nat × Option Nat)
  | 0, _ => none
  | fuel + 1, last =>
    let last := subClamp last 0 tokenCount
    if tokens.test last = false then some (last, some last)
    else if started ≠ last then fetchLoop tokens started fuel last
    else some (last, none)

/-- A bit is marked in the pool and in the reference. -/
def takeBit (r : R) (i : Nat) : State A P R w :=
  let p := (s.refs r).pool
  let s := s.setPool p { s.pools p with lastBitUsed := i, tokens := (s.pools p).tokens.set i }
  s.setRef r { s.refs r with tokens := (s.refs r).tokens.set i }

/-- `osw_token_pool_fetch_token`. -/
def fetchToken : Option R → Option (State A P R w × Int)
  | none => some (s, tokenInvalid)
  | some r =>
    let p := (s.refs r).pool
    let v := s.pools p
    (fetchLoop v.tokens v.lastBitUsed tokenCount v.lastBitUsed).map (fun
      | (last, none) => (s.setPool p { v with lastBitUsed := last }, tokenInvalid)
      | (_, some i) => (s.takeBit r i, i + tokenMin))

/-- A bit is cleared in the pool and in the reference. -/
def dropBit (r : R) (i : Nat) : State A P R w :=
  let p := (s.refs r).pool
  let s := s.setPool p { s.pools p with tokens := (s.pools p).tokens.clear i }
  s.setRef r { s.refs r with tokens := (s.refs r).tokens.clear i }

/-- `osw_token_pool_free_token`. -/
def freeToken (r : Option R) (token : Int) : State A P R w :=
  match r with
  | none => s
  | some r =>
    if token = tokenInvalid then s
    else if token < tokenMin then s
    else if token > tokenMax then s
    else if (s.refs r).tokens.test (token - tokenMin).toNat = false then s
    else s.dropBit r (token - tokenMin).toNat

end

end State

end

/-! ## The search for a free token -/

theorem tokenCount_pos : 0 < tokenCount := by decide

theorem subClamp_eq {last : Nat} (h : last < tokenCount) :
    State.subClamp last 0 tokenCount = (last + (tokenCount - 1)) % tokenCount := by
  simp only [State.subClamp, tokenCount] at h ⊢
  split_ifs <;> omega

/-- The outcome of the search from `last`, with the bits `started, …, started + k - 1`, around the
end, to be looked at. -/
structure Found (tokens : Bitmap w) (started k : Nat) (r : Nat × Option Nat) : Prop where
  last : r.1 < tokenCount
  free : ∀ i, r.2 = some i → i = r.1 ∧ tokens.test i = false
  used : r.2 = none → ∀ j < k, tokens.test ((started + j) % tokenCount) = true

theorem fetchLoop_found (tokens : Bitmap w) {started k fuel : Nat} (hs : started < tokenCount)
    (hk : 0 < k) (hkc : k ≤ tokenCount) (hfuel : k ≤ fuel) :
    ∃ r, State.fetchLoop tokens started fuel ((started + k) % tokenCount) = some r ∧
      Found tokens started k r := by
  induction k generalizing fuel with
  | zero => omega
  | succ k ih =>
    obtain ⟨fuel, rfl⟩ : ∃ n, fuel = n + 1 := ⟨fuel - 1, by omega⟩
    have hlt : (started + (k + 1)) % tokenCount < tokenCount := Nat.mod_lt _ (by decide)
    have hnext : State.subClamp ((started + (k + 1)) % tokenCount) 0 tokenCount =
        (started + k) % tokenCount := by
      rw [subClamp_eq hlt]
      simp only [tokenCount]
      omega
    have hlast : (started + k) % tokenCount < tokenCount := Nat.mod_lt _ (by decide)
    rw [State.fetchLoop, hnext]
    split_ifs with htest hne
    · refine ⟨_, rfl, hlast, ?_, ?_⟩
      · rintro i hi
        cases hi
        exact ⟨rfl, htest⟩
      · intro hnone
        cases hnone
    · -- the bit is taken and the search goes on
      have hpos : 0 < k := by
        rcases Nat.eq_zero_or_pos k with rfl | hpos
        · exact absurd (Nat.mod_eq_of_lt hs).symm hne
        · exact hpos
      obtain ⟨r, hr, hfound⟩ := ih hpos (by omega) (Nat.le_of_succ_le_succ hfuel)
      refine ⟨r, hr, hfound.last, hfound.free, fun hnone j hj => ?_⟩
      rcases Nat.lt_succ_iff_lt_or_eq.mp hj with hj | rfl
      · exact hfound.used hnone j hj
      · simpa using htest
    · -- the search is back at its start
      obtain rfl : k = 0 := by
        simp only [tokenCount] at hs hkc hne
        omega
      refine ⟨_, rfl, hlast, ?_, ?_⟩
      · intro i hi
        cases hi
      · intro _ j hj
        obtain rfl : j = 0 := by omega
        simpa using htest

/-- The search from the bit used last sees every bit. -/
theorem fetchLoop_spec (tokens : Bitmap w) {last : Nat} (h : last < tokenCount) :
    (∃ i, State.fetchLoop tokens last tokenCount last = some (i, some i) ∧ i < tokenCount ∧
        tokens.test i = false) ∨
      ∃ last', State.fetchLoop tokens last tokenCount last = some (last', none) ∧
        last' < tokenCount ∧ ∀ i < tokenCount, tokens.test i = true := by
  obtain ⟨⟨last', o⟩, hr, hfound⟩ :=
    fetchLoop_found tokens h tokenCount_pos le_rfl le_rfl
  rw [Nat.add_mod_right, Nat.mod_eq_of_lt h] at hr
  cases o with
  | some i =>
    obtain ⟨rfl, hfree⟩ := hfound.free i rfl
    exact .inl ⟨i, hr, hfound.last, hfree⟩
  | none =>
    refine .inr ⟨last', hr, hfound.last, fun i hi => ?_⟩
    have hused := hfound.used rfl ((i + tokenCount - last) % tokenCount) (Nat.mod_lt _ (by decide))
    have hidx : (last + (i + tokenCount - last) % tokenCount) % tokenCount = i := by
      simp only [tokenCount] at h hi ⊢
      omega
    rwa [hidx] at hused

end OpenSync.Osw.Token
