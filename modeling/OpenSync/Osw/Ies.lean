import OpenSync.Lib.Bytes

/-!
# Information elements of a frame

The body of a management frame is a sequence of information elements: an identifier, a length
and that many bytes.  `for_each_ie` of `osw_util.h` goes over them, and stops where the rest of
the body is too short for an element.

Memory is the buffer that the body lies in, and a read outside of it is a fault, `none`.  The
body itself is a part of the buffer.
-/

namespace OpenSync.Osw

open OpenSync.Lib List Option

/-! ## Reads -/

def rd (r : List UInt8) (i : Nat) : Option UInt8 := r[i]?

/-- Some bytes of a buffer, as `memcpy` reads them. -/
def rdN (r : List UInt8) (i n : Nat) : Option (List UInt8) :=
  if i + n ≤ r.length then some (seg r i n) else none

variable {r : List UInt8} {i n : Nat} {α σ : Type} {P : Prop}

theorem rd_eq_some_iff {v : UInt8} : rd r i = some v ↔ ∃ h : i < r.length, r[i] = v :=
  List.getElem?_eq_some_iff

/-- A read returns with what follows it, if it is inside the buffer and the rest returns. -/
theorem rd_bind_isSome {f : UInt8 → Option α} (h : ∀ v, rd r i = some v → ((f v).isSome ↔ P)) :
    ((rd r i).bind f).isSome ↔ i < r.length ∧ P := by
  cases hv : rd r i with
  | none =>
    have hlen : r.length ≤ i := getElem?_eq_none_iff.mp hv
    simp only [bind_none, isSome_none, Bool.false_eq_true, false_iff]
    omega
  | some v =>
    obtain ⟨hlt, -⟩ := rd_eq_some_iff.mp hv
    rw [bind_some, h v hv]
    exact ⟨fun hP => ⟨hlt, hP⟩, fun hP => hP.2⟩

theorem rdN_bind_isSome {f : List UInt8 → Option α} (h : ∀ v, (f v).isSome ↔ P) :
    ((rdN r i n).bind f).isSome ↔ i + n ≤ r.length ∧ P := by
  rw [rdN]
  split_ifs with hle
  · rw [bind_some, h]
    exact ⟨fun hP => ⟨hle, hP⟩, fun hP => hP.2⟩
  · simp [hle]

/-! ## Elements -/

/-- `struct element`: `off` is the offset of its data in the buffer. -/
structure Elem where
  id : UInt8
  off : Nat
  len : Nat
deriving DecidableEq

def Elem.data (r : List UInt8) (e : Elem) : List UInt8 := seg r e.off e.len

/-- `for_each_ie` over the part of the buffer from `pos` to `stop`. -/
def forEachIe (r : List UInt8) (stop : Nat) (body : σ → Elem → Option σ) (pos : Nat) (s : σ) :
    Option σ :=
  if pos + 2 ≤ stop then
    (rd r (pos + 1)).bind fun datalen =>
      if pos + 2 + datalen.toNat ≤ stop then
        (rd r pos).bind fun id =>
          (body s ⟨id, pos + 2, datalen.toNat⟩).bind fun s =>
            forEachIe r stop body (pos + 2 + datalen.toNat) s
      else some s
  else some s
termination_by stop - pos

/-- The elements that `for_each_ie` goes over. -/
def elements (r : List UInt8) (stop pos : Nat) : List Elem :=
  if pos + 2 ≤ stop then
    if pos + 2 + (r.getD (pos + 1) 0).toNat ≤ stop then
      ⟨r.getD pos 0, pos + 2, (r.getD (pos + 1) 0).toNat⟩ ::
        elements r stop (pos + 2 + (r.getD (pos + 1) 0).toNat)
    else []
  else []
termination_by stop - pos

variable {stop pos : Nat} {body : σ → Elem → Option σ} {s s' : σ}

theorem rd_of_lt (h : i < r.length) : rd r i = some (r.getD i 0) := by
  rw [rd, getD_eq_getElem?_getD, getElem?_eq_getElem h]
  rfl

/-- In a body that lies in the buffer the loop is a fold over its elements. -/
theorem forEachIe_eq (hstop : stop ≤ r.length) :
    forEachIe r stop body pos s = (elements r stop pos).foldlM body s := by
  fun_induction elements r stop pos generalizing s with
  | case1 pos hpos hlen ih =>
    rw [forEachIe, if_pos hpos, rd_of_lt (by omega : pos + 1 < r.length), bind_some,
      if_pos hlen, rd_of_lt (by omega : pos < r.length), bind_some]
    exact congrArg _ (funext fun s => ih)
  | case2 pos hpos hlen =>
    rw [forEachIe, if_pos hpos, rd_of_lt (by omega : pos + 1 < r.length), bind_some, if_neg hlen]
    rfl
  | case3 pos hpos =>
    rw [forEachIe, if_neg hpos]
    rfl

/-- What every step of the loop keeps, with the position that it goes to. -/
theorem forEachIe_inv {I : Nat → σ → Prop}
    (step : ∀ pos s e s', I pos s → pos ≤ stop → e.off = pos + 2 → body s e = some s' →
      I (pos + 2 + e.len) s')
    (hpos : pos ≤ stop) (init : I pos s) (h : forEachIe r stop body pos s = some s') :
    ∃ pos' ≤ stop, I pos' s' := by
  fun_induction forEachIe r stop body pos s with
  | case1 pos s h2 ih =>
    obtain ⟨datalen, -, h⟩ := bind_eq_some_iff.mp h
    split_ifs at h with hlen
    · obtain ⟨id, -, h⟩ := bind_eq_some_iff.mp h
      obtain ⟨s1, hbody, h⟩ := bind_eq_some_iff.mp h
      exact ih datalen hlen s1 hlen (step pos s _ s1 init hpos rfl hbody) h
    · cases h
      exact ⟨pos, hpos, init⟩
  | case2 pos s h2 =>
    cases h
    exact ⟨pos, hpos, init⟩

/-- An element lies in the body, behind its header. -/
theorem elements_inside {e : Elem} (h : e ∈ elements r stop pos) :
    pos + 2 ≤ e.off ∧ e.off + e.len ≤ stop := by
  fun_induction elements r stop pos with
  | case1 pos hpos hlen ih =>
    rcases mem_cons.mp h with rfl | h
    · exact ⟨Nat.le_refl _, hlen⟩
    · have := ih h
      omega
  | case2 pos hpos hlen => cases h
  | case3 pos hpos => cases h

/-- A loop returns if its body returns for every element, which depends on the element only. -/
theorem foldlM_isSome {body : σ → α → Option σ} {l : List α} {ok : α → Prop}
    (h : ∀ s, ∀ e ∈ l, ((body s e).isSome ↔ ok e)) :
    (l.foldlM body s).isSome ↔ ∀ e ∈ l, ok e := by
  induction l generalizing s with
  | nil => simp
  | cons e l ih =>
    rw [foldlM_cons, forall_mem_cons, ← h s e mem_cons_self]
    have hl := fun s => ih (s := s) fun s x hx => h s x (mem_cons_of_mem e hx)
    cases hb : body s e with
    | none => simp
    | some s' => simpa using hl s'

/-- A part of the state that every step of the loop changes on its own. -/
theorem foldlM_part {τ : Type} (part : σ → τ) (step : τ → Elem → τ) {l : List Elem}
    (h : ∀ s, ∀ e ∈ l, ∀ s', body s e = some s' → part s' = step (part s) e)
    (hl : l.foldlM body s = some s') : part s' = l.foldl step (part s) := by
  induction l generalizing s with
  | nil =>
    cases hl
    rfl
  | cons e l ih =>
    obtain ⟨s1, h1, hl⟩ := bind_eq_some_iff.mp hl
    rw [foldl_cons, ← h s e mem_cons_self s1 h1]
    exact ih (fun s x hx => h s x (mem_cons_of_mem e hx)) hl

end OpenSync.Osw
