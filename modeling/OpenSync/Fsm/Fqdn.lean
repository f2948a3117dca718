import OpenSync.Lib.CInt
import OpenSync.Lib.CString
import Mathlib.Data.List.Forall2

/-!
# The name rule of `fsm_policy.c`

A policy may have a rule with a list of names and an operator.  The operator says how a name is
compared with an entry of the list (`Matches`), and whether the policy applies to the names in
the list or out of it.  `fnmatch` is a parameter.

The exact comparison of `fsm_fqdn_in_set` looks at the bytes of the entry only, so that a longer
name passes too, and the comparison with a pattern gives the verdict on the first entry that is
not longer than the name.  `fqdnCheck_iff` says for which lists this makes no difference.
-/

namespace OpenSync.Fsm

open OpenSync.Lib List

/-- The values of `fqdn_op`; `unset` is any other one. -/
inductive FqdnOp where
  | in
  | sfrIn
  | sflIn
  | wildIn
  | out
  | sfrOut
  | sflOut
  | wildOut
  | true
  | unset
deriving DecidableEq

/-- `FSM_FQDN_OP_…`. -/
inductive Lookup where
  | xm
  | sfr
  | sfl
  | wild
deriving DecidableEq

/-- The fields of `struct fsm_policy_rules` for names. -/
structure Rules where
  fqdnRulePresent : Bool
  fqdnOp : FqdnOp
  fqdns : Option (List CStr)

/-- `'.'`. -/
def dot : UInt8 := 46

/-- `MAX_DOTS`. -/
def maxDots : Nat := 10

/-- Where the comparison of the name with an entry starts. -/
def compareFrom (op : Lookup) (url entry : CStr) : List UInt8 :=
  if op = .sfr then url.1.drop (toSize (toInt url.1.length - toInt entry.1.length)) else url.1

section

variable (fnmatch : List UInt8 → List UInt8 → Bool)

/-- The loop of `fsm_policy_wildmatch`, with the number of rounds that are left. -/
def wildmatchLoop : Nat → List UInt8 → List UInt8 → Bool
  | 0, _, _ => false
  | n + 1, pattern, domain =>
    match strtok dot pattern, strtok dot domain with
    | none, none => true
    | some (p, pattern), some (d, domain) =>
      if fnmatch p d then wildmatchLoop n pattern domain else false
    | _, _ => false

/-- `fsm_policy_wildmatch`. -/
def wildmatch (pattern domain : CStr) : Bool := wildmatchLoop fnmatch maxDots pattern.1 domain.1

/-- The loop of `fsm_fqdn_in_set`. -/
def fqdnInList (url : CStr) (op : Lookup) : List CStr → Bool
  | [] => false
  | entry :: rest =>
    if toInt entry.1.length > toInt url.1.length then fqdnInList url op rest
    else if op = .wild then wildmatch fnmatch entry url
    else if strncmpBytes (compareFrom op url entry) entry.1 (toSize (toInt entry.1.length)) = 0
    then true
    else fqdnInList url op rest

/-- `fsm_fqdn_in_set`. -/
def fqdnInSet (url : CStr) (rules : Rules) (op : Lookup) : Bool :=
  match rules.fqdns with
  | none => false
  | some fqdns => fqdnInList fnmatch url op fqdns

/-- The operator applies to the names in the list. -/
def inPolicy (op : FqdnOp) : Bool := op = .in ∨ op = .sfrIn ∨ op = .sflIn ∨ op = .wildIn

/-- The comparison of an operator. -/
def lookup (op : FqdnOp) : Lookup :=
  if op = .wildIn ∨ op = .wildOut then .wild
  else if op = .sflIn ∨ op = .sflOut then .sfl
  else if op = .sfrIn ∨ op = .sfrOut then .sfr
  else .xm

/-- `fsm_fqdn_check`. -/
def fqdnCheck (url : CStr) (rules : Rules) : Bool :=
  if !rules.fqdnRulePresent then true
  else
    let rc := fqdnInSet fnmatch url rules (lookup rules.fqdnOp)
    if rc && !inPolicy rules.fqdnOp then false
    else if !rc && inPolicy rules.fqdnOp then false
    else true

/-! ## The meaning of a rule -/

def labels (s : CStr) : List (List UInt8) := tokens dot s.1

def Matches (url : CStr) : Lookup → CStr → Prop
  | .xm, entry => entry = url
  | .sfr, entry => entry.1 <:+ url.1
  | .sfl, entry => entry.1 <+: url.1
  | .wild, entry => List.Forall₂ (fun p d => fnmatch p d = true) (labels entry) (labels url)

/-- The verdict of a rule is what its operator says. -/
def Correct (url : CStr) (rules : Rules) : Prop :=
  fqdnCheck fnmatch url rules = true ↔
    if inPolicy rules.fqdnOp then
      ∃ entry ∈ rules.fqdns.getD [], Matches fnmatch url (lookup rules.fqdnOp) entry
    else ¬ ∃ entry ∈ rules.fqdns.getD [], Matches fnmatch url (lookup rules.fqdnOp) entry

/-- The lists that a comparison treats as it should. -/
def Harmless (url : CStr) (fqdns : List CStr) : Lookup → Prop
  | .xm => (∃ entry ∈ fqdns, entry.1 <+: url.1) → url ∈ fqdns
  | .sfr => True
  | .sfl => True
  | .wild => (∃ entry ∈ fqdns, Matches fnmatch url .wild entry) →
    ∃ entry, fqdns.find? (fun e => e.1.length ≤ url.1.length) = some entry ∧
      Matches fnmatch url .wild entry

end

variable {fnmatch : List UInt8 → List UInt8 → Bool} {url : CStr} {fqdns : List CStr}

theorem wildmatchLoop_iff {n : Nat} {pattern domain : List UInt8}
    (hp : (tokens dot pattern).length < n) :
    wildmatchLoop fnmatch n pattern domain = true ↔
      List.Forall₂ (fun p d => fnmatch p d = true) (tokens dot pattern) (tokens dot domain) := by
  induction n generalizing pattern domain with
  | zero => omega
  | succ n ih =>
    have hpat := tokens_eq dot pattern
    have hdom := tokens_eq dot domain
    rw [wildmatchLoop]
    cases hsp : strtok dot pattern with
    | none =>
      rw [hsp] at hpat
      cases hsd : strtok dot domain with
      | none | some d =>
        rw [hsd] at hdom
        simp [hpat, hdom]
    | some p =>
      rw [hsp] at hpat
      cases hsd : strtok dot domain with
      | none =>
        rw [hsd] at hdom
        simp [hpat, hdom]
      | some d =>
        rw [hsd] at hdom
        simp only at hpat hdom ⊢
        rw [hpat, length_cons] at hp
        rw [hpat, hdom, forall₂_cons]
        split_ifs with hmatch
        · rw [ih (by omega)]
          exact (and_iff_right hmatch).symm
        · simp [hmatch]

/-! ## The loop over the entries -/

/-- The comparison that the loop makes with an entry that is not longer than the name. -/
def Passes (url : CStr) : Lookup → CStr → Prop
  | .sfr, entry => entry.1 <:+ url.1
  | _, entry => entry.1 <+: url.1

theorem Passes.length_le {op : Lookup} {entry : CStr} (h : Passes url op entry) :
    entry.1.length ≤ url.1.length := by
  cases op with
  | sfr => exact List.IsSuffix.length_le h
  | xm | sfl | wild => exact List.IsPrefix.length_le h

theorem strncmp_iff_passes (op : Lookup) {entry : CStr} (hu : url.1.length < 2 ^ 31)
    (hle : entry.1.length ≤ url.1.length) :
    strncmpBytes (compareFrom op url entry) entry.1 (toSize (toInt entry.1.length)) = 0 ↔
      Passes url op entry := by
  have hsize : toSize (toInt entry.1.length) = entry.1.length := by
    rw [toInt_of_lt (hle.trans_lt hu), toSize_of_lt (by omega)]
  have hdiff : toSize (toInt url.1.length - toInt entry.1.length) =
      url.1.length - entry.1.length := by
    rw [toInt_of_lt hu, toInt_of_lt (hle.trans_lt hu), ← Int.ofNat_sub hle]
    exact toSize_of_lt (by omega)
  have hnul : (0 : UInt8) ∉ compareFrom op url entry := by
    intro hm
    rw [compareFrom] at hm
    split_ifs at hm
    · exact url.2 (mem_of_mem_drop hm)
    · exact url.2 hm
  have hfront : entry.1 = url.1.take entry.1.length ↔ entry.1 <+: url.1 :=
    prefix_iff_eq_take.symm
  rw [strncmpBytes_eq_zero_iff hnul entry.2, hsize, take_length]
  cases op with
  | sfr =>
    rw [compareFrom, if_pos rfl, hdiff, take_of_length_le (by rw [length_drop]; omega),
      eq_comm]
    exact suffix_iff_eq_drop.symm
  | xm | sfl | wild => exact eq_comm.trans hfront

/-- Without patterns the loop finds an entry that passes. -/
theorem fqdnInList_iff (op : Lookup) (hop : op ≠ .wild) (hu : url.1.length < 2 ^ 31)
    (hlen : ∀ entry ∈ fqdns, entry.1.length < 2 ^ 31) :
    fqdnInList fnmatch url op fqdns = true ↔ ∃ entry ∈ fqdns, Passes url op entry := by
  induction fqdns with
  | nil => simp [fqdnInList]
  | cons entry rest ih =>
    have hrest := ih (fun e he => hlen e (mem_cons_of_mem _ he))
    have hentry := toInt_of_lt (hlen entry mem_cons_self)
    have hurl := toInt_of_lt hu
    rw [fqdnInList, exists_mem_cons_iff]
    by_cases hle : entry.1.length ≤ url.1.length
    · have hcmp := strncmp_iff_passes op hu hle
      rw [if_neg (by omega), if_neg hop]
      split_ifs with hz
      · exact iff_of_true rfl (.inl (hcmp.mp hz))
      · rw [hrest, or_iff_right (fun hp => hz (hcmp.mpr hp))]
    · rw [if_pos (by omega), hrest, or_iff_right (fun hp => hle hp.length_le)]

section

variable (hu : url.1.length < 2 ^ 31) (hlen : ∀ entry ∈ fqdns, entry.1.length < 2 ^ 31)

include hu hlen

/-- With patterns the loop looks at the first entry that is not longer than the name. -/
theorem fqdnInList_wild : fqdnInList fnmatch url .wild fqdns =
      ((fqdns.find? (fun e => e.1.length ≤ url.1.length)).map
        (fun e => wildmatch fnmatch e url)).getD false := by
  induction fqdns with
  | nil => rfl
  | cons entry rest ih =>
    have hrest := ih (fun e he => hlen e (mem_cons_of_mem _ he))
    have hentry := toInt_of_lt (hlen entry mem_cons_self)
    have hurl := toInt_of_lt hu
    rw [fqdnInList]
    by_cases hle : entry.1.length ≤ url.1.length
    · rw [if_neg (by omega), find?_cons_of_pos (by simpa using hle)]
      rfl
    · rw [if_pos (by omega), hrest, find?_cons_of_neg (by simpa using hle)]

/-- The verdict on a list of entries, against the meaning of the comparison. -/
theorem fqdnInList_matches_iff {op : Lookup}
    (hwild : op = .wild → ∀ entry ∈ fqdns, (labels entry).length < maxDots) :
    (fqdnInList fnmatch url op fqdns = true ↔ ∃ entry ∈ fqdns, Matches fnmatch url op entry) ↔
      Harmless fnmatch url fqdns op := by
  cases op with
  | sfr => exact iff_of_true (fqdnInList_iff .sfr (by decide) hu hlen) trivial
  | sfl => exact iff_of_true (fqdnInList_iff .sfl (by decide) hu hlen) trivial
  | xm =>
    rw [fqdnInList_iff .xm (by decide) hu hlen]
    simp only [Matches, exists_eq_right]
    constructor
    · intro h
      exact h.mp
    · intro h
      exact ⟨h, fun hmem => ⟨url, hmem, prefix_rfl⟩⟩
  | wild =>
    have hmatch : fqdnInList fnmatch url .wild fqdns = true ↔
        ∃ entry, fqdns.find? (fun e => e.1.length ≤ url.1.length) = some entry ∧
          Matches fnmatch url .wild entry := by
      rw [fqdnInList_wild hu hlen]
      cases hfind : fqdns.find? (fun e => e.1.length ≤ url.1.length) with
      | none => simp
      | some entry =>
        have hiff : wildmatch fnmatch entry url = true ↔ Matches fnmatch url .wild entry :=
          wildmatchLoop_iff (hwild rfl entry (mem_of_find?_eq_some hfind))
        simp [hiff]
    rw [hmatch]
    constructor
    · intro h
      exact h.mpr
    intro h
    refine ⟨?_, h⟩
    rintro ⟨entry, hfind, hm⟩
    exact ⟨entry, mem_of_find?_eq_some hfind, hm⟩

end

/-! ## The check -/

theorem fqdnCheck_eq {rules : Rules} (h : rules.fqdnRulePresent = true) :
    fqdnCheck fnmatch url rules =
      (fqdnInSet fnmatch url rules (lookup rules.fqdnOp) == inPolicy rules.fqdnOp) := by
  rw [fqdnCheck, h]
  cases fqdnInSet fnmatch url rules (lookup rules.fqdnOp) <;>
    cases inPolicy rules.fqdnOp <;> rfl

theorem fqdnInSet_eq (rules : Rules) (op : Lookup) :
    fqdnInSet fnmatch url rules op = fqdnInList fnmatch url op (rules.fqdns.getD []) := by
  rw [fqdnInSet]
  cases rules.fqdns <;> rfl

/-- The name rule gives the verdict that its operator stands for exactly if the list is
harmless: for the exact comparison no entry is a proper part of the name, unless the name
is in the list too, and for patterns the first entry that is not longer than the name
matches if any entry does. -/
theorem fqdnCheck_iff {rules : Rules} (hrule : rules.fqdnRulePresent = true)
    (hu : url.1.length < 2 ^ 31)
    (hlen : ∀ entry ∈ rules.fqdns.getD [], entry.1.length < 2 ^ 31)
    (hwild : lookup rules.fqdnOp = .wild → (labels url).length < maxDots ∧
      ∀ entry ∈ rules.fqdns.getD [], (labels entry).length < maxDots) :
    Correct fnmatch url rules ↔
      Harmless fnmatch url (rules.fqdns.getD []) (lookup rules.fqdnOp) := by
  rw [← fqdnInList_matches_iff hu hlen (fun h => (hwild h).2), Correct, fqdnCheck_eq hrule,
    fqdnInSet_eq]
  cases inPolicy rules.fqdnOp with
  | true => simp
  | false =>
    simp only [beq_iff_eq]
    rw [← Bool.not_eq_true]
    exact not_iff_not

/-- A rule with the names `a` and `a.b`. -/
def twoNames : Rules := ⟨true, .in, some [cstrOf [97], ⟨[97, 46, 98], by decide⟩]⟩

theorem fqdnCheck_iff_twoNames : (Correct (fun p d => p == d) ⟨[97, 46, 98], by decide⟩ twoNames ↔
      Harmless (fun p d => p == d) ⟨[97, 46, 98], by decide⟩ (twoNames.fqdns.getD [])
        (lookup twoNames.fqdnOp)) :=
  fqdnCheck_iff rfl (by decide) (by decide) (fun h => absurd h (by decide))

/-- The name `ab` is taken for the name `a` of an exact rule.  With the patterns `b` and `a`
the name `a` is not found, in the other order it is. -/
theorem fqdnCheck_wrong :
    ¬ Correct (fun p d => p == d) ⟨[97, 98], by decide⟩ ⟨true, .in, some [⟨[97], by decide⟩]⟩ ∧
      ¬ Correct (fun p d => p == d) ⟨[97], by decide⟩
        ⟨true, .wildIn, some [⟨[98], by decide⟩, ⟨[97], by decide⟩]⟩ ∧
      fqdnCheck (fun p d => p == d) ⟨[97], by decide⟩
        ⟨true, .wildIn, some [⟨[98], by decide⟩, ⟨[97], by decide⟩]⟩ = false ∧
      fqdnCheck (fun p d => p == d) ⟨[97], by decide⟩
        ⟨true, .wildIn, some [⟨[97], by decide⟩, ⟨[98], by decide⟩]⟩ = true := by
  refine ⟨fun h => ?_, fun h => ?_, by decide, by decide⟩
  · obtain ⟨entry, hmem, hentry⟩ := h.mp (by decide)
    obtain rfl := mem_singleton.mp hmem
    exact absurd (congrArg (fun e : CStr => e.1.length) hentry) (by decide)
  · have hmatch : Matches (fun p d => p == d) ⟨[97], by decide⟩ .wild ⟨[97], by decide⟩ :=
      .cons rfl .nil
    exact absurd (h.mpr ⟨_, mem_cons_of_mem _ mem_cons_self, hmatch⟩) (by decide)

end OpenSync.Fsm
