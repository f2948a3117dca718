import OpenSync.Osw.AssocReq

/-!
# Which association requests are parsed in bounds

The loop over the elements checks that an element lies in the frame, but most of the parsers read
at a fixed offset of an element, however short it is: they read the next element, and at the end
of the frame the bytes behind it.

`Sound` says of a frame, by its elements, that this does not happen: every element has enough
bytes behind it, and no length wraps, and so on in the profiles of the multi-link element.
`parse_in_bounds_iff` proves that the parser stays in bounds on these frames and on no others.
-/

namespace OpenSync.Osw.AssocReq

open OpenSync.Lib List Option

/-! ## What an element has to have -/

/-- An extended element with an identifier. -/
def IsExt (r : List UInt8) (x : UInt8) (e : Elem) : Prop :=
  e.id = 0xff ∧ 1 ≤ e.len ∧ r.getD e.off 0 = x

instance (r : List UInt8) (x : UInt8) (e : Elem) : Decidable (IsExt r x e) :=
  inferInstanceAs (Decidable (_ ∧ _))

/-- The bytes that the HE capabilities need, by their PHY byte. -/
def heNeed (phy : UInt8) : Nat :=
  if bit phy 3 && bit phy 4 then 28 else if bit phy 3 || bit phy 4 then 24 else 20

/-- Every cellular data preference of an MBO element has its byte. -/
def MboSound (r : List UInt8) (e : Elem) : Prop :=
  ∀ a ∈ elements r (e.off + e.len) (e.off + 4), a.id = 3 → a.off < r.length

/-- There are enough bytes from the start of the element to the end of the buffer, and a vendor
element has its OUI. -/
def ElemSound (r : List UInt8) (e : Elem) : Prop :=
  if e.id = 0x7f then e.off + 3 ≤ r.length
  else if e.id = 0x46 then e.off + 5 ≤ r.length
  else if e.id = 0x21 then e.off + 2 ≤ r.length
  else if e.id = 0x2d then e.off + 13 ≤ r.length
  else if e.id = 0xbf then e.off + 6 ≤ r.length
  else if e.id = 0xdd then
    3 ≤ e.len ∧ (5 < e.len → seg r e.off 3 = [0x50, 0x6f, 0x9a] → r.getD (e.off + 3) 0 = 0x16 →
      MboSound r e)
  else IsExt r 0x23 e → e.off + heNeed (r.getD (e.off + 7) 0) ≤ r.length

/-- The last extended element with an identifier. -/
def lastExt (r : List UInt8) (x : UInt8) (els : List Elem) : Option Elem :=
  els.foldl (fun last e => if IsExt r x e then some e else last) none

/-- EHT capabilities that are looked at do not end within the PHY capabilities. -/
def EhtSound (r : List UInt8) (els : List Elem) : Prop :=
  ∀ he ∈ lastExt r 0x23 els, ∀ eht ∈ lastExt r 108 els, 8 ≤ he.len → 7 ≤ eht.len → 12 ≤ eht.len

/-! ## The multi-link element -/

/-- The fragments at the start of the rest of a frame, up to the first one that is not full. -/
def fragments (r : List UInt8) : List Elem → List UInt8
  | [] => []
  | e :: es =>
    if e.id = 0xf2 then e.data r ++ if e.len < 255 then [] else fragments r es else []

/-- The last multi-link element, with its fragments. -/
def mleBody (r : List UInt8) : List Elem → Option (List UInt8)
  | [] => none
  | e :: es =>
    (mleBody r es).or <|
      if IsExt r 107 e then
        some (seg r (e.off + 1) (e.len - 1) ++ if e.len - 1 = 254 then fragments r es else [])
      else none

/-- The profiles among the subelements in `len` bytes from `pos` on. -/
def profiles (mle : List UInt8) (pos len : Nat) : List (Nat × Nat) :=
  if 2 ≤ len then
    if len - 2 < (mle.getD (pos + 1) 0).toNat then []
    else if mle.getD pos 0 = 0 then
      match profileBody mle (pos + 2) (mle.getD (pos + 1) 0).toNat with
      | some (some p) =>
        p :: profiles mle (pos + 2 + (mle.getD (pos + 1) 0).toNat)
          (len - 2 - (mle.getD (pos + 1) 0).toNat)
      | _ => []
    else
      profiles mle (pos + 2 + (mle.getD (pos + 1) 0).toNat)
        (len - 2 - (mle.getD (pos + 1) 0).toNat)
  else []
termination_by len

/-- The profiles of a multi-link element, behind its common information. -/
def mleProfiles (mle : List UInt8) : List (Nat × Nat) :=
  if mle.length < 3 then []
  else if mle.length - 2 < (mle.getD 2 0).toNat then []
  else profiles mle (2 + (mle.getD 2 0).toNat) (mle.length - 2 - (mle.getD 2 0).toNat)

/-- The frame in `len` bytes of the buffer from `off` on, and the frames in it. -/
inductive Sound : List UInt8 → Nat → Nat → Prop where
  | intro {r : List UInt8} {off len : Nat}
    (elems : ∀ e ∈ elements r (off + len) off, ElemSound r e)
    (eht : EhtSound r (elements r (off + len) off))
    (stations : ∀ mle, mleBody r (elements r (off + len) off) = some mle →
      ∀ p ∈ mleProfiles mle, Sound mle p.1 p.2) : Sound r off len

/-! ## The parsers of the elements -/

section

variable {r : List UInt8} {e : Elem} {info : Info} {v v' : Vars} {α : Type} {P : Prop}

theorem isSome_some_iff (a : α) : (some a).isSome ↔ True := by simp

theorem parseExtendedCaps_isSome : (parseExtendedCaps r e info).isSome ↔ e.off + 3 ≤ r.length := by
  rw [parseExtendedCaps, rd_bind_isSome fun v _ => isSome_some_iff _]
  simp only [and_true]
  omega

theorem parseRmEnabledCaps_isSome :
    (parseRmEnabledCaps r e info).isSome ↔ e.off + 5 ≤ r.length := by
  rw [parseRmEnabledCaps, rd_bind_isSome fun v _ => rd_bind_isSome fun v _ =>
    rd_bind_isSome fun v _ => isSome_some_iff _]
  simp only [and_true]
  omega

theorem parseSupportedOpClasses_isSome (inside : e.off + e.len ≤ r.length) :
    (parseSupportedOpClasses r e info).isSome := by
  rw [parseSupportedOpClasses, rdN_bind_isSome fun v => isSome_some_iff _]
  exact ⟨inside, trivial⟩

theorem parseSupportedChannels_isSome (inside : e.off + e.len ≤ r.length) :
    (parseSupportedChannels r e info).isSome := by
  rw [parseSupportedChannels, rdN_bind_isSome fun v => isSome_some_iff _]
  exact ⟨inside, trivial⟩

theorem parsePowerCap_isSome : (parsePowerCap r e info).isSome ↔ e.off + 2 ≤ r.length := by
  rw [parsePowerCap, rd_bind_isSome fun v _ => rd_bind_isSome fun v _ => isSome_some_iff _]
  simp only [and_true]
  omega

theorem parseHtCaps_isSome : (parseHtCaps r e info).isSome ↔ e.off + 13 ≤ r.length := by
  rw [parseHtCaps, rd_bind_isSome fun v _ => rdN_bind_isSome fun v => isSome_some_iff _]
  simp only [and_true]
  omega

theorem parseVhtCaps_isSome : (parseVhtCaps r e info).isSome ↔ e.off + 6 ≤ r.length := by
  rw [parseVhtCaps, rdN_bind_isSome fun v => isSome_some_iff _]
  simp

theorem mcsMap_bind_isSome {k : Nat} {f : Nat → Option α} (h : ∀ m, (f m).isSome ↔ P) :
    ((mcsMap r e k).bind f).isSome ↔ e.off + k + 2 ≤ r.length ∧ P := by
  rw [mcsMap, bind_assoc, rd_bind_isSome (P := e.off + k + 1 < r.length ∧ P) fun lo _ => by
      rw [bind_assoc, rd_bind_isSome fun hi _ => by rw [bind_some, h]]]
  constructor
  · rintro ⟨h1, h2, hP⟩
    exact ⟨by omega, hP⟩
  · rintro ⟨h1, hP⟩
    exact ⟨by omega, by omega, hP⟩

theorem parseHeCaps_isSome (info : Info) : (parseHeCaps r e info).isSome ↔
    e.off + heNeed (r.getD (e.off + 7) 0) ≤ r.length := by
  have hneed : 20 ≤ heNeed (r.getD (e.off + 7) 0) := by
    rw [heNeed]
    split_ifs <;> omega
  refine (rd_bind_isSome fun phy hphy => ?_).trans (and_iff_right_of_imp fun h => by omega)
  obtain ⟨hlt, hval⟩ := rd_eq_some_iff.mp hphy
  have hget : r.getD (e.off + 7) 0 = phy := by
    rw [getD_eq_getElem?_getD, getElem?_eq_getElem hlt, hval]
    rfl
  rw [hget, heNeed]
  by_cases h3 : bit phy 3 <;> by_cases h4 : bit phy 4
  · simp only [h3, h4, if_true, Bool.and_self]
    rw [mcsMap_bind_isSome fun _ => mcsMap_bind_isSome fun _ => mcsMap_bind_isSome fun _ =>
      isSome_some_iff _]
    simp only [and_true]
    omega
  · simp only [h3, h4, if_true, Bool.and_false, Bool.true_or, Bool.false_eq_true, if_false]
    rw [mcsMap_bind_isSome fun _ => mcsMap_bind_isSome fun _ => isSome_some_iff _]
    simp only [and_true]
    omega
  · simp only [h3, h4, if_true, Bool.and_true, Bool.or_true, Bool.false_eq_true, if_false]
    rw [mcsMap_bind_isSome fun _ => mcsMap_bind_isSome fun _ => isSome_some_iff _]
    simp only [and_true]
    omega
  · simp only [h3, h4, Bool.and_false, Bool.or_self, Bool.false_eq_true, if_false]
    rw [mcsMap_bind_isSome fun _ => isSome_some_iff _]
    simp

theorem parseMboAttr_isSome {a : Elem} :
    (parseMboAttr r info a).isSome ↔ (a.id = 3 → a.off < r.length) := by
  rw [parseMboAttr]
  split_ifs with h
  · rw [rd_bind_isSome fun v _ => isSome_some_iff _]
    simp [h]
  · simp [h]

theorem parseWfaIeMbo_isSome (inside : e.off + e.len ≤ r.length) (h : 5 < e.len) :
    (parseWfaIeMbo r info (e.off + 4) (e.len - 4)).isSome ↔ MboSound r e := by
  have hstop : e.off + 4 + (e.len - 4) = e.off + e.len := by omega
  rw [parseWfaIeMbo, if_neg (by omega), hstop, forEachIe_eq inside]
  exact foldlM_isSome fun info a _ => parseMboAttr_isSome

theorem parseVendorSpecificIe_isSome (inside : e.off + e.len ≤ r.length) :
    (parseVendorSpecificIe r e info).isSome ↔
      3 ≤ e.len ∧ (5 < e.len → seg r e.off 3 = [0x50, 0x6f, 0x9a] →
        r.getD (e.off + 3) 0 = 0x16 → MboSound r e) := by
  by_cases h3 : e.len < 3
  · rw [parseVendorSpecificIe, if_pos h3]
    simp only [isSome_none, Bool.false_eq_true, false_iff]
    omega
  have hoff : e.off + 3 ≤ r.length := by omega
  rw [parseVendorSpecificIe, if_neg h3, rdN, if_pos hoff, bind_some]
  by_cases h5 : e.len - 3 ≤ 2
  · rw [if_pos h5]
    simp only [isSome_some, true_iff]
    exact ⟨by omega, by omega⟩
  rw [rd_of_lt (by omega : e.off + 3 < r.length), bind_some]
  split_ifs with hmbo
  · rw [parseWfaIeMbo_isSome inside (by omega)]
    exact ⟨fun h => ⟨by omega, fun _ _ _ => h⟩, fun h => h.2 (by omega) hmbo.1 hmbo.2⟩
  · simp only [isSome_some, true_iff]
    exact ⟨by omega, fun _ h1 h2 => absurd ⟨h1, h2⟩ hmbo⟩

/-! ## The loop -/

section

variable (inside : e.off + e.len ≤ r.length)

include inside

theorem takeFragment_isSome : ∃ v', takeFragment r v e = some v' := by
  rw [takeFragment]
  split_ifs
  · rw [rdN, if_pos inside]
    exact ⟨_, rfl⟩
  · exact ⟨_, rfl⟩

theorem parseExt_isSome (hlen : 1 ≤ e.len) (x : UInt8) : (parseExt r v e x).isSome ↔
      (x = 0x23 → e.off + heNeed (r.getD (e.off + 7) 0) ≤ r.length) := by
  rw [parseExt]
  split_ifs with hhe hop hcap hml
  · rw [← parseHeCaps_isSome v.info]
    cases parseHeCaps r e v.info <;> simp [hhe]
  · simp [hhe]
  · simp [hhe]
  · rw [rdN_bind_isSome fun v => isSome_some_iff _]
    simp only [hhe, false_imp_iff, and_true, iff_true]
    omega
  · simp [hhe]

attribute [local simp] ElemSound

theorem parseElem_isSome : (parseElem r v e).isSome ↔ ElemSound r e := by
  by_cases h7f : e.id = 0x7f
  · simp [parseElem, h7f, parseExtendedCaps_isSome]
  by_cases h46 : e.id = 0x46
  · simp [parseElem, h46, parseRmEnabledCaps_isSome]
  by_cases h3b : e.id = 0x3b
  · simp [parseElem, IsExt, h3b, parseSupportedOpClasses_isSome inside]
  by_cases h24 : e.id = 0x24
  · simp [parseElem, IsExt, h24, parseSupportedChannels_isSome inside]
  by_cases h21 : e.id = 0x21
  · simp [parseElem, h21, parsePowerCap_isSome]
  by_cases h2d : e.id = 0x2d
  · simp [parseElem, h2d, parseHtCaps_isSome]
  by_cases hbf : e.id = 0xbf
  · simp [parseElem, hbf, parseVhtCaps_isSome]
  by_cases hdd : e.id = 0xdd
  · simp [parseElem, hdd, parseVendorSpecificIe_isSome inside]
  by_cases hff : e.id = 0xff
  · by_cases hlen : e.len < 1
    · have hzero : ¬1 ≤ e.len := by omega
      simp only [parseElem, ElemSound, IsExt, hff]
      simp [hlen]
    · have hlen' : 1 ≤ e.len := by omega
      have hext := parseExt_isSome (v := v) inside hlen' (r.getD e.off 0)
      simp only [parseElem, ElemSound, IsExt, hff, hlen', rd_of_lt
        (by omega : e.off < r.length), if_neg hlen]
      simpa using hext
  · simp [parseElem, IsExt, h7f, h46, h3b, h24, h21, h2d, hbf, hdd, hff]

end

/-- The remembered place of an extended element. -/
def placeOf (e : Elem) : Nat × Nat := (e.off + 1, e.len - 1)

/-- The variables after an element, but for the information in it. -/
def Vars.after (r : List UInt8) (v : Vars) (e : Elem) (info : Info) : Vars where
  info := info
  heCap := if IsExt r 0x23 e then some (placeOf e) else v.heCap
  ehtOp := if IsExt r 106 e then some (placeOf e) else v.ehtOp
  ehtCap := if IsExt r 108 e then some (placeOf e) else v.ehtCap
  mle := if IsExt r 107 e then some (seg r (e.off + 1) (e.len - 1)) else v.mle
  frag := if IsExt r 107 e then decide (e.len - 1 = 254) else v.frag

theorem after_of_not_ext (h : ∀ x, ¬IsExt r x e) : v.after r e info = { v with info := info } := by
  simp [Vars.after, if_neg (h _)]

theorem parseExt_after (inside : e.off + e.len ≤ r.length) (hid : e.id = 0xff) (hlen : 1 ≤ e.len)
    (h : parseExt r v e (r.getD e.off 0) = some v') : ∃ info, v' = v.after r e info := by
  have isExt : ∀ x, IsExt r x e ↔ r.getD e.off 0 = x := fun x => by
    simp [IsExt, hid, hlen]
  simp only [Vars.after, isExt]
  generalize r.getD e.off 0 = extId at h
  unfold parseExt at h
  split_ifs at h with hhe hop hcap hml
  · obtain ⟨info, -, h⟩ := bind_eq_some_iff.mp h
    cases h
    exact ⟨info, by simp [hhe, placeOf]⟩
  · cases h
    exact ⟨v.info, by simp [hop, placeOf]⟩
  · cases h
    exact ⟨v.info, by simp [hcap, placeOf]⟩
  · rw [rdN, if_pos (by omega)] at h
    cases h
    exact ⟨v.info, by simp [hml]⟩
  · cases h
    exact ⟨v.info, by simp [if_neg hhe, if_neg hop, if_neg hcap, if_neg hml]⟩

theorem parseElem_after (inside : e.off + e.len ≤ r.length) (h : parseElem r v e = some v') :
    ∃ info, v' = v.after r e info := by
  by_cases hext : e.id = 0xff ∧ 1 ≤ e.len
  · refine parseExt_after inside hext.1 hext.2 ?_
    simpa [parseElem, hext.1, Nat.not_lt.mpr hext.2, rd_of_lt (by omega : e.off < r.length)] using h
  have none : ∀ x, ¬IsExt r x e := fun x hx => hext ⟨hx.1, hx.2.1⟩
  have mapped : ∀ o : Option Info, (o.map fun info => { v with info := info }) = some v' →
      ∃ info, v' = v.after r e info := by
    intro o ho
    obtain ⟨info, -, rfl⟩ := map_eq_some_iff.mp ho
    exact ⟨info, (after_of_not_ext none).symm⟩
  have unchanged : some v = some v' → ∃ info, v' = v.after r e info := by
    rintro ⟨⟩
    exact ⟨v.info, (after_of_not_ext none).symm⟩
  unfold parseElem at h
  split_ifs at h with _ _ _ _ _ _ _ _ hff hlen
  all_goals first
    | exact mapped _ h
    | exact unchanged h
    | exact absurd ⟨hff, by omega⟩ hext

/-! ## After the loop -/

/-- The place to remember after an element. -/
def placeStep (r : List UInt8) (x : UInt8) (place : Option (Nat × Nat)) (e : Elem) :
    Option (Nat × Nat) :=
  if IsExt r x e then some (placeOf e) else place

theorem foldl_place {x : UInt8} (els : List Elem) (last : Option Elem) :
    els.foldl (placeStep r x) (last.map placeOf) =
      (els.foldl (fun last e => if IsExt r x e then some e else last) last).map placeOf := by
  induction els generalizing last with
  | nil => rfl
  | cons e els ih =>
    rw [foldl_cons, foldl_cons, ← ih, placeStep]
    congr 1
    split_ifs <;> rfl

/-- The multi-link element and the flag for a fragment, after an element. -/
def mleStep (r : List UInt8) (m : Option (List UInt8) × Bool) (e : Elem) :
    Option (List UInt8) × Bool :=
  if IsExt r 107 e then (some (seg r (e.off + 1) (e.len - 1)), decide (e.len - 1 = 254))
  else if m.2 ∧ e.id = 0xf2 then (m.1.map (· ++ e.data r), decide (255 ≤ e.len))
  else (m.1, false)

/-- The fold over the elements collects the last multi-link element with its fragments. -/
theorem foldl_mleStep (els : List Elem) (m : Option (List UInt8)) (frag : Bool) :
    (els.foldl (mleStep r) (m, frag)).1 =
      (mleBody r els).or (m.map (· ++ if frag then fragments r els else [])) := by
  induction els generalizing m frag with
  | nil =>
    cases frag <;> cases m <;> simp [mleBody, fragments]
  | cons e els ih =>
    rw [foldl_cons, mleStep, mleBody]
    by_cases hml : IsExt r 107 e
    · rw [if_pos hml, ih, if_pos hml]
      cases mleBody r els <;> simp
    have hid : e.id = 0xf2 → fragments r (e :: els) =
        e.data r ++ if e.len < 255 then [] else fragments r els := fun h => by
      rw [fragments, if_pos h]
    have hother : e.id ≠ 0xf2 → fragments r (e :: els) = [] := fun h => by
      rw [fragments, if_neg h]
    rw [if_neg hml, if_neg hml, or_none]
    by_cases hfrag : frag = true ∧ e.id = 0xf2
    · rw [if_pos hfrag, ih, hid hfrag.2, if_pos hfrag.1, Option.map_map]
      congr 2
      funext l
      by_cases hlen : e.len < 255
      · simp [hlen]
      · simp [hlen]
    · rw [if_neg hfrag, ih]
      cases frag with
      | false => rfl
      | true =>
        have hne : e.id ≠ 0xf2 := fun h => hfrag ⟨rfl, h⟩
        simp [hother hne]

theorem loopBody_after (inside : e.off + e.len ≤ r.length) (h : loopBody r v e = some v') :
    v'.heCap = placeStep r 0x23 v.heCap e ∧ v'.ehtOp = placeStep r 106 v.ehtOp e ∧
      v'.ehtCap = placeStep r 108 v.ehtCap e ∧
      (v'.mle, v'.frag) = mleStep r (v.mle, v.frag) e := by
  obtain ⟨v1, h1, h2⟩ := bind_eq_some_iff.mp h
  obtain ⟨info, rfl⟩ := parseElem_after inside h2
  unfold takeFragment at h1
  rw [rdN, if_pos inside] at h1
  split_ifs at h1 with hfrag
  · cases h1
    have hne : ∀ x, ¬IsExt r x e := by
      rintro x ⟨hx, -⟩
      rw [hfrag.2] at hx
      exact absurd hx (by decide)
    simp only [Vars.after, placeStep, mleStep, if_neg (hne _), if_pos hfrag, true_and]
    rfl
  · cases h1
    refine ⟨rfl, rfl, rfl, ?_⟩
    simp only [Vars.after, mleStep]
    split_ifs <;> rfl

end

variable {r : List UInt8} {els : List Elem}

/-- The variables after the loop over a frame that lies in the buffer. -/
theorem loopVars_eq {off len : Nat} {v : Vars} (hstop : off + len ≤ r.length)
    (h : loopVars r off len = some v) :
    v.heCap = (lastExt r 0x23 (elements r (off + len) off)).map placeOf ∧
      v.ehtOp = (lastExt r 106 (elements r (off + len) off)).map placeOf ∧
      v.ehtCap = (lastExt r 108 (elements r (off + len) off)).map placeOf ∧
      v.mle = mleBody r (elements r (off + len) off) := by
  rw [loopVars, forEachIe_eq hstop] at h
  have inside : ∀ e ∈ elements r (off + len) off, e.off + e.len ≤ r.length := fun e he => by
    have := elements_inside he
    omega
  refine ⟨?_, ?_, ?_, ?_⟩
  · have hpart := foldlM_part Vars.heCap (placeStep r 0x23)
      (fun s e he s' hs => (loopBody_after (inside e he) hs).1) h
    exact hpart.trans (foldl_place _ none)
  · have hpart := foldlM_part Vars.ehtOp (placeStep r 106)
      (fun s e he s' hs => (loopBody_after (inside e he) hs).2.1) h
    exact hpart.trans (foldl_place _ none)
  · have hpart := foldlM_part Vars.ehtCap (placeStep r 108)
      (fun s e he s' hs => (loopBody_after (inside e he) hs).2.2.1) h
    exact hpart.trans (foldl_place _ none)
  · have hpart := foldlM_part (fun v : Vars => (v.mle, v.frag)) (mleStep r)
      (fun s e he s' hs => (loopBody_after (inside e he) hs).2.2.2) h
    have hmle := congrArg Prod.fst hpart
    rw [foldl_mleStep] at hmle
    simpa using hmle

/-! ## EHT -/

section

variable {r : List UInt8} {info : Info} {c c' : McsSet} {set : Option Nat}

theorem McsSet.take_inside {want : Bool} {n : Nat} (h : c.take want n = some (set, c')) :
    (∀ pos ∈ set, pos + n ≤ c.pos + c.len) ∧ c'.pos + c'.len = c.pos + c.len := by
  rw [McsSet.take] at h
  split_ifs at h with hwant hlen
  · cases h
    refine ⟨?_, by simp only; omega⟩
    rintro pos ⟨⟩
    omega
  · cases h
    simp

theorem McsSet.take20_inside (c : McsSet) (want : Bool) :
    (∀ pos ∈ (c.take20 want).1, pos + 4 ≤ c.pos + c.len) ∧
      (c.take20 want).2.pos + (c.take20 want).2.len = c.pos + c.len := by
  rw [McsSet.take20]
  split_ifs with h
  · refine ⟨?_, by simp only; omega⟩
    rintro pos ⟨⟩
    omega
  · simp

theorem readMcs_isSome (n : Nat) (h : ∀ pos ∈ set, pos + n ≤ r.length) :
    ∃ data, readMcs r set n = some data := by
  cases set with
  | none => exact ⟨[], rfl⟩
  | some pos => exact ⟨_, by rw [readMcs, rdN, if_pos (h pos rfl)]⟩

/-- The sets lie in the capabilities, so that reading them returns. -/
theorem readEhtSets_isSome {only20 mcs80 mcs160 mcs320 wide : Bool}
    {sets : Option Nat × Option Nat × Option Nat × Option Nat}
    (inside : c.pos + c.len ≤ r.length)
    (h : ehtSets c only20 mcs80 mcs160 mcs320 = some sets) :
    (readEhtSets r info wide sets).isSome := by
  obtain ⟨s80, h80, h⟩ := bind_eq_some_iff.mp h
  obtain ⟨s160, h160, h⟩ := bind_eq_some_iff.mp h
  obtain ⟨s320, h320, h⟩ := bind_eq_some_iff.mp h
  cases h
  have i20 := c.take20_inside only20
  have i80 := McsSet.take_inside h80
  have i160 := McsSet.take_inside h160
  have i320 := McsSet.take_inside h320
  obtain ⟨b20, e20⟩ := readMcs_isSome (r := r) 4 fun pos hpos =>
    Nat.le_trans (i20.1 pos hpos) inside
  obtain ⟨b80, e80⟩ := readMcs_isSome (r := r) 3 fun pos hpos => by
    have := i80.1 pos hpos
    omega
  obtain ⟨b160, e160⟩ := readMcs_isSome (r := r) 3 fun pos hpos => by
    have := i160.1 pos hpos
    omega
  obtain ⟨b320, e320⟩ := readMcs_isSome (r := r) 3 fun pos hpos => by
    have := i320.1 pos hpos
    omega
  simp [readEhtSets, e20, e80, e160, e320]

/-- A remembered place that lies in the buffer. -/
def PlaceInside (r : List UInt8) (place : Option (Nat × Nat)) : Prop :=
  ∀ p ∈ place, p.1 + p.2 ≤ r.length

theorem parseEhtCap_isSome {is2ghz isNonAp : Bool} {heCap ehtCap : Option (Nat × Nat)}
    (heInside : PlaceInside r heCap) (ehtInside : PlaceInside r ehtCap) :
    (parseEhtCap r info is2ghz isNonAp heCap ehtCap).isSome ↔
      ∀ he ∈ heCap, ∀ eht ∈ ehtCap, 7 ≤ he.2 → 6 ≤ eht.2 → 11 ≤ eht.2 := by
  cases ehtCap with
  | none => simp [parseEhtCap]
  | some eht =>
    have hin : eht.1 + eht.2 ≤ r.length := ehtInside eht rfl
    by_cases h6 : eht.2 < 6
    · simp [parseEhtCap, h6]
    have hread : rdN r (eht.1 + 2) 4 = some (seg r (eht.1 + 2) 4) := if_pos (by omega)
    cases heCap with
    | none => simp [parseEhtCap, hread]
    | some he =>
      have hein : he.1 + he.2 ≤ r.length := heInside he rfl
      by_cases h7 : he.2 < 7
      · simp [parseEhtCap, hread, h7]
      have hbyte := rd_of_lt (r := r) (by omega : he.1 + 6 < r.length)
      by_cases h11 : eht.2 < 11
      · simp only [parseEhtCap, if_neg h6, hread, bind_some, if_neg h7, hbyte, if_pos h11,
          isSome_none, Bool.false_eq_true, false_iff]
        intro h
        have := h he rfl eht rfl (by omega) (by omega)
        omega
      simp only [parseEhtCap, if_neg h6, hread, bind_some, if_neg h7, hbyte, if_neg h11]
      have hright : ∀ he' ∈ some he, ∀ eht' ∈ some eht, 7 ≤ he'.2 → 6 ≤ eht'.2 → 11 ≤ eht'.2 := by
        rintro he' ⟨⟩ eht' ⟨⟩ - -
        omega
      refine iff_of_true ?_ hright
      split
      · rfl
      next hsets =>
      refine readEhtSets_isSome ?_ hsets
      simp only
      omega

theorem parseEhtOp_isSome (info : Info) {ehtOp : Option (Nat × Nat)}
    (inside : PlaceInside r ehtOp) :
    (parseEhtOp r info ehtOp).isSome := by
  cases ehtOp with
  | none => rfl
  | some op =>
    have hin : op.1 + op.2 ≤ r.length := inside op rfl
    rw [parseEhtOp]
    by_cases h1 : op.2 < 1
    · rw [if_pos h1]
      rfl
    rw [if_neg h1, rd_of_lt (by omega : op.1 < r.length), bind_some]
    by_cases h4 : op.2 - 1 < 4
    · rw [if_pos h4]
      rfl
    split_ifs with hinfo h3
    · rfl
    · rw [rdN, if_pos (by omega)]
      rfl
    · rfl

end

/-! ## Multi-link -/

section

variable {mle : List UInt8} {f : Nat → Nat → Option (Option Info)} {bound pos len : Nat}

theorem profileBody_isSome (off len : Nat) (inside : off + len ≤ mle.length) :
    (profileBody mle off len).isSome := by
  rw [profileBody]
  by_cases h2 : len < 2
  · rw [if_pos h2]
    rfl
  rw [if_neg h2, rdN, if_pos (by omega), bind_some]
  by_cases h1 : len - 2 < 1
  · rw [if_pos h1]
    rfl
  rw [rd_of_lt (by omega : off + 2 < mle.length), bind_some]
  split_ifs with h3 h4
  · rfl
  · rfl
  · rw [rdN, if_pos (by omega)]
    rfl

/-- The call for a profile, and what it adds to the information. -/
def addProfile (f : Nat → Nat → Option (Option Info)) (info : Info) (p : Nat × Nat) : Option Info :=
  (f p.1 p.2).map fun partner => partner.elim info (addPartner info)

/-- The loop over the subelements makes one call for each profile. -/
theorem mleLoop_eq (inside : pos + len ≤ mle.length) (hlen : len < bound) (info : Info) :
    mleLoop mle bound (fun off len _ => f off len) pos len hlen info =
      (profiles mle pos len).foldlM (addProfile f) info := by
  fun_induction profiles mle pos len generalizing info with
  | case1 pos len h2 hsub =>
    rw [mleLoop, dif_pos h2, rd_of_lt (by omega : pos < mle.length), bind_some,
      rd_of_lt (by omega : pos + 1 < mle.length), bind_some, dif_pos hsub]
    rfl
  | case2 pos len h2 hsub hid p hp ih =>
    rw [mleLoop, dif_pos h2, rd_of_lt (by omega : pos < mle.length), bind_some,
      rd_of_lt (by omega : pos + 1 < mle.length), bind_some, dif_neg hsub, if_pos hid,
      foldlM_cons]
    split
    · next hp' => cases hp.symm.trans hp'
    · next hp' => cases hp.symm.trans hp'
    next p' hp' =>
    rw [hp] at hp'
    cases hp'
    rw [addProfile]
    cases hf : f p.1 p.2 with
    | none => rfl
    | some partner =>
      rw [bind_some, ih (by omega) (by omega)]
      rfl
  | case3 pos len h2 hsub hid hp =>
    rw [mleLoop, dif_pos h2, rd_of_lt (by omega : pos < mle.length), bind_some,
      rd_of_lt (by omega : pos + 1 < mle.length), bind_some, dif_neg hsub, if_pos hid]
    have some := profileBody_isSome (pos + 2) (mle.getD (pos + 1) 0).toNat
      (by omega : _ ≤ mle.length)
    split
    · next hp' =>
      rw [hp'] at some
      cases some
    · rfl
    · next p' hp' => exact absurd hp' (hp p')
  | case4 pos len h2 hsub hid ih =>
    rw [mleLoop, dif_pos h2, rd_of_lt (by omega : pos < mle.length), bind_some,
      rd_of_lt (by omega : pos + 1 < mle.length), bind_some, dif_neg hsub, if_neg hid,
      ih (by omega) (by omega)]
  | case5 pos len h2 =>
    rw [mleLoop, dif_neg h2]
    rfl

theorem parseMle_eq (hlen : mle.length < bound) (info : Info) :
    parseMle mle bound (fun off len _ => f off len) hlen info =
      (mleProfiles mle).foldlM (addProfile f) info := by
  rw [parseMle, mleProfiles]
  by_cases h2 : mle.length < 2
  · rw [if_pos h2, if_pos (by omega)]
    rfl
  rw [if_neg h2, rdN, if_pos (by omega), bind_some]
  by_cases h3 : mle.length < 3
  · rw [if_pos (by omega), if_pos h3]
    rfl
  rw [if_neg (by omega), if_neg h3, rd_of_lt (by omega : 2 < mle.length), bind_some]
  by_cases hcommon : mle.length - 2 < (mle.getD 2 0).toNat
  · rw [if_pos hcommon, if_pos hcommon]
    rfl
  · rw [if_neg hcommon, if_neg hcommon]
    exact mleLoop_eq (by omega) _ info

variable {p : Nat × Nat}

theorem profiles_inside (h : p ∈ profiles mle pos len) : p.1 + p.2 ≤ pos + len ∧ p.2 < len := by
  fun_induction profiles mle pos len with
  | case1 pos len h2 hsub => cases h
  | case2 pos len h2 hsub hid q hq ih =>
    rcases mem_cons.mp h with rfl | h
    · obtain ⟨hlt, hend⟩ := profileBody_inside hq
      omega
    · have := ih h
      omega
  | case3 pos len h2 hsub hid hp => cases h
  | case4 pos len h2 hsub hid ih =>
    have := ih h
    omega
  | case5 pos len h2 => cases h

theorem mleProfiles_inside (h : p ∈ mleProfiles mle) :
    p.1 + p.2 ≤ mle.length ∧ p.2 < mle.length := by
  unfold mleProfiles at h
  split_ifs at h with h3 hcommon
  · cases h
  · cases h
  · have := profiles_inside h
    omega

end

/-! ## The whole request -/

theorem lastExt_mem {x : UInt8} {e : Elem} (h : lastExt r x els = some e) :
    e ∈ els ∧ IsExt r x e := by
  have go : ∀ (l : List Elem) (last : Option Elem), (∀ a ∈ last, a ∈ els ∧ IsExt r x a) →
      (∀ a ∈ l, a ∈ els) → ∀ a ∈ l.foldl (fun last e => if IsExt r x e then some e else last) last,
        a ∈ els ∧ IsExt r x a := by
    intro l
    induction l with
    | nil => exact fun last hlast _ => hlast
    | cons b l ih =>
      intro last hlast hl
      refine ih _ ?_ fun a ha => hl a (mem_cons_of_mem b ha)
      intro a ha
      simp only at ha
      split_ifs at ha with hb
      · cases ha
        exact ⟨hl b mem_cons_self, hb⟩
      · exact hlast a ha
  exact go els none (by simp) (fun a ha => ha) e h

theorem placeInside_of_lastExt {x : UInt8} (inside : ∀ e ∈ els, e.off + e.len ≤ r.length) :
    PlaceInside r ((lastExt r x els).map placeOf) := by
  intro p hp
  obtain ⟨e, he, rfl⟩ := map_eq_some_iff.mp hp
  obtain ⟨hmem, -, hlen, -⟩ := lastExt_mem he
  have := inside e hmem
  simp only [placeOf]
  omega

theorem ehtSound_iff : EhtSound r els ↔
    ∀ he ∈ (lastExt r 0x23 els).map placeOf, ∀ eht ∈ (lastExt r 108 els).map placeOf,
      7 ≤ he.2 → 6 ≤ eht.2 → 11 ≤ eht.2 := by
  constructor
  · intro h p hp q hq h7 h6
    obtain ⟨he, hhe, rfl⟩ := map_eq_some_iff.mp hp
    obtain ⟨eht, heht, rfl⟩ := map_eq_some_iff.mp hq
    have := h he hhe eht heht
    simp only [placeOf] at h7 h6 ⊢
    omega
  · intro h he hhe eht heht h8 h7
    have := h (placeOf he) (mem_map_of_mem placeOf hhe) (placeOf eht)
      (mem_map_of_mem placeOf heht)
    simp only [placeOf] at this
    omega

/-- The parser returns on a frame exactly if the frame is sound. -/
theorem parse_isSome_iff (opClassToBand : UInt8 → Band) {off len : Nat}
    (inside : off + len ≤ r.length) :
    (parseAssocReqIes opClassToBand r off len).isSome ↔ Sound r off len := by
  induction len using Nat.strongRecOn generalizing r off with
  | ind len ih =>
    have elems : ∀ e ∈ elements r (off + len) off, e.off + e.len ≤ r.length := fun e he => by
      have := elements_inside he
      omega
    have loop : (loopVars r off len).isSome ↔ ∀ e ∈ elements r (off + len) off, ElemSound r e := by
      rw [loopVars, forEachIe_eq inside]
      refine foldlM_isSome fun v e he => ?_
      obtain ⟨v', hv⟩ := takeFragment_isSome (v := v) (elems e he)
      rw [loopBody, hv, bind_some, parseElem_isSome (elems e he)]
    rw [parseAssocReqIes]
    by_cases hzero : len = 0
    · rw [if_pos hzero]
      have none : elements r (off + len) off = [] := by
        rw [elements, if_neg (by omega)]
      refine iff_of_true rfl ⟨?_, ?_, ?_⟩
      · simp [none]
      · simp [none, EhtSound, lastExt]
      · simp [none, mleBody]
    rw [if_neg hzero]
    split
    · next hv =>
      simp only [hv, isSome_none, Bool.false_eq_true, false_iff] at loop ⊢
      rintro ⟨sound, -, -⟩
      exact loop sound
    next v hv =>
    obtain ⟨hhe, hop, hcap, hmle⟩ := loopVars_eq inside hv
    have sound := loop.mp (by rw [hv]; rfl)
    have eht : (parseEhtCap r v.info (is2ghz opClassToBand v.info) false v.heCap
        v.ehtCap).isSome ↔ EhtSound r (elements r (off + len) off) := by
      rw [hhe, hcap, ehtSound_iff]
      exact parseEhtCap_isSome (placeInside_of_lastExt elems) (placeInside_of_lastExt elems)
    cases hinfo : parseEhtCap r v.info (is2ghz opClassToBand v.info) false v.heCap v.ehtCap with
    | none =>
      rw [hinfo] at eht
      refine iff_of_false (by simp) ?_
      rintro ⟨-, sound, -⟩
      cases eht.mpr sound
    | some info =>
      rw [hinfo] at eht
      have ehtSound := eht.mp rfl
      have opInside : PlaceInside r v.ehtOp := by
        rw [hop]
        exact placeInside_of_lastExt elems
      obtain ⟨info', hinfo'⟩ := isSome_iff_exists.mp (parseEhtOp_isSome info opInside)
      rw [bind_some, hinfo', bind_some]
      split
      · next hm =>
        refine iff_of_true rfl ⟨sound, ehtSound, fun mle hmle' => ?_⟩
        rw [← hmle, hm] at hmle'
        cases hmle'
      next mle hm =>
      have hlt := loopVars_mle_lt hv mle hm
      rw [isSome_map, parseMle_eq,
        foldlM_isSome fun info p _ => by rw [addProfile, isSome_map]]
      have calls : (∀ p ∈ mleProfiles mle,
            (parseAssocReqIes opClassToBand mle p.1 p.2).isSome) ↔
          ∀ p ∈ mleProfiles mle, Sound mle p.1 p.2 := by
        refine forall₂_congr fun p hp => ?_
        have := mleProfiles_inside hp
        exact ih p.2 (by omega) (by omega)
      rw [calls]
      constructor
      · intro stations
        refine ⟨sound, ehtSound, fun mle' hmle' => ?_⟩
        rw [← hmle, hm] at hmle'
        cases hmle'
        exact stations
      · rintro ⟨-, -, stations⟩
        exact stations mle (by rw [← hmle, hm])

/-- The parser stays in bounds, and none of its lengths wraps, on the sound frames and on no
others. -/
theorem parse_in_bounds_iff (opClassToBand : UInt8 → Band) (buf : List UInt8) :
    (parseAssocReqIes opClassToBand buf 0 buf.length).isSome ↔ Sound buf 0 buf.length :=
  parse_isSome_iff opClassToBand (by omega)

/-- A frame with nothing but empty extended capabilities is read behind its end, an empty vendor
element wraps the length of its body, and so do EHT capabilities of six bytes. -/
theorem short_elements_out_of_bounds :
    parseAssocReqIes (fun _ => .undefined) [0x7f, 0] 0 2 = none ∧
      parseAssocReqIes (fun _ => .undefined) [0xdd, 0] 0 2 = none ∧
      parseAssocReqIes (fun _ => .undefined) ([0xff, 28, 0x23] ++ List.replicate 27 0 ++
        [0xff, 7, 108, 0, 0, 0, 0, 0, 0]) 0 39 = none := by
  decide +kernel

end OpenSync.Osw.AssocReq
