import OpenSync.Dhcp.Lease

/-!
# The bounds of the DHCP parser

`dhcp_process_message` checks that an option ends inside the payload, and not what it reads of
the option.  `OptionsFit` says which payloads are read inside their bounds.  With it the runs in
which every client keeps its own lease are described by their messages.
-/

namespace OpenSync.Dhcp

open OpenSync.Lib List Option

/-- A read inside the payload gives a byte, and any other read is a fault. -/
def Message.Exact (m : Message) : Prop := ∀ i, (m.get i).isSome ↔ i < m.len

/-- The writes of an option into `fin`, `hostname` and `vendor_class`, with the final zero, fit. -/
def BuffersFit (m : Message) : Prop :=
  ∀ optid popt (optlen : UInt8) s r, handleOption m optid popt optlen.toNat s = some r →
    (r.1.fin ≠ s.fin → r.1.fin.length + 1 ≤ 256) ∧
    (r.1.lease.hostname ≠ s.lease.hostname → optlen.toNat + 1 ≤ fieldSize) ∧
    (r.1.lease.vendorClass ≠ s.lease.vendorClass → optlen.toNat + 1 ≤ fieldSize)

/-- No read is outside the payload, and no write is outside a buffer. -/
def InBounds (s : Session) (m : Message) : Prop := (handler s m).isSome ∧ BuffersFit m

/-- The names of a domain search option from `npos` on end inside the payload and fit the buffer,
which holds `n` bytes of the current name. -/
def NamesFit (m : Message) (popt optlen npos n : Nat) : Prop :=
  ∀ _ : npos < optlen, ∃ len next, m.get (popt + npos) = some len ∧
    m.get (popt + (npos + 1 + len.toNat)) = some next ∧ n + len.toNat ≤ maxDnLen ∧
    if next ≠ 0 then n + len.toNat ≠ maxDnLen ∧
      NamesFit m popt optlen (npos + 1 + len.toNat) (n + len.toNat + 1)
    else NamesFit m popt optlen (npos + 1 + len.toNat + 1) 0
termination_by optlen - npos

/-- What an option reads is inside the payload. -/
def OptionFits (m : Message) (optid : UInt8) (popt optlen : Nat) : Prop :=
  (optid = 50 ∨ optid = 51 → popt + 4 ≤ m.len) ∧ (optid = 53 → popt < m.len) ∧
    (optid = 119 → NamesFit m popt optlen 0 0)

/-- What the options from `popt` on read is inside the payload.  A host name that is too long is
the last option. -/
def OptionsFit (m : Message) (popt : Nat) : Prop :=
  ∀ _ : popt < m.len, ∀ optid, m.get popt = some optid → optid ≠ 255 →
    if optid = 0 then OptionsFit m (popt + 1)
    else ∀ optlen, m.get (popt + 1) = some optlen → popt + 2 + optlen.toNat ≤ m.len →
      OptionFits m optid (popt + 2) optlen.toNat ∧
        (¬(optid = 12 ∧ fieldSize - 1 ≤ optlen.toNat) → OptionsFit m (popt + 2 + optlen.toNat))
termination_by m.len - popt

theorem isSome_bind_some {α β : Type} (o : Option α) (f : α → β) :
    (o.bind fun a => some (f a)).isSome = o.isSome := by
  cases o <;> rfl

variable {m : Message}

theorem mapM_eq (f : Nat → Option UInt8) (l : List Nat) :
    l.mapM f = if ∀ i ∈ l, (f i).isSome then some (l.map fun i => (f i).getD 0) else none := by
  induction l with
  | nil => rfl
  | cons i l ih =>
    cases hi : f i with
    | none => simp [hi]
    | some b => split_ifs with h <;> simp_all

theorem length_of_read {pos n : Nat} {l : List UInt8} (h : m.read pos n = some l) :
    l.length = n := by
  rw [Message.read, mapM_eq] at h
  split_ifs at h
  cases h
  simp

theorem buffersFit (m : Message) : BuffersFit m := by
  intro optid popt optlen s r h
  have hlt := optlen.toNat_lt
  unfold handleOption at h
  split_ifs at h <;> simp only [bind_eq_bind, bind_eq_some_iff, some.injEq] at h <;>
    grind [fieldSize, Lease.setTime, length_of_read]

/-- The message is given up at a host name that is too long. -/
theorem handleOption_flag {optid : UInt8} {popt optlen : Nat} {s : Scan} {r : Scan × Bool}
    (h : handleOption m optid popt optlen s = some r) :
    r.2 = true ↔ optid = 12 ∧ fieldSize - 1 ≤ optlen := by
  unfold handleOption at h
  split_ifs at h <;> simp only [bind_eq_bind, bind_eq_some_iff, some.injEq] at h <;>
    grind [fieldSize]

variable (hm : m.Exact)

include hm

theorem exists_get : ∃ f : Nat → UInt8, ∀ i < m.len, m.get i = some (f i) := by
  refine ⟨fun i => (m.get i).getD 0, fun i hi => ?_⟩
  obtain ⟨b, hb⟩ := isSome_iff_exists.mp ((hm i).mpr hi)
  simp [hb]

theorem read_isSome (pos n : Nat) : (m.read pos n).isSome ↔ ∀ i < n, pos + i < m.len := by
  simp [Message.read, mapM_eq, hm (pos + _)]

theorem copyLabel_length (n pos : Nat) {fqdn : List UInt8} (hpos : pos + n ≤ m.len)
    (hlen : fqdn.length ≤ maxDnLen) : (copyLabel m pos n fqdn).map length =
      if fqdn.length + n ≤ maxDnLen then some (fqdn.length + n) else none := by
  obtain ⟨f, hf⟩ := exists_get hm
  induction n generalizing pos fqdn with
  | zero => simp [copyLabel, hlen]
  | succ n ih =>
    simp only [copyLabel, hf pos (by omega), bind_eq_bind, bind_some]
    by_cases hfull : fqdn.length < maxDnLen
    · simp only [putByte, hfull, if_true, bind_some]
      rw [ih _ (by omega) (by simp only [length_append, length_singleton]; omega)]
      simp [Nat.add_comm, Nat.add_left_comm]
    · simp only [putByte, hfull, if_false, bind_none, Option.map_none]
      rw [if_neg (by omega)]

theorem localDomains_isSome_iff (popt optlen npos : Nat) (fqdn : List UInt8)
    (hlen : fqdn.length ≤ maxDnLen) (domains : List (List UInt8)) :
    (localDomains m popt optlen npos fqdn domains).isSome ↔
      NamesFit m popt optlen npos fqdn.length := by
  induction h : optlen - npos using Nat.strong_induction_on generalizing npos fqdn domains with
  | _ k ih =>
    rw [localDomains, NamesFit]
    by_cases hpos : npos < optlen
    · simp only [hpos]
      cases hget : m.get (popt + npos) with
      | none => simp
      | some len =>
        cases hnext : m.get (popt + (npos + 1 + len.toNat)) with
        | none => simp [hnext]
        | some next =>
          have hlt := (hm _).mp (isSome_of_eq_some hnext)
          have hcopy := copyLabel_length hm len.toNat (popt + npos + 1) (by omega) hlen
          by_cases hfit : fqdn.length + len.toNat ≤ maxDnLen
          · rw [if_pos hfit, map_eq_some_iff] at hcopy
            obtain ⟨name, hname, hlen'⟩ := hcopy
            by_cases hend : next = 0
            · have hrec := ih _ (by omega) (npos + 1 + len.toNat + 1) [] (by simp)
                (addDomain domains name) rfl
              simpa [hname, hnext, hend, hfit] using hrec
            · by_cases hfull : name.length < maxDnLen
              · have hrec := ih _ (by omega) (npos + 1 + len.toNat) (name ++ [46])
                  (by simp; omega) domains rfl
                simp [hname, hnext, hend, putByte, hfull, hrec, ← hlen', hfull.le, hfull.ne]
              · simp [hname, hnext, hend, putByte, hfull]
                omega
          · rw [if_neg hfit, map_eq_none_iff] at hcopy
            simp [hcopy, hfit]
    · simp [hpos]

theorem handleOption_isSome_iff (optid : UInt8) {popt optlen : Nat} (s : Scan)
    (hlen : popt + optlen ≤ m.len) :
    (handleOption m optid popt optlen s).isSome ↔ OptionFits m optid popt optlen := by
  have hread : (m.read popt optlen).isSome := (read_isSome hm _ _).mpr fun i hi => by omega
  have hread4 : (m.read popt 4).isSome ↔ popt + 4 ≤ m.len := by
    rw [read_isSome hm]
    exact ⟨fun h => h 3 (by omega), fun h i hi => by omega⟩
  have hget := hm popt
  have hnames := localDomains_isSome_iff hm popt optlen 0 [] (by simp) s.domains
  unfold handleOption OptionFits
  split_ifs <;> simp_all [isSome_bind_some]

theorem scanOptions_isSome_iff (popt : Nat) (s : Scan) :
    (scanOptions m popt s).isSome ↔ OptionsFit m popt := by
  obtain ⟨f, hf⟩ := exists_get hm
  induction h : m.len - popt using Nat.strong_induction_on generalizing popt s with
  | _ k ih =>
    rw [scanOptions, OptionsFit]
    by_cases hpos : popt < m.len
    · simp only [hpos, hf popt hpos, if_true, bind_eq_bind, bind_some, some.injEq,
        forall_eq']
      by_cases hend : f popt = 255
      · simp [hend]
      by_cases hpad : f popt = 0
      · simpa [hpad] using ih _ (by omega) (popt + 1) s rfl
      simp only [hend, hpad, ne_eq, forall_const]
      by_cases hshort : m.len < popt + 2
      · simp [hshort]
        omega
      simp only [hshort, if_false, hf (popt + 1) (by omega), bind_some, some.injEq, forall_eq']
      generalize (f (popt + 1)).toNat = optlen
      by_cases hcut : m.len < popt + 2 + optlen
      · simp [hcut]
      have hin := Nat.le_of_not_lt hcut
      rw [if_neg hcut, ← handleOption_isSome_iff hm _ s hin]
      simp only [hin]
      cases hr : handleOption m (f popt) (popt + 2) optlen s with
      | none => simp
      | some r =>
        have hrec := ih _ (by omega) (popt + 2 + optlen) r.1 rfl
        by_cases hflag : r.2 = true
        · simp [hflag, (handleOption_flag hr).mp hflag]
        · have hnot := (handleOption_flag hr).not.mp hflag
          simp only [bind_some, if_neg hflag, hrec, isSome_some, true_and, hnot,
            not_false_eq_true, forall_const]
    · simp [hpos]

theorem handleLease_isSome_iff (hlen : 240 ≤ m.len) (domains : List (List UInt8)) (lease : Lease) :
    (handleLease m domains lease).isSome ↔ OptionsFit m 240 := by
  rw [← scanOptions_isSome_iff hm 240
    { lease := lease, msgType := 0, fin := [], domains := domains, reports := [] }, handleLease]
  cases scanOptions m 240 _ with
  | none => simp
  | some r =>
    obtain ⟨f, hf⟩ := exists_get hm
    have hfinish : (finish m r.1).isSome := by
      unfold finish setInetAddr
      split_ifs <;> simp [hf 16 (by omega), hf 17 (by omega), hf 18 (by omega), hf 19 (by omega)]
    by_cases hflag : r.2 = true <;> simp [hflag, isSome_bind_some, hfinish]

theorem exists_client (hlen : 240 ≤ m.len) : ∃ mac, m.client = some mac := by
  obtain ⟨magic, hmagic⟩ := isSome_iff_exists.mp
    ((read_isSome hm 236 4).mpr fun i hi => by omega)
  obtain ⟨f, hf⟩ := exists_get hm
  rw [Message.client]
  split_ifs
  · exact ⟨_, rfl⟩
  by_cases hm' : ofBe32 magic = dhcpMagic <;>
    simp [hmagic, hm', hf 28 (by omega), hf 29 (by omega), hf 30 (by omega), hf 31 (by omega),
      hf 32 (by omega), hf 33 (by omega)]

/-- A message is handled without a fault exactly when a DHCP payload has the whole header and what
its options read fits. -/
theorem handler_isSome_iff (s : Session) : (handler s m).isSome ↔
    (parseContent m ≠ 0 → 240 ≤ m.len) ∧ ∀ mac, m.client = some (some mac) → OptionsFit m 240 := by
  by_cases hcontent : parseContent m = 0
  · simp [handler, Message.client, hcontent]
  by_cases hlen : 240 ≤ m.len
  · obtain ⟨mac, hmac⟩ := exists_client hm hlen
    cases mac with
    | none => simp [handler, hmac, hlen]
    | some mac =>
      rw [← handleLease_isSome_iff hm hlen s.domains (lookupLease s.leases mac).1]
      simp [handler, hmac, hlen, processMessage, isSome_bind_some]
  · have hmagic : m.read 236 4 = none := by
      rw [← not_isSome_iff_eq_none, read_isSome hm]
      exact fun h => by have := h 3 (by omega); omega
    simp [handler, Message.client, hcontent, hmagic, hlen]

/-- A DHCP payload is handled inside its bounds exactly when it has the whole header and what its
options read fits. -/
theorem inBounds_iff (hcontent : parseContent m ≠ 0) (s : Session) :
    InBounds s m ↔ 240 ≤ m.len ∧ ∀ mac, m.client = some (some mac) → OptionsFit m 240 := by
  rw [InBounds, and_iff_left (buffersFit m), handler_isSome_iff hm]
  simp [hcontent]

omit hm

theorem message_exact (last : UInt8) (options : List UInt8) : (message last options).Exact := by
  intro i
  simp only [message]
  split_ifs <;> simp <;> omega

theorem inBounds_ack : (ack 1).Exact ∧ parseContent (ack 1) ≠ 0 ∧
    InBounds Session.init (ack 1) ∧ OptionsFit (ack 1) 240 := by
  have hcontent : parseContent (ack 1) ≠ 0 := by decide
  have hin : InBounds Session.init (ack 1) := ⟨by decide +kernel, buffersFit _⟩
  exact ⟨message_exact _ _, hcontent, hin,
    ((inBounds_iff (message_exact _ _) hcontent _).mp hin).2 (clientAt 1) (by decide +kernel)⟩

/-- An empty lease time at the end of the payload: four bytes behind the payload are read. -/
theorem not_inBounds_empty_time : (message 1 [51, 0]).Exact ∧ parseContent (message 1 [51, 0]) ≠ 0 ∧
    ¬InBounds Session.init (message 1 [51, 0]) := by
  refine ⟨message_exact _ _, by decide, fun h => ?_⟩
  have hnone : handler Session.init (message 1 [51, 0]) = none := by decide +kernel
  rw [InBounds, hnone] at h
  exact absurd h.1 (by decide)

/-! ## Runs of messages -/

/-- The payload is read inside its bounds, and no other client whose address starts with the same
two octets has a record. -/
structure Separate (s : Session) (m : Message) : Prop where
  header : parseContent m ≠ 0 → 240 ≤ m.len
  options : ∀ mac, m.client = some (some mac) → OptionsFit m 240
  apart : ∀ mac, m.client = some (some mac) → Apart s mac

theorem fine_iff_separate (hm : m.Exact) (s : Session) : Fine s m ↔ Separate s m := by
  rw [Fine, handler_isSome_iff hm]
  exact ⟨fun h => ⟨h.1.1, h.1.2, h.2⟩, fun h => ⟨⟨h.header, h.options⟩, h.apart⟩⟩

theorem always_congr {P Q : Session → Message → Prop} {ms : List Message}
    (h : ∀ m ∈ ms, ∀ s, P s m ↔ Q s m) (s : Session) : Always P s ms ↔ Always Q s ms := by
  induction ms generalizing s with
  | nil => exact Iff.rfl
  | cons m ms ih =>
    refine and_congr (h m mem_cons_self s) (forall_congr' fun s' => forall_congr' fun _ => ?_)
    exact imp_congr_right fun _ => ih (fun m hm => h m (mem_cons_of_mem _ hm)) s'

/-- The messages of a run, from any clients, each touch the record of their own client only
exactly when each is read inside its bounds and none comes while a client whose address starts with
the same two octets has a record. -/
theorem leases_perClient_iff (ms : List Message) (hms : ∀ m ∈ ms, m.Exact) :
    Always PerClient Session.init ms ↔ Always Separate Session.init ms :=
  (always_perClient_iff Session.init_wf ms).trans
    (always_congr (fun m hm s => fine_iff_separate (hms m hm) s) _)

/-- An acknowledgement for a client of another make. -/
def otherAck : Message :=
  { ack 2 with get := fun i => if i = 28 then some 0x10 else (ack 2).get i }

theorem leases_perClient_iff_twoMakes :
    Always Separate Session.init [ack 1, otherAck] ∧
      Always PerClient Session.init [ack 1, otherAck] := by
  have hexact : ∀ m ∈ [ack 1, otherAck], m.Exact := by
    have hack : ∀ last, (ack last).Exact := fun last => message_exact _ _
    refine forall_mem_cons.mpr ⟨hack 1, forall_mem_singleton.mpr fun i => ?_⟩
    by_cases hi : i = 28
    · simp only [otherAck, hi]
      decide
    · simpa [otherAck, hi] using hack 2 i
  have first : handler Session.init (ack 1) =
      some (⟨[granted 1 1], []⟩, [grantedUpdate 1 1]) := by decide +kernel
  have separate : ∀ (s : Session) (m : Message), m ∈ [ack 1, otherAck] → (handler s m).isSome →
      (∀ mac, m.client = some (some mac) → Apart s mac) → Separate s m := fun s m hm hs hapart =>
    (fine_iff_separate (hexact m hm) s).mp ⟨hs, hapart⟩
  have always : Always Separate Session.init [ack 1, otherAck] := by
    refine ⟨separate _ _ (by simp) (by rw [first]; rfl) fun mac _ other _ _ _ => rfl, ?_⟩
    intro s' sent hs'
    rw [first] at hs'
    cases hs'
    refine ⟨separate _ _ (by simp) (by decide +kernel) ?_, fun _ _ _ => trivial⟩
    have hclient : otherAck.client = some (some ⟨0x10, 0xbb, 0xcc, 0xdd, 0xee, 2⟩) := by
      decide +kernel
    rintro mac hmac other - h0 -
    rw [hclient] at hmac
    cases hmac
    -- the one record is that of the first client
    refine find?_eq_none.mpr fun lease hlease haddr => ?_
    rw [mem_singleton.mp hlease] at haddr
    have hsame : clientAt 1 = other := str_inj (of_decide_eq_true haddr)
    rw [← hsame] at h0
    exact absurd h0 (by decide)
  exact ⟨always, (leases_perClient_iff _ hexact).mpr always⟩

end OpenSync.Dhcp
