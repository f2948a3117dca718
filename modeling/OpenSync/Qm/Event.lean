import OpenSync.Qm.Conn
import Mathlib.Data.List.Forall2

/-!
# Reassembly of requests in `qm_event.c`

The server reads from a connection into a buffer that grows by `QM_BUF_CHUNK` when less than that
is free, takes every complete request off its front, and moves the rest to the start.

`Handled` says what a part of the stream has become: the requests that end in it are delivered,
the bytes of the next one wait in the buffer.  It holds after any number of callbacks
(`Handled.trans`).  The one thing that can go wrong is the growth of the buffer, whose new size
does not fit an `int` when it holds `maxFrame` bytes.
-/

namespace OpenSync.Qm

open OpenSync.Lib List Option

/-! ## The connection -/

/-- `QM_BUF_CHUNK`. -/
def bufChunk : Int := 64 * 1024

/-- `qm_async_ctx_t`.  `buf` are the bytes of the buffer below `size`. -/
structure Ctx where
  buf : List UInt8
  allocated : Int
  size : Int

/-- `qm_ctx_freebuf`, also the state of a new connection. -/
def Ctx.free : Ctx := ⟨[], 0, 0⟩

/-- `qm_ctx_shift_buf`, or `none` if its assertion fails or it would move bytes from in
front of the buffer. -/
def shiftBuf (ctx : Ctx) (size : Int) : Option Ctx :=
  if size < 0 ∨ ctx.size < size then none
  else if ctx.size - size = 0 then some Ctx.free
  else some { ctx with buf := ctx.buf.drop size.toNat, size := ctx.size - size }

/-- The loop of `qm_async_handle_req`: the items that it hands to `qm_enqueue_and_reply`.  The first
argument bounds the rounds. -/
def handleLoop : Nat → Ctx → Option (Ctx × List Item)
  | 0, _ => none
  | fuel + 1, ctx =>
    match parseReq ctx.buf ctx.size with
    | none => some (ctx, [])
    | some qi => do
      let ctx ← shiftBuf ctx (totalOf qi.req)
      let (ctx, items) ← handleLoop fuel ctx
      return (ctx, { qi with size := qi.req.dataSize.toNat } :: items)

/-- `qm_async_handle_req`.  A request is at least one byte long, so the loop needs no more
rounds than this. -/
def asyncHandleReq (ctx : Ctx) : Option (Ctx × List Item) := handleLoop (ctx.buf.length + 1) ctx

/-- The growth of the buffer in `qm_async_callback`.  A negative size is a huge `size_t` that
`REALLOC` never gets. -/
def growBuf (ctx : Ctx) : Option Ctx :=
  if ctx.allocated - ctx.size < bufChunk then
    if toInt (ctx.allocated + bufChunk) < 0 then none
    else some { ctx with allocated := toInt (ctx.allocated + bufChunk) }
  else some ctx

/-- `qm_async_callback` for a result of `read`: `none` for an error, no bytes at the end of the
stream.  Both release the connection. -/
def asyncCallback (ctx : Ctx) (rd : Option (List UInt8)) : Option (Option Ctx × List Item) := do
  let ctx ← growBuf ctx
  match rd with
  | none => return (none, [])
  | some [] => return (none, [])
  | some (b :: bs) =>
    let (ctx, items) ← asyncHandleReq
      { ctx with buf := ctx.buf ++ b :: bs, size := ctx.size + (b :: bs).length }
    return (some ctx, items)

/-- The callbacks for successive reads. -/
def reads : Ctx → List (List UInt8) → Option (Option Ctx × List Item)
  | ctx, [] => some (some ctx, [])
  | ctx, c :: cs => do
    match ← asyncCallback ctx (some c) with
    | (none, items) => return (none, items)
    | (some ctx, items) =>
      let (ctx, more) ← reads ctx cs
      return (ctx, items ++ more)

/-- Each read brings at least one byte and not more than are free in the buffer. -/
def Fitting : Ctx → List (List UInt8) → Prop
  | _, [] => True
  | ctx, c :: cs =>
    (∀ ctx', growBuf ctx = some ctx' → 1 ≤ c.length ∧ c.length ≤ ctx'.allocated - ctx'.size) ∧
      ∀ ctx' items, asyncCallback ctx (some c) = some (some ctx', items) → Fitting ctx' cs

/-! ## Streams -/

/-- The arguments of a call of `qm_conn_write_req`. -/
structure Sent where
  req : Request
  topic : Option CStr
  data : List UInt8

def Sent.frame (s : Sent) : List UInt8 := Qm.frame s.req s.topic s.data

/-- The item has the contents of the request. -/
def Delivers (s : Sent) (qi : Item) : Prop :=
  Carries s.req s.topic s.data qi ∧ qi.size = s.data.length

/-- The stream of successful writes, one after the other. -/
inductive Written : List Sent → List UInt8 → Prop where
  | nil : Written [] []
  | cons {s : Sent} {ss : List Sent} {ret : Nat → Int} {out rest : List UInt8}
      (hw : writeReq ret s.req s.topic s.data = (true, out)) (h : Written ss rest) :
      Written (s :: ss) (out ++ rest)

/-- The requests that end within the first `n` bytes. -/
def complete : Nat → List Sent → List Sent
  | _, [] => []
  | n, s :: ss => if s.frame.length ≤ n then s :: complete (n - s.frame.length) ss else []

/-- However the stream is cut, the requests read to their end are delivered, and the buffer is large
enough. -/
def Reassembled (ss : List Sent) : Prop :=
  ∀ stream cs, Written ss stream → cs.flatten <+: stream → Fitting Ctx.free cs →
    ∃ ctx items, reads Ctx.free cs = some (some ctx, items) ∧
      List.Forall₂ Delivers (complete cs.flatten.length ss) items ∧
      0 ≤ ctx.size ∧ ctx.size ≤ ctx.allocated

/-- The longest request that always fits. -/
def maxFrame : Nat := 2 ^ 31 - 2 ^ 17 + 1

/-! ## One request -/

theorem Sent.reqSize_le (s : Sent) : reqSize ≤ s.frame.length := by
  rw [Sent.frame, length_frame]
  omega

theorem complete_zero (ss : List Sent) : complete 0 ss = [] := by
  cases ss with
  | nil => rfl
  | cons s ss =>
    have hle := s.reqSize_le
    rw [complete, if_neg (by rw [reqSize] at hle; omega)]

variable {ss : List Sent} {ctx : Ctx} {rest c : List UInt8} {ss' : List Sent} {buf : List UInt8}
  {items : List Item}

theorem Written.stream_eq {stream : List UInt8} (h : Written ss stream)
    (hlen : ∀ s ∈ ss, s.frame.length < 2 ^ 31) : stream = (ss.map Sent.frame).flatten := by
  induction h with
  | nil => rfl
  | @cons s ss ret out rest hw h ih =>
    rw [map_cons, ih (fun t ht => hlen t (mem_cons_of_mem _ ht))]
    exact congrArg (· ++ _) (by
      rw [sendAll_true hw, flatten_sendBufs (hlen s mem_cons_self)]
      rfl)

/-- The fields `buf` and `size` agree, and the buffer is large enough. -/
structure Ctx.Ok (ctx : Ctx) : Prop where
  size : ctx.size = ctx.buf.length
  fits : ctx.size ≤ ctx.allocated
  bound : ctx.allocated < 2 ^ 31
  chunks : bufChunk ∣ ctx.allocated

theorem Ctx.free_ok : Ctx.free.Ok := ⟨rfl, by decide, by decide, by decide⟩

section

variable (hok : ctx.Ok)

include hok

/-- A request at the front of the buffer is taken off. -/
theorem shiftBuf_frame {s : Sent} (hbuf : ctx.buf = s.frame ++ rest) :
    ∃ ctx', shiftBuf ctx s.frame.length = some ctx' ∧ ctx'.Ok ∧ ctx'.buf = rest := by
  have hsize := hok.size
  have hfits := hok.fits
  have hbound := hok.bound
  rw [hbuf, length_append] at hsize
  rw [shiftBuf, if_neg (by omega)]
  split_ifs with hzero
  · have hnil : rest = [] := length_eq_zero_iff.mp (by omega)
    exact ⟨_, rfl, Ctx.free_ok, hnil.symm⟩
  refine ⟨_, rfl, ⟨?_, ?_, hbound, hok.chunks⟩, ?_⟩
  · simp only [hbuf, Int.toNat_natCast, drop_left]
    omega
  · simp only
    omega
  · simp [hbuf]

/-- What remains when the complete requests are taken off. -/
structure Handled (ss : List Sent) (buf : List UInt8) (ctx : Ctx) (items : List Item)
    (ss' : List Sent) : Prop where
  ok : ctx.Ok
  delivered : List.Forall₂ Delivers (complete buf.length ss) items
  rest : ss = complete buf.length ss ++ ss'
  part : buf = ((complete buf.length ss).map Sent.frame).flatten ++ ctx.buf
  idle : complete ctx.buf.length ss' = []

theorem handleLoop_spec {fuel : Nat} (hfuel : ctx.buf.length < fuel)
    (hlen : ∀ s ∈ ss, s.frame.length < 2 ^ 31) (hbuf : ctx.buf <+: (ss.map Sent.frame).flatten) :
    ∃ ctx' items ss', handleLoop fuel ctx = some (ctx', items) ∧
      Handled ss ctx.buf ctx' items ss' := by
  induction fuel generalizing ctx ss with
  | zero => omega
  | succ fuel ih =>
    cases ss with
    | nil =>
      have hnil : ctx.buf = [] := by simpa using hbuf
      have hparse : parseReq ctx.buf ctx.size = none := by
        rw [parseReq, if_pos (by rw [hok.size, hnil]; decide)]
      refine ⟨ctx, [], [], ?_, hok, .nil, rfl, ?_, rfl⟩
      · rw [handleLoop, hparse]
      · simp [complete]
    | cons s ss =>
      have hs := hlen s mem_cons_self
      by_cases hle : s.frame.length ≤ ctx.buf.length
      · -- the request `s` is complete; `rest` goes on with the requests behind it
        obtain ⟨rest, hrest⟩ : s.frame <+: ctx.buf :=
          prefix_of_prefix_length_le (prefix_append _ _) hbuf hle
        have hsize : (s.frame.length : Int) ≤ ctx.size := by
          rw [hok.size]
          exact_mod_cast hle
        obtain ⟨qi, hparse, hcarries, -⟩ := parseReq_frame hs rest hsize
        obtain ⟨ctx1, hshift, hok1, hbuf1⟩ := shiftBuf_frame hok hrest.symm
        have htotal : totalOf qi.req = s.frame.length := by
          rw [hcarries.header]
          exact totalOf_header hs
        have hrest' : ctx1.buf <+: (ss.map Sent.frame).flatten := by
          rw [← hrest] at hbuf
          rw [hbuf1]
          exact (prefix_append_right_inj _).mp hbuf
        have hlt : ctx1.buf.length < fuel := by
          have hpos : 0 < s.frame.length := Nat.lt_of_lt_of_le (by decide) s.reqSize_le
          rw [← hrest, length_append] at hfuel
          rw [hbuf1]
          omega
        obtain ⟨ctx', items, ss', hloop, hdone⟩ :=
          ih hok1 hlt (fun t ht => hlen t (mem_cons_of_mem _ ht)) hrest'
        have hcomplete : complete ctx.buf.length (s :: ss) = s :: complete ctx1.buf.length ss := by
          rw [complete, if_pos hle, hbuf1, ← hrest, length_append, Nat.add_sub_cancel_left]
        refine ⟨ctx', { qi with size := qi.req.dataSize.toNat } :: items, ss', ?_, hdone.ok,
          ?_, ?_, ?_, hdone.idle⟩
        · have hparse' : parseReq ctx.buf ctx.size = some qi := by
            rw [← hrest]
            exact hparse
          rw [handleLoop, hparse']
          simp [htotal, hshift, hloop]
        · rw [hcomplete]
          refine .cons ⟨⟨hcarries.header, hcarries.topic, hcarries.buf⟩, ?_⟩ hdone.delivered
          simp only [hcarries.header]
          exact dataSize_header hs
        · rw [hcomplete, cons_append, ← hdone.rest]
        · rw [hcomplete, map_cons, flatten_cons, append_assoc, ← hdone.part, hbuf1, hrest]
      · have hpart : ctx.buf <+: s.frame :=
          prefix_of_prefix_length_le hbuf (prefix_append _ _) (by omega)
        have hparse : parseReq ctx.buf ctx.size = none := by
          rw [hok.size]
          exact parseReq_part hs hpart (Nat.lt_of_not_le hle)
        have hcomplete : complete ctx.buf.length (s :: ss) = [] := by
          rw [complete, if_neg hle]
        refine ⟨ctx, [], s :: ss, ?_, hok, ?_, ?_, ?_, hcomplete⟩
        · rw [handleLoop, hparse]
        · rw [hcomplete]
          exact .nil
        · rw [hcomplete]
          rfl
        · simp [hcomplete]

/-! ## The callback -/

theorem growBuf_some {ctx' : Ctx} (h : growBuf ctx = some ctx') :
    ctx'.Ok ∧ ctx'.buf = ctx.buf ∧ bufChunk ≤ ctx'.allocated - ctx'.size := by
  have hsize := hok.size
  have hfits := hok.fits
  have hbound := hok.bound
  unfold growBuf at h
  split_ifs at h with hgrow hneg
  · have hnew : toInt (ctx.allocated + bufChunk) = ctx.allocated + bufChunk := by
      simp only [toInt, bufChunk, Int.bmod_def] at hneg ⊢
      omega
    have hlt : ctx.allocated + bufChunk < 2 ^ 31 := by
      simp only [toInt, bufChunk, Int.bmod_def] at hneg ⊢
      omega
    cases h
    rw [hnew]
    refine ⟨⟨hsize, ?_, hlt, Int.dvd_add hok.chunks (Int.dvd_refl _)⟩, rfl, ?_⟩
    · simp only [bufChunk]
      omega
    · simp only
      omega
  · cases h
    exact ⟨hok, rfl, by omega⟩

/-- The buffer can grow as long as it holds less than a longest request. -/
theorem growBuf_isSome (hlt : ctx.buf.length < maxFrame) : ∃ ctx', growBuf ctx = some ctx' := by
  have hsize := hok.size
  have hfits := hok.fits
  unfold growBuf
  split_ifs with hgrow hneg
  · simp only [toInt, bufChunk, Int.bmod_def, maxFrame] at hneg hgrow hlt
    omega
  · exact ⟨_, rfl⟩
  · exact ⟨_, rfl⟩

/-- With so many bytes in the buffer its new size is negative. -/
theorem growBuf_maxFrame (hlen : ctx.buf.length = maxFrame) : growBuf ctx = none := by
  have hsize := hok.size
  have hfits := hok.fits
  have hbound := hok.bound
  obtain ⟨k, hk⟩ := hok.chunks
  rw [hlen] at hsize
  simp only [bufChunk, maxFrame] at hk hsize
  have hk' : ctx.allocated = 2 ^ 31 - 2 ^ 16 := by omega
  unfold growBuf
  rw [if_pos (by rw [hk', hsize]; decide), if_pos (by rw [hk']; decide)]

/-- A callback that can grow the buffer handles the bytes in it. -/
theorem asyncCallback_spec {ctx1 : Ctx} (hlen : ∀ s ∈ ss, s.frame.length < 2 ^ 31)
    (hgrow : growBuf ctx = some ctx1) (hpos : 1 ≤ c.length)
    (hfree : c.length ≤ ctx1.allocated - ctx1.size)
    (hbuf : ctx.buf ++ c <+: (ss.map Sent.frame).flatten) :
    ∃ ctx' items ss', asyncCallback ctx (some c) = some (some ctx', items) ∧
      Handled ss (ctx.buf ++ c) ctx' items ss' := by
  obtain ⟨hok1, hbuf1, -⟩ := growBuf_some hok hgrow
  obtain ⟨b, bs, rfl⟩ := exists_cons_of_length_pos hpos
  have hok2 : (⟨ctx1.buf ++ b :: bs, ctx1.allocated, ctx1.size + (b :: bs).length⟩ : Ctx).Ok := by
    refine ⟨?_, ?_, hok1.bound, hok1.chunks⟩
    · simp only [hok1.size, length_append]
      omega
    · simp only
      omega
  obtain ⟨ctx', items, ss', hloop, hdone⟩ := handleLoop_spec hok2 (Nat.lt_succ_self _) hlen
    (by rw [hbuf1]; exact hbuf)
  refine ⟨ctx', items, ss', ?_, ?_⟩
  · have hreq : asyncHandleReq ⟨ctx1.buf ++ b :: bs, ctx1.allocated,
        ctx1.size + (b :: bs).length⟩ = some (ctx', items) := hloop
    rw [asyncCallback, hgrow]
    simp only [bind_eq_bind, bind_some, hreq]
    rfl
  · simpa [hbuf1] using hdone

end

theorem asyncCallback_none (h : growBuf ctx = none) : asyncCallback ctx (some c) = none := by
  rw [asyncCallback, h]
  rfl

/-! ## The whole stream -/

/-- More bytes complete more requests. -/
theorem complete_add {n r : Nat} (m : Nat) (hss : ss = complete n ss ++ ss')
    (hn : n = ((complete n ss).map Sent.frame).flatten.length + r) :
    complete (n + m) ss = complete n ss ++ complete (r + m) ss' := by
  induction ss generalizing n with
  | nil =>
    obtain rfl : ss' = [] := by simpa [complete] using hss.symm
    simp [complete]
  | cons s ss ih =>
    by_cases hle : s.frame.length ≤ n
    · have hcomp : complete n (s :: ss) = s :: complete (n - s.frame.length) ss := by
        rw [complete, if_pos hle]
      rw [hcomp] at hss hn ⊢
      simp only [map_cons, flatten_cons, length_append] at hn
      rw [complete, if_pos (by omega), cons_append, Nat.sub_add_comm hle]
      rw [ih (by simpa using hss) (by omega)]
    · have hcomp : complete n (s :: ss) = [] := by rw [complete, if_neg hle]
      rw [hcomp] at hss hn ⊢
      rw [hss, hn]
      simp

theorem Handled.refl (hok : ctx.Ok) (hidle : complete ctx.buf.length ss = []) :
    Handled ss ctx.buf ctx [] ss := by
  refine ⟨hok, ?_, ?_, ?_, hidle⟩
  · rw [hidle]
    exact .nil
  · rw [hidle]
    rfl
  · simp [hidle]

/-- What is read later goes on with the rest of what was read first. -/
theorem Handled.trans {ss1 ss2 : List Sent} {ctx1 ctx2 : Ctx} {more : List Item}
    (h1 : Handled ss buf ctx1 items ss1) (h2 : Handled ss1 (ctx1.buf ++ rest) ctx2 more ss2) :
    Handled ss (buf ++ rest) ctx2 (items ++ more) ss2 := by
  have hcomplete : complete (buf ++ rest).length ss =
      complete buf.length ss ++ complete (ctx1.buf ++ rest).length ss1 := by
    rw [length_append, length_append]
    refine complete_add rest.length h1.rest ?_
    rw [← length_append, ← h1.part]
  refine ⟨h2.ok, ?_, ?_, ?_, h2.idle⟩
  · rw [hcomplete]
    exact rel_append h1.delivered h2.delivered
  · rw [hcomplete, append_assoc, ← h2.rest, ← h1.rest]
  · rw [hcomplete, map_append, flatten_append, append_assoc, ← h2.part, ← append_assoc, ← h1.part]

/-- The stream goes on with the requests that are to come. -/
theorem Handled.prefix_rest (h : Handled ss buf ctx items ss')
    (hpre : buf ++ rest <+: (ss.map Sent.frame).flatten) :
    ctx.buf ++ rest <+: (ss'.map Sent.frame).flatten := by
  have hstream : (ss.map Sent.frame).flatten =
      ((complete buf.length ss).map Sent.frame).flatten ++ (ss'.map Sent.frame).flatten := by
    rw [← flatten_append, ← map_append, ← h.rest]
  rw [← prefix_append_right_inj, ← hstream, ← append_assoc, ← h.part]
  exact hpre

theorem Handled.mem (h : Handled ss buf ctx items ss') {s : Sent} (hs : s ∈ ss') : s ∈ ss := by
  rw [h.rest]
  exact mem_append_right _ hs

/-- Between two callbacks the buffer holds less than a longest request. -/
theorem lt_maxFrame_of_idle (hidle : complete buf.length ss = [])
    (hlen : ∀ s ∈ ss, s.frame.length ≤ maxFrame) (hpre : buf <+: (ss.map Sent.frame).flatten) :
    buf.length < maxFrame := by
  cases ss with
  | nil =>
    have hnil : buf = [] := by simpa using hpre
    rw [hnil]
    decide
  | cons s ss =>
    rw [complete] at hidle
    split_ifs at hidle with hle
    exact Nat.lt_of_lt_of_le (Nat.lt_of_not_le hle) (hlen s mem_cons_self)

theorem reads_cons {ctx1 : Ctx} (h : asyncCallback ctx (some c) = some (some ctx1, items))
    (cs : List (List UInt8)) :
    reads ctx (c :: cs) = (reads ctx1 cs).map (fun r => (r.1, items ++ r.2)) := by
  rw [reads, h]
  cases hreads : reads ctx1 cs <;> simp [hreads]

/-- Reads that succeed deliver the requests, and succeed if no request is too long. -/
theorem reads_handled {cs : List (List UInt8)} (hok : ctx.Ok)
    (hidle : complete ctx.buf.length ss = []) (hlen : ∀ s ∈ ss, s.frame.length < 2 ^ 31)
    (hpre : ctx.buf ++ cs.flatten <+: (ss.map Sent.frame).flatten) (hfit : Fitting ctx cs)
    (hrun : (∀ s ∈ ss, s.frame.length ≤ maxFrame) ∨ reads ctx cs ≠ none) :
    ∃ ctx' items ss', reads ctx cs = some (some ctx', items) ∧
      Handled ss (ctx.buf ++ cs.flatten) ctx' items ss' := by
  induction cs generalizing ctx ss with
  | nil =>
    refine ⟨ctx, [], ss, rfl, ?_⟩
    simpa using Handled.refl hok hidle
  | cons c cs ih =>
    rw [flatten_cons, ← append_assoc] at hpre ⊢
    obtain ⟨ctx1, hgrow⟩ : ∃ ctx1, growBuf ctx = some ctx1 := by
      rcases hrun with hmax | hrun
      · exact growBuf_isSome hok (lt_maxFrame_of_idle hidle hmax
          (((prefix_append _ c).trans (prefix_append _ _)).trans hpre))
      · cases hgrow : growBuf ctx with
        | none => exact absurd (by rw [reads, asyncCallback_none hgrow]; rfl) hrun
        | some ctx1 => exact ⟨ctx1, rfl⟩
    obtain ⟨hpos, hfree⟩ := hfit.1 ctx1 hgrow
    obtain ⟨ctx2, items, ss2, hcb, hdone⟩ := asyncCallback_spec hok hlen hgrow hpos hfree
      ((prefix_append _ _).trans hpre)
    have hcons := reads_cons hcb cs
    have hrun' : (∀ s ∈ ss2, s.frame.length ≤ maxFrame) ∨ reads ctx2 cs ≠ none := by
      refine hrun.imp (fun hmax s hs => hmax s (hdone.mem hs)) (fun hrun hnone => hrun ?_)
      rw [hcons, hnone, map_none]
    obtain ⟨ctx', more, ss', hreads, hmore⟩ := ih hdone.ok hdone.idle
      (fun s hs => hlen s (hdone.mem hs)) (hdone.prefix_rest hpre) (hfit.2 ctx2 items hcb) hrun'
    refine ⟨ctx', items ++ more, ss', ?_, hdone.trans hmore⟩
    rw [hcons, hreads, map_some]

/-! ## Bounds of a request -/

/-- The copies of the topic and the data read bytes of the buffer, and the request takes some
of them off. -/
structure InBounds (size : Int) (r : Request) : Prop where
  copies : (reqSize + r.topicLen.toNat + r.dataSize.toNat : Int) ≤ size
  positive : 0 < totalOf r
  shift : totalOf r ≤ size

theorem parseReq_of_complete {size : Int} (hhdr : reqSize ≤ size)
    (htotal : totalOf (ofImage buf) ≤ size) :
    ∃ qi, parseReq buf size = some qi ∧ qi.req = ofImage buf := by
  rw [parseReq, ofImage_take, if_neg (Int.not_lt.mpr hhdr)]
  exact ⟨_, if_neg (Int.not_lt.mpr htotal), rfl⟩

/-- The size of a request, without a wrap. -/
def sizeOf (r : Request) : Nat := reqSize + r.topicLen.toNat + r.dataSize.toNat

/-- The size that the parser computes does not exceed the buffer, although the request does: the
sum leaves the range of `int`, and what is left of it is negative or small. -/
theorem totalOf_le_iff {n : Nat} (r : Request) (hn : n < 2 ^ 31) (hhdr : reqSize ≤ n) :
    totalOf r ≤ n ∧ n < sizeOf r ↔
      2 ^ 31 ≤ sizeOf r ∧ (sizeOf r ≤ 2 ^ 32 + n ∨ 2 ^ 32 + 2 ^ 31 ≤ sizeOf r) := by
  have ht := r.topicLen.toNat_lt
  have hd := r.dataSize.toNat_lt
  simp only [totalOf, sizeOf, toInt, Int.bmod_def, reqSize] at hhdr ⊢
  split_ifs <;> omega

/-- A complete request lies in the buffer exactly if its size is in the range of `int`, or leaves
it so far that what is left of it exceeds the buffer. -/
theorem parseReq_inBounds_iff (h : buf.length < 2 ^ 31) :
    (∀ qi, parseReq buf buf.length = some qi → InBounds buf.length qi.req) ↔
      (reqSize ≤ buf.length → sizeOf (ofImage buf) < 2 ^ 31 ∨
        2 ^ 32 + buf.length < sizeOf (ofImage buf) ∧
          sizeOf (ofImage buf) < 2 ^ 32 + 2 ^ 31) := by
  constructor
  · intro hall hhdr
    by_contra hwrap
    have hle := (totalOf_le_iff (ofImage buf) h hhdr).mpr (by omega)
    obtain ⟨qi, hqi, hreq⟩ := parseReq_of_complete (by omega) hle.1
    have hcopies := (hall qi hqi).copies
    rw [hreq] at hcopies
    simp only [sizeOf] at hle
    omega
  intro hsum qi hqi
  simp only [parseReq, ofImage_take] at hqi
  split_ifs at hqi with hhdr htotal
  obtain rfl := some.inj hqi
  have hhdr : reqSize ≤ buf.length := by omega
  have hfits : sizeOf (ofImage buf) ≤ buf.length := by
    by_contra hlong
    have := (totalOf_le_iff (ofImage buf) h hhdr).mp (by omega)
    have := hsum hhdr
    omega
  -- without a wrap the size computed is the size
  have hexact : totalOf (ofImage buf) = (sizeOf (ofImage buf) : Int) :=
    toInt_of_lt (Nat.lt_of_le_of_lt hfits h)
  have hpos : 0 < reqSize := by decide
  simp only [sizeOf] at hfits hexact
  exact ⟨by simp only; omega, by simp only; omega, by simp only; omega⟩

/-- A request with a topic of three bytes and four bytes of data, and a byte of the next one. -/
def shortRequest : List UInt8 :=
  List.replicate 44 0 ++ [3, 0, 0, 0, 4, 0, 0, 0, 0, 0, 0, 0] ++ [97, 98, 99] ++ [1, 2, 3, 4] ++
    [81]

theorem parseReq_inBounds_iff_shortRequest :
    (parseReq shortRequest shortRequest.length).map (fun qi => (qi.topic, qi.buf)) =
        some (some [97, 98, 99, 0], some [1, 2, 3, 4]) ∧
      ∀ qi, parseReq shortRequest shortRequest.length = some qi →
        InBounds shortRequest.length qi.req :=
  ⟨by decide +kernel, (parseReq_inBounds_iff (by decide)).mpr fun _ => .inl (by decide +kernel)⟩

/-- A header without topic and data, and the bytes of the topic length that it has. -/
def bareHeader (topicLen : List UInt8) : List UInt8 :=
  List.replicate 44 0 ++ topicLen ++ List.replicate 8 0

/-- A header with the largest topic length is complete at once. -/
theorem parseReq_bareHeader_wraps :
    let b := bareHeader [255, 255, 255, 255]
    totalOf (ofImage b) = 55 ∧ ∃ qi, parseReq b 56 = some qi ∧ ¬ InBounds 56 qi.req := by
  intro b
  obtain ⟨qi, hqi, hreq⟩ := @parseReq_of_complete b 56 (by decide) (by decide)
  exact ⟨by decide, qi, hqi, fun h => absurd h.copies (by rw [hreq]; decide)⟩

end OpenSync.Qm
