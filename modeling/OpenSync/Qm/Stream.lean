import OpenSync.Qm.Event

/-!
# How long a request may be

`Reassembled` holds for a list of requests below two gigabytes exactly if none is longer
than `maxFrame`.  For the other direction the client's stream is read byte by byte: before
a request that is too long is complete, the buffer comes to a size that it cannot grow
from.
-/

namespace OpenSync.Qm

open OpenSync.Lib List

/-! ## Reading byte by byte -/

/-- Reads of one byte. -/
def bytewise (l : List UInt8) : List (List UInt8) := l.map (fun b => [b])

@[simp] theorem flatten_bytewise (l : List UInt8) : (bytewise l).flatten = l := by
  induction l with
  | nil => rfl
  | cons b l ih => simpa [bytewise] using ih

theorem fitting_bytewise {l : List UInt8} {ctx : Ctx} {ss : List Sent} (hok : ctx.Ok)
    (hlen : ∀ s ∈ ss, s.frame.length < 2 ^ 31)
    (hpre : ctx.buf ++ l <+: (ss.map Sent.frame).flatten) : Fitting ctx (bytewise l) := by
  induction l generalizing ctx ss with
  | nil => trivial
  | cons b l ih =>
    have hfree : ∀ ctx1, growBuf ctx = some ctx1 →
        1 ≤ [b].length ∧ ([b].length : Int) ≤ ctx1.allocated - ctx1.size := by
      intro ctx1 hgrow
      obtain ⟨-, -, hchunk⟩ := growBuf_some hok hgrow
      exact ⟨le_refl _, le_trans (show (1 : Int) ≤ bufChunk by decide) hchunk⟩
    have hpre' : (ctx.buf ++ [b]) ++ l <+: (ss.map Sent.frame).flatten := by
      rwa [append_assoc, singleton_append]
    refine ⟨hfree, fun ctx' items hcb => ?_⟩
    cases hgrow : growBuf ctx with
    | none => rw [asyncCallback_none hgrow] at hcb; cases hcb
    | some ctx1 =>
      obtain ⟨hpos, hle⟩ := hfree ctx1 hgrow
      obtain ⟨ctx2, items2, ss', hcb2, hdone⟩ := asyncCallback_spec hok hlen hgrow hpos hle
        ((prefix_append _ _).trans hpre')
      rw [hcb2] at hcb
      obtain ⟨rfl, -⟩ : ctx2 = ctx' ∧ items2 = items := by simpa using hcb
      exact ih hdone.ok (fun s hs => hlen s (hdone.mem hs)) (hdone.prefix_rest hpre')

theorem reads_append {cs : List (List UInt8)} {ctx ctx1 : Ctx} {items : List Item}
    (h : reads ctx cs = some (some ctx1, items)) (ds : List (List UInt8)) :
    reads ctx (cs ++ ds) = (reads ctx1 ds).map (fun r => (r.1, items ++ r.2)) := by
  induction cs generalizing ctx items with
  | nil =>
    obtain ⟨rfl, rfl⟩ : ctx = ctx1 ∧ [] = items := by simpa [reads] using h
    cases hreads : reads ctx ds <;> simp [hreads]
  | cons c cs ih =>
    cases hcb : asyncCallback ctx (some c) with
    | none => rw [reads, hcb] at h; cases h
    | some r =>
      obtain ⟨ctx2, first⟩ := r
      cases ctx2 with
      | none => rw [reads, hcb] at h; cases h
      | some ctx2 =>
        rw [reads_cons hcb, Option.map_eq_some_iff] at h
        obtain ⟨⟨r, more⟩, hreads, hr⟩ := h
        obtain ⟨rfl, rfl⟩ := Prod.mk.inj hr
        rw [cons_append, reads_cons hcb, ih hreads, Option.map_map]
        cases reads ctx1 ds <;> simp

theorem sendAll_complete {ret : Nat → Int} {k : Nat} {bs : List (List UInt8)}
    (h : ∀ i, ret (k + i) = (bs.getD i []).length) : sendAll ret k bs = (true, bs.flatten) := by
  induction bs generalizing k with
  | nil => rfl
  | cons b bs ih =>
    have hrest := ih (k := k + 1) (fun i => by
      have hi := h (i + 1)
      rwa [getD_cons_succ, ← Nat.add_assoc, Nat.add_right_comm] at hi)
    have hret : ret k = b.length := h 0
    rw [sendAll, if_pos hret, hrest]
    rfl

/-- The stream that the client means can be written. -/
theorem written_frames {ss : List Sent} (hlen : ∀ s ∈ ss, s.frame.length < 2 ^ 31) :
    Written ss (ss.map Sent.frame).flatten := by
  induction ss with
  | nil => exact .nil
  | cons s ss ih =>
    have hs := hlen s mem_cons_self
    have hw : writeReq (fun k => ((sendBufs s.req s.topic s.data).getD k []).length)
        s.req s.topic s.data = (true, s.frame) := by
      rw [writeReq, sendAll_complete (fun i => by rw [zero_add]), flatten_sendBufs hs]
      rfl
    exact .cons hw (ih (fun t ht => hlen t (mem_cons_of_mem _ ht)))

/-! ## Requests that are too long -/

theorem complete_frames_append (pre : List Sent) (n : Nat) (ss : List Sent) :
    complete ((pre.map Sent.frame).flatten.length + n) (pre ++ ss) = pre ++ complete n ss := by
  induction pre with
  | nil => simp
  | cons s pre ih =>
    rw [map_cons, flatten_cons, length_append, cons_append, complete,
      if_pos (by omega), Nat.add_assoc, Nat.add_sub_cancel_left, ih, cons_append]

/-- A request that is longer than `maxFrame` can stop the server. -/
theorem not_reassembled (pre : List Sent) {s : Sent} (post : List Sent)
    (hlen : ∀ t ∈ pre ++ s :: post, t.frame.length < 2 ^ 31) (hlong : maxFrame < s.frame.length) :
    ¬ Reassembled (pre ++ s :: post) := by
  intro hre
  obtain ⟨stream, hdef⟩ : ∃ l, l = ((pre ++ s :: post).map Sent.frame).flatten := ⟨_, rfl⟩
  obtain ⟨n, hn⟩ : ∃ n, n = (pre.map Sent.frame).flatten.length + maxFrame := ⟨_, rfl⟩
  have hwritten := written_frames hlen
  rw [← hdef] at hwritten
  have hstream : n < stream.length := by
    simp only [hdef, map_append, map_cons, flatten_append, flatten_cons, length_append]
    omega
  have hfit : ∀ k, Fitting Ctx.free (bytewise (stream.take k)) := fun k =>
    fitting_bytewise Ctx.free_ok hlen (by rw [← hdef]; exact take_prefix _ _)
  have hfront : ∀ k, (bytewise (stream.take k)).flatten <+: stream := by
    intro k
    rw [flatten_bytewise]
    exact take_prefix _ _
  -- after `n` bytes the buffer holds `maxFrame` bytes of `s`
  obtain ⟨ctx, items, hreads, -⟩ := hre stream _ hwritten (hfront n) (hfit n)
  obtain ⟨ctx', items', ss', hreads', hdone⟩ := reads_handled Ctx.free_ok (complete_zero _) hlen
    (by rw [← hdef]; exact hfront n) (hfit n) (.inr (by rw [hreads]; exact Option.some_ne_none _))
  have hcomplete : complete (stream.take n).length (pre ++ s :: post) = pre := by
    rw [length_take_of_le hstream.le]
    rw [hn, complete_frames_append, complete, if_neg (by omega), append_nil]
  have hbuf : ctx'.buf.length = maxFrame := by
    have hpart := congrArg length hdone.part
    simp only [Ctx.free, nil_append, flatten_bytewise, length_append] at hpart
    rw [hcomplete, length_take_of_le hstream.le] at hpart
    omega
  -- so the next callback fails
  obtain ⟨b, rest, hrest⟩ : ∃ b rest, stream.drop n = b :: rest :=
    exists_cons_of_length_pos (by rw [length_drop]; omega)
  have htake : stream.take (n + 1) = stream.take n ++ [b] := by
    rw [take_add, hrest]
    rfl
  have hnext : bytewise (stream.take (n + 1)) = bytewise (stream.take n) ++ [[b]] := by
    rw [htake, bytewise, map_append]
    rfl
  obtain ⟨ctx2, items2, hreads2, -⟩ := hre stream _ hwritten (hfront (n + 1)) (hfit (n + 1))
  rw [hnext, reads_append hreads', reads, asyncCallback_none (growBuf_maxFrame hdone.ok hbuf)]
    at hreads2
  cases hreads2

/-- Requests below two gigabytes arrive whole and in order for every cut of the stream
exactly if none is longer than `maxFrame`. -/
theorem reassembled_iff {ss : List Sent} (hlen : ∀ s ∈ ss, s.frame.length < 2 ^ 31) :
    Reassembled ss ↔ ∀ s ∈ ss, s.frame.length ≤ maxFrame := by
  constructor
  · intro hre s hs
    by_contra hlong
    obtain ⟨pre, post, rfl⟩ := append_of_mem hs
    exact not_reassembled pre post hlen (Nat.lt_of_not_le hlong) hre
  intro hmax stream cs hwritten hpre hfit
  rw [hwritten.stream_eq hlen] at hpre
  obtain ⟨ctx, items, ss', hreads, hdone⟩ :=
    reads_handled Ctx.free_ok (complete_zero _) hlen hpre hfit (.inl hmax)
  refine ⟨ctx, items, hreads, ?_, ?_, hdone.ok.fits⟩
  · simpa [Ctx.free] using hdone.delivered
  · rw [hdone.ok.size]
    exact Int.natCast_nonneg _

/-- A request with the topic `ab` and three bytes. -/
def shortSent : Sent :=
  ⟨⟨fun _ => 81, 2, 7, 2, 0, fun _ => 0, 0, 0, 0, 0, 0, 0, 0, 0⟩,
    some ⟨[97, 98], by decide⟩, [1, 2, 3]⟩

theorem reassembled_iff_shortSent :
    (∀ s ∈ [shortSent, shortSent], s.frame.length < 2 ^ 31) ∧ (Reassembled [shortSent, shortSent] ↔
        ∀ s ∈ [shortSent, shortSent], s.frame.length ≤ maxFrame) :=
  ⟨by decide, reassembled_iff (by decide)⟩

/-- A request with `n` bytes and no topic. -/
def plainSent (n : Nat) : Sent := { shortSent with topic := none, data := List.replicate n 0 }

theorem length_frame_plainSent (n : Nat) : (plainSent n).frame.length = 56 + n := by
  rw [Sent.frame, length_frame, plainSent, length_replicate]
  rfl

/-- A single request of two gigabytes less one byte can stop the server. -/
theorem not_reassembled_plainSent :
    (plainSent (2 ^ 31 - 57)).frame.length < 2 ^ 31 ∧ ¬ Reassembled [plainSent (2 ^ 31 - 57)] := by
  have hlen : (plainSent (2 ^ 31 - 57)).frame.length = 2 ^ 31 - 1 := length_frame_plainSent _
  refine ⟨by omega, not_reassembled [] [] ?_ ?_⟩
  · intro t ht
    obtain rfl := mem_singleton.mp ht
    omega
  · rw [hlen]
    decide

end OpenSync.Qm
