import Mathlib.Data.List.Basic
import Mathlib.Algebra.Order.Group.Nat

/-!
# The rate limit of `osw_throttle.c`

A throttle counts taps in a window that starts with the first tap of it.  The tap that fills the
window sets the time of the next one that is let through, a period later.  Times are in
nanoseconds, and computations with them wrap at 64 bits.

The window does not slide: taps at the end of one window and at the start of the next one are
counted apart.  `rate_limit_iff` says for which parameters the rate is kept all the same.  What a
refused tap reports as the next time is exact (`retry_hint`).
-/

namespace OpenSync.Osw

open List Nat

/-- `struct osw_throttle_rate_limit`. -/
structure Throttle where
  limit : Nat
  period : Nat
  counter : Nat
  firstTap : Nat
  nextAt : Nat
deriving DecidableEq

namespace Throttle

/-- `osw_throttle_new_rate_limit`. -/
def new (limit period : Nat) : Throttle := ⟨limit, period, 0, 0, 0⟩

section

variable (t : Throttle) (now : Nat)

/-- The start of a new window, if the period of the old one is over. -/
def window : Throttle :=
  if t.period ≤ (now + 2 ^ 64 - t.firstTap) % 2 ^ 64 then
    { t with firstTap := now, counter := 0 }
  else t

/-- A tap that is let through. -/
def count : Throttle :=
  { t with
    counter := t.counter + 1
    nextAt := if t.counter + 1 = t.limit then (now + t.period) % 2 ^ 64 else now }

/-- `osw_throttle_rate_limit_tap`: the result, the time that is reported, and the throttle. -/
def tap : Bool × Nat × Throttle :=
  if now < t.nextAt then (false, t.nextAt, t)
  else
    let t := t.window now
    if t.limit ≤ t.counter then (false, t.nextAt, t)
    else (true, (t.count now).nextAt, t.count now)

end

def run (t : Throttle) (times : List Nat) : Throttle :=
  times.foldl (fun t now => (t.tap now).2.2) t

/-- The times of the taps that are let through. -/
def granted (t : Throttle) : List Nat → List Nat
  | [] => []
  | now :: times =>
    if (t.tap now).1 then now :: (t.tap now).2.2.granted times else (t.tap now).2.2.granted times

/-! ## One tap -/

section

variable {t : Throttle} {now : Nat}

theorem tap_early (h : now < t.nextAt) : t.tap now = (false, t.nextAt, t) := if_pos h

theorem tap_full (h : t.nextAt ≤ now) (hfull : (t.window now).limit ≤ (t.window now).counter) :
    t.tap now = (false, (t.window now).nextAt, t.window now) := by
  rw [tap, if_neg (not_lt.mpr h)]
  exact if_pos hfull

theorem tap_granted (h : t.nextAt ≤ now) (hfree : (t.window now).counter < (t.window now).limit) :
    t.tap now = (true, ((t.window now).count now).nextAt, (t.window now).count now) := by
  rw [tap, if_neg (not_lt.mpr h)]
  exact if_neg (not_le.mpr hfree)

@[simp] theorem window_limit : (t.window now).limit = t.limit := by
  unfold window
  split_ifs <;> rfl

@[simp] theorem window_period : (t.window now).period = t.period := by
  unfold window
  split_ifs <;> rfl

@[simp] theorem count_limit : (t.count now).limit = t.limit := rfl

@[simp] theorem count_period : (t.count now).period = t.period := rfl

@[simp] theorem count_counter : (t.count now).counter = t.counter + 1 := rfl

@[simp] theorem count_firstTap : (t.count now).firstTap = t.firstTap := rfl

theorem window_of_le (hfirst : t.firstTap + t.period ≤ now) (hnow : now < 2 ^ 64) :
    t.window now = { t with firstTap := now, counter := 0 } := by
  rw [window, if_pos (by omega)]

theorem window_of_lt (hfirst : t.firstTap ≤ now) (hlt : now < t.firstTap + t.period)
    (hnow : now < 2 ^ 64) : t.window now = t := by
  rw [window, if_neg (by omega)]

variable {times : List Nat}

theorem granted_cons_early (h : now < t.nextAt) : t.granted (now :: times) = t.granted times := by
  rw [granted, tap_early h]
  rfl

theorem granted_cons_full (h : t.nextAt ≤ now)
    (hfull : (t.window now).limit ≤ (t.window now).counter) :
    t.granted (now :: times) = (t.window now).granted times := by
  rw [granted, tap_full h hfull]
  rfl

theorem granted_cons_granted (h : t.nextAt ≤ now)
    (hfree : (t.window now).counter < (t.window now).limit) :
    t.granted (now :: times) = now :: ((t.window now).count now).granted times := by
  rw [granted, tap_granted h hfree]
  rfl

end

theorem granted_sublist (t : Throttle) (times : List Nat) : (t.granted times).Sublist times := by
  induction times generalizing t with
  | nil => exact .slnil
  | cons now times ih =>
    rw [granted]
    split_ifs
    · exact (ih _).cons_cons now
    · exact (ih _).cons now

/-! ## The rate -/

/-- No interval of the length of a period has more than `limit` of the times. -/
def RateLimited (limit period : Nat) (times : List Nat) : Prop :=
  ∀ start, times.countP (fun time => start ≤ time ∧ time < start + period) ≤ limit

/-- Times of a clock: they do not go back, and they fit 64 bits. -/
structure Clock (times : List Nat) : Prop where
  sorted : times.Pairwise (· ≤ ·)
  small : ∀ time ∈ times, time < 2 ^ 64

variable {now : Nat} {times : List Nat} {t : Throttle} {last period : Nat}

theorem Clock.tail (h : Clock (now :: times)) : Clock times :=
  ⟨(pairwise_cons.mp h.sorted).2, fun time ht => h.small time (mem_cons_of_mem now ht)⟩

theorem Clock.head_le (h : Clock (now :: times)) : ∀ time ∈ times, now ≤ time :=
  (pairwise_cons.mp h.sorted).1

/-- With a period of one, a window is the taps of one moment, and no more than what is left of it is
let through. -/
theorem count_of_period_one (hperiod : t.period = 1) (hlimit : 1 ≤ t.limit) (clock : Clock times)
    (hfirst : ∀ time ∈ times, t.firstTap ≤ time) (hcounter : t.counter ≤ t.limit) (v : Nat) :
    (t.granted times).count v ≤ if v = t.firstTap then t.limit - t.counter else t.limit := by
  induction times generalizing t with
  | nil => simp [granted]
  | cons now times ih =>
    have hnow := clock.small now mem_cons_self
    have hle := hfirst now mem_cons_self
    by_cases hearly : now < t.nextAt
    · rw [granted_cons_early hearly]
      exact ih hperiod hlimit clock.tail (fun time ht => hfirst time (mem_cons_of_mem _ ht))
        hcounter
    by_cases hsame : t.firstTap = now
    · -- The window goes on.
      have hwindow := window_of_lt hle (by omega : now < t.firstTap + t.period) hnow
      have hrest : ∀ time ∈ times, t.firstTap ≤ time := fun time ht =>
        hfirst time (mem_cons_of_mem _ ht)
      by_cases hfull : t.limit ≤ t.counter
      · rw [granted_cons_full (by omega) (by rwa [hwindow]), hwindow]
        exact ih hperiod hlimit clock.tail hrest hcounter
      rw [granted_cons_granted (by omega) (by rw [hwindow]; omega), hwindow, count_cons]
      have := ih (t := t.count now) hperiod hlimit clock.tail hrest (by simp; omega)
      simp only [count_limit, count_counter, count_firstTap, hsame] at this
      simp only [beq_iff_eq]
      split_ifs at this ⊢ <;> omega
    · have hwindow := window_of_le (by omega : t.firstTap + t.period ≤ now) hnow
      rw [granted_cons_granted (by omega) (by rw [hwindow]; exact hlimit), hwindow, count_cons]
      have hcount : (granted (count { t with firstTap := now, counter := 0 } now) times).count v ≤
          if v = now then t.limit - 1 else t.limit :=
        ih (t := count { t with firstTap := now, counter := 0 } now) hperiod hlimit clock.tail
          clock.head_le hlimit
      have hold : v < now →
          (granted (count { t with firstTap := now, counter := 0 } now) times).count v = 0 := by
        intro hv
        refine count_eq_zero.mpr fun hmem => ?_
        have := clock.head_le v ((granted_sublist _ times).subset hmem)
        omega
      simp only [beq_iff_eq]
      split_ifs at hcount ⊢ <;> omega

/-- With a limit of one, a tap that is let through keeps the others out for a period; if its end
wraps, the window does. -/
theorem gap_of_limit_one (hlimit : t.limit = 1) (hcounter : t.counter = 1)
    (hnext : t.nextAt = (last + t.period) % 2 ^ 64)
    (hwrap : last + t.period < 2 ^ 64 ∨ t.firstTap = last) (hfirst : t.firstTap ≤ last)
    (hlast : ∀ time ∈ times, last ≤ time) (clock : Clock times) :
    (∀ time ∈ t.granted times, last + t.period ≤ time) ∧
      (t.granted times).Pairwise (fun a b => a + t.period ≤ b) := by
  induction times generalizing t last with
  | nil => simp [granted]
  | cons now times ih =>
    have hnow := clock.small now mem_cons_self
    have hle := hlast now mem_cons_self
    have hrest : ∀ time ∈ times, last ≤ time := fun time ht =>
      hlast time (mem_cons_of_mem _ ht)
    by_cases hearly : now < t.nextAt
    · rw [granted_cons_early hearly]
      exact ih hlimit hcounter hnext hwrap hfirst hrest clock.tail
    by_cases hlater : last + t.period ≤ now
    · have hwindow := window_of_le (by omega : t.firstTap + t.period ≤ now) hnow
      rw [granted_cons_granted (by omega) (by rw [hwindow, hlimit]; exact one_pos), hwindow]
      have hgap := ih (t := count { t with firstTap := now, counter := 0 } now) hlimit rfl
        (by simp [count, hlimit]) (.inr rfl) (le_refl now) clock.head_le clock.tail
      refine ⟨?_, pairwise_cons.mpr ⟨hgap.1, hgap.2⟩⟩
      rintro time (_ | ⟨_, ht⟩)
      · exact hlater
      · have : now + t.period ≤ time := hgap.1 time ht
        omega
    · -- The period is not over, so that its end has wrapped.
      have hwindow := window_of_lt (by omega : t.firstTap ≤ now) (by omega) hnow
      rw [granted_cons_full (by omega) (by rw [hwindow, hlimit, hcounter]), hwindow]
      exact ih hlimit hcounter hnext hwrap hfirst hrest clock.tail

attribute [local simp] new

/-- The first tap starts from an empty window at the time zero. -/
theorem gap_of_new (hperiod : period ≤ 2 ^ 63) (clock : Clock times) :
    ((new 1 period).granted times).Pairwise (fun a b => a + period ≤ b) := by
  cases times with
  | nil => simp [granted]
  | cons now times =>
    have hnow := clock.small now mem_cons_self
    by_cases hlater : period ≤ now
    · have hwindow := window_of_le (t := new 1 period) (by simpa using hlater) hnow
      rw [granted_cons_granted (zero_le _) (by rw [hwindow]; exact one_pos), hwindow]
      have hgap := gap_of_limit_one (t := count { new 1 period with firstTap := now } now)
        rfl rfl rfl (.inr rfl) (le_refl now) clock.head_le clock.tail
      exact pairwise_cons.mpr hgap
    · have hwindow := window_of_lt (t := new 1 period) (zero_le now)
        (by simp; omega) hnow
      rw [granted_cons_granted (zero_le _) (by rw [hwindow]; exact one_pos), hwindow]
      have hgap := gap_of_limit_one (t := count (new 1 period) now)
        rfl rfl rfl (.inl (by simp; omega)) (zero_le now) clock.head_le
        clock.tail
      exact pairwise_cons.mpr hgap

theorem rateLimited_of_gap (h : times.Pairwise (fun a b => a + period ≤ b)) :
    RateLimited 1 period times := by
  intro start
  induction times with
  | nil => simp
  | cons now times ih =>
    obtain ⟨hnow, htimes⟩ := pairwise_cons.mp h
    rw [countP_cons]
    split_ifs with hin
    · have hnone : times.countP (fun time => start ≤ time ∧ time < start + period) = 0 := by
        rw [countP_eq_zero]
        intro time ht
        have := hnow time ht
        simp only [decide_eq_true_eq] at hin ⊢
        omega
      rw [hnone]
    · exact ih htimes

variable {limit : Nat}

theorem rateLimited_of_period_one (hlimit : 1 ≤ limit) (clock : Clock times) :
    RateLimited limit 1 ((new limit 1).granted times) := by
  intro start
  have hcount := count_of_period_one (t := new limit 1) rfl hlimit clock
    (fun time _ => zero_le time) (zero_le limit) start
  have heq : (fun time => decide (start ≤ time ∧ time < start + 1)) = (· == start) := by
    funext time
    rw [Bool.eq_iff_iff, decide_eq_true_eq, beq_iff_eq]
    omega
  rw [heq]
  exact hcount.trans (by split_ifs <;> simp)

/-- In a window that has just started, taps of one moment are let through up to the limit. -/
theorem granted_burst {k : Nat} (hnext : t.nextAt ≤ now) (hfirst : t.firstTap = now)
    (hperiod : 0 < t.period) (hnow : now < 2 ^ 64) (hk : t.counter + k ≤ t.limit) :
    t.granted (replicate k now) = replicate k now := by
  induction k generalizing t with
  | zero => rfl
  | succ k ih =>
    have hwindow := window_of_lt (by omega : t.firstTap ≤ now) (by omega) hnow
    rw [replicate_succ, granted_cons_granted hnext (by rw [hwindow]; omega), hwindow]
    congr 1
    by_cases hlast : t.counter + 1 = t.limit
    · obtain rfl : k = 0 := by omega
      rfl
    · exact ih (by rw [count, if_neg hlast]) hfirst hperiod (by simp; omega)

/-- The last tap of the first window, and a full second window a moment later. -/
theorem granted_across (hlimit : 2 ≤ limit) (hperiod : 2 ≤ period) (hsmall : period < 2 ^ 64) :
    (new limit period).granted ((period - 1) :: replicate limit period) =
      (period - 1) :: replicate limit period := by
  obtain ⟨k, rfl⟩ : ∃ k, limit = k + 1 := ⟨limit - 1, by omega⟩
  have hfirst := window_of_lt (t := new (k + 1) period) (zero_le (period - 1))
    (by simp; omega) (by omega)
  rw [granted_cons_granted (zero_le _) (by rw [hfirst]; exact succ_pos k), hfirst]
  set t := (new (k + 1) period).count (period - 1) with ht
  have hnext : t.nextAt = period - 1 := if_neg (by simp; omega)
  have hsecond : t.window period = { t with firstTap := period, counter := 0 } :=
    window_of_le (by simp [ht]) hsmall
  rw [replicate_succ, granted_cons_granted (by omega) (by rw [hsecond]; exact succ_pos k), hsecond]
  congr 2
  refine granted_burst ?_ rfl ?_ hsmall ?_
  · rw [count, if_neg (by simp [ht]; omega)]
  · simp only [count_period, ht, new]
    omega
  · simp only [count_counter, count_limit, ht, new]
    omega

/-- With a period whose end wraps, the tap before it does not keep the next one out. -/
theorem granted_wrap (hbig : 2 ^ 63 < period) (hsmall : period < 2 ^ 64) :
    (new 1 period).granted [period - 1, period] = [period - 1, period] := by
  have hfirst := window_of_lt (t := new 1 period) (zero_le (period - 1))
    (by simp; omega) (by omega)
  rw [granted_cons_granted (zero_le _) (by rw [hfirst]; exact one_pos), hfirst]
  set t := (new 1 period).count (period - 1) with ht
  have hnext : t.nextAt = period - 1 + period - 2 ^ 64 := by
    have hwrap : t.nextAt = (period - 1 + period) % 2 ^ 64 := rfl
    rw [hwrap, mod_eq_sub_mod (by omega), mod_eq_of_lt (by omega)]
  have hsecond : t.window period = { t with firstTap := period, counter := 0 } :=
    window_of_le (by simp [ht]) hsmall
  rw [granted_cons_granted (by omega) (by rw [hsecond]; exact one_pos)]
  rfl

theorem clock_across (limit : Nat) (hsmall : period < 2 ^ 64) :
    Clock ((period - 1) :: replicate limit period) where
  sorted := by
    refine pairwise_cons.mpr ⟨fun time ht => ?_, pairwise_replicate.mpr (.inr le_rfl)⟩
    rw [eq_of_mem_replicate ht]
    omega
  small := by
    rintro time (_ | ⟨_, ht⟩)
    · omega
    · rw [eq_of_mem_replicate ht]
      exact hsmall

/-- One tap just before a moment and more than `limit - 1` at it are too many. -/
theorem not_rateLimited (hperiod : 2 ≤ period) :
    ¬ RateLimited limit period ((period - 1) :: replicate limit period) := by
  intro h
  have hall : ((period - 1) :: replicate limit period).countP
      (fun time => period - 1 ≤ time ∧ time < period - 1 + period) = limit + 1 := by
    rw [countP_eq_length.mpr, length_cons, length_replicate]
    rintro time (_ | ⟨_, ht⟩)
    · simp only [decide_eq_true_eq]
      omega
    · rw [eq_of_mem_replicate ht, decide_eq_true_eq]
      omega
  have := h (period - 1)
  omega

/-- The rate is kept, whatever the times of the taps, for a period of one nanosecond and for a
limit of one tap (and a period that does not reach half of the clock), and for no other
parameters. -/
theorem rate_limit_iff {limit period : Nat} (hlimit : 1 ≤ limit) (hperiod : 0 < period)
    (hsmall : period < 2 ^ 64) :
    (∀ times, Clock times → RateLimited limit period ((new limit period).granted times)) ↔
      period = 1 ∨ limit = 1 ∧ period ≤ 2 ^ 63 := by
  constructor
  · intro h
    by_contra hno
    have hbad := h _ (clock_across limit hsmall)
    by_cases hone : limit = 1
    · subst hone
      rw [replicate_one, granted_wrap (by omega) hsmall] at hbad
      exact not_rateLimited (by omega) hbad
    · rw [granted_across (by omega) (by omega) hsmall] at hbad
      exact not_rateLimited (by omega) hbad
  · rintro (rfl | ⟨rfl, hle⟩) times clock
    · exact rateLimited_of_period_one hlimit clock
    · exact rateLimited_of_gap (gap_of_new hle clock)

theorem rate_limit_single : 1 ≤ 1 ∧ 0 < 10 ∧ 10 < 2 ^ 64 ∧
    ((∀ times, Clock times → RateLimited 1 10 ((new 1 10).granted times)) ↔
      10 = 1 ∨ 1 = 1 ∧ 10 ≤ 2 ^ 63) :=
  ⟨by decide, by decide, by decide, rate_limit_iff (by decide) (by decide) (by decide)⟩

/-- Two taps in ten nanoseconds are allowed, and three are let through. -/
theorem three_in_a_period :
    Clock [9, 10, 11] ∧ ¬ RateLimited 2 10 ((new 2 10).granted [9, 10, 11]) := by
  refine ⟨⟨by decide, by decide⟩, fun h => ?_⟩
  exact absurd (h 9) (by decide +kernel)

/-! ## The time of the next tap -/

/-- A full window ends before the next tap is let through.  No time has wrapped. -/
structure Sound (t : Throttle) (last : Nat) : Prop where
  first_le : t.firstTap ≤ last
  counter_le : t.counter ≤ t.limit
  full : t.counter = t.limit → t.firstTap + t.period ≤ t.nextAt

/-- A tap that is not too early finds room in the window. -/
theorem Sound.free (h : Sound t last) (hlimit : 1 ≤ t.limit) (hle : last ≤ now)
    (hnow : now < 2 ^ 64) (hnext : t.nextAt ≤ now) :
    (t.window now).counter < (t.window now).limit := by
  have hfirst := h.first_le
  by_cases hend : t.firstTap + t.period ≤ now
  · rw [window_of_le hend hnow]
    exact hlimit
  rw [window_of_lt (by omega) (by omega) hnow]
  refine lt_of_le_of_ne h.counter_le fun hfull => ?_
  have := h.full hfull
  omega

theorem window_firstTap_le (hfirst : t.firstTap ≤ now) (hnow : now < 2 ^ 64) :
    (t.window now).firstTap ≤ now := by
  by_cases hend : t.firstTap + t.period ≤ now
  · rw [window_of_le hend hnow]
  · rwa [window_of_lt hfirst (by omega) hnow]

theorem Sound.tap (h : Sound t last) (hlimit : 1 ≤ t.limit) (hle : last ≤ now)
    (hnow : now + t.period < 2 ^ 64) : Sound (t.tap now).2.2 now := by
  have hfirst := h.first_le.trans hle
  by_cases hearly : now < t.nextAt
  · rw [tap_early hearly]
    exact ⟨hfirst, h.counter_le, h.full⟩
  have hfree := h.free hlimit hle (by omega) (by omega)
  have hwindow := window_firstTap_le hfirst (by omega)
  rw [tap_granted (by omega) hfree]
  refine ⟨hwindow, hfree, fun hfull => ?_⟩
  have hnext : ((t.window now).count now).nextAt = now + t.period := by
    rw [count, if_pos (show (t.window now).counter + 1 = (t.window now).limit from hfull),
      window_period, mod_eq_of_lt hnow]
  rw [hnext, count_period, window_period]
  exact Nat.add_le_add_right hwindow _

@[simp] theorem tap_limit (t : Throttle) (now : Nat) : (t.tap now).2.2.limit = t.limit := by
  by_cases hearly : now < t.nextAt
  · rw [tap_early hearly]
  · by_cases hfull : (t.window now).limit ≤ (t.window now).counter
    · rw [tap_full (by omega) hfull, window_limit]
    · rw [tap_granted (by omega) (by omega), count_limit, window_limit]

@[simp] theorem tap_period (t : Throttle) (now : Nat) : (t.tap now).2.2.period = t.period := by
  by_cases hearly : now < t.nextAt
  · rw [tap_early hearly]
  · by_cases hfull : (t.window now).limit ≤ (t.window now).counter
    · rw [tap_full (by omega) hfull, window_period]
    · rw [tap_granted (by omega) (by omega), count_period, window_period]

/-- Taps at times that do not go back and do not wrap keep the throttle sound. -/
theorem Sound.run (h : Sound t last) (hlimit : 1 ≤ t.limit)
    (hlast : ∀ time ∈ times ++ [now], last ≤ time) (sorted : (times ++ [now]).Pairwise (· ≤ ·))
    (small : ∀ time ∈ times ++ [now], time + t.period < 2 ^ 64) :
    ∃ last' ≤ now, Sound (t.run times) last' ∧ (t.run times).limit = t.limit := by
  induction times generalizing t last with
  | nil => exact ⟨last, hlast now (by simp), h, rfl⟩
  | cons time times ih =>
    rw [cons_append, pairwise_cons] at sorted
    have htap := h.tap hlimit (hlast time (by simp)) (small time (by simp))
    obtain ⟨last', hle, hsound, hlim⟩ := ih htap (by simpa using hlimit) sorted.1 sorted.2
      (fun x hx => by simpa using small x (mem_cons_of_mem time hx))
    exact ⟨last', hle, hsound, hlim.trans (tap_limit t time)⟩

/-- Taps before the next time do not change a throttle. -/
theorem run_early {later : List Nat} (h : ∀ time ∈ later, time < t.nextAt) : t.run later = t := by
  induction later with
  | nil => rfl
  | cons time later ih =>
    rw [run, foldl_cons, tap_early (h time mem_cons_self)]
    exact ih fun x hx => h x (mem_cons_of_mem time hx)

/-- A tap that is refused reports a time in the future.  Until then every tap is refused with the
same report, and from then on the first tap is let through.  So no tap is refused because the
window is full. -/
theorem retry_hint {limit period now : Nat} {times : List Nat} {t : Throttle}
    (ht : t = (new limit period).run times) (hlimit : 1 ≤ limit)
    (sorted : (times ++ [now]).Pairwise (· ≤ ·))
    (small : ∀ time ∈ times ++ [now], time + period < 2 ^ 64) :
    (t.nextAt ≤ now → (t.window now).counter < (t.window now).limit) ∧ ((t.tap now).1 = false →
        now < (t.tap now).2.1 ∧
        ∀ later, (∀ time ∈ later, time < (t.tap now).2.1) → ∀ time, now ≤ time → time < 2 ^ 64 →
            if time < (t.tap now).2.1 then
              (((t.tap now).2.2.run later).tap time).1 = false ∧
                (((t.tap now).2.2.run later).tap time).2.1 = (t.tap now).2.1
            else (((t.tap now).2.2.run later).tap time).1 = true) := by
  have hnow := small now (by simp)
  have hstart : Sound (new limit period) 0 :=
    ⟨le_refl 0, zero_le limit, fun h => by simp at h; omega⟩
  obtain ⟨last, hle, hsound, hlim⟩ :=
    hstart.run hlimit (fun time _ => zero_le time) sorted small
  rw [← ht] at hsound hlim
  have hlimit' : 1 ≤ t.limit := hlim ▸ hlimit
  have hfree : t.nextAt ≤ now → (t.window now).counter < (t.window now).limit :=
    hsound.free hlimit' hle (by omega)
  refine ⟨hfree, fun hrefused => ?_⟩
  have hearly : now < t.nextAt := by
    by_contra hlate
    rw [tap_granted (by omega) (hfree (by omega))] at hrefused
    cases hrefused
  rw [tap_early hearly]
  refine ⟨hearly, fun later hlater time htime htime' => ?_⟩
  rw [run_early hlater]
  split_ifs with hlt
  · rw [tap_early hlt]
    exact ⟨rfl, rfl⟩
  · have hlate : t.nextAt ≤ time := not_lt.mp hlt
    rw [tap_granted hlate (hsound.free hlimit' (hle.trans htime) htime' hlate)]

theorem retry_hint_second :
    let t := (new 1 10).run [3]
    1 ≤ 1 ∧ (∀ time ∈ [3] ++ [5], time + 10 < 2 ^ 64) ∧ (t.tap 5).1 = false ∧
      (t.nextAt ≤ 5 → (t.window 5).counter < (t.window 5).limit) ∧
      ((t.tap 5).1 = false → 5 < (t.tap 5).2.1 ∧ ∀ later, (∀ time ∈ later, time < (t.tap 5).2.1) →
          ∀ time, 5 ≤ time → time < 2 ^ 64 →
            if time < (t.tap 5).2.1 then
              (((t.tap 5).2.2.run later).tap time).1 = false ∧
                (((t.tap 5).2.2.run later).tap time).2.1 = (t.tap 5).2.1
            else (((t.tap 5).2.2.run later).tap time).1 = true) :=
  ⟨by decide, by decide, by decide +kernel, retry_hint rfl (by decide) (by decide) (by decide)⟩

end Throttle

end OpenSync.Osw
