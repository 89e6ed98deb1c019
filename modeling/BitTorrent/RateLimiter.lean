import BitTorrent.Common.Run
import BitTorrent.Common.TokenBucket
import Mathlib.Algebra.BigOperators.Ring.Finset

/-!
# Rate limits, one above the other

`ratelimit.rs`: a limiter is a token bucket, and may answer to another one above it, which any
number of limiters may share.
-/

namespace BitTorrent

open List Option

/-- `RateLimiter`: a bucket, when it was made, and the limiter it answers
to. -/
structure RateLimiter extends TokenBucket ℚ where
  start : ℚ
  parent : Option ℕ
  rate_pos : 0 < rate
  burst_nonneg : 0 ≤ burst

namespace RateLimiter

/-- A limiter with a full bucket. -/
def full (rate : { r : ℚ // 0 < r }) (burst : { b : ℚ // 0 ≤ b }) (parent : Option ℕ) (now : ℚ) :
    RateLimiter where
  rate := rate
  burst := burst
  tokens := burst
  last := now
  start := now
  parent := parent
  rate_pos := rate.2
  burst_nonneg := burst.2

/-- The rate of a limiter of so many bytes in a second, at least one. -/
def rateOf (bytesPerSec : ℕ) : { r : ℚ // 0 < r } :=
  ⟨(max bytesPerSec 1 : ℕ), by exact_mod_cast lt_of_lt_of_le one_pos (le_max_right _ _)⟩

def new (bytesPerSec : ℕ) (now : ℚ) : RateLimiter :=
  full (rateOf bytesPerSec) ⟨rateOf bytesPerSec, (rateOf bytesPerSec).2.le⟩ none now

def under (bytesPerSec parent : ℕ) (now : ℚ) : RateLimiter :=
  { new bytesPerSec now with parent := some parent }

/-- What `RateLimiter::reserve` does under the lock of a limiter: the
limiter after it, and how long to wait. -/
def reserve (n : ℕ) (now : ℚ) (l : RateLimiter) : RateLimiter × ℚ :=
  let bucket := l.take (n : ℚ) now
  ({ l with tokens := bucket.tokens, last := bucket.last }, bucket.wait)

end RateLimiter

/-- **A call of `reserve`.** -/
structure Reserving where
  n : ℕ
  now : ℚ
  /-- The longest wait that it was given so far. -/
  wait : ℚ
  /-- When the wait began. -/
  since : ℚ
  /-- The limiter it is to go through next, if it has not returned. -/
  next : Option ℕ
deriving DecidableEq

/-- Whether a call has returned, and its wait is over. -/
def Reserving.over (time : ℚ) (c : Reserving) : Bool :=
  c.next.isNone && decide (c.since + c.wait ≤ time)

/-- A limiter was gone through: by which call, and when that would need to
wait no longer by what this limiter says. -/
structure Passage where
  limiter : ℕ
  call : ℕ
  n : ℕ
  due : ℚ
deriving DecidableEq

/-- **Limiters, and the calls of `reserve` that were made**, with what was
gone through in the order of it. -/
structure Limiters where
  clock : ℚ
  limiters : List RateLimiter
  calls : List Reserving
  passages : List Passage

/-- What happens to limiters. -/
inductive LimiterEvent
  | pass (time : ℚ)
  /-- A limiter of any rate and burst is made, under another or not. -/
  | make (rate : { r : ℚ // 0 < r }) (burst : { b : ℚ // 0 ≤ b }) (parent : Option ℕ)
  /-- `reserve` is called on a limiter. -/
  | reserve (id n : ℕ)
  /-- A call goes through the limiter that it has come to. -/
  | go (call : ℕ)

namespace Limiters

/-- A call goes through a limiter. -/
def goThrough (k id : ℕ) (c : Reserving) (l : RateLimiter) (s : Limiters) : Limiters :=
  let reserved := l.reserve c.n c.now
  let since := if l.last ≤ c.now then c.since else s.clock
  { s with
    limiters := s.limiters.set id reserved.1
    calls := s.calls.set k { c with wait := max c.wait reserved.2, since, next := l.parent }
    passages := s.passages ++ [⟨id, k, c.n, since + reserved.2⟩] }

/-- What an event leads to, if it may happen. -/
def next (s : Limiters) : LimiterEvent → Option Limiters
  | .pass time => if s.clock ≤ time then some { s with clock := time } else none
  | .make rate burst parent =>
    if parent.all (· < s.limiters.length) then
      some { s with limiters := s.limiters ++ [.full rate burst parent s.clock] }
    else none
  | .reserve id n =>
    if id < s.limiters.length then
      some { s with calls := s.calls ++ [⟨n, s.clock, 0, s.clock, some id⟩] }
    else none
  | .go k => do
    let c ← s.calls[k]?
    let id ← c.next
    let l ← s.limiters[id]?
    some (s.goThrough k id c l)

/-- **Limiters, as a system.** -/
def system : LTS Limiters LimiterEvent where
  step s event t := s.next event = some t

/-- No limiter was made yet. -/
def idle (clock : ℚ) : Limiters := ⟨clock, [], [], []⟩

/-- The bytes that went through a limiter in calls whose wait is over. -/
def moved (s : Limiters) (id : ℕ) (time : ℚ) : ℕ :=
  ((s.passages.filter fun p =>
    decide (p.limiter = id) && (s.calls[p.call]?).any (Reserving.over time)).map Passage.n).sum

/-- What went through a limiter. -/
def through (s : Limiters) (id : ℕ) : List Passage :=
  s.passages.filter fun p => decide (p.limiter = id)

/-- The bytes of a passage. -/
def bytes (p : Passage) : ℚ := p.n

end Limiters

/-- What a limiter may let through by a time. -/
def RateLimiter.allowance (l : RateLimiter) (time : ℚ) : ℚ :=
  l.burst + l.rate * (time - l.start)

theorem RateLimiter.monotone_allowance (l : RateLimiter) : Monotone l.allowance := by
  intro a b hab
  have := mul_le_mul_of_nonneg_left (sub_le_sub_right hab l.start) l.rate_pos.le
  exact add_le_add_right this l.burst

namespace Limiters

variable {s t : Limiters} {id k : ℕ} {c : Reserving} {l : RateLimiter}

/-- **The accounts of all limiters**: what went through each was within its
account, and each passage is covered by when it is due; and no call need
wait less than a limiter told it to. -/
structure Accounted (s : Limiters) : Prop where
  last : ∀ l ∈ s.limiters, l.last ≤ s.clock
  since : ∀ c ∈ s.calls, c.now ≤ c.since ∧ c.since ≤ s.clock
  known : ∀ p ∈ s.passages, p.limiter < s.limiters.length
  due : ∀ p ∈ s.passages, ∃ c, s.calls[p.call]? = some c ∧ p.due ≤ c.since + c.wait
  within : ∀ (id : ℕ) (l : RateLimiter), s.limiters[id]? = some l →
    l.toTokenBucket.Within l.start ((s.through id).map bytes).sum
  covered : ∀ (id : ℕ) (l : RateLimiter), s.limiters[id]? = some l →
    CoveredWhenDue bytes Passage.due l.allowance (s.through id)

theorem accounted_idle (clock : ℚ) : (idle clock).Accounted where
  last l hl := absurd hl not_mem_nil
  since c hc := absurd hc not_mem_nil
  known p hp := absurd hp not_mem_nil
  due p hp := absurd hp not_mem_nil
  within id l hl := absurd hl (by simp [idle])
  covered id l hl := absurd hl (by simp [idle])

section

variable (h : s.Accounted)

include h

theorem Accounted.pass {time : ℚ} (htime : s.clock ≤ time) :
    Accounted { s with clock := time } where
  last l hl := (h.last l hl).trans htime
  since c hc := ⟨(h.since c hc).1, (h.since c hc).2.trans htime⟩
  known := h.known
  due := h.due
  within := h.within
  covered := h.covered

theorem Accounted.make (rate : { r : ℚ // 0 < r }) (burst : { b : ℚ // 0 ≤ b })
    (parent : Option ℕ) :
    Accounted { s with limiters := s.limiters ++ [.full rate burst parent s.clock] } := by
  have hnone : s.through s.limiters.length = [] := by
    refine filter_eq_nil_iff.2 fun p hp => ?_
    have := h.known p hp
    simp only [decide_eq_true_eq]
    omega
  have hold : ∀ id l, (s.limiters ++ [.full rate burst parent s.clock])[id]? = some l →
      s.limiters[id]? = some l ∨
        (id = s.limiters.length ∧ l = .full rate burst parent s.clock) := by
    intro id l hl
    rcases lt_trichotomy id s.limiters.length with hlt | rfl | hgt
    · rw [getElem?_append_left hlt] at hl
      exact .inl hl
    · rw [getElem?_concat_length] at hl
      exact .inr ⟨rfl, (Option.some.inj hl).symm⟩
    · rw [getElem?_eq_none (by simp; omega)] at hl
      cases hl
  refine ⟨forall_mem_append.2 ⟨h.last, forall_mem_singleton.2 le_rfl⟩, h.since, fun p hp => ?_,
    h.due, fun id l hl => ?_, fun id l hl => ?_⟩
  · rw [length_append]
    exact (h.known p hp).trans_le (Nat.le_add_right _ _)
  · rcases hold id l hl with hl | ⟨rfl, rfl⟩
    · exact h.within id l hl
    · show TokenBucket.Within _ ((s.through _).map bytes).sum _
      rw [hnone]
      simp [TokenBucket.Within, RateLimiter.full]
  · rcases hold id l hl with hl | ⟨rfl, rfl⟩
    · exact h.covered id l hl
    · show CoveredWhenDue _ _ _ (s.through _)
      rw [hnone]
      exact .nil

theorem Accounted.reserve (id n : ℕ) :
    Accounted { s with calls := s.calls ++ [⟨n, s.clock, 0, s.clock, some id⟩] } := by
  refine ⟨h.last, forall_mem_append.2 ⟨h.since, forall_mem_singleton.2 ⟨le_rfl, le_rfl⟩⟩, h.known,
    fun p hp => ?_, h.within, h.covered⟩
  · obtain ⟨c, hc, hdue⟩ := h.due p hp
    refine ⟨c, ?_, hdue⟩
    rw [getElem?_append_left (List.getElem?_eq_some_iff.1 hc).1]
    exact hc

theorem Accounted.goThrough (hc : s.calls[k]? = some c)
    (hl : s.limiters[id]? = some l) : (s.goThrough k id c l).Accounted := by
  have hcall := h.since c (mem_of_getElem? hc)
  have hlast := h.last l (mem_of_getElem? hl)
  have hk : k < s.calls.length := (List.getElem?_eq_some_iff.1 hc).1
  have hid : id < s.limiters.length := (List.getElem?_eq_some_iff.1 hl).1
  generalize hsince : (if l.last ≤ c.now then c.since else s.clock) = since
  -- the wait goes on from where it began, or from now
  have hbegins : c.since ≤ since ∧ since ≤ s.clock ∧ max l.last c.now ≤ since := by
    rw [← hsince]
    split
    · rename_i hle
      exact ⟨le_rfl, hcall.2, max_le (hle.trans hcall.1) hcall.1⟩
    · exact ⟨hcall.2, le_rfl, max_le hlast (hcall.1.trans hcall.2)⟩
  have hwait := (l.take (c.n : ℚ) c.now).wait_nonneg l.rate_pos
  have hthrough : ∀ id', (s.goThrough k id c l).through id' =
      if id = id' then s.through id ++ [⟨id, k, c.n, since + (l.reserve c.n c.now).2⟩]
      else s.through id' := by
    intro id'
    simp only [through, Limiters.goThrough, hsince, filter_append]
    split
    · rename_i heq
      subst heq
      simp
    · rename_i hne
      simp [hne]
  have hlimiter : ∀ id' l', (s.goThrough k id c l).limiters[id']? = some l' →
      (id = id' ∧ l' = (l.reserve c.n c.now).1) ∨ (id ≠ id' ∧ s.limiters[id']? = some l') := by
    intro id' l' hl'
    rw [show (s.goThrough k id c l).limiters = s.limiters.set id (l.reserve c.n c.now).1 from rfl,
      getElem?_set] at hl'
    split at hl'
    · rename_i heq
      exact .inl ⟨heq, (Option.some.inj hl').symm⟩
    · rename_i hne
      exact .inr ⟨hne, hl'⟩
  have hwithin : (l.take (c.n : ℚ) c.now).Within l.start
      (((s.through id).map bytes).sum + c.n) := (h.within id l hl).take
  have hsum : ∀ due, (((s.through id ++ [(⟨id, k, c.n, due⟩ : Passage)]).map bytes).sum) =
      ((s.through id).map bytes).sum + c.n := by
    intro due
    simp [bytes]
  refine ⟨fun l' hl' => ?_, fun c' hc' => ?_, fun p hp => ?_, fun p hp => ?_, fun id' l' hl' => ?_,
    fun id' l' hl' => ?_⟩
  · rcases mem_or_eq_of_mem_set hl' with hl' | rfl
    · exact h.last l' hl'
    · exact hbegins.2.2.trans hbegins.2.1
  · rcases mem_or_eq_of_mem_set hc' with hc' | rfl
    · exact h.since c' hc'
    · simp only [hsince]
      exact ⟨hcall.1.trans hbegins.1, hbegins.2.1⟩
  · rw [show (s.goThrough k id c l).limiters.length = s.limiters.length from length_set]
    rcases mem_append.1 hp with hp | hp
    · exact h.known p hp
    · rw [mem_singleton.1 hp]
      exact hid
  · rw [show (s.goThrough k id c l).calls = s.calls.set k _ from rfl, getElem?_set, hsince]
    rcases mem_append.1 hp with hp | hp
    · obtain ⟨c', hc', hdue⟩ := h.due p hp
      split
      · rename_i heq
        subst heq
        obtain rfl := Option.some.inj (hc.symm.trans hc')
        exact ⟨_, rfl, hdue.trans (add_le_add hbegins.1 (le_max_left _ _))⟩
      · exact ⟨c', hc', hdue⟩
    · rw [mem_singleton.1 hp, if_pos rfl]
      exact ⟨_, if_pos hk, by simp only [hsince]; exact add_le_add_right (le_max_right _ _) _⟩
  · rcases hlimiter id' l' hl' with ⟨rfl, rfl⟩ | ⟨hne, hl'⟩
    · rw [hthrough, if_pos rfl, hsum]
      exact hwithin
    · rw [hthrough, if_neg hne]
      exact h.within id' l' hl'
  · rcases hlimiter id' l' hl' with ⟨rfl, rfl⟩ | ⟨hne, hl'⟩
    · rw [hthrough, if_pos rfl]
      refine (h.covered id l hl).concat ?_
      rw [hsum]
      refine (hwithin.total_le l.rate_pos).trans ?_
      exact l.monotone_allowance (add_le_add_left hbegins.2.2 _)
    · rw [hthrough, if_neg hne]
      exact h.covered id' l' hl'

theorem Accounted.next {event : LimiterEvent} (hnext : s.next event = some t) : t.Accounted := by
  cases event with
  | pass time =>
    obtain ⟨htime, heq⟩ := ite_none_right_eq_some.1 hnext
    cases heq
    exact h.pass htime
  | make rate burst parent =>
    obtain ⟨-, heq⟩ := ite_none_right_eq_some.1 hnext
    cases heq
    exact h.make rate burst parent
  | reserve id n =>
    obtain ⟨-, heq⟩ := ite_none_right_eq_some.1 hnext
    cases heq
    exact h.reserve id n
  | go k =>
    obtain ⟨c, hc, hnext⟩ := bind_eq_some_iff.1 hnext
    obtain ⟨id, -, hnext⟩ := bind_eq_some_iff.1 hnext
    obtain ⟨l, hl, hnext⟩ := bind_eq_some_iff.1 hnext
    cases hnext
    exact h.goThrough hc hl

end

/-- **At every time a limiter has let through no more than a burst and what
its rate gave since it was made**: in every run, whatever limiters there
are above and below it, and however the reservations interleave. -/
theorem moved_le_of_run {clock time : ℚ} {events : List LimiterEvent}
    (hrun : system.Run (idle clock) events s) (hl : s.limiters[id]? = some l)
    (htime : l.start ≤ time) : (s.moved id time : ℚ) ≤ l.burst + l.rate * (time - l.start) := by
  have hall : s.Accounted :=
    hrun.invariant (fun _ _ _ h hstep => h.next hstep) (accounted_idle clock)
  have hstart : 0 ≤ l.allowance time :=
    add_nonneg l.burst_nonneg (mul_nonneg l.rate_pos.le (sub_nonneg.2 htime))
  have hdue := (hall.covered id l hl).sum_le l.monotone_allowance
    (fun p _ => Nat.cast_nonneg p.n) hstart
  -- what a limiter lets a call do is due before the wait of the call is over
  have hsub : (s.passages.filter fun p =>
      decide (p.limiter = id) && (s.calls[p.call]?).any (Reserving.over time)).Sublist
      ((s.through id).filter fun p => decide (p.due ≤ time)) := by
    have hover : ∀ p ∈ s.passages, (s.calls[p.call]?).any (Reserving.over time) = true →
        p.due ≤ time := by
      intro p hp hover
      obtain ⟨c, hc, hdue⟩ := hall.due p hp
      rw [hc, any_some, Reserving.over, Bool.and_eq_true, decide_eq_true_eq] at hover
      exact hdue.trans hover.2
    rw [through, List.filter_filter]
    rw [filter_congr (q := fun p => decide (p.due ≤ time) && decide (p.limiter = id) &&
      (s.calls[p.call]?).any (Reserving.over time))]
    · refine monotone_filter_right _ fun p hp => ?_
      exact (Bool.and_eq_true_iff.1 hp).1
    · intro p hp
      by_cases h : (s.calls[p.call]?).any (Reserving.over time) = true
      · simp [h, hover p hp h]
      · simp [h]
  calc (s.moved id time : ℚ)
      = ((s.passages.filter fun p => decide (p.limiter = id) &&
          (s.calls[p.call]?).any (Reserving.over time)).map bytes).sum := by
        rw [moved, Nat.cast_list_sum, List.map_map]
        rfl
    _ ≤ (((s.through id).filter fun p => decide (p.due ≤ time)).map bytes).sum := by
        refine (hsub.map bytes).sum_le_sum fun x hx => ?_
        obtain ⟨p, -, rfl⟩ := List.mem_map.1 hx
        exact Nat.cast_nonneg p.n
    _ ≤ l.allowance time := hdue

/-- Two limiters under a third, and a reservation of each: they come to the
one above in the other order. -/
def shared : List LimiterEvent :=
  [.make ⟨10, by norm_num⟩ ⟨10, by norm_num⟩ none,
    .make ⟨100, by norm_num⟩ ⟨100, by norm_num⟩ (some 0),
    .make ⟨100, by norm_num⟩ ⟨100, by norm_num⟩ (some 0),
    .reserve 1 8, .reserve 2 7, .go 0, .go 1, .go 1, .go 0]

theorem moved_le_of_run_sample :
    ∃ (s : Limiters) (l : RateLimiter), system.Run (idle 0) shared s ∧ s.limiters[0]? = some l ∧
      s.moved 0 (1 / 2) = 15 ∧ (15 : ℚ) ≤ l.burst + l.rate * (1 / 2 - l.start) := by
  have hplay : ∃ s ∈ shared.foldlM next (idle 0), ∃ l ∈ s.limiters[0]?, l.start = 0 ∧
      s.moved 0 (1 / 2) = 15 := by
    decide +kernel
  obtain ⟨s, hs, l, hl, hstart, hmoved⟩ := hplay
  have hrun : system.Run (idle 0) shared s := LTS.run_of_foldlM (fun _ _ _ h => h) hs
  refine ⟨s, l, hrun, hl, hmoved, ?_⟩
  have htime : l.start ≤ (1 / 2 : ℚ) := by
    rw [hstart]
    norm_num
  have hle := moved_le_of_run hrun hl htime
  rw [hmoved] at hle
  exact_mod_cast hle

end Limiters

end BitTorrent
