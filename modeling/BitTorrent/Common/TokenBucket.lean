import Mathlib.Algebra.Order.BigOperators.Group.List
import Mathlib.Algebra.Order.Field.Basic
import Mathlib.Data.List.Induction
import Mathlib.Tactic.Linarith
import Mathlib.Tactic.Ring

/-!
# Token buckets that go into debt

A bucket fills at a rate, up to a burst, and every request takes what it asks for: what is not
there is owed, and the request is to wait until it would have been refilled.
-/

namespace BitTorrent

open List

/-- **A token bucket.** The tokens are negative while there is a debt. -/
structure TokenBucket (K : Type*) where
  rate : K
  burst : K
  tokens : K
  last : K

namespace TokenBucket

variable {K : Type*} [Field K] [LinearOrder K] [IsStrictOrderedRing K] {b : TokenBucket K}
  {start total n now : K}

/-- The bucket is refilled for the time since it was last seen to, and `n`
is taken. -/
def take (n now : K) (b : TokenBucket K) : TokenBucket K :=
  { b with
    tokens := min (b.tokens + max (now - b.last) 0 * b.rate) b.burst - n
    last := max b.last now }

/-- How long it takes until there is no debt. -/
def wait (b : TokenBucket K) : K :=
  if 0 ≤ b.tokens then 0 else -b.tokens / b.rate

/-- **The account of a bucket**: what was taken, with what is there, is no
more than a burst and what the rate gave since the start. -/
def Within (start total : K) (b : TokenBucket K) : Prop :=
  total + b.tokens ≤ b.burst + b.rate * (b.last - start)

theorem wait_nonneg (hrate : 0 < b.rate) : 0 ≤ b.wait := by
  rw [wait]
  split
  · exact le_rfl
  · exact div_nonneg (by linarith) hrate.le

theorem neg_tokens_le (hrate : 0 < b.rate) : -b.tokens ≤ b.rate * b.wait := by
  rw [wait]
  split
  · linarith
  · rw [mul_div_cancel₀ _ hrate.ne']

theorem Within.take (h : b.Within start total) : (b.take n now).Within start (total + n) := by
  have hlast : max (now - b.last) 0 = max b.last now - b.last := by
    rcases le_total now b.last with hle | hle
    · rw [max_eq_right (by linarith), max_eq_left hle, sub_self]
    · rw [max_eq_left (by linarith), max_eq_right hle]
  have hrefill : min (b.tokens + max (now - b.last) 0 * b.rate) b.burst ≤
      b.tokens + (max b.last now - b.last) * b.rate := by
    rw [← hlast]
    exact min_le_left _ _
  unfold Within TokenBucket.take at *
  simp only
  calc total + n + (min (b.tokens + max (now - b.last) 0 * b.rate) b.burst - n)
      ≤ total + (b.tokens + (max b.last now - b.last) * b.rate) := by linarith
    _ ≤ b.burst + b.rate * (b.last - start) + (max b.last now - b.last) * b.rate := by linarith
    _ = b.burst + b.rate * (max b.last now - start) := by ring

theorem Within.total_le (h : b.Within start total) (hrate : 0 < b.rate) :
    total ≤ b.burst + b.rate * (b.last + b.wait - start) := by
  have hdebt := neg_tokens_le hrate
  have hsplit : b.rate * (b.last + b.wait - start) =
      b.rate * (b.last - start) + b.rate * b.wait := by ring
  unfold Within at h
  linarith

end TokenBucket

section

variable {α M τ : Type*} [AddCommMonoid M] [PartialOrder M] {amount : α → M}
  {due : α → τ} {bound : τ → M} {l : List α} {t : τ}

/-- **Covered when due**: at each entry of a list, everything up to it is
within the bound for when it falls due. -/
def CoveredWhenDue (amount : α → M) (due : α → τ) (bound : τ → M) (l : List α) : Prop :=
  ∀ before a after, l = before ++ a :: after →
    ((before ++ [a]).map amount).sum ≤ bound (due a)

theorem CoveredWhenDue.nil : CoveredWhenDue amount due bound [] := by
  intro before a after h
  exact absurd h (by simp)

theorem CoveredWhenDue.concat {a : α} (h : CoveredWhenDue amount due bound l)
    (ha : ((l ++ [a]).map amount).sum ≤ bound (due a)) :
    CoveredWhenDue amount due bound (l ++ [a]) := by
  intro before x after heq
  rcases eq_nil_or_concat after with rfl | ⟨rest, y, rfl⟩
  · obtain ⟨rfl, rfl⟩ := append_singleton_inj.1 heq
    exact ha
  · rw [concat_eq_append, ← cons_append, ← append_assoc] at heq
    obtain ⟨rfl, rfl⟩ := append_singleton_inj.1 heq
    exact h before x rest rfl

theorem CoveredWhenDue.of_concat {a : α} (h : CoveredWhenDue amount due bound (l ++ [a])) :
    CoveredWhenDue amount due bound l := by
  rintro before x after rfl
  exact h before x (after ++ [a]) (by simp)

theorem CoveredWhenDue.sum_le [IsOrderedAddMonoid M] [LinearOrder τ]
    (h : CoveredWhenDue amount due bound l) (hbound : Monotone bound)
    (hamount : ∀ a ∈ l, 0 ≤ amount a) (ht : 0 ≤ bound t) :
    ((l.filter fun a => decide (due a ≤ t)).map amount).sum ≤ bound t := by
  induction l using reverseRecOn with
  | nil => exact ht
  | append_singleton l a ih =>
    by_cases hdue : due a ≤ t
    · -- the last entry covers all those before it
      calc (((l ++ [a]).filter fun a => decide (due a ≤ t)).map amount).sum
          ≤ ((l ++ [a]).map amount).sum := by
            refine (List.Sublist.map amount filter_sublist).sum_le_sum fun x hx => ?_
            obtain ⟨y, hy, rfl⟩ := mem_map.1 hx
            exact hamount y hy
        _ ≤ bound (due a) := h l a [] rfl
        _ ≤ bound t := hbound hdue
    · rw [filter_append, filter_cons_of_neg (by simpa using hdue), filter_nil,
        append_nil]
      exact ih h.of_concat fun x hx => hamount x (mem_append_left _ hx)

end

end BitTorrent
