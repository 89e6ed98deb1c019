import Mathlib.Algebra.GroupWithZero.Nat
import Mathlib.Data.Nat.Log

/-!
# Rounding up

Quotients rounded up, `div_ceil`, and the next power of two.
-/

namespace BitTorrent

section

variable {len size n m : ℕ}

section

variable (hsize : 0 < size)

include hsize

theorem ceil_le_iff : (len + size - 1) / size ≤ n ↔ len ≤ n * size := by
  rw [← Nat.lt_succ_iff, Nat.div_lt_iff_lt_mul hsize, Nat.succ_mul]
  omega

theorem le_ceil_mul : len ≤ (len + size - 1) / size * size := (ceil_le_iff hsize).1 le_rfl

theorem lt_ceil_iff : n < (len + size - 1) / size ↔ n * size < len := by
  rw [← not_le, ceil_le_iff hsize, not_le]

theorem ceil_ceil (hm : 0 < m) :
    ((len + size - 1) / size + m - 1) / m = (len + m * size - 1) / (m * size) := by
  refine eq_of_forall_ge_iff fun n => ?_
  rw [ceil_le_iff hm, ceil_le_iff hsize, ceil_le_iff (Nat.mul_pos hm hsize), Nat.mul_assoc]

end

end

section

open private Nat.nextPowerOfTwo.go from Init.Data.Nat.Power2.Basic

theorem nextPowerOfTwo_go_eq (n d k : ℕ) (hpos : 2 ^ k > 0) (hk : k + d = Nat.clog 2 n) :
    Nat.nextPowerOfTwo.go n (2 ^ k) hpos = 2 ^ Nat.clog 2 n := by
  induction d generalizing k with
  | zero =>
    have hle : ¬ 2 ^ k < n := by
      rw [← Nat.lt_clog_iff_pow_lt Nat.one_lt_two]
      omega
    rw [Nat.nextPowerOfTwo.go, if_neg hle, ← hk, Nat.add_zero]
  | succ d ih =>
    have hlt : 2 ^ k < n := by
      rw [← Nat.lt_clog_iff_pow_lt Nat.one_lt_two]
      omega
    rw [Nat.nextPowerOfTwo.go, if_pos hlt]
    exact ih (k + 1) (Nat.pow_pos (by decide)) (by omega)

theorem nextPowerOfTwo_eq (n : ℕ) : n.nextPowerOfTwo = 2 ^ Nat.clog 2 n :=
  nextPowerOfTwo_go_eq n (Nat.clog 2 n) 0 (by decide) (Nat.zero_add _)

end

theorem le_nextPowerOfTwo (n : ℕ) : n ≤ n.nextPowerOfTwo := by
  rw [nextPowerOfTwo_eq]
  exact Nat.le_pow_clog Nat.one_lt_two n

theorem nextPowerOfTwo_le_pow {n k : ℕ} (h : n ≤ 2 ^ k) : n.nextPowerOfTwo ≤ 2 ^ k := by
  rw [nextPowerOfTwo_eq]
  exact Nat.pow_le_pow_right (by decide) ((Nat.clog_le_iff_le_pow Nat.one_lt_two).2 h)

theorem clog_ceil_div_pow {n j : ℕ} (h : 2 ^ j ≤ n) :
    Nat.clog 2 ((n + 2 ^ j - 1) / 2 ^ j) + j = Nat.clog 2 n := by
  have hpow : 0 < 2 ^ j := Nat.pow_pos (by decide)
  have hiff : ∀ m, Nat.clog 2 ((n + 2 ^ j - 1) / 2 ^ j) ≤ m ↔ Nat.clog 2 n ≤ m + j := by
    intro m
    rw [Nat.clog_le_iff_le_pow Nat.one_lt_two, Nat.clog_le_iff_le_pow Nat.one_lt_two,
      ceil_le_iff hpow, pow_add]
  have hj : j ≤ Nat.clog 2 n := by
    rw [← Nat.clog_pow 2 j Nat.one_lt_two]
    exact Nat.clog_mono_right 2 h
  have h₁ := (hiff (Nat.clog 2 n - j)).2 (by omega)
  have h₂ := (hiff _).1 le_rfl
  omega

/-- `trailing_zeros` of a number of so many bits. -/
def trailingZeros : ℕ → ℕ → ℕ
  | 0, _ => 0
  | bits + 1, n => if n % 2 = 1 then 0 else trailingZeros bits (n / 2) + 1

theorem trailingZeros_two_pow {bits k : ℕ} (h : k < bits) : trailingZeros bits (2 ^ k) = k := by
  induction k generalizing bits with
  | zero =>
    obtain ⟨bits, rfl⟩ : ∃ n, bits = n + 1 := ⟨bits - 1, by omega⟩
    rfl
  | succ k ih =>
    obtain ⟨bits, rfl⟩ : ∃ n, bits = n + 1 := ⟨bits - 1, by omega⟩
    rw [trailingZeros, pow_succ, if_neg (by omega), Nat.mul_div_cancel _ Nat.zero_lt_two,
      ih (by omega)]

end BitTorrent
