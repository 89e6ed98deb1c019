import Mathlib.Data.Int.Log
import Mathlib.Data.Rat.Floor

/-!
# Doubles

`f64` as far as reading a number off a text goes: the double nearest to a rational, ties to the
even one.
-/

namespace BitTorrent

/-- A double that is not NaN. -/
inductive Double
  | finite (value : ℚ)
  | infinite (negative : Bool)
deriving DecidableEq

namespace Double

/-- The integer nearest to a rational, the even one of two. -/
def halfEven (q : ℚ) : ℤ :=
  if q - ⌊q⌋ < 1 / 2 ∨ (q - ⌊q⌋ = 1 / 2 ∧ ⌊q⌋ % 2 = 0) then ⌊q⌋ else ⌊q⌋ + 1

/-- The exponent of the last place of a double near `q`: there are 53
places, and none below the smallest double. -/
def lastPlace (q : ℚ) : ℤ := max (Int.log 2 |q| - 52) (-1074)

/-- The double nearest to a rational. What rounds beyond the largest is
infinite. -/
def nearest (q : ℚ) : Double :=
  let rounded : ℚ := halfEven (q / 2 ^ lastPlace q) * 2 ^ lastPlace q
  if |rounded| < 2 ^ 1024 then .finite rounded else .infinite (decide (q < 0))

/-- `n >= bound` for a bound that is a double. -/
def atLeast (bound : ℚ) : Double → Bool
  | finite q => decide (bound ≤ q)
  | infinite negative => !negative

/-- `n < bound`. -/
def below (bound : ℚ) (n : Double) : Bool := !n.atLeast bound

/-- `n.fract() == 0.0`, which is false of an infinity. -/
def isWhole : Double → Bool
  | finite q => decide (q.den = 1)
  | infinite _ => false

/-- `n as u64`: towards zero, and to the nearest bound when out of
range. -/
def asU64 : Double → ℕ
  | finite q => min ⌊q⌋.toNat (2 ^ 64 - 1)
  | infinite negative => if negative then 0 else 2 ^ 64 - 1

section

variable {q : ℚ} {n : ℕ}

@[simp] theorem halfEven_intCast (z : ℤ) : halfEven z = z := by
  simp [halfEven]

theorem nearest_of_eq_mul {z : ℤ} (hq : q = z * 2 ^ lastPlace q) (hlt : |q| < 2 ^ 1024) :
    nearest q = .finite q := by
  have hdiv : q / 2 ^ lastPlace q = z := (div_eq_iff (zpow_ne_zero _ two_ne_zero)).2 hq
  rw [nearest, hdiv, halfEven_intCast, ← hq, if_pos hlt]

theorem lastPlace_natCast_nonpos (hn : n < 2 ^ 53) : lastPlace n ≤ 0 := by
  rw [lastPlace, Nat.abs_cast, Int.log_natCast]
  have hlog : Nat.log 2 n < 53 := by
    rcases Nat.eq_zero_or_pos n with rfl | hpos
    · simp
    · exact Nat.log_lt_of_lt_pow hpos.ne' hn
  omega

theorem nearest_natCast (hn : n ≤ 2 ^ 53) : nearest n = .finite n := by
  have hbound : |(n : ℚ)| < 2 ^ 1024 := by
    rw [Nat.abs_cast]
    have hcast : (n : ℚ) ≤ 2 ^ 53 := by exact_mod_cast hn
    exact hcast.trans_lt (pow_lt_pow_right₀ one_lt_two (by decide))
  rcases hn.lt_or_eq with hlt | rfl
  · obtain ⟨k, hk⟩ := Int.eq_ofNat_of_zero_le (neg_nonneg.2 (lastPlace_natCast_nonpos hlt))
    refine nearest_of_eq_mul (z := n * 2 ^ k) ?_ hbound
    rw [← neg_neg (lastPlace n), hk]
    push_cast
    rw [zpow_neg, zpow_natCast, mul_assoc, mul_inv_cancel₀ (by positivity), mul_one]
  · have hplace : lastPlace ((2 ^ 53 : ℕ) : ℚ) = 1 := by
      rw [lastPlace, Nat.abs_cast, Int.log_natCast, Nat.log_pow Nat.one_lt_two]
      decide
    refine nearest_of_eq_mul (z := 2 ^ 52) ?_ hbound
    rw [hplace]
    norm_num

end

section

variable {n : ℕ} {bound : ℚ}

@[simp] theorem isWhole_natCast : isWhole (.finite n) = true := by
  simp [isWhole]

theorem asU64_natCast (hn : n < 2 ^ 64) : asU64 (.finite n) = n := by
  simp only [asU64, Int.floor_natCast, Int.toNat_natCast]
  omega

theorem asU64_bounds {d : Double} {top : ℕ} (htop : top ≤ 2 ^ 64) (hwhole : d.isWhole = true)
    (hone : d.atLeast 1 = true) (hbelow : d.below top = true) :
    1 ≤ d.asU64 ∧ d.asU64 < top := by
  cases d with
  | infinite negative => simp [isWhole] at hwhole
  | finite q =>
    simp only [isWhole, atLeast, below, decide_eq_true_eq, Bool.not_eq_true',
      decide_eq_false_iff_not, not_le] at hwhole hone hbelow
    obtain ⟨z, rfl⟩ : ∃ z : ℤ, q = z := ⟨q.num, ((Rat.den_eq_one_iff q).1 hwhole).symm⟩
    have hz : (1 : ℤ) ≤ z := by exact_mod_cast hone
    have hz' : z < top := by exact_mod_cast hbelow
    simp only [asU64, Int.floor_intCast]
    omega

end

end Double

end BitTorrent
