import Mathlib.Algebra.GroupWithZero.Nat

/-!
# Machine arithmetic

The operations of a `u64` and a `u32`, undefined where the result does not fit: a
computation written with them has a value exactly when nothing in it
overflows or underflows, and then it is the natural numbers' own.
-/

namespace BitTorrent

namespace U64

/-- `a + b`. -/
def add (a b : ℕ) : Option ℕ := if a + b < 2 ^ 64 then some (a + b) else none

/-- `a * b`. -/
def mul (a b : ℕ) : Option ℕ := if a * b < 2 ^ 64 then some (a * b) else none

/-- `a - b`. -/
def sub (a b : ℕ) : Option ℕ := if b ≤ a then some (a - b) else none

/-- `iter().sum()`. -/
def sum : ℕ → List ℕ → Option ℕ
  | acc, [] => some acc
  | acc, n :: ns => (add acc n).bind fun acc => sum acc ns

/-- `as u32`, where it loses nothing. -/
def toU32 (n : ℕ) : Option UInt32 := if n < 2 ^ 32 then some (.ofNat n) else none

variable {a b : ℕ}

theorem add_of_lt (h : a + b < 2 ^ 64) : add a b = some (a + b) := if_pos h

theorem mul_of_lt (h : a * b < 2 ^ 64) : mul a b = some (a * b) := if_pos h

theorem sub_of_le (h : b ≤ a) : sub a b = some (a - b) := if_pos h

theorem toU32_of_lt (h : a < 2 ^ 32) : toU32 a = some (.ofNat a) := if_pos h

theorem sum_of_lt {ns : List ℕ} {acc : ℕ} (h : acc + ns.sum < 2 ^ 64) :
    sum acc ns = some (acc + ns.sum) := by
  induction ns generalizing acc with
  | nil => simp [sum]
  | cons n ns ih =>
    rw [List.sum_cons] at h ⊢
    rw [sum, add, if_pos (by omega), Option.bind_some, ih (by omega), Nat.add_assoc]

end U64

namespace U32

/-- `a + b`. -/
def add (a b : UInt32) : Option UInt32 := if a.toNat + b.toNat < 2 ^ 32 then some (a + b) else none

/-- `a - b`. -/
def sub (a b : UInt32) : Option UInt32 := if b ≤ a then some (a - b) else none

end U32

variable {n : ℕ}

theorem toNat_toInt_ofNat (h : n < 2 ^ 63) : (Int64.ofNat n).toInt.toNat = n := by
  rw [Int64.toInt_ofNat_of_lt h, Int.toNat_natCast]

theorem not_ofNat_lt_zero (h : n < 2 ^ 63) : ¬ Int64.ofNat n < 0 := by
  rw [Int64.lt_iff_toInt_lt, Int64.toInt_ofNat_of_lt h, Int64.toInt_zero]
  omega

theorem not_ofNat_le_zero (hpos : 0 < n) (h : n < 2 ^ 63) : ¬ Int64.ofNat n ≤ 0 := by
  rw [Int64.le_iff_toInt_le, Int64.toInt_ofNat_of_lt h, Int64.toInt_zero]
  omega

end BitTorrent
