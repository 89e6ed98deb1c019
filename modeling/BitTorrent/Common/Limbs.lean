import Mathlib.Tactic.Ring

/-!
# Numbers in limbs

A number as a list of 32-bit limbs, the least significant first.
-/

namespace BitTorrent

/-- **The number that limbs stand for.** -/
def limbsNat : List UInt32 → ℕ
  | [] => 0
  | x :: xs => x.toNat + 2 ^ 32 * limbsNat xs

theorem limbsNat_append (xs ys : List UInt32) :
    limbsNat (xs ++ ys) = limbsNat xs + (2 ^ 32) ^ xs.length * limbsNat ys := by
  induction xs with
  | nil => simp [limbsNat]
  | cons x xs ih =>
    rw [List.cons_append, limbsNat, ih, limbsNat, List.length_cons]
    ring

theorem limbsNat_lt (xs : List UInt32) : limbsNat xs < (2 ^ 32) ^ xs.length := by
  induction xs with
  | nil => exact Nat.one_pos
  | cons x xs ih =>
    have hx := x.toNat_lt
    rw [limbsNat, List.length_cons, pow_succ' (2 ^ 32) xs.length]
    omega

theorem limbsNat_inj {xs ys : List UInt32} (hlength : xs.length = ys.length)
    (h : limbsNat xs = limbsNat ys) : xs = ys := by
  induction xs generalizing ys with
  | nil => exact (List.eq_nil_of_length_eq_zero hlength.symm).symm
  | cons x xs ih =>
    cases ys with
    | nil => cases hlength
    | cons y ys =>
      have hx := x.toNat_lt
      have hy := y.toNat_lt
      rw [limbsNat, limbsNat] at h
      obtain rfl := UInt32.toNat_inj.1 (show x.toNat = y.toNat by omega)
      rw [ih (Nat.succ.inj hlength) (by omega)]

@[simp] theorem limbsNat_replicate_zero (n : ℕ) : limbsNat (.replicate n 0) = 0 := by
  induction n with
  | zero => rfl
  | succ n ih => rw [List.replicate_succ, limbsNat, ih, UInt32.toNat_zero, Nat.mul_zero]

end BitTorrent
