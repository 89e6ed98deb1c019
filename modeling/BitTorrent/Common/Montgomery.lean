import Mathlib.Data.Nat.ModEq
import Mathlib.Tactic.Ring
import Mathlib.Tactic.Linarith

/-!
# Montgomery's arithmetic

Residues modulo `m` are held multiplied by a radix `R`.
-/

namespace BitTorrent.MontgomeryForm

variable {m R : ℕ}

/-- **`M` holds the residue of `x`.** -/
def Holds (m R x M : ℕ) : Prop := M < m ∧ M ≡ x * R [MOD m]

variable {B t t' a b q : ℕ}

theorem turn_lt (h : B * t' = t + b * a + q * m) (ht : t < 2 * m) (ha : a < m)
    (hb : b < B) (hq : q < B) : t' < 2 * m := by
  have hba : b * a ≤ (B - 1) * m := Nat.mul_le_mul (by omega) ha.le
  have hqm : q * m ≤ (B - 1) * m := Nat.mul_le_mul_right m (by omega)
  have hsum : B * t' < B * (2 * m) := by
    obtain ⟨B, rfl⟩ := Nat.exists_eq_add_of_lt hb
    simp only [Nat.add_sub_cancel] at hba hqm
    linarith [Nat.add_mul (b + B) 1 m]
  exact Nat.lt_of_mul_lt_mul_left hsum

theorem turn_modEq (h : B * t' = t + b * a + q * m) : B * t' ≡ t + b * a [MOD m] := by
  rw [h]
  exact Nat.modEq_iff_dvd.2 ⟨-q, by push_cast; ring⟩

theorem sub_of_le (h : t < 2 * m) (hle : m ≤ t) : t - m < m ∧ t - m ≡ t [MOD m] := by
  refine ⟨by omega, ?_⟩
  have hsub := Nat.add_mod_right (t - m) m
  rw [Nat.sub_add_cancel hle] at hsub
  exact hsub.symm

theorem Holds.mul (hR : m.Coprime R) {x y X Y M : ℕ} (hx : Holds m R x X) (hy : Holds m R y Y)
    (hlt : M < m) (h : M * R ≡ X * Y [MOD m]) : Holds m R (x * y) M := by
  refine ⟨hlt, Nat.ModEq.cancel_right_of_coprime hR ?_⟩
  calc M * R ≡ X * Y [MOD m] := h
    _ ≡ x * R * (y * R) [MOD m] := hx.2.mul hy.2
    _ = x * y * R * R := by ring

theorem holds_of_square (hR : m.Coprime R) {x S M : ℕ} (hS : S ≡ R ^ 2 [MOD m]) (hlt : M < m)
    (h : M * R ≡ x * S [MOD m]) : Holds m R x M := by
  refine ⟨hlt, Nat.ModEq.cancel_right_of_coprime hR ?_⟩
  calc M * R ≡ x * S [MOD m] := h
    _ ≡ x * R ^ 2 [MOD m] := hS.mul_left x
    _ = x * R * R := by ring

theorem Holds.eq_mod (hR : m.Coprime R) {x X M : ℕ} (hx : Holds m R x X) (hlt : M < m)
    (h : M * R ≡ X * 1 [MOD m]) : M = x % m := by
  have hM : M ≡ x [MOD m] := by
    refine Nat.ModEq.cancel_right_of_coprime hR ?_
    rw [Nat.mul_one] at h
    exact h.trans hx.2
  rw [← Nat.mod_eq_of_lt hlt]
  exact hM

end BitTorrent.MontgomeryForm
