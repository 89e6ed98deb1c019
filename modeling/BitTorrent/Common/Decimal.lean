import Mathlib.Data.Nat.Digits.Lemmas

/-!
# Decimal numerals as bytes

The numeral of a number, the value of a numeral, and that they are
inverse to each other on *canonical* numerals: some digits, the first of
them not a zero unless it is the only one.
-/

namespace BitTorrent.Decimal

open List

/-- `u8::is_ascii_digit`. -/
def isDigit (b : UInt8) : Bool := 48 ≤ b.toNat && b.toNat ≤ 57

/-- The value of a digit. -/
def ofDigit (b : UInt8) : ℕ := b.toNat - 48

/-- The digit of a value below ten. -/
def toDigit (d : ℕ) : UInt8 := UInt8.ofNat (d + 48)

/-- The numeral of a number, most significant digit first. -/
def numeral (n : ℕ) : List UInt8 :=
  if n = 0 then [48] else ((Nat.digits 10 n).map toDigit).reverse

/-- The value of a numeral, read from the left. -/
def value (ds : List UInt8) : ℕ := ds.foldl (fun acc b => acc * 10 + ofDigit b) 0

/-- **A canonical numeral.** -/
def Canonical (ds : List UInt8) : Prop :=
  ds ≠ [] ∧ (∀ b ∈ ds, isDigit b = true) ∧ (1 < ds.length → ds.head? ≠ some 48)

variable {n d : ℕ} {b : UInt8} {ds : List UInt8}

theorem toNat_toDigit (h : d < 10) : (toDigit d).toNat = d + 48 := by
  rw [toDigit, UInt8.toNat_ofNat', Nat.mod_eq_of_lt (by omega)]

theorem ofDigit_toDigit (h : d < 10) : ofDigit (toDigit d) = d := by
  rw [ofDigit, toNat_toDigit h, Nat.add_sub_cancel]

theorem isDigit_toDigit (h : d < 10) : isDigit (toDigit d) = true := by
  simp only [isDigit, toNat_toDigit h, Bool.and_eq_true, decide_eq_true_eq]
  omega

theorem isDigit_iff : isDigit b = true ↔ 48 ≤ b.toNat ∧ b.toNat ≤ 57 := by
  simp [isDigit]

theorem toDigit_ofDigit (h : isDigit b = true) : toDigit (ofDigit b) = b := by
  have hb := isDigit_iff.1 h
  apply UInt8.toNat_inj.1
  rw [toNat_toDigit (by rw [ofDigit]; omega), ofDigit]
  omega

theorem ofDigit_lt (h : isDigit b = true) : ofDigit b < 10 := by
  have hb := isDigit_iff.1 h
  rw [ofDigit]
  omega

theorem value_eq_ofDigits (ds : List UInt8) :
    value ds = Nat.ofDigits 10 (ds.reverse.map ofDigit) := by
  induction ds using reverseRecOn with
  | nil => rfl
  | append_singleton ds b ih =>
    rw [value, foldl_append, foldl_cons, foldl_nil]
    rw [value] at ih
    rw [ih, reverse_append, reverse_singleton, singleton_append, map_cons, Nat.ofDigits_cons]
    omega

variable (n : ℕ)

theorem map_ofDigit_map_toDigit :
    ((Nat.digits 10 n).map toDigit).map ofDigit = Nat.digits 10 n := by
  rw [map_map]
  refine (map_congr_left fun d hd => ?_).trans (map_id _)
  exact ofDigit_toDigit (Nat.digits_lt_base (by decide) hd)

theorem value_numeral : value (numeral n) = n := by
  unfold numeral
  split
  · rename_i h
    rw [h]
    rfl
  · rw [value_eq_ofDigits, reverse_reverse, map_ofDigit_map_toDigit, Nat.ofDigits_digits]

theorem canonical_numeral : Canonical (numeral n) := by
  unfold numeral
  split
  · exact ⟨by simp, by simp [isDigit], by simp⟩
  · rename_i h
    have hne : Nat.digits 10 n ≠ [] := Nat.digits_ne_nil_iff_ne_zero.2 h
    refine ⟨by simpa using hne, ?_, fun _ => ?_⟩
    · intro b hb
      rw [mem_reverse] at hb
      obtain ⟨d, hd, rfl⟩ := mem_map.1 hb
      exact isDigit_toDigit (Nat.digits_lt_base (by decide) hd)
    · -- the last of Mathlib's digits is the leading one
      have hlast := Nat.getLast_digit_ne_zero 10 h
      have hlt := Nat.digits_lt_base (by decide) (getLast_mem hne)
      rw [head?_reverse, getLast?_map, getLast?_eq_getLast_of_ne_nil hne]
      intro heq
      have hzero := congrArg UInt8.toNat (Option.some.inj heq)
      rw [toNat_toDigit hlt] at hzero
      exact hlast (by simpa using hzero)

theorem numeral_value (h : Canonical ds) : numeral (value ds) = ds := by
  obtain ⟨hne, hdigit, hlead⟩ := h
  have hback : (ds.reverse.map ofDigit).map toDigit = ds.reverse := by
    rw [map_map]
    refine (map_congr_left fun b hb => ?_).trans (map_id _)
    exact toDigit_ofDigit (hdigit b (mem_reverse.1 hb))
  obtain ⟨b, tl, rfl⟩ := exists_cons_of_ne_nil hne
  by_cases hb : b = 48
  · -- a leading zero stands alone
    subst hb
    have htl : tl = [] := by
      by_contra hcon
      have := length_pos_iff.2 hcon
      exact hlead (by simp only [length_cons]; omega) rfl
    subst htl
    rfl
  · have hb0 : ofDigit b ≠ 0 := by
      have hd := isDigit_iff.1 (hdigit b (by simp))
      intro h0
      apply hb
      apply UInt8.toNat_inj.1
      have : b.toNat = 48 := by
        rw [ofDigit] at h0
        omega
      rw [this]
      rfl
    have hdigits : Nat.digits 10 (value (b :: tl)) = (b :: tl).reverse.map ofDigit := by
      rw [value_eq_ofDigits]
      refine Nat.digits_ofDigits 10 (by decide) _ ?_ ?_
      · intro d hd
        obtain ⟨c, hc, rfl⟩ := mem_map.1 hd
        exact ofDigit_lt (hdigit c (mem_reverse.1 hc))
      · intro _
        simpa using hb0
    have hpos : value (b :: tl) ≠ 0 := by
      rw [← Nat.digits_ne_nil_iff_ne_zero (b := 10), hdigits]
      simp
    rw [numeral, if_neg hpos, hdigits, hback, reverse_reverse]

end BitTorrent.Decimal
