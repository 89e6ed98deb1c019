import Mathlib.Data.List.Basic

/-!
# Stream ciphers

A cipher whose state gives one byte of keystream after another.
-/

namespace BitTorrent

variable {σ : Type} (next : σ → UInt8 × σ)

/-- **Encrypts, or decrypts**: each byte with the next one of the
keystream. -/
def crypt : σ → List UInt8 → List UInt8 × σ
  | s, [] => ([], s)
  | s, b :: bs =>
    let rest := crypt (next s).2 bs
    ((b ^^^ (next s).1) :: rest.1, rest.2)

variable {next} (s : σ) (bs : List UInt8)

@[simp] theorem length_crypt : (crypt next s bs).1.length = bs.length := by
  induction bs generalizing s with
  | nil => rfl
  | cons b bs ih => simp [crypt, ih]

theorem crypt_append (xs ys : List UInt8) : crypt next s (xs ++ ys) =
      ((crypt next s xs).1 ++ (crypt next (crypt next s xs).2 ys).1,
        (crypt next (crypt next s xs).2 ys).2) := by
  induction xs generalizing s with
  | nil => rfl
  | cons x xs ih => simp [crypt, ih]

theorem crypt_crypt :
    crypt next s (crypt next s bs).1 = (bs, (crypt next s bs).2) := by
  induction bs generalizing s with
  | nil => rfl
  | cons b bs ih =>
    have hxor : b ^^^ (next s).1 ^^^ (next s).1 = b := by
      rw [UInt8.xor_assoc, UInt8.xor_self, UInt8.xor_zero]
    rw [crypt, crypt]
    dsimp only
    rw [ih, hxor]

end BitTorrent
