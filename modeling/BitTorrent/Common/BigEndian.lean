import Mathlib.Data.List.Basic

/-!
# Big-endian numbers

Numbers as they stand in a packet or a message: of any number of bytes, and
of two and four, written and read at a position.
-/

namespace BitTorrent

/-- The number that bytes stand for, the most significant first. -/
def beNat (bytes : List UInt8) : ℕ := bytes.foldl (fun n byte => 256 * n + byte.toNat) 0

/-- `u16::to_be_bytes`. -/
def be16Bytes (n : UInt16) : List UInt8 :=
  [.ofNat (n.toNat / 256), .ofNat n.toNat]

/-- `u32::to_be_bytes`. -/
def be32Bytes (n : UInt32) : List UInt8 :=
  [.ofNat (n.toNat / 16777216), .ofNat (n.toNat / 65536), .ofNat (n.toNat / 256), .ofNat n.toNat]

/-- `u16::from_be_bytes`, of the two bytes at a position. -/
def be16 (bytes : List UInt8) (pos : ℕ) : UInt16 :=
  .ofNat ((bytes.getD pos 0).toNat * 256 + (bytes.getD (pos + 1) 0).toNat)

/-- `u32::from_be_bytes`, of the four bytes at a position. -/
def be32 (bytes : List UInt8) (pos : ℕ) : UInt32 :=
  .ofNat ((bytes.getD pos 0).toNat * 16777216 + (bytes.getD (pos + 1) 0).toNat * 65536 +
    (bytes.getD (pos + 2) 0).toNat * 256 + (bytes.getD (pos + 3) 0).toNat)

theorem be16_ofNat_bytes (n : UInt16) :
    UInt16.ofNat ((UInt8.ofNat (n.toNat / 256)).toNat * 256 + (UInt8.ofNat n.toNat).toNat) = n := by
  apply UInt16.toNat_inj.1
  have := n.toNat_lt
  simp only [UInt16.toNat_ofNat', UInt8.toNat_ofNat']
  omega

theorem be32_ofNat_bytes (n : UInt32) :
    UInt32.ofNat ((UInt8.ofNat (n.toNat / 16777216)).toNat * 16777216 +
      (UInt8.ofNat (n.toNat / 65536)).toNat * 65536 + (UInt8.ofNat (n.toNat / 256)).toNat * 256 +
      (UInt8.ofNat n.toNat).toNat) = n := by
  apply UInt32.toNat_inj.1
  have := n.toNat_lt
  simp only [UInt32.toNat_ofNat', UInt8.toNat_ofNat']
  omega

variable (before bytes : List UInt8)

theorem getD_append_add (i : ℕ) :
    (before ++ bytes).getD (before.length + i) 0 = bytes.getD i 0 := by
  rw [List.getD_eq_getElem?_getD, List.getElem?_append_right (by omega), Nat.add_sub_cancel_left,
    List.getD_eq_getElem?_getD]

theorem getD_append_length :
    (before ++ bytes).getD before.length 0 = bytes.getD 0 0 := getD_append_add before bytes 0

theorem be16_append (n : UInt16) (rest : List UInt8) :
    be16 (before ++ be16Bytes n ++ rest) before.length = n := by
  rw [be16, List.append_assoc, getD_append_length, getD_append_add]
  exact be16_ofNat_bytes n

theorem be16_concat (n : UInt16) : be16 (before ++ be16Bytes n) before.length = n := by
  simpa using be16_append before n []

theorem be32_append (n : UInt32) (rest : List UInt8) :
    be32 (before ++ be32Bytes n ++ rest) before.length = n := by
  rw [be32, List.append_assoc, getD_append_length, getD_append_add, getD_append_add,
    getD_append_add]
  exact be32_ofNat_bytes n

end BitTorrent
