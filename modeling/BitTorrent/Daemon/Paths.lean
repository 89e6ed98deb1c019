import BitTorrent.Bencode.Value
import BitTorrent.Common.Text

/-!
# Paths and their texts

A `PathBuf` is any bytes, and a `String` is characters: a text becomes a path by its UTF-8 bytes,
and a path becomes a text by `to_string_lossy`, which puts a replacement character for what is not
UTF-8.
-/

namespace BitTorrent

open List Text

/-- `as_bytes`. -/
def Text.encode (text : Text) : List UInt8 := text.flatMap String.utf8EncodeChar

namespace Lossy

/-- `char::REPLACEMENT_CHARACTER`. -/
def replacement : Char := '�'

/-- A character whose first bytes have been read: the bits so far, how
many bytes are owed, and between which bounds the next one lies. -/
structure Begun where
  code : ℕ
  owed : ℕ
  lo : UInt8
  hi : UInt8

/-- A byte where a character begins. -/
def start (b : UInt8) : Text × Option Begun :=
  match Bencode.utf8Lead b with
  | none => ([replacement], none)
  | some lead =>
    if lead.1 = 0 then ([Char.ofNat b.toNat], none)
    else ([], some ⟨b.toNat % 2 ^ (6 - lead.1), lead.1, lead.2.1, lead.2.2⟩)

/-- A byte within a character. One that cannot be there ends it with one
replacement, and begins the next. -/
def next (begun : Begun) (b : UInt8) : Text × Option Begun :=
  let code := begun.code * 64 + b.toNat % 64
  if begun.lo ≤ b ∧ b ≤ begun.hi then
    if begun.owed = 1 then ([Char.ofNat code], none)
    else ([], some ⟨code, begun.owed - 1, 0x80, 0xBF⟩)
  else (replacement :: (start b).1, (start b).2)

/-- A byte, wherever it is. -/
def feed : Option Begun → UInt8 → Text × Option Begun
  | none, b => start b
  | some begun, b => next begun b

/-- The text of the bytes that are left. -/
def decodeFrom : Option Begun → List UInt8 → Text
  | begun, [] => if begun.isSome then [replacement] else []
  | begun, b :: rest => (feed begun b).1 ++ decodeFrom (feed begun b).2 rest

/-- `String::from_utf8_lossy`. -/
def decode (bytes : List UInt8) : Text := decodeFrom none bytes

/-! A character is read back, byte by byte. -/

section

variable {k : ℕ} {rest : List UInt8}

theorem utf8Lead_ofNat (hk : k < 256) : Bencode.utf8Lead (UInt8.ofNat k) =
      if k < 0x80 then some (0, 0x80, 0xBF)
      else if 0xC2 ≤ k ∧ k ≤ 0xDF then some (1, 0x80, 0xBF)
      else if k = 0xE0 then some (2, 0xA0, 0xBF)
      else if k = 0xED then some (2, 0x80, 0x9F)
      else if 0xE1 ≤ k ∧ k ≤ 0xEF then some (2, 0x80, 0xBF)
      else if k = 0xF0 then some (3, 0x90, 0xBF)
      else if 0xF1 ≤ k ∧ k ≤ 0xF3 then some (3, 0x80, 0xBF)
      else if k = 0xF4 then some (3, 0x80, 0x8F)
      else none := by
  have htoNat : (UInt8.ofNat k).toNat = k := UInt8.toNat_ofNat_of_lt' hk
  simp only [Bencode.utf8Lead, UInt8.lt_iff_toNat_lt, UInt8.le_iff_toNat_le, ← UInt8.toNat_inj,
    htoNat, UInt8.reduceToNat]

variable {lo hi : UInt8}

theorem decodeFrom_start {owed : ℕ} (hk : k < 256)
    (hlead : Bencode.utf8Lead (UInt8.ofNat k) = some (owed, lo, hi)) (howed : owed ≠ 0) :
    decodeFrom none (UInt8.ofNat k :: rest) =
      decodeFrom (some ⟨k % 2 ^ (6 - owed), owed, lo, hi⟩) rest := by
  simp [decodeFrom, feed, start, hlead, howed, UInt8.toNat_ofNat_of_lt' hk]

theorem decodeFrom_next {code owed : ℕ} (hk : k < 256) (howed : 1 < owed)
    (hlo : lo.toNat ≤ k) (hhi : k ≤ hi.toNat) :
    decodeFrom (some ⟨code, owed, lo, hi⟩) (UInt8.ofNat k :: rest) =
      decodeFrom (some ⟨code * 64 + k % 64, owed - 1, 0x80, 0xBF⟩) rest := by
  simp [decodeFrom, feed, next, UInt8.le_iff_toNat_le, UInt8.toNat_ofNat_of_lt' hk, hlo, hhi,
    howed.ne']

theorem decodeFrom_last {code : ℕ} (hk : k < 256) (hlo : lo.toNat ≤ k) (hhi : k ≤ hi.toNat) :
    decodeFrom (some ⟨code, 1, lo, hi⟩) (UInt8.ofNat k :: rest) =
      Char.ofNat (code * 64 + k % 64) :: decodeFrom none rest := by
  simp [decodeFrom, feed, next, UInt8.le_iff_toNat_le, UInt8.toNat_ofNat_of_lt' hk, hlo, hhi]

theorem utf8Lead_three {v : ℕ} (hlo : 0x7ff < v) (hhi : v ≤ 0xffff)
    (hvalid : v < 0xD800 ∨ 0xDFFF < v) :
    ∃ lo hi, Bencode.utf8Lead (UInt8.ofNat (v / 4096 % 0x10 + 0xe0)) = some (2, lo, hi) ∧
      lo.toNat ≤ v / 64 % 0x40 + 0x80 ∧ v / 64 % 0x40 + 0x80 ≤ hi.toNat := by
  have hlead := utf8Lead_ofNat (k := v / 4096 % 0x10 + 0xe0) (by omega)
  rw [if_neg (by omega), if_neg (by omega)] at hlead
  split_ifs at hlead
  all_goals first
    | omega
    | refine ⟨_, _, hlead, ?_, ?_⟩ <;> simp only [UInt8.reduceToNat] <;> omega

theorem utf8Lead_four {v : ℕ} (hlo : 0xffff < v) (hhi : v < 0x110000) :
    ∃ lo hi, Bencode.utf8Lead (UInt8.ofNat (v / 262144 % 0x08 + 0xf0)) = some (3, lo, hi) ∧
      lo.toNat ≤ v / 4096 % 0x40 + 0x80 ∧ v / 4096 % 0x40 + 0x80 ≤ hi.toNat := by
  have hlead := utf8Lead_ofNat (k := v / 262144 % 0x08 + 0xf0) (by omega)
  rw [if_neg (by omega), if_neg (by omega), if_neg (by omega), if_neg (by omega),
    if_neg (by omega)] at hlead
  split_ifs at hlead
  all_goals first
    | omega
    | refine ⟨_, _, hlead, ?_, ?_⟩ <;> simp only [UInt8.reduceToNat] <;> omega

theorem decodeFrom_utf8EncodeChar (c : Char) :
    decodeFrom none (String.utf8EncodeChar c ++ rest) = c :: decodeFrom none rest := by
  have hvalid : c.toNat < 0xD800 ∨ (0xDFFF < c.toNat ∧ c.toNat < 0x110000) := c.valid
  have hc : Char.ofNat c.toNat = c := Char.ofNat_toNat c
  generalize hv : c.toNat = v at hvalid hc
  have hv' : c.val.toNat = v := hv
  simp only [String.utf8EncodeChar, hv']
  split_ifs with h1 h2 h3
  · have hlt : v < 256 := by omega
    have htoNat : (UInt8.ofNat v).toNat = v := UInt8.toNat_ofNat_of_lt' hlt
    have hlead := utf8Lead_ofNat (k := v) (by omega)
    rw [if_pos (by omega)] at hlead
    simp [decodeFrom, feed, start, hlead, htoNat, hc]
  · have hlead := utf8Lead_ofNat (k := v / 64 % 0x20 + 0xc0) (by omega)
    rw [if_neg (by omega), if_pos (by omega)] at hlead
    simp only [cons_append, nil_append]
    rw [decodeFrom_start (by omega) hlead (by decide),
      decodeFrom_last (by omega) (by simp) (by simp; omega)]
    have hcode : (v / 64 % 0x20 + 0xc0) % 2 ^ (6 - 1) * 64 + (v % 0x40 + 0x80) % 64 = v := by omega
    rw [hcode, hc]
  · obtain ⟨lo, hi, hlead, hlo, hhi⟩ := utf8Lead_three (v := v) (by omega) h3 (by omega)
    simp only [cons_append, nil_append]
    rw [decodeFrom_start (by omega) hlead (by decide),
      decodeFrom_next (by omega) (by decide) hlo hhi,
      decodeFrom_last (by omega) (by simp) (by simp; omega)]
    have hcode : ((v / 4096 % 0x10 + 0xe0) % 2 ^ (6 - 2) * 64 + (v / 64 % 0x40 + 0x80) % 64) * 64 +
        (v % 0x40 + 0x80) % 64 = v := by omega
    rw [hcode, hc]
  · obtain ⟨lo, hi, hlead, hlo, hhi⟩ := utf8Lead_four (v := v) (by omega) (by omega)
    simp only [cons_append, nil_append]
    rw [decodeFrom_start (by omega) hlead (by decide),
      decodeFrom_next (by omega) (by decide) hlo hhi,
      decodeFrom_next (by omega) (by decide) (by simp) (by simp; omega),
      decodeFrom_last (by omega) (by simp) (by simp; omega)]
    have hcode : (((v / 262144 % 0x08 + 0xf0) % 2 ^ (6 - 3) * 64 +
        (v / 4096 % 0x40 + 0x80) % 64) * 64 + (v / 64 % 0x40 + 0x80) % 64) * 64 +
        (v % 0x40 + 0x80) % 64 = v := by omega
    rw [hcode, hc]

@[simp] theorem decode_encode (text : Text) : decode text.encode = text := by
  induction text with
  | nil => rfl
  | cons c text ih =>
    rw [decode, encode, flatMap_cons, decodeFrom_utf8EncodeChar]
    exact congrArg (c :: ·) ih

end

end Lossy

/-- `str::from_utf8` succeeds. -/
def IsUtf8 (bytes : List UInt8) : Prop := ∃ text : Text, text.encode = bytes

variable {bytes : List UInt8}

theorem encode_decode_iff : (Lossy.decode bytes).encode = bytes ↔ IsUtf8 bytes := by
  refine ⟨fun h => ⟨_, h⟩, ?_⟩
  rintro ⟨text, rfl⟩
  rw [Lossy.decode_encode]

theorem encode_append (a b : Text) : (a ++ b).encode = a.encode ++ b.encode := flatMap_append

variable {c : Char}

theorem utf8EncodeChar_of_lt (h : c.toNat < 128) :
    String.utf8EncodeChar c = [UInt8.ofNat c.toNat] := by
  have hle : c.val.toNat ≤ 0x7f := Nat.le_of_lt_succ h
  rw [String.utf8EncodeChar, if_pos hle]
  rfl

theorem getLast?_utf8EncodeChar {b : UInt8}
    (h : (String.utf8EncodeChar c).getLast? = some b) (hb : b.toNat < 128) :
    String.utf8EncodeChar c = [b] := by
  have hlast : ∀ k : ℕ, (UInt8.ofNat (k % 0x40 + 0x80)).toNat = k % 0x40 + 0x80 := fun k =>
    UInt8.toNat_ofNat_of_lt' (show k % 0x40 + 0x80 < 256 by omega)
  unfold String.utf8EncodeChar at h ⊢
  dsimp only at h ⊢
  split_ifs at h ⊢
  · simpa using h
  all_goals
    simp only [getLast?_cons_cons, getLast?_singleton, Option.some.injEq] at h
    rw [← h, hlast] at hb
    omega

theorem isUtf8_of_concat {b : UInt8} (hb : b.toNat < 128)
    (h : IsUtf8 (bytes ++ [b])) : IsUtf8 bytes := by
  obtain ⟨text, htext⟩ := h
  rcases eq_nil_or_concat text with rfl | ⟨init, c, rfl⟩
  · simp [encode] at htext
  · rw [concat_eq_append, encode_append] at htext
    have hsingle : encode [c] = String.utf8EncodeChar c := by simp [encode]
    have hne : String.utf8EncodeChar c ≠ [] := String.utf8EncodeChar_ne_nil
    have hlast : (String.utf8EncodeChar c).getLast? = some b := by
      have hconcat := congrArg List.getLast? htext
      rw [hsingle, getLast?_append_of_ne_nil _ hne, getLast?_concat] at hconcat
      exact hconcat
    rw [hsingle, getLast?_utf8EncodeChar hlast hb] at htext
    exact ⟨init, append_cancel_right htext⟩

theorem isUtf8_append_iff {ascii : Text} (h : ascii.isAscii = true) :
    IsUtf8 (bytes ++ ascii.encode) ↔ IsUtf8 bytes := by
  induction ascii using reverseRecOn with
  | nil => simp [encode]
  | append_singleton ascii c ih =>
    simp only [isAscii, all_append, all_cons, all_nil, Bool.and_true,
      Bool.and_eq_true, decide_eq_true_eq] at h ih
    have hbyte : (UInt8.ofNat c.toNat).toNat = c.toNat :=
      UInt8.toNat_ofNat_of_lt' (show c.toNat < 256 by omega)
    have hsingle : encode [c] = [UInt8.ofNat c.toNat] := by
      simp [encode, utf8EncodeChar_of_lt h.2]
    rw [encode_append, hsingle, ← append_assoc]
    constructor
    · intro hutf8
      exact (ih h.1).1 (isUtf8_of_concat (by rw [hbyte]; exact h.2) hutf8)
    · rintro ⟨text, rfl⟩
      exact ⟨text ++ ascii ++ [c], by simp [encode_append, hsingle]⟩

abbrev PathBuf := List UInt8

namespace PathBuf

/-- `PathBuf::from`, of a `String`. -/
def ofText (text : Text) : PathBuf := text.encode

def toStringLossy (p : PathBuf) : Text := Lossy.decode p

def isAbsolute (p : PathBuf) : Bool := p.head? == some 47

def join (p part : PathBuf) : PathBuf :=
  if part.isAbsolute then part
  else if p = [] ∨ p.getLast? = some 47 then p ++ part
  else p ++ 47 :: part

theorem ofText_toStringLossy_iff {p : PathBuf} : ofText p.toStringLossy = p ↔ IsUtf8 p :=
  encode_decode_iff

theorem isAbsolute_ofText_cons {text : Text} (hlt : c.toNat < 128) (hne : c ≠ '/') :
    isAbsolute (ofText (c :: text)) = false := by
  have hhead : (ofText (c :: text)).head? = some (UInt8.ofNat c.toNat) := by
    rw [ofText, encode, flatMap_cons, utf8EncodeChar_of_lt hlt]
    rfl
  rw [isAbsolute, hhead, beq_eq_false_iff_ne, ne_eq, Option.some.injEq]
  intro heq
  have hnat := congrArg UInt8.toNat heq
  rw [UInt8.toNat_ofNat_of_lt' (show c.toNat < 256 by omega)] at hnat
  exact hne (Char.ext (UInt32.toNat_inj.1 hnat))

theorem isUtf8_join_iff {p : PathBuf} {name : Text} (h : name.isAscii = true)
    (hrel : isAbsolute (ofText name) = false) : IsUtf8 (p.join (ofText name)) ↔ IsUtf8 p := by
  rw [join, if_neg (by simp [hrel])]
  split
  · exact isUtf8_append_iff h
  · have hslash : p ++ 47 :: ofText name = p ++ encode ('/' :: name) := rfl
    rw [hslash]
    refine isUtf8_append_iff ?_
    simpa [isAscii] using h

end PathBuf

end BitTorrent
