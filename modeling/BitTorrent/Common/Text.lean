import Mathlib.Algebra.GroupWithZero.Nat
import Mathlib.Data.List.DropRight
import Mathlib.Data.Vector.Basic

/-!
# Texts

`str` of the standard library as the list of its characters, and the operations on it that split,
trim and read numbers: `lines`, `split`, `split_once`, `trim`, `parse::<usize>` and the
hexadecimal digits.
-/

namespace BitTorrent

open List

/-- `str`, and `String`. -/
abbrev Text := List Char

namespace Text

/-- A line without the `\r` of a `\r\n`. -/
def stripCr (line : Text) : Text :=
  if line.getLast? = some '\r' then line.dropLast else line

/-- `lines`: what each `\n` ends, without the `\r` before it, and what is
left after the last `\n` if anything is. -/
def lines (text : Text) : List Text :=
  let parts := text.splitOn '\n'
  parts.dropLast.map stripCr ++ parts.getLast?.toList.filter (· ≠ [])

/-- `lines().filter(|l| !l.is_empty())`. -/
def nonemptyLines (text : Text) : List Text := text.lines.filter (· ≠ [])

/-- `join("\n")`. -/
def joinLines (parts : List Text) : Text := ['\n'].intercalate parts

section

variable {text line : Text} {parts : List Text}

theorem not_mem_of_mem_splitOn {sep : Char} (h : line ∈ text.splitOn sep) : sep ∉ line := by
  induction text generalizing line with
  | nil => simp_all
  | cons c text ih =>
    rw [splitOn_cons_eq_if_modifyHead] at h
    split at h
    · rcases mem_cons.1 h with rfl | h
      · exact not_mem_nil
      · exact ih h
    · next hne =>
      cases hparts : text.splitOn sep with
      | nil => exact absurd hparts (splitOn_ne_nil _ _)
      | cons part parts =>
        rw [hparts] at h ih
        rcases mem_cons.1 h with rfl | h
        · rw [mem_cons, not_or]
          exact ⟨fun heq => hne (beq_iff_eq.2 heq.symm), ih (mem_cons_self ..)⟩
        · exact ih (mem_cons_of_mem _ h)

theorem stripCr_sublist : (stripCr line).Sublist line := by
  rw [stripCr]
  split
  · exact dropLast_sublist _
  · exact List.Sublist.refl _

theorem stripCr_eq_self_iff : stripCr line = line ↔ line.getLast? ≠ some '\r' := by
  rw [stripCr]
  split
  · next h =>
    refine iff_of_false (fun heq => ?_) (fun hne => hne h)
    have hlen := congrArg length heq
    rw [length_dropLast] at hlen
    have hpos : 0 < line.length := length_pos_iff.2 (by rintro rfl; simp at h)
    omega
  · next h => exact iff_of_true rfl h

theorem not_mem_of_mem_nonemptyLines (h : line ∈ text.nonemptyLines) : '\n' ∉ line := by
  have hline : line ∈ text.lines := mem_of_mem_filter h
  rw [lines, mem_append] at hline
  rcases hline with hline | hline
  · obtain ⟨part, hpart, rfl⟩ := mem_map.1 hline
    have hnot := not_mem_of_mem_splitOn (dropLast_subset _ hpart)
    exact fun hmem => hnot (stripCr_sublist.subset hmem)
  · have hlast := mem_of_mem_filter hline
    rw [Option.mem_toList] at hlast
    exact not_mem_of_mem_splitOn (mem_of_getLast? hlast)

theorem ne_nil_of_mem_nonemptyLines (h : line ∈ text.nonemptyLines) : line ≠ [] := by
  simpa using of_mem_filter h

section

variable (hnl : ∀ line ∈ parts, '\n' ∉ line)

include hnl

theorem nonemptyLines_joinLines (hne : parts ≠ []) (hlast : parts.getLast hne ≠ []) :
    nonemptyLines (joinLines parts) =
      (parts.dropLast.map stripCr).filter (· ≠ []) ++ [parts.getLast hne] := by
  rw [nonemptyLines, lines, joinLines, splitOn_intercalate _ hnl hne, getLast?_eq_some_getLast hne]
  simp [hlast]

theorem nonemptyLines_joinLines_iff (hparts : ∀ line ∈ parts, line ≠ []) :
    nonemptyLines (joinLines parts) = parts ↔
      ∀ line ∈ parts.dropLast, line.getLast? ≠ some '\r' := by
  rcases eq_or_ne parts [] with rfl | hne
  · exact iff_of_true (by decide) (by simp)
  rw [nonemptyLines_joinLines hnl hne (hparts _ (getLast_mem hne))]
  have hsplit : parts.dropLast ++ [parts.getLast hne] = parts := dropLast_append_getLast hne
  simp only [← stripCr_eq_self_iff]
  constructor
  · intro h line hline
    have hinit := append_cancel_right (h.trans hsplit.symm)
    -- nothing was filtered out, so that the two lists agree place by place
    have hlen : ((parts.dropLast.map stripCr).filter (· ≠ [])).length =
        (parts.dropLast.map stripCr).length := by rw [hinit, length_map]
    rw [filter_eq_self.2 (length_filter_eq_length_iff.1 hlen)] at hinit
    exact map_eq_map_iff.1 (hinit.trans (map_id _).symm) line hline
  · intro h
    have hmap : parts.dropLast.map stripCr = parts.dropLast := (map_congr_left h).trans (map_id _)
    rw [hmap, filter_eq_self.2, hsplit]
    intro line hline
    simpa using hparts line (dropLast_subset _ hline)

theorem splitOn_flatMap :
    (parts.flatMap fun line => line ++ ['\n']).splitOn '\n' = parts ++ [[]] := by
  induction parts with
  | nil => rfl
  | cons line parts ih =>
    rw [flatMap_cons, append_assoc, singleton_append,
      splitOn_append_cons_self_of_not_mem (hnl line (by simp)),
      ih fun line hline => hnl line (by simp [hline])]
    rfl

theorem lines_flatMap (hcr : ∀ line ∈ parts, line.getLast? ≠ some '\r') :
    lines (parts.flatMap fun line => line ++ ['\n']) = parts := by
  have hstrip : parts.map stripCr = parts :=
    (map_congr_left fun line hline => stripCr_eq_self_iff.2 (hcr line hline)).trans (map_id _)
  rw [lines, splitOn_flatMap hnl]
  simp [hstrip]

end

end

def isWhitespace (c : Char) : Bool :=
  (9 ≤ c.toNat && c.toNat ≤ 13) || (0x2000 ≤ c.toNat && c.toNat ≤ 0x200A) ||
    [0x20, 0x85, 0xA0, 0x1680, 0x2028, 0x2029, 0x202F, 0x205F, 0x3000].contains c.toNat

def trim (text : Text) : Text := (text.dropWhile isWhitespace).rdropWhile isWhitespace

theorem trim_eq_self {text : Text} (h : ∀ c ∈ text, isWhitespace c = false) : trim text = text := by
  have hdrop : text.dropWhile isWhitespace = text := by
    cases text with
    | nil => rfl
    | cons c text => rw [dropWhile_cons_of_neg (by simp [h c])]
  rw [trim, hdrop, rdropWhile_eq_self_iff]
  intro hne
  simp [h _ (getLast_mem hne)]

theorem trim_ne_nil {text : Text} {c : Char} (hc : c ∈ text) (h : isWhitespace c = false) :
    trim text ≠ [] := by
  intro hnil
  rw [trim, rdropWhile_eq_nil_iff] at hnil
  have hdrop : text.dropWhile isWhitespace = [] := by
    by_contra hne
    have hhead := head_dropWhile_not isWhitespace hne
    rw [hnil _ (head_mem hne)] at hhead
    cases hhead
  rw [dropWhile_eq_nil_iff.1 hdrop c hc] at h
  cases h

def splitOnce (sep : Char) : Text → Option (Text × Text)
  | [] => none
  | c :: rest =>
    if c = sep then some ([], rest)
    else (splitOnce sep rest).map fun cut => (c :: cut.1, cut.2)

def rsplitOnce (sep : Char) (text : Text) : Option (Text × Text) :=
  (splitOnce sep text.reverse).map fun cut => (cut.2.reverse, cut.1.reverse)

/-- `to_ascii_lowercase`. -/
def lower (text : Text) : Text := text.map Char.toLower

def isAscii (text : Text) : Bool := text.all fun c => decide (c.toNat < 128)

/-- `to_string` of an unsigned number. -/
def decimal (n : ℕ) : Text := Nat.toDigits 10 n

/-- `parse::<usize>`: digits, after a `+` or not. -/
def parseUsize (text : Text) : Option ℕ :=
  let digits := if text.head? = some '+' then text.tail else text
  let value := Nat.ofDigitChars 10 digits 0
  if digits ≠ [] ∧ digits.all Char.isDigit ∧ value < 2 ^ 64 then some value else none

section

variable {text : Text} {n : ℕ} {c : Char}

theorem isDigit_of_mem_decimal (h : c ∈ decimal n) : c.isDigit = true :=
  Nat.isDigit_of_mem_toDigits (by decide) (by decide) h

theorem decimal_ne_nil : decimal n ≠ [] := Nat.toDigits_ne_nil

theorem ofDigitChars_decimal : Nat.ofDigitChars 10 (decimal n) 0 = n :=
  Nat.ofDigitChars_ten_toDigits

theorem toNat_of_isDigit (h : c.isDigit = true) : 48 ≤ c.toNat ∧ c.toNat ≤ 57 := by
  simpa [Char.isDigit, UInt32.le_iff_toNat_le] using h

theorem isWhitespace_of_isDigit (h : c.isDigit = true) : isWhitespace c = false := by
  obtain ⟨hlo, hhi⟩ := toNat_of_isDigit h
  simp only [isWhitespace, contains_eq_mem, mem_cons, not_mem_nil, or_false,
    Bool.or_eq_false_iff, Bool.and_eq_false_imp, decide_eq_true_eq, decide_eq_false_iff_not]
  omega

theorem ne_of_isDigit {d : Char} (h : c.isDigit = true) (hd : d.isDigit = false) : c ≠ d := by
  rintro rfl
  rw [h] at hd
  cases hd

@[simp] theorem trim_decimal : trim (decimal n) = decimal n :=
  trim_eq_self fun _ hc => isWhitespace_of_isDigit (isDigit_of_mem_decimal hc)

theorem parseUsize_decimal (hn : n < 2 ^ 64) : parseUsize (decimal n) = some n := by
  have hhead : (decimal n).head? ≠ some '+' := fun h =>
    ne_of_isDigit (isDigit_of_mem_decimal (mem_of_head? h)) (by decide) rfl
  have hall : (decimal n).all Char.isDigit = true :=
    all_eq_true.2 fun _ hc => isDigit_of_mem_decimal hc
  rw [parseUsize, if_neg hhead, ofDigitChars_decimal, if_pos ⟨decimal_ne_nil, hall, hn⟩]

theorem lt_of_parseUsize (h : parseUsize text = some n) : n < 2 ^ 64 := by
  simp only [parseUsize, Option.ite_none_right_eq_some, Option.some.injEq] at h
  obtain ⟨⟨-, -, hlt⟩, heq⟩ := h
  rwa [heq] at hlt

end

/-- `to_digit(16)`. -/
def hexValue (c : Char) : Option ℕ :=
  if c.isDigit then some (c.toNat - 48)
  else if 97 ≤ c.toNat ∧ c.toNat ≤ 102 then some (c.toNat - 87)
  else if 65 ≤ c.toNat ∧ c.toNat ≤ 70 then some (c.toNat - 55)
  else none

/-- `format!("{:02x}", b)`. -/
def hexPair (b : UInt8) : Text := [(b.toNat / 16).digitChar, (b.toNat % 16).digitChar]

/-- `u8::from_str_radix(_, 16)` of two characters, the first of which may
be a sign. -/
def parseHexPair (high low : Char) : Option UInt8 :=
  if high = '+' then (hexValue low).map UInt8.ofNat
  else do
    let h ← hexValue high
    let l ← hexValue low
    return UInt8.ofNat (h * 16 + l)

/-- The loop over the pairs of a text of even length. -/
def parseHexPairs : Text → Option (List UInt8)
  | [] => some []
  | [_] => none
  | high :: low :: rest => do
    let b ← parseHexPair high low
    let bs ← parseHexPairs rest
    return b :: bs

/-- The bytes that twice as many digits are, `None` for a text of another
length. -/
def parseHex (n : ℕ) (text : Text) : Option (List.Vector UInt8 n) :=
  if text.isAscii ∧ text.length = 2 * n then
    (parseHexPairs text).bind fun bs => if h : bs.length = n then some ⟨bs, h⟩ else none
  else none

/-- `format!("{:02x}")` of each byte. -/
def hex {n : ℕ} (v : List.Vector UInt8 n) : Text := v.toList.flatMap hexPair

section

theorem hexValue_digitChar {d : ℕ} (h : d < 16) : hexValue d.digitChar = some d := by
  have hall : ∀ d < 16, hexValue d.digitChar = some d := by decide
  exact hall d h

theorem digitChar_bounds {d : ℕ} (h : d < 16) :
    48 ≤ d.digitChar.toNat ∧ d.digitChar.toNat ≤ 102 := by
  have hall : ∀ d < 16, 48 ≤ d.digitChar.toNat ∧ d.digitChar.toNat ≤ 102 := by decide
  exact hall d h

theorem parseHexPair_hexPair (b : UInt8) :
    parseHexPair (b.toNat / 16).digitChar (b.toNat % 16).digitChar = some b := by
  have hb := b.toNat_lt
  have hplus : (b.toNat / 16).digitChar ≠ '+' := by
    intro heq
    have hbounds := digitChar_bounds (d := b.toNat / 16) (by omega)
    rw [heq] at hbounds
    exact absurd hbounds (by decide)
  have hsum : b.toNat / 16 * 16 + b.toNat % 16 = b.toNat := by omega
  rw [parseHexPair, if_neg hplus, hexValue_digitChar (by omega), hexValue_digitChar (by omega),
    Option.bind_eq_bind, Option.bind_some, Option.bind_some, hsum,
    UInt8.ofNat_toNat]
  rfl

theorem parseHexPairs_flatMap (bs : List UInt8) : parseHexPairs (bs.flatMap hexPair) = some bs := by
  induction bs with
  | nil => rfl
  | cons b bs ih =>
    rw [flatMap_cons, hexPair, cons_append, cons_append, nil_append,
      parseHexPairs, parseHexPair_hexPair, ih]
    rfl

variable {n : ℕ}

theorem toNat_of_mem_hex {v : List.Vector UInt8 n} {c : Char} (h : c ∈ hex v) :
    48 ≤ c.toNat ∧ c.toNat ≤ 102 := by
  obtain ⟨b, -, hc⟩ := mem_flatMap.1 h
  have hb := b.toNat_lt
  rcases mem_cons.1 hc with rfl | hc
  · exact digitChar_bounds (by omega)
  · rw [mem_singleton] at hc
    subst hc
    exact digitChar_bounds (by omega)

variable (v : List.Vector UInt8 n)

theorem length_hex : (hex v).length = 2 * n := by
  have hpair : ∀ b : UInt8, length (hexPair b) = 2 := fun _ => rfl
  simp [hex, length_flatMap, hpair, Nat.mul_comm]

theorem isAscii_hex : (hex v).isAscii = true := by
  simp only [isAscii, all_eq_true, decide_eq_true_eq]
  intro c hc
  have hbounds := toNat_of_mem_hex hc
  omega

@[simp] theorem parseHex_hex : parseHex n (hex v) = some v := by
  rw [parseHex, if_pos ⟨isAscii_hex v, length_hex v⟩, hex, parseHexPairs_flatMap,
    Option.bind_some, dif_pos v.toList_length]
  rfl

end

end Text

end BitTorrent
