import BitTorrent.Common.Decimal

/-!
# Bencoded values

`Bencode` of `bencode.rs` and its encoder.
-/

namespace BitTorrent

/-- The bytes of a text in ASCII. -/
def ascii (text : String) : List UInt8 := text.toList.map fun c => .ofNat c.toNat

inductive Bencode
  | int (i : Int64)
  | bytes (b : List UInt8)
  | list (items : List Bencode)
  | dict (entries : List (List UInt8 × Bencode))

/-- The entries of a dict. -/
abbrev Entries := List (List UInt8 × Bencode)

namespace Bencode

/-- The bytes that have a meaning: `b'-'`, `b':'`, `b'd'`, `b'e'`, `b'i'`
and `b'l'`. -/
def minus : UInt8 := 45
def colon : UInt8 := 58
def tagDict : UInt8 := 100
def tagEnd : UInt8 := 101
def tagInt : UInt8 := 105
def tagList : UInt8 := 108

/-- `i64::to_string`, as bytes. -/
def signedNumeral (i : ℤ) : List UInt8 :=
  if i < 0 then minus :: Decimal.numeral i.natAbs else Decimal.numeral i.natAbs

/-- `encode_into` for a byte string. -/
def encodeBytes (b : List UInt8) : List UInt8 := Decimal.numeral b.length ++ colon :: b

mutual

def encode : Bencode → List UInt8
  | int i => tagInt :: (signedNumeral i.toInt ++ [tagEnd])
  | bytes b => encodeBytes b
  | list items => tagList :: (encodeItems items ++ [tagEnd])
  | dict entries => tagDict :: (encodeEntries entries ++ [tagEnd])

/-- The loop over the items of a list. -/
def encodeItems : List Bencode → List UInt8
  | [] => []
  | v :: vs => encode v ++ encodeItems vs

/-- The loop over the entries of a dict. -/
def encodeEntries : Entries → List UInt8
  | [] => []
  | (k, v) :: es => encodeBytes k ++ (encode v ++ encodeEntries es)

end

/-- What the first byte of a character says of the bytes after it: how
many there are, and between which bounds the first of them lies. -/
def utf8Lead (b : UInt8) : Option (ℕ × UInt8 × UInt8) :=
  if b < 0x80 then some (0, 0x80, 0xBF)
  else if 0xC2 ≤ b ∧ b ≤ 0xDF then some (1, 0x80, 0xBF)
  else if b = 0xE0 then some (2, 0xA0, 0xBF)
  else if b = 0xED then some (2, 0x80, 0x9F)
  else if 0xE1 ≤ b ∧ b ≤ 0xEF then some (2, 0x80, 0xBF)
  else if b = 0xF0 then some (3, 0x90, 0xBF)
  else if 0xF1 ≤ b ∧ b ≤ 0xF3 then some (3, 0x80, 0xBF)
  else if b = 0xF4 then some (3, 0x80, 0x8F)
  else none

/-- The rest of a text when `owed` bytes of a character are still to
come, the next of them between `lo` and `hi`. -/
def validUtf8From : ℕ → UInt8 → UInt8 → List UInt8 → Bool
  | 0, _, _, [] => true
  | _ + 1, _, _, [] => false
  | 0, _, _, b :: rest =>
    match utf8Lead b with
    | some (owed, lo, hi) => validUtf8From owed lo hi rest
    | none => false
  | owed + 1, lo, hi, b :: rest => decide (lo ≤ b ∧ b ≤ hi) && validUtf8From owed 0x80 0xBF rest

/-- Whether `str::from_utf8` succeeds. A string is kept as its bytes. -/
def validUtf8 (b : List UInt8) : Bool := validUtf8From 0 0x80 0xBF b

def asBytes : Bencode → Option (List UInt8)
  | bytes b => some b
  | _ => none

def asStr (v : Bencode) : Option (List UInt8) := v.asBytes.filter validUtf8

def asInt : Bencode → Option Int64
  | int i => some i
  | _ => none

def asList : Bencode → Option (List Bencode)
  | list items => some items
  | _ => none

def asDict : Bencode → Option (Entries)
  | dict entries => some entries
  | _ => none

def get (v : Bencode) (key : List UInt8) : Option Bencode := v.asDict.bind (·.lookup key)

mutual

/-- How deep lists and dicts are nested in a value. -/
def depth : Bencode → ℕ
  | int _ => 0
  | bytes _ => 0
  | list items => depthItems items + 1
  | dict entries => depthEntries entries + 1

/-- The deepest of the items. -/
def depthItems : List Bencode → ℕ
  | [] => 0
  | v :: vs => max (depth v) (depthItems vs)

/-- The deepest of the entries. -/
def depthEntries : Entries → ℕ
  | [] => 0
  | (_, v) :: es => max (depth v) (depthEntries es)

end

mutual

/-- **Ordered**: every dict in the value has strictly increasing keys. -/
def Ordered : Bencode → Prop
  | int _ => True
  | bytes _ => True
  | list items => OrderedItems items
  | dict entries => (entries.map Prod.fst).Pairwise (· < ·) ∧ OrderedEntries entries

/-- All items are ordered. -/
def OrderedItems : List Bencode → Prop
  | [] => True
  | v :: vs => Ordered v ∧ OrderedItems vs

/-- The values of all entries are ordered. -/
def OrderedEntries : Entries → Prop
  | [] => True
  | (_, v) :: es => Ordered v ∧ OrderedEntries es

end

end Bencode

/-- **The values the source can hold**: a `BTreeMap` keeps its keys in
order and each once. -/
abbrev BencodeValue := { v : Bencode // v.Ordered }

/-- **A `&[u8]`**: no slice is longer than `isize::MAX`. -/
abbrev Slice := { x : List UInt8 // x.length < 2 ^ 63 }

end BitTorrent
