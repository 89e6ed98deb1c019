import BitTorrent.Bencode.Value

/-!
# The decoder

`Decoder` of `bencode.rs`.
-/

namespace BitTorrent

inductive DecodeError
  | tooDeep
  | unexpectedEof
  | invalidDigit (b : UInt8)
  | invalidTag (b : UInt8)
  | leadingZero
  | lengthMismatch (expected remaining : ℕ)
  | trailingGarbage (pos : ℕ)
  | nonUtf8Int
  | unsortedOrDuplicateKey
deriving DecidableEq

namespace Bencode

def maxDepth : ℕ := 100

def peek : List UInt8 → Except DecodeError UInt8
  | [] => .error .unexpectedEof
  | b :: _ => .ok b

def advance (n : ℕ) (rest : List UInt8) : Except DecodeError (List UInt8 × List UInt8) :=
  if rest.length < n then .error (.lengthMismatch n rest.length)
  else .ok (rest.take n, rest.drop n)

/-- The loop of `parse_signed_until`: the digits before the terminator,
and what is left after it. -/
def scanDigits (terminator : UInt8) : List UInt8 → Except DecodeError (List UInt8 × List UInt8)
  | [] => .error .unexpectedEof
  | b :: rest =>
    if b = terminator then .ok ([], rest)
    else if Decimal.isDigit b then do
      let (digits, rest) ← scanDigits terminator rest
      return (b :: digits, rest)
    else .error (.invalidDigit b)

/-- `str::parse::<i64>` of digits with or without a sign before them. -/
def parseI64 (negative : Bool) (digits : List UInt8) : Option Int64 :=
  let i : ℤ := if negative then -(Decimal.value digits : ℤ) else Decimal.value digits
  if -2 ^ 63 ≤ i ∧ i < 2 ^ 63 then some (Int64.ofInt i) else none

/-- `parse_signed_until` after the sign. -/
def parseDigitsUntil (terminator : UInt8) (negative : Bool) (rest : List UInt8) :
    Except DecodeError (Int64 × List UInt8) := do
  let (digits, rest) ← scanDigits terminator rest
  if digits = [] then .error (.invalidDigit terminator)
  else if 1 < digits.length ∧ digits.head? = some 48 then .error .leadingZero
  else if digits = [48] ∧ negative then .error .leadingZero
  else
    match parseI64 negative digits with
    | some i => .ok (i, rest)
    | none => .error (.invalidDigit terminator)

def parseSignedUntil (terminator : UInt8) (rest : List UInt8) :
    Except DecodeError (Int64 × List UInt8) := do
  let first ← peek rest
  if first = minus then parseDigitsUntil terminator true rest.tail
  else parseDigitsUntil terminator false rest

def decodeInt (rest : List UInt8) : Except DecodeError (Int64 × List UInt8) :=
  parseSignedUntil tagEnd rest.tail

def decodeBytes (rest : List UInt8) : Except DecodeError (List UInt8 × List UInt8) := do
  let (len, rest) ← parseSignedUntil colon rest
  if len < 0 then .error (.invalidDigit colon)
  else advance len.toInt.toNat rest

/-- The loop of `decode_list`, given how an item is decoded. -/
def decodeItems (item : List UInt8 → Except DecodeError (Bencode × List UInt8)) :
    ℕ → List UInt8 → Except DecodeError (List Bencode × List UInt8)
  | 0, _ => .error .unexpectedEof
  | fuel + 1, rest => do
    if (← peek rest) = tagEnd then return ([], rest.tail)
    else
      let (v, rest) ← item rest
      let (vs, rest) ← decodeItems item fuel rest
      return (v :: vs, rest)

/-- `map.entry(key).or_insert(value)`: where the key is new, the entry
goes in its place. -/
def orInsert (key : List UInt8) (value : Bencode) : Entries → Entries
  | [] => [(key, value)]
  | (k, v) :: es =>
    if key < k then (key, value) :: (k, v) :: es
    else if key = k then (k, v) :: es
    else (k, v) :: orInsert key value es

/-- The loop of `decode_dict`, given how a value is decoded. -/
def decodeEntries (strict : Bool) (item : List UInt8 → Except DecodeError (Bencode × List UInt8)) :
    ℕ → Option (List UInt8) → Entries → List UInt8 →
      Except DecodeError (Entries × List UInt8)
  | 0, _, _, _ => .error .unexpectedEof
  | fuel + 1, lastKey, map, rest => do
    if (← peek rest) = tagEnd then return (map, rest.tail)
    else
      let (key, rest) ← decodeBytes rest
      if strict && lastKey.any fun prev => decide (key ≤ prev) then
        .error .unsortedOrDuplicateKey
      else
        let (v, rest) ← item rest
        decodeEntries strict item fuel (if strict then some key else lastKey)
          (orInsert key v map) rest

/-- `decode_value` where the tag is neither a list's nor a dict's. -/
def decodeScalar (tag : UInt8) (rest : List UInt8) : Except DecodeError (Bencode × List UInt8) :=
  if tag = tagInt then do
    let (i, rest) ← decodeInt rest
    return (int i, rest)
  else if Decimal.isDigit tag then do
    let (b, rest) ← decodeBytes rest
    return (bytes b, rest)
  else .error (.invalidTag tag)

/-- `decode_value`, with `levels` of `MAX_DEPTH` still to go. -/
def decodeValue (strict : Bool) : ℕ → List UInt8 → Except DecodeError (Bencode × List UInt8)
  | 0, rest => do
    let tag ← peek rest
    if tag = tagList ∨ tag = tagDict then .error .tooDeep
    else decodeScalar tag rest
  | levels + 1, rest => do
    let tag ← peek rest
    if tag = tagList then
      let (items, rest) ← decodeItems (decodeValue strict levels) rest.length rest.tail
      return (list items, rest)
    else if tag = tagDict then
      let (entries, rest) ←
        decodeEntries strict (decodeValue strict levels) rest.length none [] rest.tail
      return (dict entries, rest)
    else decodeScalar tag rest

def decodeTopLevel (strict : Bool) (data : List UInt8) : Except DecodeError Bencode := do
  let (value, rest) ← decodeValue strict maxDepth data
  if rest = [] then return value
  else .error (.trailingGarbage (data.length - rest.length))

def decode (data : Slice) : Except DecodeError Bencode := decodeTopLevel true data.1

def decodeLenient (data : Slice) : Except DecodeError Bencode := decodeTopLevel false data.1

end Bencode

end BitTorrent
