import BitTorrent.Daemon.Paths
import BitTorrent.V2.Merkle

/-!
# Magnet links

`parse_magnet_uri` of `magnet.rs` and what it reads its parameters with.
-/

namespace BitTorrent

inductive MagnetError
  | notAMagnetUri
  | missingInfoHash
  | badInfoHashEncoding (urn : Text)
  | badInfoHashLength (got : ℕ)
  | invalidBase32Char (c : Char)
  | invalidHexChar (c : Char)
  | invalidPercentEncoding
deriving DecidableEq

structure MagnetLink where
  infoHash : Hash20
  infoHashV2 : Option Hash32
  displayName : Option Text
  trackers : List Text
  webSeeds : List Text
  selectOnly : List ℕ

namespace Magnet

def maxSelectedFiles : ℕ := 2 ^ 16

/-- A part of an `so` value: a number, or a first and a last one. -/
def parseRange (part : Text) : Option (ℕ × ℕ) :=
  match part.splitOnce '-' with
  | some cut => do
    let first ← cut.1.parseUsize
    let last ← cut.2.parseUsize
    return (first, last)
  | none => part.parseUsize.map fun index => (index, index)

/-- The loop of `parse_select_only`. -/
def selectParts : List Text → List ℕ → Option (List ℕ)
  | [], indices => some indices
  | part :: parts, indices =>
    match parseRange part with
    | none => none
    | some range =>
      if range.2 < range.1 ∨ maxSelectedFiles - indices.length ≤ range.2 - range.1 then none
      else selectParts parts (indices ++ List.range' range.1 (range.2 - range.1 + 1))

def parseSelectOnly (value : Text) : Option (List ℕ) :=
  (selectParts (value.splitOn ',') []).map fun indices =>
    (indices.insertionSort (· ≤ ·)).destutter (· ≠ ·)

def hexNibble (c : Char) : Except MagnetError ℕ :=
  match Text.hexValue c with
  | some n => .ok n
  | none => .error (.invalidHexChar c)

/-- A byte read as a character, `as char`. -/
def byteChar (b : UInt8) : Char := Char.ofNat b.toNat

/-- Two digits to a byte. -/
def joinNibbles : List ℕ → List UInt8
  | high :: low :: rest => UInt8.ofNat (high * 16 + low) :: joinNibbles rest
  | _ => []

/-- Bytes that are to be twenty. -/
def toHash (bytes : List UInt8) : Except MagnetError Hash20 :=
  if h : bytes.length = 20 then .ok ⟨bytes, h⟩ else .error (.badInfoHashLength bytes.length)

/-- `decode_hex_20`. -/
def decodeHex (bytes : List UInt8) : Except MagnetError Hash20 := do
  let nibbles ← bytes.mapM fun b => hexNibble (byteChar b)
  toHash (joinNibbles nibbles)

/-- The place of a capital or digit in `BASE32_ALPHABET`. -/
def base32Value (c : Char) : Option ℕ :=
  if 65 ≤ c.toNat ∧ c.toNat ≤ 90 then some (c.toNat - 65)
  else if 50 ≤ c.toNat ∧ c.toNat ≤ 55 then some (c.toNat - 24)
  else none

/-- The loop of `decode_base32_20`: five bits in, and a byte out when
there are eight. -/
def base32Loop : Text → ℕ → ℕ → List UInt8 → Except MagnetError (List UInt8)
  | [], _, _, out => .ok out
  | c :: rest, bitBuf, bitCount, out =>
    match base32Value c with
    | none => .error (.invalidBase32Char c)
    | some index =>
      let bitBuf := (bitBuf * 32 + index) % 2 ^ 64
      if 8 ≤ bitCount + 5 then
        base32Loop rest bitBuf (bitCount - 3)
          (out ++ [UInt8.ofNat (bitBuf / 2 ^ (bitCount - 3) % 256)])
      else base32Loop rest bitBuf (bitCount + 5) out

/-- `decode_base32_20`. -/
def decodeBase32 (s : Text) : Except MagnetError Hash20 := do
  let out ← base32Loop (s.map Char.toUpper) 0 0 []
  toHash (out.take 20)

def decodeInfoHash (s : Text) : Except MagnetError Hash20 :=
  if s.encode.length = 40 then decodeHex s.encode
  else if s.encode.length = 32 then decodeBase32 s
  else .error (.badInfoHashLength s.encode.length)

/-- `decode_multihash_sha256`. -/
def decodeMultihash (text : Text) : Option Hash32 :=
  (['1', '2', '2', '0'].isPrefixOf? text).bind (Text.parseHex 32)

/-- The loop of `percent_decode`. -/
def percentBytes : List UInt8 → Except MagnetError (List UInt8)
  | [] => .ok []
  | [b] => if b = 37 then .error .invalidPercentEncoding else .ok [b]
  | [b, c] => if b = 37 then .error .invalidPercentEncoding else (percentBytes [c]).map (b :: ·)
  | b :: high :: low :: rest =>
    if b = 37 then
      match Text.hexValue (byteChar high), Text.hexValue (byteChar low) with
      | some h, some l => (percentBytes rest).map (UInt8.ofNat (h * 16 + l) :: ·)
      | _, _ => .error .invalidPercentEncoding
    else (percentBytes (high :: low :: rest)).map (b :: ·)

def percentDecode (s : Text) : Except MagnetError Text :=
  (percentBytes s.encode).map Lossy.decode

/-- `base_key`: a key without the number of a repeated parameter. -/
def baseKey (key : Text) : Text :=
  match key.rsplitOnce '.' with
  | some cut => if cut.2 ≠ [] ∧ cut.2.all Char.isDigit then cut.1 else key
  | none => key

/-- What has been read of a link. -/
structure Fields where
  infoHash : Option Hash20 := none
  otherXt : Option Text := none
  infoHashV2 : Option Hash32 := none
  displayName : Option Text := none
  trackers : List Text := []
  webSeeds : List Text := []
  selectOnly : List ℕ := []

/-- `"urn:btih:"`. -/
def urnBtih : Text := ['u', 'r', 'n', ':', 'b', 't', 'i', 'h', ':']

/-- `"urn:btmh:"`. -/
def urnBtmh : Text := ['u', 'r', 'n', ':', 'b', 't', 'm', 'h', ':']

/-- An `xt` parameter. -/
def Fields.exactTopic (f : Fields) (value : Text) : Except MagnetError Fields :=
  match urnBtih.isPrefixOf? value.lower with
  | some hash =>
    if f.infoHash = none then do
      let infoHash ← decodeInfoHash hash
      return { f with infoHash := some infoHash }
    else .ok f
  | none =>
    match (urnBtmh.isPrefixOf? value.lower).bind decodeMultihash with
    | some hash => .ok (if f.infoHashV2 = none then { f with infoHashV2 := some hash } else f)
    | none => .ok { f with otherXt := some value }

/-- `starts_with("http://") || starts_with("https://")`. -/
def isHttp (value : Text) : Bool :=
  ['h', 't', 't', 'p', ':', '/', '/'].isPrefixOf value ||
    ['h', 't', 't', 'p', 's', ':', '/', '/'].isPrefixOf value

/-- A parameter. -/
def Fields.take (f : Fields) (key value : Text) : Except MagnetError Fields :=
  if key = ['x', 't'] then f.exactTopic value
  else if key = ['d', 'n'] then .ok { f with displayName := some value }
  else if key = ['t', 'r'] then
    .ok (if value ∈ f.trackers then f else { f with trackers := f.trackers ++ [value] })
  else if key = ['w', 's'] then
    .ok (if isHttp value ∧ value ∉ f.webSeeds then { f with webSeeds := f.webSeeds ++ [value] }
      else f)
  else if key = ['s', 'o'] ∧ f.selectOnly = [] then
    .ok { f with selectOnly := (parseSelectOnly value).getD [] }
  else .ok f

/-- A `key=value` pair of the query. -/
def Fields.takePair (f : Fields) (pair : Text) : Except MagnetError Fields :=
  if pair = [] then .ok f
  else do
    let cut := (pair.splitOnce '=').getD (pair, [])
    let value ← percentDecode cut.2
    f.take (baseKey cut.1) value

/-- The hash a link is known by. -/
def Fields.link (f : Fields) : Except MagnetError MagnetLink :=
  let link (infoHash : Hash20) : MagnetLink :=
    { infoHash, infoHashV2 := f.infoHashV2, displayName := f.displayName, trackers := f.trackers,
      webSeeds := f.webSeeds, selectOnly := f.selectOnly }
  match f.infoHash, f.infoHashV2, f.otherXt with
  | some hash, _, _ => .ok (link hash)
  | none, some v2, _ => .ok (link ⟨v2.toList.take 20, by simp⟩)
  | none, none, some other => .error (.badInfoHashEncoding other)
  | none, none, none => .error .missingInfoHash

/-- `"magnet:?"`. -/
def scheme : Text := ['m', 'a', 'g', 'n', 'e', 't', ':', '?']

def parseMagnetUri (uri : Text) : Except MagnetError MagnetLink := do
  match scheme.isPrefixOf? uri with
  | none => .error .notAMagnetUri
  | some query => do
    let fields ← (query.splitOn '&').foldlM Fields.takePair {}
    fields.link

end Magnet

end BitTorrent
