import BitTorrent.Common.Fallible
import BitTorrent.Disk.FileWriter
import BitTorrent.V2.Metadata

/-!
# Torrent files

`torrent.rs`: what a `.torrent` file or an info dictionary from a magnet link is read into, and
every check on the way.
-/

namespace BitTorrent

inductive TorrentError
  | decode (e : DecodeError)
  | notADict
  | missingKey (key : String)
  | wrongType (key : String)
  | piecesLengthNotMultipleOf20
  | invalidLength (key : String)
  | infoHashMismatch
  | unsafePath (part : Name)
  | pieceCountMismatch (pieces expected : ℕ)
  | tooLarge (what : String)
  | v2 (e : V2.V2Error)
  | unsupportedVersion (version : Int64)
deriving DecidableEq

structure TorrentFile where
  announce : Option (List UInt8)
  announceList : List (List (List UInt8))
  info : Bencode
  infoHash : Hash20
  pieceLength : ℕ
  pieces : List Hash20
  name : Name
  files : List (List Name × ℕ)
  padding : List Bool
  multiFile : Bool
  urlList : List (List UInt8)
  priv : Bool
  v2 : Option V2.V2Meta
  v2Pieces : List V2.V2Piece

def maxPieceLength : ℕ := 2 ^ 27

namespace Key

/-- `b"info"`. -/
def info : List UInt8 := [105, 110, 102, 111]

/-- `b"announce"`. -/
def announce : List UInt8 := [97, 110, 110, 111, 117, 110, 99, 101]

/-- `b"announce-list"`. -/
def announceList : List UInt8 := [97, 110, 110, 111, 117, 110, 99, 101, 45, 108, 105, 115, 116]

/-- `b"url-list"`. -/
def urlList : List UInt8 := [117, 114, 108, 45, 108, 105, 115, 116]

/-- `b"piece layers"`. -/
def pieceLayers : List UInt8 := [112, 105, 101, 99, 101, 32, 108, 97, 121, 101, 114, 115]

/-- `"meta version"`. -/
def metaVersion : List UInt8 := [109, 101, 116, 97, 32, 118, 101, 114, 115, 105, 111, 110]

/-- `"file tree"`. -/
def fileTree : List UInt8 := [102, 105, 108, 101, 32, 116, 114, 101, 101]

/-- `"piece length"`. -/
def pieceLength : List UInt8 := [112, 105, 101, 99, 101, 32, 108, 101, 110, 103, 116, 104]

/-- `"pieces"`. -/
def pieces : List UInt8 := [112, 105, 101, 99, 101, 115]

/-- `"name"`. -/
def name : List UInt8 := [110, 97, 109, 101]

/-- `"length"`. -/
def length : List UInt8 := V2.keyLength

/-- `"files"`. -/
def files : List UInt8 := [102, 105, 108, 101, 115]

/-- `"path"`. -/
def path : List UInt8 := [112, 97, 116, 104]

/-- `"attr"`. -/
def attr : List UInt8 := [97, 116, 116, 114]

/-- `"private"`. -/
def priv : List UInt8 := [112, 114, 105, 118, 97, 116, 101]

end Key

/-- A value that has to be there. -/
def required {α : Type} (o : Option α) (e : TorrentError) : Except TorrentError α :=
  match o with
  | some a => .ok a
  | none => .error e

variable {α : Type} {a : α}

@[simp] theorem required_eq_ok_iff {o : Option α} {e : TorrentError} :
    required o e = .ok a ↔ o = some a := by
  cases o <;> simp [required]

/-- `?` on a result of the bencode decoder. -/
def liftDecode {α : Type} : Except DecodeError α → Except TorrentError α
  | .ok a => .ok a
  | .error e => .error (.decode e)

@[simp] theorem liftDecode_eq_ok_iff {x : Except DecodeError α} :
    liftDecode x = .ok a ↔ x = .ok a := by
  cases x <;> simp [liftDecode]

/-- `map_err(TorrentError::V2)`. -/
def liftV2 {α : Type} : Except V2.V2Error α → Except TorrentError α
  | .ok a => .ok a
  | .error e => .error (.v2 e)

@[simp] theorem liftV2_eq_ok_iff {x : Except V2.V2Error α} : liftV2 x = .ok a ↔ x = .ok a := by
  cases x <;> simp [liftV2]

/-- The loop of `find_key_span`, over what is left of the dict: what is
left at the value of the key, and after it. -/
def findKey (key : List UInt8) : ℕ → List UInt8 →
    Except TorrentError (List UInt8 × List UInt8)
  | 0, _ => .error (.decode .unexpectedEof)
  | fuel + 1, rest => do
    if (← liftDecode (Bencode.peek rest)) = Bencode.tagEnd then .error (.missingKey "info")
    else
      let (k, atValue) ← liftDecode (Bencode.decodeValue true Bencode.maxDepth rest)
      match k with
      | .bytes b =>
        let (_, after) ← liftDecode (Bencode.decodeValue true Bencode.maxDepth atValue)
        if b = key then return (atValue, after) else findKey key fuel after
      | _ => .error (.wrongType "dict key")

/-- `find_key_span`, and the bytes of the span. -/
def findKeySpan (data key : List UInt8) : Except TorrentError (List UInt8) :=
  if data.head? ≠ some Bencode.tagDict then .error .notADict
  else do
    let (atValue, after) ← findKey key data.length data.tail
    return atValue.take (atValue.length - after.length)

/-- Whether an entry of `files` is a padding file. -/
def isPaddingEntry (f : Bencode) : Bool :=
  ((f.get Key.attr).bind Bencode.asStr).any fun attr => attr.contains 112

/-- The path of an entry of `files`: its components that are strings. -/
def entryPath (f : Bencode) : Option (List Name) :=
  ((f.get Key.path).bind Bencode.asList).map fun parts => parts.filterMap Bencode.asStr

/-- One entry of `files`: its path and length, and whether it is padding. -/
def parseFile (f : Bencode) : Except TorrentError ((List Name × ℕ) × Bool) := do
  let length ← required ((f.get Key.length).bind Bencode.asInt) (.missingKey "length")
  if length < 0 then .error (.invalidLength "length")
  else
    let path ← required (entryPath f) (.missingKey "path")
    if path = [] then .error (.unsafePath [])
    else
      match path.find? fun part => !isSafeComponent part with
      | some bad => .error (.unsafePath bad)
      | none => return ((path, length.toInt.toNat), isPaddingEntry f)

/-- The files of an info dictionary, and which of them are padding: the
one file of the `length` form, or the list of the `files` form. -/
def parseFiles (info : Bencode) (name : Name) :
    Except TorrentError (List (List Name × ℕ) × List Bool) :=
  match (info.get Key.length).bind Bencode.asInt with
  | some len =>
    if len < 0 then .error (.invalidLength "length")
    else .ok ([([name], len.toInt.toNat)], [false])
  | none =>
    match (info.get Key.files).bind Bencode.asList with
    | some fileList => do
      let parsed ← fileList.mapM parseFile
      return (parsed.map Prod.fst, parsed.map Prod.snd)
    | none => .error (.missingKey "length|files")

/-- The name of a torrent. -/
def parseName (info : Bencode) : Except TorrentError Name := do
  let name ← required ((info.get Key.name).bind Bencode.asStr) (.missingKey "name")
  if !isSafeComponent name then .error (.unsafePath name) else return name

/-- The piece length, as the `i64` it is in the dictionary. -/
def parsePieceLength (info : Bencode) : Except TorrentError Int64 :=
  required ((info.get Key.pieceLength).bind Bencode.asInt) (.missingKey "piece length")

/-- The `private` flag. -/
def parsePrivate (info : Bencode) : Bool :=
  ((info.get Key.priv).bind Bencode.asInt).any fun v => v != 0

/-- A sum of lengths that fits in a `u64`. -/
def checkedTotal (lengths : List ℕ) : Except TorrentError ℕ :=
  if 2 ^ 64 ≤ lengths.sum then .error (.tooLarge "total length") else .ok lengths.sum

section

variable [Digests]

def infoHashMatches (rawInfo : List UInt8) (expected : Hash20) : Bool :=
  Digests.sha1 rawInfo == expected || (Digests.sha256 rawInfo).toList.take 20 == expected.toList

def v2Meta (info tree : Bencode) (rawInfo : List UInt8) (layers : Option Bencode) :
    Except TorrentError V2.V2Meta := do
  let files ← liftV2 (V2.parseFileTree tree)
  let layers ← liftV2 (V2.parseLayers layers)
  let pieceLength ← parsePieceLength info
  let _ ← liftV2 (V2.validateLayers files layers pieceLength)
  return ⟨files, layers, Digests.sha256 rawInfo⟩

/-- The first 20 bytes of a hash. -/
def shortHash (h : Hash32) : Hash20 := List.Vector.ofFn fun i : Fin 20 => h.toList.getD i 0

/-- What a torrent carries besides its info dictionary. -/
structure Outer where
  announce : Option (List UInt8)
  announceList : List (List (List UInt8))
  urlList : List (List UInt8)
  layers : Option Bencode

def buildV2OnlyTorrent (info tree : Bencode) (rawInfo : List UInt8) (outer : Outer) :
    Except TorrentError TorrentFile := do
  let pieceLength ← parsePieceLength info
  if !V2.validPieceLength pieceLength then .error (.v2 .badPieceLength)
  else if maxPieceLength < pieceLength.toInt.toNat then .error (.tooLarge "piece length")
  else
    let name ← parseName info
    let md ← v2Meta info tree rawInfo outer.layers
    let _ ← checkedTotal (md.files.map V2.V2File.length)
    let files := md.files.map fun f => (f.path, f.length)
    let v2Pieces := (V2.planPieces md.files md.layers pieceLength.toInt.toNat).getD []
    return {
      announce := outer.announce
      announceList := outer.announceList
      info := info
      infoHash := shortHash md.infoHash
      pieceLength := pieceLength.toInt.toNat
      pieces := v2Pieces.map fun p => shortHash p.root
      name := name
      files := files
      padding := List.replicate files.length false
      -- a single file is a tree of one entry named as the torrent is
      multiFile := md.files.map V2.V2File.path != [[name]]
      urlList := outer.urlList
      priv := parsePrivate info
      v2 := some md
      v2Pieces := v2Pieces }

/-- `build_torrent_from_info` for a torrent with v1 piece hashes. -/
def buildV1Torrent (info : Bencode) (rawInfo : List UInt8) (outer : Outer)
    (v2 : Option V2.V2Meta) : Except TorrentError TorrentFile := do
  let pieceLength ← parsePieceLength info
  if pieceLength ≤ 0 then .error (.invalidLength "piece length")
  else
    let piecesRaw ← required ((info.get Key.pieces).bind Bencode.asBytes) (.missingKey "pieces")
    if piecesRaw.length % 20 ≠ 0 then .error .piecesLengthNotMultipleOf20
    else if maxPieceLength < pieceLength.toInt.toNat then .error (.tooLarge "piece length")
    else
      let pieces := V2.asChunks 20 piecesRaw
      let name ← parseName info
      let (files, padding) ← parseFiles info name
      let total ← checkedTotal (files.map Prod.snd)
      let expectedPieces :=
        (total + pieceLength.toInt.toNat - 1) / pieceLength.toInt.toNat
      if pieces.length ≠ expectedPieces then
        .error (.pieceCountMismatch pieces.length expectedPieces)
      else
        return {
          announce := outer.announce
          announceList := outer.announceList
          info := info
          infoHash := Digests.sha1 rawInfo
          pieceLength := pieceLength.toInt.toNat
          pieces := pieces
          name := name
          files := files
          padding := padding
          multiFile := ((info.get Key.length).bind Bencode.asInt).isNone &&
            (info.get Key.files).isSome
          urlList := outer.urlList
          priv := parsePrivate info
          v2 := v2
          v2Pieces := [] }

/-- The `file tree` of a dictionary that says it is version 2. -/
def fileTreeOf (info : Bencode) : Option Bencode :=
  if (info.get Key.metaVersion).bind Bencode.asInt = some 2 then info.get Key.fileTree else none

def buildTorrentFromInfo (info : Bencode) (rawInfo : List UInt8) (outer : Outer) :
    Except TorrentError TorrentFile :=
  match ((info.get Key.metaVersion).bind Bencode.asInt).filter (· != 2) with
  | some version => .error (.unsupportedVersion version)
  | none =>
    match fileTreeOf info, info.get Key.pieces with
    | some tree, none => buildV2OnlyTorrent info tree rawInfo outer
    | some tree, some _ =>
      buildV1Torrent info rawInfo outer (v2Meta info tree rawInfo outer.layers).toOption
    | none, _ => buildV1Torrent info rawInfo outer none

/-- The strings among the items of a list. -/
def strings (items : List Bencode) : List (List UInt8) := items.filterMap Bencode.asStr

/-- What a `.torrent` file's dictionary carries besides `info`. -/
def outerOf (top : Bencode) : Outer where
  announce := (top.get Key.announce).bind Bencode.asStr
  announceList :=
    (((top.get Key.announceList).bind Bencode.asList).getD []).filterMap fun tier =>
      tier.asList.map strings
  urlList :=
    match top.get Key.urlList with
    | some (.bytes b) => strings [.bytes b]
    | some (.list items) => strings items
    | _ => []
  layers := top.get Key.pieceLayers

def parseTorrentFile (data : Slice) : Except TorrentError TorrentFile := do
  let top ← liftDecode (Bencode.decode data)
  let _ ← required top.asDict .notADict
  let info ← required (top.get Key.info) (.missingKey "info")
  let rawInfo ← findKeySpan data.1 Key.info
  buildTorrentFromInfo info rawInfo (outerOf top)

def fromInfoDictBytes (rawInfo : Slice) (expectedInfoHash : Hash20)
    (announce : Option (List UInt8)) (announceList : List (List (List UInt8))) :
    Except TorrentError TorrentFile :=
  if !infoHashMatches rawInfo.1 expectedInfoHash then .error .infoHashMismatch
  else do
    let info ← liftDecode (Bencode.decode rawInfo)
    buildTorrentFromInfo info rawInfo.1 ⟨announce, announceList, [], none⟩

end

namespace TorrentFile

variable (t : TorrentFile)

def isV2Only : Bool := t.v2.isSome && (t.info.get Key.pieces).isNone

def trackerTiers : List (List (List UInt8)) :=
  let tiers := t.announceList.filter fun tier => tier ≠ []
  match t.announce with
  | some announce =>
    if tiers.any fun tier => tier.contains announce then tiers else [announce] :: tiers
  | none => tiers

def totalLength : ℕ := (t.files.map Prod.snd).sum

def pieceLen (index : ℕ) : ℕ :=
  if t.v2Pieces ≠ [] then (t.v2Pieces[index]?.map fun p => p.length.toNat).getD 0
  else if index = t.pieces.length - 1 then t.totalLength - t.pieceLength * (t.pieces.length - 1)
  else t.pieceLength

def fileSpans (baseDir : Path) : List FileSpan :=
  if t.isV2Only then buildFileSpansAligned baseDir t.files t.pieceLength
  else buildFileSpansPadded baseDir t.files t.padding

def installLayers [Digests] (layers : V2.Layers) :
    Except V2.V2Error TorrentFile :=
  match t.v2 with
  | none => .error .badLayer
  | some md => do
    let _ ← V2.validateLayers md.files layers (.ofNat t.pieceLength)
    let combined := layers.foldl V2.insertLayer md.layers
    match V2.planPieces md.files combined t.pieceLength with
    | none => .error .badLayer
    | some v2Pieces =>
      return { t with
        v2 := some { md with layers := combined }
        pieces := v2Pieces.map fun p => shortHash p.root
        v2Pieces := v2Pieces }

end TorrentFile

section

variable [Digests] {info : Bencode} {rawInfo : List UInt8} {outer : Outer} {t : TorrentFile}

/-- **What a torrent with v1 hashes was built from**, and what was checked
of it. -/
structure IsV1 (info : Bencode) (rawInfo : List UInt8) (layers : Option Bencode)
    (t : TorrentFile) : Prop where
  hashed : (info.get Key.pieces).isSome = true
  pos : 0 < t.pieceLength
  le : t.pieceLength ≤ maxPieceLength
  name : parseName info = .ok t.name
  files : parseFiles info t.name = .ok (t.files, t.padding)
  total : t.totalLength < 2 ^ 64
  count : t.pieces.length = (t.totalLength + t.pieceLength - 1) / t.pieceLength
  unplanned : t.v2Pieces = []
  tree : ∀ md, t.v2 = some md →
    ∃ tree, fileTreeOf info = some tree ∧ v2Meta info tree rawInfo layers = .ok md

/-- **What a torrent without them was built from.** -/
structure IsV2 (info tree : Bencode) (rawInfo : List UInt8) (layers : Option Bencode)
    (md : V2.V2Meta) (t : TorrentFile) : Prop where
  unhashed : info.get Key.pieces = none
  pos : 0 < t.pieceLength
  le : t.pieceLength ≤ maxPieceLength
  pieceLength : ∃ pl, parsePieceLength info = .ok pl ∧ t.pieceLength = pl.toInt.toNat
  name : parseName info = .ok t.name
  found : fileTreeOf info = some tree
  read : v2Meta info tree rawInfo layers = .ok md
  files : t.files = md.files.map fun f => (f.path, f.length)
  padding : t.padding = List.replicate t.files.length false
  total : (md.files.map V2.V2File.length).sum < 2 ^ 64
  v2 : t.v2 = some md
  planned : t.v2Pieces = (V2.planPieces md.files md.layers t.pieceLength).getD []
  pieces : t.pieces.length = t.v2Pieces.length
  multiFile : t.multiFile = (md.files.map V2.V2File.path != [[t.name]])

variable {tree : Bencode}

theorem v2Meta_spec {layers : Option Bencode} {md : V2.V2Meta}
    (h : v2Meta info tree rawInfo layers = .ok md) :
    V2.parseFileTree tree = .ok md.files ∧ ∃ pl, parsePieceLength info = .ok pl ∧
      V2.validateLayers md.files md.layers pl = .ok () := by
  simp only [v2Meta, bind_eq_ok_iff, liftV2_eq_ok_iff] at h
  obtain ⟨files, hfiles, layers, -, pl, hpl, _, hvalid, h⟩ := h
  cases h
  exact ⟨hfiles, pl, hpl, hvalid⟩

theorem isV1_of_build {v2 : Option V2.V2Meta} (hv2 : ∀ md, v2 = some md →
      ∃ tree, fileTreeOf info = some tree ∧ v2Meta info tree rawInfo outer.layers = .ok md)
    (h : buildV1Torrent info rawInfo outer v2 = .ok t) :
    t.info = info ∧ IsV1 info rawInfo outer.layers t := by
  simp only [buildV1Torrent, bind_eq_ok_iff, check_eq_ok_iff, required_eq_ok_iff] at h
  obtain ⟨pl, -, hpos, raw, hraw, -, hle, name, hname, ⟨files, padding⟩, hfiles, total, htotal,
    hcount, h⟩ := h
  simp only [checkedTotal, check_eq_ok_iff, Except.ok.injEq, not_le] at htotal
  obtain ⟨htotal, rfl⟩ := htotal
  cases h
  refine ⟨rfl, ?_, ?_, not_lt.1 hle, hname, hfiles, htotal, not_not.1 hcount, rfl, hv2⟩
  · obtain ⟨v, hv, -⟩ := Option.bind_eq_some_iff.1 hraw
    simp [hv]
  · rw [Int64.le_iff_toInt_le, Int64.toInt_zero] at hpos
    exact (Int.lt_toNat.2 (not_le.1 hpos))

theorem isV2_of_build (htree : fileTreeOf info = some tree) (hnone : info.get Key.pieces = none)
    (h : buildV2OnlyTorrent info tree rawInfo outer = .ok t) :
    t.info = info ∧ ∃ md, IsV2 info tree rawInfo outer.layers md t := by
  simp only [buildV2OnlyTorrent, bind_eq_ok_iff, check_eq_ok_iff] at h
  obtain ⟨pl, hpl, hvalid, hle, name, hname, md, hmd, total, htotal, h⟩ := h
  simp only [checkedTotal, check_eq_ok_iff, Except.ok.injEq, not_le] at htotal
  cases h
  refine ⟨rfl, md, hnone, ?_, not_lt.1 hle, ⟨pl, hpl, rfl⟩, hname, htree, hmd, rfl, rfl, htotal.1,
    rfl, rfl, by simp, rfl⟩
  simp only [V2.validPieceLength, Bool.not_eq_true', decide_eq_false_iff_not, not_not] at hvalid
  exact lt_of_lt_of_le (by decide) hvalid.1

theorem built_cases (h : buildTorrentFromInfo info rawInfo outer = .ok t) :
    t.info = info ∧ (IsV1 info rawInfo outer.layers t ∨
      ∃ tree md, IsV2 info tree rawInfo outer.layers md t) := by
  unfold buildTorrentFromInfo at h
  split at h
  · cases h
  · split at h
    · rename_i tree htree hpieces
      exact (isV2_of_build htree hpieces h).imp_right fun hv2 => .inr ⟨tree, hv2⟩
    · rename_i tree _ htree _
      refine (isV1_of_build (fun md hmd => ⟨tree, htree, ?_⟩) h).imp_right .inl
      -- a hybrid keeps its tree only where the tree was read
      cases hread : v2Meta info tree rawInfo outer.layers with
      | error e => simp [hread, Except.toOption] at hmd
      | ok md' => simpa [hread, Except.toOption] using hmd
    · exact (isV1_of_build (by simp) h).imp_right .inl

theorem TorrentFile.of_installLayers {t' : TorrentFile} {layers : V2.Layers}
    (h : t.installLayers layers = .ok t') :
    ∃ md v2Pieces, t.v2 = some md ∧
      V2.validateLayers md.files layers (.ofNat t.pieceLength) = .ok () ∧
      V2.planPieces md.files (layers.foldl V2.insertLayer md.layers) t.pieceLength = some v2Pieces ∧
      t' = { t with
        v2 := some { md with layers := layers.foldl V2.insertLayer md.layers }
        pieces := v2Pieces.map fun p => shortHash p.root
        v2Pieces := v2Pieces } := by
  unfold installLayers at h
  split at h
  · cases h
  · rename_i md hmd
    rw [bind_eq_ok_iff] at h
    obtain ⟨_, hvalid, h⟩ := h
    dsimp only at h
    split at h
    · cases h
    · rename_i v2Pieces hplan
      exact ⟨md, v2Pieces, hmd, hvalid, hplan, (Except.ok.inj h).symm⟩

end

end BitTorrent
