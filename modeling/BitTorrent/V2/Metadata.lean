import BitTorrent.Bencode.Decoder
import BitTorrent.Torrent.Names
import BitTorrent.V2.Merkle

/-!
# The metadata of BitTorrent v2

`v2.rs`: the file tree, which is a dict of dicts whose leaves lie under an empty name, the piece
layers, and the pieces they plan.
-/

namespace BitTorrent.V2

inductive V2Error
  | badTree (what : String)
  | unsafePath (part : Name)
  | tooDeep
  | tooManyFiles
  | badLength
  | badRoot
  | badLayer
  | badPieceLength
deriving DecidableEq

structure V2File where
  path : List Name
  length : ℕ
  root : Option Hash32
deriving DecidableEq

/-- `MAX_DEPTH` of a file tree. -/
def maxTreeDepth : ℕ := 64

def maxFiles : ℕ := 2 ^ 20

/-- `b"length"`. -/
def keyLength : List UInt8 := [108, 101, 110, 103, 116, 104]

/-- `b"pieces root"`. -/
def keyPiecesRoot : List UInt8 := [112, 105, 101, 99, 101, 115, 32, 114, 111, 111, 116]

/-- `Hash::try_from`. -/
def toHash (b : List UInt8) : Option Hash32 := if h : b.length = 32 then some ⟨b, h⟩ else none

/-- The `pieces root` of a file's description. -/
def leafRoot (leaf : Bencode) : Except V2Error (Option Hash32) :=
  match leaf.get keyPiecesRoot with
  | none => .ok none
  | some root =>
    match root.asBytes.bind toHash with
    | some hash => .ok (some hash)
    | none => .error .badRoot

/-- `walk` at a file: its length and its root. -/
def leafFile (path : List Name) (leaf : Bencode) : Except V2Error V2File := do
  match (leaf.get keyLength).bind Bencode.asInt with
  | none => .error (.badTree "a file without a length")
  | some length =>
    if length < 0 then .error .badLength
    else
      let root ← leafRoot leaf
      if (decide (0 < length.toInt.toNat)) != root.isSome then .error .badRoot
      else return ⟨path, length.toInt.toNat, root⟩

mutual

/-- `walk`: the files found so far, and those under `node`. -/
def walk (path : List Name) (files : List V2File) : Bencode → Except V2Error (List V2File)
  | .dict entries =>
    match entries.lookup [] with
    | some leaf =>
      -- a file; nothing else may sit beside its description
      if entries.length ≠ 1 ∨ path = [] then
        .error (.badTree "a file entry with other entries beside it, or at the top")
      else if maxFiles ≤ files.length then .error .tooManyFiles
      else do
        let file ← leafFile path leaf
        return files ++ [file]
    | none =>
      if maxTreeDepth ≤ path.length then .error .tooDeep else walkEntries path files entries
  | _ => .error (.badTree "an entry is not a dictionary")

/-- The loop of `walk` over the entries of a directory. -/
def walkEntries (path : List Name) (files : List V2File) :
    Entries → Except V2Error (List V2File)
  | [] => .ok files
  | (name, child) :: entries =>
    if !Bencode.validUtf8 name then .error (.unsafePath name)
    else if !isSafeComponent name then .error (.unsafePath name)
    else do
      let files ← walk (path ++ [name]) files child
      walkEntries path files entries

end

def parseFileTree (tree : Bencode) : Except V2Error (List V2File) := walk [] [] tree

/-- The piece layers, by `pieces root`. -/
abbrev Layers := List (Hash32 × List Hash32)

/-- `as_chunks::<n>`, without the remainder. -/
def asChunks (n : ℕ) (b : List UInt8) : List (List.Vector UInt8 n) :=
  (List.range (b.length / n)).map fun i => List.Vector.ofFn fun j => b.getD (i * n + j) 0

/-- One entry of `piece layers`. -/
def parseLayer (entry : List UInt8 × Bencode) : Except V2Error (Hash32 × List Hash32) :=
  match toHash entry.1, entry.2.asBytes with
  | some root, some bytes =>
    if bytes.length % 32 ≠ 0 then .error .badLayer else .ok (root, asChunks 32 bytes)
  | _, _ => .error .badLayer

def parseLayers : Option Bencode → Except V2Error Layers
  | none => .ok []
  | some layers =>
    match layers.asDict with
    | some entries => entries.mapM parseLayer
    | none => .error .badLayer

def validPieceLength (pieceLength : Int64) : Bool :=
  decide (block ≤ pieceLength.toInt.toNat ∧ pieceLength.toInt.toNat.isPowerOfTwo)

variable [Digests]

def zeroSubtree : ℕ → Hash32
  | 0 => zeroHash
  | height + 1 => parent (zeroSubtree height) (zeroSubtree height)

def layerPad (pieceLength : ℕ) : Hash32 := zeroSubtree (pieceLength / block).log2

/-- The check of one file in `validate_layers`. -/
def layerFits (layers : Layers) (pieceLength : ℕ) (file : V2File) : Bool :=
  match file.root with
  | none => true
  | some root =>
    match layers.lookup root with
    | none => true
    | some layer =>
      layer.length == (file.length + pieceLength - 1) / pieceLength &&
        merkleRoot layer layer.length.nextPowerOfTwo (layerPad pieceLength) == root

def validateLayers (files : List V2File) (layers : Layers) (pieceLength : Int64) :
    Except V2Error Unit :=
  if !validPieceLength pieceLength then .error .badPieceLength
  else if (files.filter fun f => pieceLength.toInt.toNat < f.length).all
      (layerFits layers pieceLength.toInt.toNat) then .ok ()
  else .error .badLayer

structure V2Piece where
  file : ℕ
  offset : ℕ
  length : UInt32
  root : Hash32
  width : UInt32
deriving DecidableEq

/-- The pieces of one file in `plan_pieces`. -/
def planFile (layers : Layers) (pieceLength index : ℕ) (file : V2File) : Option (List V2Piece) :=
  match file.root with
  | none => some []
  | some root =>
    if file.length ≤ pieceLength then
      some [⟨index, 0, .ofNat file.length, root,
        .ofNat ((file.length + block - 1) / block).nextPowerOfTwo⟩]
    else do
      let layer ← layers.lookup root
      return layer.zipIdx.map fun (hash, n) =>
        ⟨index, n * pieceLength, .ofNat (min (file.length - n * pieceLength) pieceLength), hash,
          .ofNat (pieceLength / block)⟩

def planPieces (files : List V2File) (layers : Layers) (pieceLength : ℕ) :
    Option (List V2Piece) := do
  let plans ← files.zipIdx.mapM fun (file, index) => planFile layers pieceLength index file
  return plans.flatten

/-- `BTreeMap::insert` into piece layers, which are listed by root. -/
def insertLayer : Layers → Hash32 × List Hash32 → Layers
  | [], entry => [entry]
  | e :: layers, entry =>
    if entry.1.toList < e.1.toList then entry :: e :: layers
    else if entry.1 = e.1 then entry :: layers
    else e :: insertLayer layers entry

structure V2Meta where
  files : List V2File
  layers : Layers
  infoHash : Hash32
deriving DecidableEq

end BitTorrent.V2
