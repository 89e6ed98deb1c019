import BitTorrent.Bencode.Dict
import BitTorrent.Create.Source
import BitTorrent.Torrent.Parse
import BitTorrent.V2.FileTree

/-!
# Making a torrent

`create` of `create.rs`, in both forms.
-/

namespace BitTorrent

open Bencode (insertEntry insertSome)

structure CreateOptions where
  pieceLength : Option ℕ
  trackers : List (List Utf8)
  webSeeds : List Utf8
  priv : Bool
  comment : Option Utf8
  createdBy : Option Utf8
  creationDate : Option ℕ
  name : Option Utf8
  v2 : Bool

structure Created where
  bytes : List UInt8
  infoHash : Hash20
  name : Name
  totalLength : ℕ
  pieceLength : ℕ
  pieceCount : ℕ
  fileCount : ℕ

namespace Create

def minAutoPieceLength : ℕ := 2 ^ 14

def maxAutoPieceLength : ℕ := 2 ^ 24

def targetPieces : ℕ := 1500

def minPieceLength : ℕ := 1024

def maxPieces : ℕ := 2 ^ 20

def readChunk : ℕ := 2 ^ 20

def autoPieceLength (total : ℕ) : ℕ :=
  let wanted := max ((total + targetPieces - 1) / targetPieces) 1
  max minAutoPieceLength (min maxAutoPieceLength wanted.nextPowerOfTwo)

def checkPieceLength (len : ℕ) : Except CreateError ℕ :=
  if ¬ len.isPowerOfTwo then
    .error (.badPieceLength ("a piece length must be a power of two: " ++ toString len))
  else if len < minPieceLength then
    .error (.badPieceLength ("a piece length must be at least " ++ toString minPieceLength ++
      " bytes: " ++ toString len))
  else if maxPieceLength < len then
    .error (.badPieceLength ("a piece length can be at most " ++ toString maxPieceLength ++
      " bytes: " ++ toString len))
  else .ok len

/-- The piece length of `create`, and its check on the number of pieces. -/
def choosePieceLength (options : CreateOptions) (total : ℕ) : Except CreateError ℕ := do
  let pieceLength ←
    match options.pieceLength with
    | some len => checkPieceLength len
    | none => .ok (autoPieceLength total)
  if maxPieces < (total + pieceLength - 1) / pieceLength then
    .error (.badPieceLength ("a piece length of " ++ toString pieceLength ++
      " would need more than " ++ toString maxPieces ++ " pieces for " ++ toString total ++
      " bytes; use a larger one"))
  else return pieceLength

/-- What the reads of a file return in turn, up to the one that returns
nothing: at least a byte, at most `READ_CHUNK`. -/
def readsOf : ℕ → List ℕ → List UInt8 → List (List UInt8)
  | 0, _, _ => []
  | fuel + 1, cuts, rest =>
    if rest = [] then []
    else
      let n := min readChunk (max 1 (cuts.headD readChunk))
      rest.take n :: readsOf fuel cuts.tail (rest.drop n)

section

variable [Digests]

/-- What `hash_pieces` keeps: the hashes so far, what the hasher has been
given, and how much of a piece that is. -/
structure Hashing where
  pieces : List UInt8
  hasher : List UInt8
  inPiece : ℕ

/-- The loop of `hash_pieces` over a chunk. Each turn takes at least a
byte of it, so its length is fuel enough. -/
def Hashing.feed (pieceLength : ℕ) : ℕ → List UInt8 → Hashing → Hashing
  | 0, _, s => s
  | fuel + 1, chunk, s =>
    if chunk = [] then s
    else
      let take := min (pieceLength - s.inPiece) chunk.length
      let hasher := s.hasher ++ chunk.take take
      let inPiece := s.inPiece + take
      let s' : Hashing :=
        if inPiece = pieceLength then ⟨s.pieces ++ (Digests.sha1 hasher).toList, [], 0⟩
        else ⟨s.pieces, hasher, inPiece⟩
      feed pieceLength fuel (chunk.drop take) s'

/-- The loop of `hash_pieces` over the reads of a file. -/
def hashReads (pieceLength : ℕ) (entry : Entry) :
    List (List UInt8) → ℕ → Hashing → Except CreateError Hashing
  | [], readFromFile, s =>
    if readFromFile ≠ entry.length then .error (.changedWhileReading entry.onDisk) else .ok s
  | chunk :: reads, readFromFile, s =>
    if entry.length < readFromFile + chunk.length then .error (.changedWhileReading entry.onDisk)
    else hashReads pieceLength entry reads (readFromFile + chunk.length)
      (s.feed pieceLength chunk.length chunk)

/-- One file in `hash_pieces`. -/
def hashEntry (pieceLength : ℕ) (s : Hashing) (entry : Entry) : Except CreateError Hashing :=
  match entry.file.bytes with
  | .error e => .error (.io entry.onDisk e)
  | .ok bytes =>
    hashReads pieceLength entry (readsOf bytes.length entry.file.cuts bytes) 0 s

def hashPieces (entries : List Entry) (pieceLength : ℕ) : Except CreateError (List UInt8) := do
  let s ← entries.foldlM (hashEntry pieceLength) ⟨[], [], 0⟩
  return if 0 < s.inPiece then s.pieces ++ (Digests.sha1 s.hasher).toList else s.pieces

end

def text (s : List UInt8) : Bencode := .bytes s

/-- `b"comment"`. -/
def keyComment : List UInt8 := [99, 111, 109, 109, 101, 110, 116]

/-- `b"created by"`. -/
def keyCreatedBy : List UInt8 := [99, 114, 101, 97, 116, 101, 100, 32, 98, 121]

/-- `b"creation date"`. -/
def keyCreationDate : List UInt8 := [99, 114, 101, 97, 116, 105, 111, 110, 32, 100, 97, 116, 101]

structure Extras where
  comment : Option Utf8
  createdBy : Option Utf8
  creationDate : Option ℕ

/-- The tiers as they are written. -/
def tiers (announceList : List (List Utf8)) : Bencode :=
  .list (announceList.map fun tier => .list (tier.map fun url => text url.1))

/-- The `url-list` of some web seeds: of one its text, of more a list. -/
def urlList : List Utf8 → Option Bencode
  | [] => none
  | [one] => some (text one.1)
  | many => some (.list (many.map fun url => text url.1))

/-- The dictionary of `top_level`. -/
def topEntries (info : Bencode) (pieceLayers : Option Bencode) (announce : Option Utf8)
    (announceList : List (List Utf8)) (webSeeds : List Utf8) (extras : Extras) :
    Entries :=
  let top := insertSome Key.announce (announce.map fun url => text url.1) []
  let top := insertSome Key.announceList
    (if announceList = [] then none else some (tiers announceList)) top
  let top := insertSome Key.urlList (urlList webSeeds) top
  let top := insertSome keyComment (extras.comment.map fun c => text c.1) top
  let top := insertSome keyCreatedBy (extras.createdBy.map fun c => text c.1) top
  let top := insertSome keyCreationDate
    (extras.creationDate.map fun date => .int (.ofNat (min date (2 ^ 63 - 1)))) top
  let top := insertEntry Key.info info top
  insertSome Key.pieceLayers pieceLayers top

def topLevel (info : Bencode) (pieceLayers : Option Bencode) (announce : Option Utf8)
    (announceList : List (List Utf8)) (webSeeds : List Utf8) (extras : Extras) : List UInt8 :=
  (Bencode.dict (topEntries info pieceLayers announce announceList webSeeds extras)).encode

/-- `top_level` with what the options say. A list of tiers is only written
where there is a choice. -/
def fileBytes (options : CreateOptions) (info : Bencode) (pieceLayers : Option Bencode) :
    List UInt8 :=
  let allTrackers := options.trackers.flatten
  let announceList :=
    if 1 < allTrackers.length then options.trackers.filter fun tier => tier ≠ [] else []
  topLevel info pieceLayers allTrackers.head? announceList options.webSeeds
    ⟨options.comment, options.createdBy, options.creationDate⟩

/-- The entry of `files` for one file. -/
def fileEntry (e : Entry) : Bencode :=
  let file := insertEntry Key.length (.int (.ofNat e.length)) []
  .dict (insertEntry Key.path (.list (e.path.map text)) file)

/-- The info dictionary of `create`. -/
def infoV1 (name : Name) (pieceLength : ℕ) (pieces : List UInt8) (priv multiFile : Bool)
    (entries : List Entry) (totalLength : ℕ) : Bencode :=
  let info := insertEntry Key.name (text name) []
  let info := insertEntry Key.pieceLength (.int (.ofNat pieceLength)) info
  let info := insertEntry Key.pieces (.bytes pieces) info
  let info := insertSome Key.priv (if priv then some (.int 1) else none) info
  .dict (if multiFile then insertEntry Key.files (.list (entries.map fileEntry)) info
    else insertEntry Key.length (.int (.ofNat totalLength)) info)

section

variable [Digests]

/-- `create` from the hashing on, in the v1 form. -/
def createV1 (name : Name) (multiFile : Bool) (entries : List Entry)
    (pieceLength totalLength : ℕ) (options : CreateOptions) : Except CreateError Created := do
  let pieces ← hashPieces entries pieceLength
  let info := infoV1 name pieceLength pieces options.priv multiFile entries totalLength
  return {
    bytes := fileBytes options info none
    infoHash := Digests.sha1 info.encode
    name := name
    totalLength := totalLength
    pieceLength := pieceLength
    pieceCount := pieces.length / 20
    fileCount := entries.length }

/-- The description of a file in the tree. -/
def leafOf (length : ℕ) (root : Option Hash32) : Bencode :=
  let leaf := insertEntry V2.keyLength (.int (.ofNat length)) []
  .dict (insertSome V2.keyPiecesRoot (root.map fun r => .bytes r.toList) leaf)

/-- The dictionary under a name, a new one where there is none: only
dictionaries are inserted. -/
def subtree : Option Bencode → Entries
  | some (.dict next) => next
  | _ => []

/-- A leaf put into the tree, down the components of its path. -/
def insertPath (leaf : Bencode) :
    List Name → Entries → Entries
  | [], node => insertEntry [] leaf node
  | part :: rest, node =>
    insertEntry part (.dict (insertPath leaf rest (subtree (node.lookup part)))) node

/-- `layers.insert` of a file that has a layer. -/
def insertLayerOf (hashes : V2.FileHashes) (layers : Entries) :
    Entries :=
  match hashes.root with
  | some root =>
    if hashes.layer = [] then layers
    else insertEntry root.toList (.bytes (hashes.layer.map List.Vector.toList).flatten) layers
  | none => layers

/-- What `create_v2` builds up. -/
structure Building where
  tree : Entries
  layers : Entries
  pieceCount : ℕ

/-- The hashes of a file in `create_v2`: it has to be as long as it was
measured, and no longer. -/
def hashEntryV2 (pieceLength : ℕ) (entry : Entry) : Except CreateError V2.FileHashes :=
  match entry.file.bytes with
  | .error e => .error (.io entry.onDisk e)
  | .ok bytes =>
    match V2.hashFile bytes entry.length pieceLength with
    | none => .error (.io entry.onDisk .unexpectedEof)
    | some hashes =>
      if entry.length < bytes.length then .error (.changedWhileReading entry.onDisk)
      else .ok hashes

/-- One file in `create_v2`. -/
def buildEntry (pieceLength : ℕ) (b : Building) (entry : Entry) : Except CreateError Building := do
  let hashes ← hashEntryV2 pieceLength entry
  return {
    tree := insertPath (leafOf entry.length hashes.root) entry.path b.tree
    layers := insertLayerOf hashes b.layers
    pieceCount := b.pieceCount + (entry.length + pieceLength - 1) / pieceLength }

/-- The info dictionary of `create_v2`. -/
def infoV2 (tree : Entries) (name : Name) (pieceLength : ℕ) (priv : Bool) :
    Bencode :=
  let info := insertEntry Key.fileTree (.dict tree) []
  let info := insertEntry Key.metaVersion (.int 2) info
  let info := insertEntry Key.name (text name) info
  let info := insertEntry Key.pieceLength (.int (.ofNat pieceLength)) info
  .dict (insertSome Key.priv (if priv then some (.int 1) else none) info)

def createV2 (name : Name) (entries : List Entry) (pieceLength totalLength : ℕ)
    (options : CreateOptions) : Except CreateError Created :=
  if !V2.validPieceLength (.ofNat pieceLength) then
    .error (.badPieceLength
      ("a v2 piece length must be a power of two of at least 16 KiB: " ++ toString pieceLength))
  else do
    let b ← entries.foldlM (buildEntry pieceLength) ⟨[], [], 0⟩
    let info := infoV2 b.tree name pieceLength options.priv
    return {
      bytes := fileBytes options info (some (.dict b.layers))
      infoHash := shortHash (Digests.sha256 info.encode)
      name := name
      totalLength := totalLength
      pieceLength := pieceLength
      pieceCount := b.pieceCount
      fileCount := entries.length }

end

/-- The name of a torrent: the one asked for, or that of the source. -/
def nameOf (source : Source) (options : CreateOptions) : Except CreateError Name := do
  let name ←
    match options.name with
    | some name => .ok name.1
    | none =>
      match source.resolved with
      | .error e => .error (.io source.path e)
      | .ok resolved =>
        match resolved.getLast? with
        | none => .error (.unsafeName source.display)
        | some fileName =>
          if Bencode.validUtf8 fileName then .ok fileName else .error (.nonUtf8Path resolved)
  if !isSafeComponent name then .error (.unsafeName name) else return name

/-- `fs::metadata` of the source. -/
def rootOf (source : Source) : Except CreateError SourceRoot :=
  match source.root with
  | .ok root => .ok root
  | .error e => .error (.io source.path e)

def isDir : SourceRoot → Bool
  | .file _ => false
  | .dir _ => true

def create [Digests] (source : Source) (options : CreateOptions) : Except CreateError Created := do
  let root ← rootOf source
  let name ← nameOf source options
  let entries ← source.entries name root
  let totalLength := (entries.map Entry.length).sum % 2 ^ 64
  if totalLength = 0 then .error .empty
  else
    let pieceLength ← choosePieceLength options totalLength
    if options.v2 then createV2 name entries pieceLength totalLength options
    else createV1 name (isDir root) entries pieceLength totalLength options

/-- A piece length that `create` uses. -/
structure UsablePieceLength (total pieceLength : ℕ) : Prop where
  power : pieceLength.isPowerOfTwo
  le : minPieceLength ≤ pieceLength
  max : pieceLength ≤ maxPieceLength
  few : (total + pieceLength - 1) / pieceLength ≤ maxPieces

variable {total pieceLength : ℕ}

theorem UsablePieceLength.pos (h : UsablePieceLength total pieceLength) : 0 < pieceLength := by
  have := h.le
  unfold minPieceLength at this
  omega

theorem UsablePieceLength.total_lt (h : UsablePieceLength total pieceLength) : total < 2 ^ 63 := by
  have hmax := h.max
  have hfew := (ceil_le_iff h.pos).1 h.few
  unfold maxPieceLength at hmax
  unfold maxPieces at hfew
  calc total ≤ 2 ^ 20 * pieceLength := hfew
    _ ≤ 2 ^ 20 * 2 ^ 27 := Nat.mul_le_mul_left _ hmax
    _ < 2 ^ 63 := by decide

theorem isPowerOfTwo_autoPieceLength (total : ℕ) : (autoPieceLength total).isPowerOfTwo := by
  unfold autoPieceLength
  dsimp only
  rw [nextPowerOfTwo_eq]
  -- the greater and the smaller of two powers are one of them
  rcases max_choice minAutoPieceLength (min maxAutoPieceLength (2 ^ Nat.clog 2
    (max ((total + targetPieces - 1) / targetPieces) 1))) with h | h
  · rw [h]
    exact ⟨14, rfl⟩
  · rw [h]
    rcases min_choice maxAutoPieceLength (2 ^ Nat.clog 2
      (max ((total + targetPieces - 1) / targetPieces) 1)) with h' | h'
    · rw [h']
      exact ⟨24, rfl⟩
    · rw [h']
      exact ⟨_, rfl⟩

theorem checkPieceLength_spec {len : ℕ} (h : checkPieceLength len = .ok pieceLength) :
    len = pieceLength ∧ len.isPowerOfTwo ∧ minPieceLength ≤ len ∧ len ≤ maxPieceLength := by
  rw [checkPieceLength, check_eq_ok_iff, check_eq_ok_iff, check_eq_ok_iff] at h
  obtain ⟨hpow, hmin, hmax, h⟩ := h
  cases h
  exact ⟨rfl, not_not.1 hpow, not_lt.1 hmin, not_lt.1 hmax⟩

variable {options : CreateOptions}

theorem choosePieceLength_spec (h : choosePieceLength options total = .ok pieceLength) :
    UsablePieceLength total pieceLength := by
  unfold choosePieceLength at h
  split at h
  · rw [bind_eq_ok_iff] at h
    obtain ⟨len, hlen, h⟩ := h
    obtain ⟨rfl, hpow, hmin, hmax⟩ := checkPieceLength_spec hlen
    rw [check_eq_ok_iff] at h
    obtain ⟨hfew, h⟩ := h
    cases h
    exact ⟨hpow, hmin, hmax, not_lt.1 hfew⟩
  · rw [bind_eq_ok_iff] at h
    obtain ⟨len, hlen, h⟩ := h
    cases hlen
    rw [check_eq_ok_iff] at h
    obtain ⟨hfew, h⟩ := h
    cases h
    refine ⟨isPowerOfTwo_autoPieceLength total, ?_, ?_, not_lt.1 hfew⟩
    · exact (show minPieceLength ≤ minAutoPieceLength by decide).trans (le_max_left _ _)
    · refine (max_le ?_ ((min_le_left _ _).trans ?_) : autoPieceLength total ≤ maxPieceLength)
      all_goals decide

variable {source : Source}

theorem nameOf_spec {name : Name} (h : nameOf source options = .ok name) :
    Bencode.validUtf8 name = true ∧ isSafeComponent name = true := by
  have hsafe : ∀ {given : Name}, (if !isSafeComponent given then
      Except.error (CreateError.unsafeName given) else pure given) = .ok name →
        given = name ∧ isSafeComponent given = true := by
    intro given h
    rw [check_eq_ok_iff] at h
    obtain ⟨hsafe, h⟩ := h
    cases h
    exact ⟨rfl, by simpa using hsafe⟩
  unfold nameOf at h
  split at h
  · rename_i given _
    obtain ⟨hname, hgiven⟩ := hsafe h
    rw [← hname]
    exact ⟨given.2, hgiven⟩
  · split at h
    · cases h
    · split at h
      · cases h
      · split at h
        · rename_i hvalid
          obtain ⟨hname, hgiven⟩ := hsafe h
          rw [← hname]
          exact ⟨hvalid, hgiven⟩
        · cases h

/-- How many bytes the files have by their metadata. -/
def measured (files : List (List Name × DiskFile)) : ℕ := (files.map fun f => f.2.length).sum

theorem sum_length_eq_measured (entries : List Entry) :
    (entries.map Entry.length).sum = measured (entries.map Entry.found) := by
  rw [measured, List.map_map]
  rfl

theorem create_cases [Digests] {created : Created}
    {root : SourceRoot} (hroot : source.root = .ok root)
    (h : create source options = .ok created) :
    ∃ name entries pieceLength, nameOf source options = .ok name ∧
      source.entries name root = .ok entries ∧
      (measured (root.files name) % 2 ^ 64 ≠ 0) ∧
      choosePieceLength options (measured (root.files name) % 2 ^ 64) = .ok pieceLength ∧
      (if options.v2 then
        createV2 name entries pieceLength (measured (root.files name) % 2 ^ 64) options
      else createV1 name (isDir root) entries pieceLength (measured (root.files name) % 2 ^ 64)
        options) = .ok created := by
  rw [create, rootOf, hroot] at h
  simp only [bind_eq_ok_iff, check_eq_ok_iff, Except.ok.injEq, exists_eq_left'] at h
  obtain ⟨name, hname, entries, hentries, hne, pieceLength, hlen, h⟩ := h
  obtain ⟨hfound, -⟩ := Source.entries_spec (nameOf_spec hname) hentries
  rw [sum_length_eq_measured, hfound] at hne hlen h
  exact ⟨name, entries, pieceLength, hname, hentries, hne, hlen, h⟩

end Create

end BitTorrent
