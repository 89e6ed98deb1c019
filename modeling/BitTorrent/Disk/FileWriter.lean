import BitTorrent.Disk.FileSystem

/-!
# Pieces on disk

`file_writer.rs`, and the reader of `resume.rs`: the table of file spans over a torrent's flat
byte space, the writer that splits a piece across them, and the two readers.
-/

namespace BitTorrent

/-- `FileSpan`: a file, or padding, and where it lies in the byte space:
from `start` up to `stop`. -/
structure FileSpan where
  path : Path
  start : ℕ
  stop : ℕ
  padding : Bool
deriving DecidableEq

/-- The loop of the functions that build the table: one span for each
file, from the cursor on; `next` is where the file after it may start. -/
def layFiles (baseDir : Path) (padding : ℕ → Bool) (next : ℕ → ℕ) :
    (index cursor : ℕ) → List (List Name × ℕ) → List FileSpan
  | _, _, [] => []
  | index, cursor, (parts, length) :: files =>
    ⟨parts.foldl Path.join baseDir, cursor, cursor + length, padding index⟩ ::
      layFiles baseDir padding next (index + 1) (next (cursor + length)) files

def buildFileSpansPadded (baseDir : Path) (files : List (List Name × ℕ)) (padding : List Bool) :
    List FileSpan :=
  layFiles baseDir (fun index => padding.getD index false) id 0 0 files

def buildFileSpans (baseDir : Path) (files : List (List Name × ℕ)) : List FileSpan :=
  buildFileSpansPadded baseDir files []

def nextMultipleOf (n m : ℕ) : ℕ := (n + m - 1) / m * m

def buildFileSpansAligned (baseDir : Path) (files : List (List Name × ℕ)) (pieceLength : ℕ) :
    List FileSpan :=
  layFiles baseDir (fun _ => false) (nextMultipleOf · (max pieceLength 1)) 0 0 files

/-- `slice::partition_point`, on a slice that `p` holds of a front part
of. -/
def partitionPoint {α : Type*} (p : α → Bool) (l : List α) : ℕ := (l.takeWhile p).length

def spanAt (spans : List FileSpan) (offset : ℕ) : Option FileSpan :=
  spans[partitionPoint (fun s => decide (s.stop ≤ offset)) spans]?.filter
    fun s => decide (s.start ≤ offset)

/-- The directory of a file, made if need be. -/
def makeParent (fs : FileSystem) (path : Path) : Except IoError FileSystem :=
  match path.parent with
  | some dir => fs.createDirAll dir
  | none => .ok fs

/-- One turn of `write_at_global_offset`: the file system after it, and
how many bytes were dealt with. -/
def writeChunk (spans : List FileSpan) (offset : ℕ) (remaining : List UInt8) (fs : FileSystem) :
    FileSystem × Except IoError ℕ :=
  match spanAt spans offset with
  | none => (fs, .error (.invalidInput offset))
  | some span =>
    let chunkLen := min remaining.length (span.stop - offset)
    if span.padding then (fs, .ok chunkLen)
    else
      match makeParent fs span.path with
      | .error e => (fs, .error e)
      | .ok fs =>
        match fs.openWrite span.path with
        | .error e => (fs, .error e)
        | .ok fs =>
          (fs.writeAll span.path (offset - span.start) (remaining.take chunkLen), .ok chunkLen)

/-- The loop of `write_at_global_offset`. -/
def writeLoop (spans : List FileSpan) :
    ℕ → ℕ → List UInt8 → FileSystem → Option (FileSystem × Except IoError Unit)
  | fuel, offset, remaining, fs =>
    if remaining = [] then some (fs, .ok ())
    else
      match fuel with
      | 0 => none
      | fuel + 1 =>
        match writeChunk spans offset remaining fs with
        | (fs, .error e) => some (fs, .error e)
        | (fs, .ok n) => writeLoop spans fuel (offset + n) (remaining.drop n) fs

def writeAtGlobalOffset (spans : List FileSpan) (globalOffset : ℕ) (data : List UInt8)
    (fs : FileSystem) : Option (FileSystem × Except IoError Unit) :=
  writeLoop spans data.length globalOffset data fs

def writePiece (spans : List FileSpan) (pieceIndex : UInt32) (pieceLength : ℕ)
    (data : List UInt8) (fs : FileSystem) : Option (FileSystem × Except IoError Unit) :=
  writeAtGlobalOffset spans (pieceIndex.toNat * pieceLength) data fs

/-- The loop of `read_at_global_offset`. -/
def readLoop (spans : List FileSpan) (fs : FileSystem) :
    ℕ → ℕ → ℕ → List UInt8 → Option (Except IoError (List UInt8))
  | fuel, offset, remaining, out =>
    if remaining = 0 then some (.ok out)
    else
      match fuel with
      | 0 => none
      | fuel + 1 =>
        match spanAt spans offset with
        | none => some (.error (.invalidInput offset))
        | some span =>
          let chunkLen := min remaining (span.stop - offset)
          if span.padding then
            readLoop spans fs fuel (offset + chunkLen) (remaining - chunkLen)
              (out ++ List.replicate chunkLen 0)
          else
            match fs.readExact span.path (offset - span.start) chunkLen with
            | .error e => some (.error e)
            | .ok chunk =>
              readLoop spans fs fuel (offset + chunkLen) (remaining - chunkLen) (out ++ chunk)

def readAtGlobalOffset (spans : List FileSpan) (globalOffset len : ℕ) (fs : FileSystem) :
    Option (Except IoError (List UInt8)) :=
  readLoop spans fs len globalOffset len []

def readBlock (spans : List FileSpan) (pieceIndex : UInt32) (pieceLength begin length : ℕ)
    (fs : FileSystem) : Option (Except IoError (List UInt8)) :=
  readAtGlobalOffset spans (pieceIndex.toNat * pieceLength + begin) length fs

/-- The loop of `read_piece_bytes`: the buffer is filled from the front. -/
def fillLoop (spans : List FileSpan) (fs : FileSystem) :
    ℕ → ℕ → ℕ → List UInt8 → Option (Except IoError (List UInt8))
  | fuel, offset, filled, buf =>
    if buf.length ≤ filled then some (.ok buf)
    else
      match fuel with
      | 0 => none
      | fuel + 1 =>
        match spanAt spans offset with
        | none => some (.error .notFound)
        | some span =>
          let toRead := min (buf.length - filled) (span.stop - offset)
          -- padding is zeros, which the buffer already is
          if span.padding then fillLoop spans fs fuel (offset + toRead) (filled + toRead) buf
          else
            match fs.readExact span.path (offset - span.start) toRead with
            | .error e => some (.error e)
            | .ok chunk =>
              fillLoop spans fs fuel (offset + toRead) (filled + toRead) (splice buf filled chunk)

def readPieceBytes (spans : List FileSpan) (pieceIndex : UInt32) (pieceStride pieceLength : ℕ)
    (fs : FileSystem) : Option (Except IoError (List UInt8)) :=
  fillLoop spans fs pieceLength (pieceIndex.toNat * pieceStride) 0
    (List.replicate pieceLength 0)

end BitTorrent
