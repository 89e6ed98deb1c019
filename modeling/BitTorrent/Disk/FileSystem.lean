import BitTorrent.Common.Splice

/-!
# Files

The file system as the program uses it: a path names nothing, a directory or a file of some bytes.
-/

namespace BitTorrent

open List

/-- One name of a path, in bytes. -/
abbrev Name := List UInt8

/-- `PathBuf`: the names from the root down. -/
abbrev Path := List Name

namespace Path

/-- `Path::components` of a relative path: empty names and `.` drop out. -/
def components (s : List UInt8) : Path :=
  (s.splitOnP (· == 47)).filter fun c => c != [] && c != [46]

/-- `PathBuf::join`: an absolute path replaces the one it is joined to. -/
def join (p : Path) (part : List UInt8) : Path :=
  if part.head? = some 47 then components part else p ++ components part

def parent (p : Path) : Option Path := if p = [] then none else some p.dropLast

end Path

/-- What a path names. -/
inductive Node
  | dir
  | file (bytes : List UInt8)
deriving DecidableEq

/-- **The file system.** -/
abbrev FileSystem := Path → Option Node

/-- `io::Error`, by what went wrong. `other` is whatever the device or
the system reports of itself: a full disk, a missing permission. -/
inductive IoError
  | invalidInput (offset : ℕ)
  | notFound
  | notADirectory
  | isADirectory
  | unexpectedEof
  | other
deriving DecidableEq

/-- A file's bytes after a write at `off`: past its end, a file is zeros. -/
def writeAt (bytes : List UInt8) (off : ℕ) (data : List UInt8) : List UInt8 :=
  splice (bytes ++ List.replicate (off - bytes.length) 0) off data

theorem getElem?_writeAt (bytes data : List UInt8) (off i : ℕ) : (writeAt bytes off data)[i]? =
      if i < off then if i < bytes.length then bytes[i]? else some 0
      else if i < off + data.length then data[i - off]? else bytes[i]? := by
  rw [writeAt, getElem?_splice (by simp; omega)]
  split
  · rename_i hi
    split
    · rename_i hi'
      rw [getElem?_append_left hi']
    · rename_i hi'
      rw [getElem?_append_right (by omega), getElem?_replicate, if_pos (by omega)]
  · split
    · rfl
    · rename_i h₁ h₂
      -- past what was written there is only what the file had
      by_cases hb : i < bytes.length
      · rw [getElem?_append_left hb]
      · rw [getElem?_append_right (by omega), getElem?_replicate, if_neg (by omega),
          getElem?_eq_none (by omega)]

namespace FileSystem

/-- `fs::create_dir_all`: fails where a file is in the way. -/
def createDirAll (fs : FileSystem) (dir : Path) : Except IoError FileSystem :=
  if dir.inits.any fun p => (fs p).any (· != .dir) then .error .notADirectory
  else .ok fun p => if p ∈ dir.inits then some .dir else fs p

/-- Opening a file for writing, which creates it where it is missing and
never truncates it. -/
def openWrite (fs : FileSystem) (path : Path) : Except IoError FileSystem :=
  match fs path with
  | none => .ok fun p => if p = path then some (.file []) else fs p
  | some .dir => .error .isADirectory
  | some (.file _) => .ok fs

/-- A seek and a `write_all`. -/
def writeAll (fs : FileSystem) (path : Path) (off : ℕ) (data : List UInt8) : FileSystem :=
  match fs path with
  | some (.file bytes) => fun p => if p = path then some (.file (writeAt bytes off data)) else fs p
  | _ => fs

/-- `File::open`, a seek and a `read_exact`. -/
def readExact (fs : FileSystem) (path : Path) (off n : ℕ) : Except IoError (List UInt8) :=
  match fs path with
  | none => .error .notFound
  | some .dir => .error .isADirectory
  | some (.file bytes) =>
    if off + n ≤ bytes.length then .ok (slice bytes off n) else .error .unexpectedEof

/-- The bytes of a file, if there is one. -/
def bytesOf (fs : FileSystem) (path : Path) : Option (List UInt8) :=
  match fs path with
  | some (.file bytes) => some bytes
  | _ => none

variable {fs fs' : FileSystem} {path p dir : Path} {off n i : ℕ} {data : List UInt8}

theorem bytesOf_createDirAll (h : fs.createDirAll dir = .ok fs') :
    fs'.bytesOf p = fs.bytesOf p := by
  unfold createDirAll at h
  split at h
  · cases h
  · rename_i hno
    cases h
    by_cases hp : p ∈ dir.inits
    · have hdir : fs p ≠ none → fs p = some .dir := by
        intro hne
        by_contra hcon
        obtain ⟨node, hnode⟩ := Option.ne_none_iff_exists'.1 hne
        refine hno (any_eq_true.2 ⟨p, hp, ?_⟩)
        rw [hnode] at hcon ⊢
        simpa using hcon
      cases hfs : fs p with
      | none => simp [bytesOf, hp, hfs]
      | some node =>
        rw [hfs] at hdir
        obtain rfl : node = .dir := by simpa using hdir
        simp [bytesOf, hp, hfs]
    · simp [bytesOf, hp]

theorem bytesOf_openWrite (h : fs.openWrite path = .ok fs') :
    fs'.bytesOf p = if p = path then some ((fs.bytesOf path).getD []) else fs.bytesOf p := by
  unfold openWrite at h
  split at h
  · rename_i hfs
    cases h
    by_cases hp : p = path
    · simp [bytesOf, hp, hfs]
    · simp [bytesOf, hp]
  · cases h
  · rename_i bytes hfs
    cases h
    by_cases hp : p = path
    · simp [bytesOf, hp, hfs]
    · simp [hp]

theorem bytesOf_writeAll {bytes : List UInt8} (h : fs.bytesOf path = some bytes) :
    (fs.writeAll path off data).bytesOf p =
      if p = path then some (writeAt bytes off data) else fs.bytesOf p := by
  have hfs : fs path = some (.file bytes) := by
    unfold bytesOf at h
    split at h
    · rename_i b hb
      cases h
      exact hb
    · cases h
  unfold writeAll
  rw [hfs]
  by_cases hp : p = path <;> simp [bytesOf, hp]

theorem readExact_eq_ok_iff : fs.readExact path off n = .ok data ↔
    ∃ bytes, fs.bytesOf path = some bytes ∧ off + n ≤ bytes.length ∧ data = slice bytes off n := by
  unfold readExact bytesOf
  cases fs path with
  | none => simp
  | some node =>
    cases node with
    | dir => simp
    | file bytes =>
      simp only [Option.some.injEq, exists_eq_left']
      split
      · rename_i hle
        simp [hle, eq_comm]
      · rename_i hle
        simp [hle]

end FileSystem

end BitTorrent
