import BitTorrent.Daemon.Paths
import BitTorrent.Torrent.Parse

/-!
# Choosing files

`selection.rs` as far as the daemon asks it: the file numbers a request gives, as text and as a
list, and the masks that files and patterns make over a torrent's files.
-/

namespace BitTorrent

open List Text

/-- **`str::to_lowercase`**, over the bytes of a string: what the Unicode
tables make of it. -/
class Lowercase where
  toLowercase : List UInt8 → List UInt8

/-- Strings that have no capitals, to try a result out on. -/
@[reducible] def Lowercase.same : Lowercase := ⟨id⟩

/-- Why a selection is refused. -/
inductive SelectionError
  | notAFileNumber (part : Text)
  | indexOutOfRange (index files : ℕ)
  | onlyMatchesNothing (pattern : Text)
  | preferMatchesNothing (pattern : Text)
deriving DecidableEq

namespace Selection

/-- One file number. -/
def parseIndex (part : Text) : Except SelectionError ℕ :=
  match part.parseUsize with
  | some n => .ok n
  | none => .error (.notAFileNumber part)

def parseIndices (text : Text) : Except SelectionError (List ℕ) :=
  (((text.splitOn ',').map Text.trim).filter (· ≠ [])).mapM parseIndex

def formatIndices (indices : List ℕ) : Text := [','].intercalate (indices.map Text.decimal)

section

variable {text part : Text} {indices : List ℕ} {n : ℕ}

theorem parseIndex_eq_ok_iff : parseIndex part = .ok n ↔ part.parseUsize = some n := by
  unfold parseIndex
  split <;> simp_all

theorem lt_of_parseIndices (h : parseIndices text = .ok indices) : ∀ i ∈ indices, i < 2 ^ 64 := by
  rw [parseIndices] at h
  generalize ((text.splitOn ',').map trim).filter (· ≠ []) = parts at h
  induction parts generalizing indices with
  | nil =>
    obtain rfl : [] = indices := by simpa [pure, Except.pure] using h
    simp
  | cons part parts ih =>
    rw [mapM_cons, bind_eq_ok_iff] at h
    obtain ⟨n, hpart, h⟩ := h
    obtain ⟨rest, hrest, h⟩ := bind_eq_ok_iff.1 h
    cases h
    intro i hi
    rcases mem_cons.1 hi with rfl | hi
    · exact lt_of_parseUsize (parseIndex_eq_ok_iff.1 hpart)
    · exact ih hrest i hi

theorem parseIndices_formatIndices (h : ∀ i ∈ indices, i < 2 ^ 64) :
    parseIndices (formatIndices indices) = .ok indices := by
  rcases eq_or_ne indices [] with rfl | hne
  · decide
  have hcomma : ∀ part ∈ indices.map decimal, ',' ∉ part := by
    intro part hpart hmem
    obtain ⟨i, -, rfl⟩ := mem_map.1 hpart
    exact ne_of_isDigit (isDigit_of_mem_decimal hmem) (by decide) rfl
  have hparts : (((formatIndices indices).splitOn ',').map trim).filter (· ≠ []) =
      indices.map decimal := by
    rw [formatIndices, splitOn_intercalate _ hcomma (by simpa using hne), map_map, filter_eq_self.2]
    · exact map_congr_left fun i _ => trim_decimal
    · intro part hpart
      obtain ⟨i, -, rfl⟩ := mem_map.1 hpart
      simp [decimal_ne_nil]
  rw [parseIndices, hparts]
  clear hparts hcomma hne
  induction indices with
  | nil => rfl
  | cons i indices ih =>
    have hi : parseIndex (decimal i) = .ok i :=
      parseIndex_eq_ok_iff.2 (parseUsize_decimal (h i (by simp)))
    rw [map_cons, mapM_cons, hi, ih fun j hj => h j (by simp [hj])]
    rfl

end

def filePath (parts : List Name) : List UInt8 := [47].intercalate parts

/-- The loop over the file numbers, which count from one. -/
def markIndices : List ℕ → List Bool → Except SelectionError (List Bool)
  | [], mask => .ok mask
  | i :: indices, mask =>
    if i = 0 ∨ mask.length < i then .error (.indexOutOfRange i mask.length)
    else markIndices indices (mask.set (i - 1) true)

section

variable [Lowercase]

/-- Whether a file's path contains a pattern, whatever the case. -/
def contains (pattern : Text) (file : List Name × ℕ) : Bool :=
  decide (Lowercase.toLowercase pattern.encode <:+: Lowercase.toLowercase (filePath file.1))

/-- The loop over the patterns, given what is said of one that matches
nothing. -/
def markPatterns (nothing : Text → SelectionError) (files : List (List Name × ℕ)) :
    List Text → List Bool → Except SelectionError (List Bool)
  | [], mask => .ok mask
  | pattern :: patterns, mask =>
    if files.any (contains pattern) then
      markPatterns nothing files patterns
        (List.zipWith (· || ·) mask (files.map (contains pattern)))
    else .error (nothing pattern)

def buildMask (files : List (List Name × ℕ)) (indices : List ℕ) (patterns : List Text) :
    Except SelectionError (List Bool) :=
  if indices = [] ∧ patterns = [] then .ok (List.replicate files.length true)
  else do
    let mask ← markIndices indices (List.replicate files.length false)
    markPatterns .onlyMatchesNothing files patterns mask

def buildPreferMask (files : List (List Name × ℕ)) (patterns : List Text) :
    Except SelectionError (List Bool) :=
  markPatterns .preferMatchesNothing files patterns (List.replicate files.length false)

def visibleFiles (torrent : TorrentFile) : List (List Name × ℕ) :=
  ((torrent.files.zip torrent.padding).filter fun file => !file.2).map Prod.fst

/-- `layout_mask`, over what is left of the padding flags and of the
mask. -/
def layoutMask : List Bool → List Bool → List Bool
  | [], _ => []
  | pad :: padding, visible =>
    if pad then false :: layoutMask padding visible
    else visible.headD false :: layoutMask padding visible.tail

def buildMaskFor (torrent : TorrentFile) (indices : List ℕ) (patterns : List Text) :
    Except SelectionError (List Bool) :=
  (buildMask (visibleFiles torrent) indices patterns).map (layoutMask torrent.padding)

def buildPreferMaskFor (torrent : TorrentFile) (patterns : List Text) :
    Except SelectionError (List Bool) :=
  (buildPreferMask (visibleFiles torrent) patterns).map (layoutMask torrent.padding)

end

end Selection

end BitTorrent
