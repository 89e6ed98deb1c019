import BitTorrent.Bencode.Value
import BitTorrent.Common.Fallible
import BitTorrent.Torrent.Names

/-!
# What a torrent is made of

The walk of `create.rs` over a file or a directory: `collect` lists the regular files under a
directory, and `create` sorts them by path.
-/

namespace BitTorrent

open List

/-- `String`: bytes that are valid UTF-8. -/
abbrev Utf8 := { b : List UInt8 // Bencode.validUtf8 b = true }

/-- **A regular file**: its length by its metadata, the bytes that reading
it gives, or the error that opening or reading it meets, and how many of
them each `read` returns at most, as far as that is less than was asked
for. -/
structure DiskFile where
  length : ℕ
  bytes : Except IoError (List UInt8)
  cuts : List ℕ

/-- **What is under a name**, as `symlink_metadata` sees it. -/
inductive DiskNode
  | file (f : DiskFile)
  | dir (entries : List (Name × DiskNode))
  /-- A symbolic link, a socket or a device. -/
  | other
  /-- What cannot be looked at, or a directory that cannot be listed. -/
  | failing (e : IoError)

namespace DiskNode

mutual

/-- **The regular files** under a node, each by its path and as it is. -/
def files (path : List Name) : DiskNode → List (List Name × DiskFile)
  | file f => [(path, f)]
  | dir entries => filesOf path entries
  | other => []
  | failing _ => []

/-- Those under the entries of a directory. -/
def filesOf (path : List Name) : List (Name × DiskNode) → List (List Name × DiskFile)
  | [] => []
  | (name, node) :: entries => node.files (path ++ [name]) ++ filesOf path entries

end

mutual

/-- **A directory has no name twice**, and no directory in it has. -/
def Distinct : DiskNode → Prop
  | dir entries => (entries.map Prod.fst).Nodup ∧ DistinctIn entries
  | _ => True

/-- All entries are so. -/
def DistinctIn : List (Name × DiskNode) → Prop
  | [] => True
  | (_, node) :: entries => node.Distinct ∧ DistinctIn entries

end

end DiskNode

/-- What `fs::metadata` says of the source, through symbolic links: a
directory, or else something that is read as a file. -/
inductive SourceRoot
  | file (f : DiskFile)
  | dir (entries : List (Name × DiskNode))

/-- **The source** that `create` is given: its path and how it is
displayed, the path that `canonicalize` makes of it, and what it is. -/
structure Source where
  path : Path
  display : List UInt8
  resolved : Except IoError Path
  root : Except IoError SourceRoot
  distinct : ∀ entries, root = .ok (.dir entries) → (DiskNode.dir entries).Distinct

inductive CreateError
  | io (path : Path) (source : IoError)
  | empty
  | nonUtf8Path (path : Path)
  | unsafeName (name : List UInt8)
  | badPieceLength (why : String)
  | changedWhileReading (path : Path)
deriving DecidableEq

structure Entry where
  path : List Name
  onDisk : Path
  file : DiskFile

/-- `length` of an `Entry`. -/
def Entry.length (e : Entry) : ℕ := e.file.length

/-- What a name has to be for its file or directory to be taken in. -/
def checkName {α : Type} (path : Path) (name : Name) (x : Except CreateError α) :
    Except CreateError α :=
  if !Bencode.validUtf8 name then .error (.nonUtf8Path path)
  else if !isSafeComponent name then .error (.unsafeName name)
  else x

mutual

/-- One turn of the loop of `collect`. -/
def collectNode (onDisk : Path) (path : List Name) (name : Name) :
    DiskNode → Except CreateError (List Entry)
  | .file f => checkName onDisk name (.ok [⟨path, onDisk, f⟩])
  | .dir entries => checkName onDisk name (collect onDisk path entries)
  | .other => .ok []
  | .failing e => .error (.io onDisk e)

/-- `collect`: the entries of a directory, with the components so far. -/
def collect (dir : Path) (pre : List Name) :
    List (Name × DiskNode) → Except CreateError (List Entry)
  | [] => .ok []
  | (name, node) :: entries => do
    let first ← collectNode (dir ++ [name]) (pre ++ [name]) name node
    let rest ← collect dir pre entries
    return first ++ rest

end

/-- Path order. -/
def Entry.before (a b : Entry) : Prop := ¬ b.path < a.path

instance : DecidableRel Entry.before := fun a b => inferInstanceAs (Decidable (¬ b.path < a.path))

/-- The files that `create` makes a torrent of, in path order. -/
def Source.entries (source : Source) (name : Name) (root : SourceRoot) :
    Except CreateError (List Entry) :=
  match root with
  | .file f => .ok [⟨[name], source.path, f⟩]
  | .dir nodes => do
    let entries ← collect source.path [] nodes
    return entries.insertionSort Entry.before

/-- Path order, of files. -/
def pathBefore (a b : List Name × DiskFile) : Prop := ¬ b.1 < a.1

instance : DecidableRel pathBefore := fun a b => inferInstanceAs (Decidable (¬ b.1 < a.1))

/-- **The files of a source**, by the paths they have in it and in path
order. The path of a file that is the whole source is the name of the
torrent. -/
def SourceRoot.files (name : Name) : SourceRoot → List (List Name × DiskFile)
  | .file f => [([name], f)]
  | .dir nodes => (DiskNode.filesOf [] nodes).insertionSort pathBefore

/-- **Names that a torrent can have**: strings that are safe. -/
def Nameable (path : List Name) : Prop :=
  ∀ c ∈ path, Bencode.validUtf8 c = true ∧ isSafeComponent c = true

/-- What an entry says of its file. -/
def Entry.found (e : Entry) : List Name × DiskFile := (e.path, e.file)

variable {name : Name}

theorem checkName_eq_ok_iff {α : Type} {path : Path} {x : Except CreateError α}
    {a : α} : checkName path name x = .ok a ↔
      (Bencode.validUtf8 name = true ∧ isSafeComponent name = true) ∧ x = .ok a := by
  unfold checkName
  rw [check_eq_ok_iff, check_eq_ok_iff, and_assoc]
  simp

theorem Nameable.append_singleton {path : List Name} (h : Nameable path)
    (hname : Bencode.validUtf8 name = true ∧ isSafeComponent name = true) :
    Nameable (path ++ [name]) :=
  forall_mem_append.2 ⟨h, forall_mem_singleton.2 hname⟩

mutual

theorem collectNode_spec (onDisk : Path) {path : List Name} {name : Name}
    (hpath : Bencode.validUtf8 name = true ∧ isSafeComponent name = true → Nameable path)
    (hne : path ≠ []) : ∀ (node : DiskNode) (out : List Entry),
      collectNode onDisk path name node = .ok out →
      out.map Entry.found = node.files path ∧ ∀ e ∈ out, e.path ≠ [] ∧ Nameable e.path
  | .file f, out, h => by
    rw [collectNode, checkName_eq_ok_iff] at h
    obtain ⟨hname, h⟩ := h
    cases h
    refine ⟨rfl, fun e he => ?_⟩
    rw [mem_singleton.1 he]
    exact ⟨hne, hpath hname⟩
  | .dir entries, out, h => by
    rw [collectNode, checkName_eq_ok_iff] at h
    exact collect_spec onDisk (hpath h.1) entries out h.2
  | .other, out, h => by
    cases h
    exact ⟨rfl, by simp⟩
  | .failing _, _, h => by cases h

theorem collect_spec (dir : Path) {pre : List Name} (hpre : Nameable pre) :
    ∀ (entries : List (Name × DiskNode)) (out : List Entry), collect dir pre entries = .ok out →
      out.map Entry.found = DiskNode.filesOf pre entries ∧ ∀ e ∈ out, e.path ≠ [] ∧ Nameable e.path
  | [], out, h => by
    cases h
    exact ⟨rfl, by simp⟩
  | (name, node) :: entries, out, h => by
    rw [collect, bind_eq_ok_iff] at h
    obtain ⟨first, hfirst, h⟩ := h
    rw [bind_eq_ok_iff] at h
    obtain ⟨rest, hrest, h⟩ := h
    cases h
    obtain ⟨hfound, hnames⟩ := collectNode_spec (dir ++ [name])
      (fun hname => hpre.append_singleton hname) (by simp) node first hfirst
    obtain ⟨hfound', hnames'⟩ := collect_spec dir hpre entries rest hrest
    refine ⟨by rw [map_append, hfound, hfound', DiskNode.filesOf], fun e he => ?_⟩
    rcases mem_append.1 he with he | he
    · exact hnames e he
    · exact hnames' e he

end

theorem Source.entries_spec {source : Source} {root : SourceRoot}
    {entries : List Entry} (hname : Bencode.validUtf8 name = true ∧ isSafeComponent name = true)
    (h : source.entries name root = .ok entries) :
    entries.map Entry.found = root.files name ∧ ∀ e ∈ entries, e.path ≠ [] ∧ Nameable e.path := by
  cases root with
  | file f =>
    cases h
    refine ⟨rfl, fun e he => ?_⟩
    rw [mem_singleton.1 he]
    refine ⟨by simp, fun c hc => ?_⟩
    rw [mem_singleton.1 hc]
    exact hname
  | dir nodes =>
    rw [Source.entries, bind_eq_ok_iff] at h
    obtain ⟨found, hfound, h⟩ := h
    cases h
    obtain ⟨hfiles, hnames⟩ := collect_spec source.path (by simp [Nameable]) nodes found hfound
    refine ⟨?_, fun e he => hnames e ((perm_insertionSort Entry.before found).mem_iff.1 he)⟩
    have hsorted := map_insertionSort Entry.before pathBefore Entry.found found
      fun _ _ _ _ => Iff.rfl
    rw [hsorted, hfiles]
    rfl

end BitTorrent
