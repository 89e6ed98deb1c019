import BitTorrent.Daemon.Json
import BitTorrent.Daemon.Magnet
import BitTorrent.Torrent.Selection

/-!
# What the daemon remembers

`daemon/state.rs`: an entry for each torrent, written as one flat object to a line, and the text
of the entries file.
-/

namespace BitTorrent.Daemon

open List Double

open Json

inductive Source
  | magnet (uri : Text)
  | file (path : PathBuf)
deriving DecidableEq

structure JobOptions where
  files : List ℕ := []
  only : List Text := []
  prefer : List Text := []
  sequential : Bool := false
  maxUp : Option ℕ := none
  maxDown : Option ℕ := none
deriving DecidableEq

inductive Dormant
  | paused
  | finished (reason : Text)
deriving DecidableEq

structure Entry where
  infoHash : Hash20
  source : Source
  outDir : PathBuf
  options : JobOptions
  dormant : Option Dormant
deriving DecidableEq

/-- The keys of an entry and of a request. -/
inductive Key
  | cmd | id | source | out | magnet | file | files | only | prefer | sequential | maxUp | maxDown
  | paused | finished
deriving DecidableEq

/-- A key as it is written. -/
def Key.text : Key → Text
  | cmd => ['c', 'm', 'd']
  | id => ['i', 'd']
  | source => ['s', 'o', 'u', 'r', 'c', 'e']
  | out => ['o', 'u', 't']
  | magnet => ['m', 'a', 'g', 'n', 'e', 't']
  | file => ['f', 'i', 'l', 'e']
  | files => ['f', 'i', 'l', 'e', 's']
  | only => ['o', 'n', 'l', 'y']
  | prefer => ['p', 'r', 'e', 'f', 'e', 'r']
  | sequential => ['s', 'e', 'q', 'u', 'e', 'n', 't', 'i', 'a', 'l']
  | maxUp => ['m', 'a', 'x', '_', 'u', 'p']
  | maxDown => ['m', 'a', 'x', '_', 'd', 'o', 'w', 'n']
  | paused => ['p', 'a', 'u', 's', 'e', 'd']
  | finished => ['f', 'i', 'n', 'i', 's', 'h', 'e', 'd']

theorem Key.text_injective : Function.Injective Key.text := by
  intro a b h
  cases a <;> cases b <;> first | rfl | exact absurd h (by decide)

/-- An object with an option's rate, if there is one. -/
def putRate (object : Object) (key : Key) : Option ℕ → Object
  | some rate => object.uint key.text rate
  | none => object

def Entry.toLine (e : Entry) : Text :=
  let object := (Object.new.string Key.id.text (Text.hex e.infoHash)).string Key.out.text
    e.outDir.toStringLossy
  let object := match e.source with
    | .magnet uri => object.string Key.magnet.text uri
    | .file path => object.string Key.file.text path.toStringLossy
  let object := if e.options.files = [] then object
    else object.string Key.files.text (Selection.formatIndices e.options.files)
  let object := if e.options.only = [] then object
    else object.string Key.only.text (Text.joinLines e.options.only)
  let object := if e.options.prefer = [] then object
    else object.string Key.prefer.text (Text.joinLines e.options.prefer)
  let object := if e.options.sequential then object.boolean Key.sequential.text true else object
  let object := putRate object .maxUp e.options.maxUp
  let object := putRate object .maxDown e.options.maxDown
  let object := match e.dormant with
    | some .paused => object.boolean Key.paused.text true
    | some (.finished reason) => object.string Key.finished.text reason
    | none => object
  object.finish

/-- The text `save` writes. -/
def entriesText (entries : List Entry) : Text := entries.flatMap fun e => e.toLine ++ ['\n']

/-- Why a line is not an entry. -/
inductive EntryError
  | json (e : JsonError)
  | notAString (key : Key)
  | notABool (key : Key)
  | notARate (key : Key)
  | missing (key : Key)
  | notAnInfoHash (id : Text)
  | notOneSource
  | files (e : SelectionError)
  | pausedAndFinished
deriving DecidableEq

/-- The fields of an object, as `get` finds them. -/
abbrev FieldMap := List (Text × Value)

def FieldMap.get (fields : FieldMap) (key : Key) : Option Value := fields.lookup key.text

/-- `text`: a string, if there is one. -/
def textOf (key : Key) : Option Value → Except EntryError (Option Text)
  | none => .ok none
  | some .null => .ok none
  | some (.string s) => .ok (some s)
  | some _ => .error (.notAString key)

/-- `flag`. -/
def flagOf (key : Key) : Option Value → Except EntryError Bool
  | none => .ok false
  | some .null => .ok false
  | some (.bool b) => .ok b
  | some _ => .error (.notABool key)

/-- `rate`: the outer `none` is a value that is refused. -/
def rateOf : Option Value → Option (Option ℕ)
  | none => some none
  | some .null => some none
  | some (.number n) =>
    if n.atLeast 1 ∧ n.isWhole ∧ n.below (10 ^ 15 : ℕ) then some (some n.asU64) else none
  | some _ => none

/-- A result that is refused with an error if there is none. -/
def orError {ε α : Type} (o : Option α) (e : ε) : Except ε α :=
  match o with
  | some a => .ok a
  | none => .error e

/-- Exactly one of `"magnet"` and `"file"`. -/
def sourceOf : Option Text → Option Text → Except EntryError Source
  | some uri, none => .ok (.magnet uri)
  | none, some path => .ok (.file (.ofText path))
  | _, _ => .error .notOneSource

/-- At most one of `"paused"` and `"finished"`. -/
def dormantOf : Bool → Option Text → Except EntryError (Option Dormant)
  | false, none => .ok none
  | true, none => .ok (some .paused)
  | false, some reason => .ok (some (.finished reason))
  | true, some _ => .error .pausedAndFinished

/-- The options of an entry. -/
def optionsOf (fields : FieldMap) : Except EntryError JobOptions := do
  let files ← textOf .files (fields.get .files)
  let files ← (Selection.parseIndices (files.getD [])).mapError .files
  let only ← textOf .only (fields.get .only)
  let prefer ← textOf .prefer (fields.get .prefer)
  let sequential ← flagOf .sequential (fields.get .sequential)
  let maxUp ← orError (rateOf (fields.get .maxUp)) (.notARate .maxUp)
  let maxDown ← orError (rateOf (fields.get .maxDown)) (.notARate .maxDown)
  return { files, only := (only.getD []).nonemptyLines, prefer := (prefer.getD []).nonemptyLines,
           sequential, maxUp, maxDown }

/-- An entry from its fields. -/
def Entry.ofFields (fields : FieldMap) : Except EntryError Entry := do
  let id ← textOf .id (fields.get .id)
  let id ← orError id (.missing .id)
  let infoHash ← orError (Text.parseHex 20 id) (.notAnInfoHash id)
  let out ← textOf .out (fields.get .out)
  let out ← orError out (.missing .out)
  let magnet ← textOf .magnet (fields.get .magnet)
  let file ← textOf .file (fields.get .file)
  let source ← sourceOf magnet file
  let options ← optionsOf fields
  let paused ← flagOf .paused (fields.get .paused)
  let finished ← textOf .finished (fields.get .finished)
  let dormant ← dormantOf paused finished
  return { infoHash, source, outDir := .ofText out, options, dormant }

def Entry.fromLine (line : Text) : Except EntryError Entry := do
  let fields ← (parseObject line).mapError EntryError.json
  Entry.ofFields fields

/-- A warning about a line, which is given by its number. -/
inductive Warning
  | unreadable (number : ℕ) (reason : EntryError)
  | twice (number : ℕ) (infoHash : Hash20)
deriving DecidableEq

/-- A line of the entries file. -/
def takeLine (read : List Entry × List Warning) (line : Text × ℕ) : List Entry × List Warning :=
  match Entry.fromLine line.1 with
  | .ok entry =>
    if read.1.any fun e => e.infoHash = entry.infoHash then
      (read.1, read.2 ++ [.twice (line.2 + 1) entry.infoHash])
    else (read.1 ++ [entry], read.2)
  | .error reason => (read.1, read.2 ++ [.unreadable (line.2 + 1) reason])

def parseEntries (text : Text) : List Entry × List Warning :=
  (text.lines.zipIdx.filter fun line => line.1.trim ≠ []).foldl takeLine ([], [])

/-- What an entry has at a key. -/
def Entry.scalar (e : Entry) : Key → Option Scalar
  | .cmd => none
  | .id => some (.string (Text.hex e.infoHash))
  | .source => none
  | .out => some (.string e.outDir.toStringLossy)
  | .magnet => match e.source with
    | .magnet uri => some (.string uri)
    | .file _ => none
  | .file => match e.source with
    | .magnet _ => none
    | .file path => some (.string path.toStringLossy)
  | .files => if e.options.files = [] then none
    else some (.string (Selection.formatIndices e.options.files))
  | .only => if e.options.only = [] then none
    else some (.string (Text.joinLines e.options.only))
  | .prefer => if e.options.prefer = [] then none
    else some (.string (Text.joinLines e.options.prefer))
  | .sequential => if e.options.sequential then some (.boolean true) else none
  | .maxUp => e.options.maxUp.map .uint
  | .maxDown => e.options.maxDown.map .uint
  | .paused => match e.dormant with
    | some .paused => some (.boolean true)
    | _ => none
  | .finished => match e.dormant with
    | some (.finished reason) => some (.string reason)
    | _ => none

/-- The keys of an entry, in the order they are written. -/
def Entry.keys : List Key :=
  [.id, .out, .magnet, .file, .files, .only, .prefer, .sequential, .maxUp, .maxDown, .paused,
    .finished]

/-- The field at a key, if there is one. -/
def fieldAt (f : Key → Option Scalar) (k : Key) : Option (Text × Scalar) :=
  (f k).map fun v => (k.text, v)

/-- An object with what there is at a key. -/
def putOpt (f : Key → Option Scalar) (o : Object) (k : Key) : Object :=
  match f k with
  | some v => o.put k.text v
  | none => o

section

variable {f : Key → Option Scalar} {keys : List Key} {k : Key} {e : Entry}

theorem putAll_filterMap (o : Object) :
    o.putAll (keys.filterMap (fieldAt f)) = keys.foldl (putOpt f) o := by
  induction keys generalizing o with
  | nil => rfl
  | cons k keys ih =>
    rw [foldl_cons, ← ih, filterMap_cons, putOpt, fieldAt]
    cases f k with
    | none | some => rfl

theorem map_fst_filterMap_sublist :
    ((keys.filterMap (fieldAt f)).map Prod.fst).Sublist (keys.map Key.text) := by
  induction keys with
  | nil => exact List.Sublist.refl _
  | cons k keys ih =>
    rw [filterMap_cons, fieldAt, map_cons]
    cases f k with
    | none => exact ih.trans (sublist_cons_self _ _)
    | some v => exact ih.cons_cons _

theorem lookup_filterMap (hk : k ∈ keys) :
    ((keys.filterMap (fieldAt f)).map readField).lookup k.text = (f k).map Scalar.read := by
  induction keys with
  | nil => cases hk
  | cons k' keys ih =>
    -- a key that is written nowhere else is not found there either
    have hnone : f k = none →
        ((keys.filterMap (fieldAt f)).map readField).lookup k.text = none := by
      intro hf
      by_cases hmem : k ∈ keys
      · rw [ih hmem, hf, Option.map_none]
      · rw [lookup_eq_none_iff]
        rintro entry hentry
        obtain ⟨field, hfield, rfl⟩ := mem_map.1 hentry
        have htext := map_fst_filterMap_sublist.subset (mem_map_of_mem hfield)
        obtain ⟨k'', hk'', heq⟩ := mem_map.1 htext
        rw [bne_iff_ne, readField, ← heq]
        intro heq'
        exact hmem (Key.text_injective heq' ▸ hk'')
    rw [filterMap_cons]
    by_cases heq : k = k'
    · subst heq
      cases hf : f k with
      | none => simp [fieldAt, hf, hnone hf]
      | some v => simp [fieldAt, hf, readField]
    · have hne : (k.text == k'.text) = false :=
        beq_eq_false_iff_ne.2 fun h => heq (Key.text_injective h)
      have hmem : k ∈ keys := (mem_cons.1 hk).resolve_left heq
      cases hf : f k' with
      | none => simpa [fieldAt, hf] using ih hmem
      | some v => simpa [fieldAt, hf, readField, lookup_cons, hne] using ih hmem

theorem Entry.toLine_eq :
    e.toLine = (Object.new.putAll (Entry.keys.filterMap (fieldAt e.scalar))).finish := by
  have hite : ∀ (o : Object) (k : Key) (c : Prop) [Decidable c] (v : Scalar),
      e.scalar k = (if c then none else some v) →
        putOpt e.scalar o k = if c then o else o.put k.text v := by
    intro o k c _ v h
    rw [putOpt, h]
    split_ifs <;> rfl
  have hrate : ∀ (o : Object) (k : Key) (r : Option ℕ), e.scalar k = r.map .uint →
      putOpt e.scalar o k = putRate o k r := by
    intro o k r h
    rw [putOpt, h]
    cases r <;> rfl
  rw [putAll_filterMap, Entry.toLine, Entry.keys]
  simp only [foldl_cons, foldl_nil]
  rw [hite _ .files _ _ rfl, hite _ .only _ _ rfl, hite _ .prefer _ _ rfl,
    hrate _ .maxUp _ rfl, hrate _ .maxDown _ rfl]
  rcases e with ⟨hash, source, out, ⟨files, only, prefer, sequential, up, down⟩, dormant⟩
  cases source <;> cases sequential <;> rcases dormant with _ | _ | _ <;> rfl

end

/-- The source that is read back: a path goes through its text. -/
def Source.reread : Source → Source
  | .magnet uri => .magnet uri
  | .file path => .file (.ofText path.toStringLossy)

/-- The patterns that are read back. -/
def rereadPatterns (patterns : List Text) : List Text := (Text.joinLines patterns).nonemptyLines

/-- The entry that is read back. -/
def Entry.reread (e : Entry) : Entry where
  infoHash := e.infoHash
  source := e.source.reread
  outDir := .ofText e.outDir.toStringLossy
  options := { e.options with
    only := rereadPatterns e.options.only
    prefer := rereadPatterns e.options.prefer }
  dormant := e.dormant

/-- The numbers of an entry are in the ranges that are read. -/
structure JobOptions.InRange (options : JobOptions) : Prop where
  files : ∀ i ∈ options.files, i < 2 ^ 64
  maxUp : ∀ r ∈ options.maxUp, 1 ≤ r ∧ r < 10 ^ 15
  maxDown : ∀ r ∈ options.maxDown, 1 ≤ r ∧ r < 10 ^ 15

theorem rateOf_bounds {v : Option Value} {r : ℕ} (h : rateOf v = some (some r)) :
    1 ≤ r ∧ r < 10 ^ 15 := by
  unfold rateOf at h
  split at h
  · cases h
  · cases h
  · rw [Option.ite_none_right_eq_some] at h
    obtain ⟨⟨hone, hwhole, hbelow⟩, heq⟩ := h
    cases heq
    exact asU64_bounds (by decide) hwhole hone hbelow
  · cases h

theorem rateOf_uint {r : ℕ} (hone : 1 ≤ r) (hlt : r < 10 ^ 15) :
    rateOf (some (Scalar.uint r).read) = some (some r) := by
  have hnearest : nearest r = .finite r := nearest_natCast (by omega)
  have hbelow : below (10 ^ 15 : ℕ) (.finite r) = true := by
    simp only [below, atLeast, Bool.not_eq_true', decide_eq_false_iff_not, not_le]
    exact_mod_cast hlt
  have hatLeast : atLeast 1 (.finite r) = true := by
    simp only [atLeast, decide_eq_true_eq]
    exact_mod_cast hone
  rw [Scalar.read, hnearest, rateOf, if_pos ⟨hatLeast, isWhole_natCast, hbelow⟩,
    asU64_natCast (by omega)]

theorem rateOf_map {rate : Option ℕ} (h : ∀ r ∈ rate, 1 ≤ r ∧ r < 10 ^ 15) :
    rateOf ((rate.map Scalar.uint).map Scalar.read) = some rate := by
  cases rate with
  | none => rfl
  | some r =>
    obtain ⟨hone, hlt⟩ := h r rfl
    exact rateOf_uint hone hlt

theorem textOf_list {α : Type} (key : Key) (l : List α) [Decidable (l = [])] (t : Text) :
    textOf key ((if l = [] then none else some (Scalar.string t)).map Scalar.read) =
      .ok (if l = [] then none else some t) := by
  split_ifs <;> rfl

section

variable {e : Entry} {fields : FieldMap}

theorem Entry.optionsOf_fields
    (hget : ∀ k ∈ Entry.keys, fields.get k = (e.scalar k).map Scalar.read)
    (h : e.options.InRange) :
    optionsOf fields = .ok e.reread.options := by
  have hfiles : Selection.parseIndices ((if e.options.files = [] then none
        else some (Selection.formatIndices e.options.files)).getD []) = .ok e.options.files := by
    split_ifs with hnil
    · rw [hnil]
      decide
    · exact Selection.parseIndices_formatIndices h.files
  have hlines : ∀ l : List Text,
      ((if l = [] then none else some (Text.joinLines l)).getD []).nonemptyLines =
        rereadPatterns l := by
    intro l
    split_ifs with hnil
    · rw [hnil]
      rfl
    · rfl
  have hflag : flagOf .sequential ((e.scalar .sequential).map Scalar.read) =
      .ok e.options.sequential := by
    cases hseq : e.options.sequential <;> simp [Entry.scalar, hseq, flagOf, Scalar.read]
  have hup : rateOf ((e.scalar .maxUp).map Scalar.read) = some e.options.maxUp := rateOf_map h.maxUp
  have hdown : rateOf ((e.scalar .maxDown).map Scalar.read) = some e.options.maxDown :=
    rateOf_map h.maxDown
  rw [optionsOf, hget .files (by decide), hget .only (by decide), hget .prefer (by decide),
    hget .sequential (by decide), hget .maxUp (by decide), hget .maxDown (by decide), hflag, hup,
    hdown]
  simp only [Entry.scalar, textOf_list, bind, Except.bind, hfiles, Except.mapError, orError, hlines]
  rfl

theorem Entry.ofFields_fields (hget : ∀ k ∈ Entry.keys, fields.get k = (e.scalar k).map Scalar.read)
    (h : e.options.InRange) :
    Entry.ofFields fields = .ok e.reread := by
  have hoptions := Entry.optionsOf_fields hget h
  rw [Entry.ofFields, hget .id (by decide), hget .out (by decide), hget .magnet (by decide),
    hget .file (by decide), hget .paused (by decide), hget .finished (by decide), hoptions]
  simp only [Entry.scalar, Option.map_some, Scalar.read, textOf, bind, Except.bind, orError,
    Text.parseHex_hex]
  rcases hsource : e.source with uri | path <;> rcases hdormant : e.dormant with _ | _ | reason <;>
    simp [flagOf, sourceOf, dormantOf, Scalar.read, pure, Except.pure, Entry.reread,
      Source.reread, hsource, hdormant]

theorem Entry.fromLine_toLine (h : e.options.InRange) : Entry.fromLine e.toLine = .ok e.reread := by
  have hkeys : (Entry.keys.map Key.text).Nodup := by decide
  rw [Entry.fromLine, Entry.toLine_eq, parseObject_finish (hkeys.sublist map_fst_filterMap_sublist)]
  exact Entry.ofFields_fields (fun k hk => lookup_filterMap hk) h

theorem Entry.not_mem_toLine : '\n' ∉ e.toLine := by
  rw [Entry.toLine_eq]
  intro hmem
  exact absurd (le_of_mem_finish hmem) (by decide)

theorem Entry.getLast?_toLine : e.toLine.getLast? = some '}' := by
  rw [Entry.toLine_eq, Object.finish, getLast?_concat]

theorem Entry.trim_toLine_ne_nil : e.toLine.trim ≠ [] :=
  Text.trim_ne_nil (mem_of_getLast? Entry.getLast?_toLine) (by decide)

variable {entries : List Entry}

theorem lines_entriesText : (entriesText entries).lines = entries.map Entry.toLine := by
  have hflat : entriesText entries =
      (entries.map Entry.toLine).flatMap fun line => line ++ ['\n'] := by
    rw [entriesText, flatMap_map]
  rw [hflat, Text.lines_flatMap]
  · intro line hline
    obtain ⟨e, -, rfl⟩ := mem_map.1 hline
    exact Entry.not_mem_toLine
  · intro line hline
    obtain ⟨e, -, rfl⟩ := mem_map.1 hline
    rw [Entry.getLast?_toLine]
    decide

theorem foldl_takeLine {read : List Entry} {n : ℕ} (hrange : ∀ e ∈ entries, e.options.InRange)
    (hdistinct : (read.map Entry.infoHash ++ entries.map Entry.infoHash).Nodup) :
    ((entries.map Entry.toLine).zipIdx n).foldl takeLine (read, []) =
      (read ++ entries.map Entry.reread, []) := by
  induction entries generalizing read n with
  | nil => simp
  | cons e entries ih =>
    have hnew : (read.any fun e' => e'.infoHash = e.reread.infoHash) = false := by
      rw [any_eq_false]
      intro e' he' heq
      have hmem : e.infoHash ∈ read.map Entry.infoHash := mem_map.2 ⟨e', he', of_decide_eq_true heq⟩
      exact (nodup_append'.1 hdistinct).2.2 hmem (by simp)
    have hstep : takeLine (read, []) (e.toLine, n) = (read ++ [e.reread], []) := by
      simp only [takeLine, Entry.fromLine_toLine (hrange e (by simp)), hnew, Bool.false_eq_true,
        if_false]
    have hdistinct' : ((read ++ [e.reread]).map Entry.infoHash ++
        entries.map Entry.infoHash).Nodup := by
      simpa [Entry.reread] using hdistinct
    rw [map_cons, zipIdx_cons, foldl_cons, hstep,
      ih (fun e he => hrange e (by simp [he])) hdistinct', append_assoc]
    rfl

theorem parseEntries_entriesText (hrange : ∀ e ∈ entries, e.options.InRange)
    (hdistinct : (entries.map Entry.infoHash).Nodup) :
    parseEntries (entriesText entries) = (entries.map Entry.reread, []) := by
  have hfilter : ((entries.map Entry.toLine).zipIdx.filter fun line => line.1.trim ≠ []) =
      (entries.map Entry.toLine).zipIdx := by
    refine filter_eq_self.2 fun line hline => ?_
    obtain ⟨e, -, heq⟩ := mem_map.1 (fst_mem_of_mem_zipIdx hline)
    simp [← heq, Entry.trim_toLine_ne_nil]
  rw [parseEntries, lines_entriesText, hfilter, foldl_takeLine hrange (by simpa using hdistinct)]
  rfl

end

end BitTorrent.Daemon
