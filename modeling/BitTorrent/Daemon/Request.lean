import BitTorrent.Daemon.State

/-!
# Requests

`parse_request` of `daemon/control.rs`: a line that a client sends, and what it asks for.
-/

namespace BitTorrent.Daemon

open Json

inductive Request
  | add (source : Text) (out : PathBuf) (options : JobOptions)
  | list
  | status (id : Text)
  | remove (id : Text)
  | pause (id : Text)
  | resume (id : Text)
  | shutdown
deriving DecidableEq

/-- Why a line is not a request. -/
inductive RequestError
  | notAnObject (e : JsonError)
  | needed (key : Key)
  | notPatterns (key : Key)
  | notARate (key : Key)
  | notABool (key : Key)
  | notFileNumbers
  | files (e : SelectionError)
  | noCommand (name : Text)
deriving DecidableEq

def asStr : Option Value → Option Text
  | some (.string s) => some s
  | _ => none

/-- `text`: a string that has to be there. -/
def neededText (key : Key) (v : Option Value) : Except RequestError Text :=
  orError (asStr v) (.needed key)

/-- `list`: patterns, one to a line. -/
def patternsOf (key : Key) : Option Value → Except RequestError (List Text)
  | none => .ok []
  | some .null => .ok []
  | some (.string s) => .ok s.nonemptyLines
  | some _ => .error (.notPatterns key)

/-- The file numbers of an `add`. -/
def filesOf : Option Value → Except RequestError (List ℕ)
  | none => .ok []
  | some .null => .ok []
  | some (.string s) => (Selection.parseIndices s).mapError .files
  | some _ => .error .notFileNumbers

/-- Whether an `add` is to fetch pieces in order. -/
def sequentialOf : Option Value → Except RequestError Bool
  | none => .ok false
  | some .null => .ok false
  | some (.bool b) => .ok b
  | some _ => .error (.notABool .sequential)

/-- An `add` request. -/
def parseAdd (fields : FieldMap) : Except RequestError Request := do
  let sequential ← sequentialOf (fields.get .sequential)
  let files ← filesOf (fields.get .files)
  let only ← patternsOf .only (fields.get .only)
  let prefer ← patternsOf .prefer (fields.get .prefer)
  let maxUp ← orError (rateOf (fields.get .maxUp)) (.notARate .maxUp)
  let maxDown ← orError (rateOf (fields.get .maxDown)) (.notARate .maxDown)
  let source ← neededText .source (fields.get .source)
  let out ← neededText .out (fields.get .out)
  return .add source (.ofText out) { files, only, prefer, sequential, maxUp, maxDown }

/-- A request that names a torrent. -/
def parseId (make : Text → Request) (fields : FieldMap) : Except RequestError Request :=
  (neededText .id (fields.get .id)).map make

def parseRequest (line : Text) : Except RequestError Request := do
  let fields : FieldMap ← (parseObject line).mapError RequestError.notAnObject
  let cmd ← neededText .cmd (fields.get .cmd)
  if cmd = ['a', 'd', 'd'] then parseAdd fields
  else if cmd = ['l', 'i', 's', 't'] then .ok .list
  else if cmd = ['s', 't', 'a', 't', 'u', 's'] then parseId .status fields
  else if cmd = ['r', 'e', 'm', 'o', 'v', 'e'] then parseId .remove fields
  else if cmd = ['p', 'a', 'u', 's', 'e'] then parseId .pause fields
  else if cmd = ['r', 'e', 's', 'u', 'm', 'e'] then parseId .resume fields
  else if cmd = ['s', 'h', 'u', 't', 'd', 'o', 'w', 'n'] then .ok .shutdown
  else .error (.noCommand cmd)

/-- Patterns as they are read off a text: lines with something on them. -/
def ArePatterns (patterns : List Text) : Prop := ∀ p ∈ patterns, p ≠ [] ∧ '\n' ∉ p

section

variable {v : Option Value} {key : Key} {patterns : List Text} {files : List ℕ}

theorem arePatterns_of_patternsOf (h : patternsOf key v = .ok patterns) : ArePatterns patterns := by
  unfold patternsOf at h
  split at h
  · cases h
    exact fun p hp => absurd hp List.not_mem_nil
  · cases h
    exact fun p hp => absurd hp List.not_mem_nil
  · cases h
    exact fun p hp =>
      ⟨Text.ne_nil_of_mem_nonemptyLines hp, Text.not_mem_of_mem_nonemptyLines hp⟩
  · cases h

theorem lt_of_filesOf (h : filesOf v = .ok files) : ∀ i ∈ files, i < 2 ^ 64 := by
  unfold filesOf at h
  split at h
  · cases h
    simp
  · cases h
    simp
  · next s =>
    cases hs : Selection.parseIndices s with
    | error e => simp [hs, Except.mapError] at h
    | ok indices =>
      rw [hs] at h
      cases h
      exact Selection.lt_of_parseIndices hs
  · cases h

theorem bounds_of_rate {rate : Option ℕ} {e : RequestError} (h : orError (rateOf v) e = .ok rate) :
    ∀ r ∈ rate, 1 ≤ r ∧ r < 10 ^ 15 := by
  intro r hr
  obtain rfl := Option.mem_def.1 hr
  unfold orError at h
  split at h
  · next hrate =>
    cases h
    exact rateOf_bounds hrate
  · cases h

end

/-- **What an accepted `add` carries.** -/
structure Request.Sound (out : PathBuf) (options : JobOptions) : Prop where
  out : IsUtf8 out
  inRange : options.InRange
  only : ArePatterns options.only
  prefer : ArePatterns options.prefer

variable {options : JobOptions} {source : Text} {out : PathBuf} {fields : FieldMap}

theorem sound_of_parseAdd (h : parseAdd fields = .ok (.add source out options)) :
    Request.Sound out options := by
  simp only [parseAdd, bind_eq_ok_iff, pure, Except.pure, Except.ok.injEq] at h
  obtain ⟨sequential, -, files, hfiles, only, honly, prefer, hprefer, maxUp, hup, maxDown, hdown,
    source', -, out', -, heq⟩ := h
  cases heq
  exact ⟨⟨out', rfl⟩, ⟨lt_of_filesOf hfiles, bounds_of_rate hup, bounds_of_rate hdown⟩,
    arePatterns_of_patternsOf honly, arePatterns_of_patternsOf hprefer⟩

theorem ne_add_of_parseId {make : Text → Request}
    (hmake : ∀ id, make id ≠ .add source out options) :
    parseId make fields ≠ .ok (.add source out options) := by
  intro h
  unfold parseId at h
  cases hid : neededText .id (fields.get .id) with
  | error e => simp [hid, Except.map] at h
  | ok id =>
    rw [hid] at h
    exact hmake id (Except.ok.inj h)

theorem sound_of_parseRequest {line : Text}
    (h : parseRequest line = .ok (.add source out options)) : Request.Sound out options := by
  rw [parseRequest, bind_eq_ok_iff] at h
  obtain ⟨fields, -, h⟩ := h
  rw [bind_eq_ok_iff] at h
  obtain ⟨cmd, -, h⟩ := h
  split_ifs at h
  · exact sound_of_parseAdd h
  · cases h
  · exact absurd h (ne_add_of_parseId fun _ => Request.noConfusion)
  · exact absurd h (ne_add_of_parseId fun _ => Request.noConfusion)
  · exact absurd h (ne_add_of_parseId fun _ => Request.noConfusion)
  · exact absurd h (ne_add_of_parseId fun _ => Request.noConfusion)
  · cases h

end BitTorrent.Daemon
