import BitTorrent.Daemon.Request

/-!
# The manager

`Manager` of `daemon/manager.rs`: the jobs, the entries that are remembered, the entries file and
the copies of `.torrent` files.
-/

namespace BitTorrent.Daemon

inductive JobState
  | resolving
  | checking
  | downloading
  | seeding
  | finished (reason : Text)
  | failed (reason : Text)
  | stopped
  | paused
deriving DecidableEq

def JobState.isOver : JobState → Bool
  | finished _ => true
  | failed _ => true
  | stopped => true
  | paused => true
  | _ => false

/-- The state of a job whose thread is over. -/
abbrev Ended := { state : JobState // state.isOver = true }

def Dormant.state : Dormant → JobState
  | .paused => .paused
  | .finished reason => .finished reason

/-- `Arc<Job>`, with what of its `JobSpec` the manager reads. -/
structure Job where
  ptr : ℕ
  infoHash : Hash20
  source : Source
  outDir : PathBuf
  options : JobOptions
deriving DecidableEq

structure JobStatus where
  infoHash : Hash20
  state : JobState
  outDir : PathBuf
deriving DecidableEq

/-- Why a call fails. -/
inductive ManagerError
  | outNotAbsolute
  | magnet (e : MagnetError)
  | sourceNotAbsolute
  | reading
  | parsing (e : TorrentError)
  | selection (e : SelectionError)
  | keeping
  | alreadyAdded (infoHash : Hash20)
  | saving
  | idTooShort (id : Text)
  | noTorrent (id : Text)
  | ambiguous (id : Text)
  | pausedAlready
  | running
  | wasRemoved
deriving DecidableEq

/-- `Manager`, with the part of the disk that it writes: the entries file,
if it is there, and the copy that is kept of each torrent. -/
structure Manager where
  store : Option PathBuf
  jobs : List Job := []
  entries : List Entry := []
  file : Option Text := none
  copies : Hash20 → Option (List UInt8) := fun _ => none
  /-- The state of each job there has been, by its address. -/
  states : ℕ → JobState := fun _ => .stopped
  /-- How many jobs there have been. -/
  made : ℕ := 0

/-- What becomes of `fs::write`: it is done, or the file is not opened, or
what is written ends early. -/
inductive Write
  | done
  | refused
  | cut (written : ℕ)
deriving DecidableEq

/-- What a write leaves in the place of what was there. -/
def Write.leaves (w : Write) (bytes : List UInt8) (before : Option (List UInt8)) :
    Option (List UInt8) :=
  match w with
  | done => some bytes
  | refused => before
  | cut written => some (bytes.take written)

def minIdLen : ℕ := 4

/-- `find`. -/
def findJob (jobs : List Job) (id : Text) : Except ManagerError ℕ :=
  let id := id.trim.lower
  if id.encode.length < minIdLen then .error (.idTooShort id)
  else
    match (List.range jobs.length).filter fun i =>
        jobs[i]?.any fun job => id.isPrefixOf (Text.hex job.infoHash) with
    | [one] => .ok one
    | [] => .error (.noTorrent id)
    | _ => .error (.ambiguous id)

namespace Manager

variable (m : Manager)

def status (job : Job) : JobStatus := ⟨job.infoHash, m.states job.ptr, job.outDir⟩

/-- `job_for`: a new job, which runs unless the entry is set aside. -/
def jobFor (entry : Entry) : Job × Manager :=
  (⟨m.made, entry.infoHash, entry.source, entry.outDir, entry.options⟩,
    { m with
      made := m.made + 1
      states := Function.update m.states m.made
        (match entry.dormant with
          | some dormant => dormant.state
          | none => .checking) })

/-- Whether `save` succeeds: without a store there is nothing to do. -/
def canSave (saved : Bool) : Bool := m.store.isNone || saved

/-- The entries as `save` leaves them on the disk. -/
def written : Manager :=
  { m with file := if m.store.isSome then some (entriesText m.entries) else m.file }

def save (saved : Bool) : Option Manager :=
  if m.canSave saved then some m.written else none

/-- `stop`: a job that is not over ends, in a state that is its thread's
to choose. -/
def stop (job : Job) (ended : Ended) : Manager :=
  if (m.states job.ptr).isOver then m
  else { m with states := Function.update m.states job.ptr ended.1 }

/-- `"torrents"`. -/
def torrentsDir : Text := ['t', 'o', 'r', 'r', 'e', 'n', 't', 's']

/-- `".torrent"`. -/
def torrentSuffix : Text := ['.', 't', 'o', 'r', 'r', 'e', 'n', 't']

def torrentPath (dir : PathBuf) (infoHash : Hash20) : PathBuf :=
  (dir.join (.ofText torrentsDir)).join (.ofText (Text.hex infoHash ++ torrentSuffix))

/-- What `add` has made of its source before it changes anything: the
entry, and the bytes to keep a copy of. -/
structure Prepared where
  entry : Entry
  copy : Option (List UInt8)
deriving DecidableEq

/-- `add`, of a magnet link. The numbers of a link's `so` count from zero;
the addition wraps. -/
def prepareMagnet (source : Text) (out : PathBuf) (options : JobOptions) :
    Except ManagerError Prepared := do
  let link ← (Magnet.parseMagnetUri source).mapError .magnet
  let options := if options.files = [] ∧ options.only = [] then
    { options with files := link.selectOnly.map fun index => (index + 1) % 2 ^ 64 } else options
  return ⟨⟨link.infoHash, .magnet source, out, options, none⟩, none⟩

/-- How the disk answers a call: what `fs::read` gives, what becomes of
the copy, and whether the entries file is saved. -/
structure Disk where
  read : PathBuf → Option Slice
  copied : Write
  saved : Bool

section

variable [Digests] [Lowercase]

/-- `add`, of the bytes of a `.torrent` file. -/
def prepareTorrent (path : PathBuf) (bytes : Slice) (out : PathBuf)
    (options : JobOptions) : Except ManagerError Prepared := do
  let torrent ← (parseTorrentFile bytes).mapError ManagerError.parsing
  let _ ← (Selection.buildMaskFor torrent options.files options.only).mapError .selection
  let _ ← (if options.prefer = [] then .ok []
    else (Selection.buildPreferMaskFor torrent options.prefer).mapError ManagerError.selection)
  match m.store with
  | some dir =>
    return ⟨⟨torrent.infoHash, .file (torrentPath dir torrent.infoHash), out, options, none⟩,
      some bytes.1⟩
  | none => return ⟨⟨torrent.infoHash, .file path, out, options, none⟩, none⟩

/-- `add`, up to the copy. -/
def prepare (disk : Disk) (source : Text) (out : PathBuf) (options : JobOptions) :
    Except ManagerError Prepared :=
  if !out.isAbsolute then .error .outNotAbsolute
  else if Magnet.scheme.isPrefixOf source then prepareMagnet source out options
  else
    let path := PathBuf.ofText source
    if !path.isAbsolute then .error .sourceNotAbsolute
    else do
      let bytes ← orError (disk.read path) .reading
      m.prepareTorrent path bytes out options

end

/-- What is kept of a torrent from now on. -/
def setCopy (infoHash : Hash20) (bytes : Option (List UInt8)) : Manager :=
  { m with copies := Function.update m.copies infoHash bytes }

/-- The copy that `add` keeps, and whether it was written. -/
def keep (copied : Write) (p : Prepared) : Bool × Manager :=
  match p.copy with
  | none => (true, m)
  | some bytes =>
    (copied == .done,
      m.setCopy p.entry.infoHash (copied.leaves bytes (m.copies p.entry.infoHash)))

/-- Whether there is a job for a hash. -/
def hasJob (infoHash : Hash20) : Bool :=
  m.jobs.any fun job => job.infoHash = infoHash

/-- `job_for` and `entries.push`. -/
def pushEntry (entry : Entry) : Manager :=
  { (m.jobFor entry).2 with entries := m.entries ++ [entry] }

/-- The critical section of `add`, under the lock of the jobs. -/
def addLocked (entry : Entry) (saved : Bool) :
    Except ManagerError JobStatus × Manager :=
  if m.hasJob entry.infoHash then (.error (.alreadyAdded entry.infoHash), m)
  else
    let job := (m.jobFor entry).1
    match (m.pushEntry entry).save saved with
    | none => (.error .saving, m.pushEntry entry)
    | some saved => (.ok (saved.status job), { saved with jobs := saved.jobs ++ [job] })

def add [Digests] [Lowercase] (disk : Disk) (source : Text) (out : PathBuf)
    (options : JobOptions) : Except ManagerError JobStatus × Manager :=
  match m.prepare disk source out options with
  | .error e => (.error e, m)
  | .ok p =>
    if (m.keep disk.copied p).1 then (m.keep disk.copied p).2.addLocked p.entry disk.saved
    else (.error .keeping, (m.keep disk.copied p).2)

/-- `jobs.remove`. -/
def takeJob (index : ℕ) : Manager := { m with jobs := m.jobs.eraseIdx index }

/-- The first section of `remove`, under the lock of the jobs. -/
def removeTake (id : Text) : Except ManagerError Job × Manager :=
  match findJob m.jobs id with
  | .error e => (.error e, m)
  | .ok index =>
    match m.jobs[index]? with
    | none => (.error (.noTorrent id), m)
    | some job => (.ok job, m.takeJob index)

/-- `entries.retain`. -/
def forget (infoHash : Hash20) : Manager :=
  { m with entries := m.entries.filter fun entry => entry.infoHash ≠ infoHash }

/-- Its second section, under the lock of the entries, and whether the
entries were saved. -/
def removeForget (job : Job) (saved : Bool) : Bool × Manager :=
  match (m.forget job.infoHash).save saved with
  | none => (false, m.forget job.infoHash)
  | some saved => (true, saved)

/-- The rest of it, with no lock held: the job ends and the copy goes. That
the copy could not be deleted is not noticed, and left out. -/
def removeEnd (job : Job) (ended : Ended) : JobStatus × Manager :=
  let stopped := m.stop job ended
  (stopped.status job,
    if m.store.isSome then stopped.setCopy job.infoHash none else stopped)

def remove (id : Text) (saved : Bool) (ended : Ended) :
    Except ManagerError JobStatus × Manager :=
  match (m.removeTake id).1 with
  | .error e => (.error e, (m.removeTake id).2)
  | .ok job =>
    let forgotten := (m.removeTake id).2.removeForget job saved
    if forgotten.1 then
      (.ok (forgotten.2.removeEnd job ended).1, (forgotten.2.removeEnd job ended).2)
    else (.error .saving, forgotten.2)

/-- The first section of `pause` and of `resume`: the job, unless it is
paused already or is running. -/
def lookUp (id : Text) (dormant : Option Dormant) : Except ManagerError Job := do
  let index ← findJob m.jobs id
  let job ← orError m.jobs[index]? (.noTorrent id)
  if dormant.isSome then
    if m.states job.ptr = .paused then .error .pausedAlready else .ok job
  else if (m.states job.ptr).isOver then .ok job
  else .error .running

/-- An entry put in the place of another, and `job_for`. -/
def setEntry (index : ℕ) (entry : Entry) : Manager :=
  { (m.jobFor entry).2 with entries := m.entries.set index entry }

/-- `replace`, under both locks. -/
def replace (old : Job) (dormant : Option Dormant) (saved : Bool) :
    Except ManagerError JobStatus × Manager :=
  match m.jobs.findIdx? fun job => job.ptr = old.ptr,
      m.entries.findIdx? fun entry => entry.infoHash = old.infoHash with
  | some place, some index =>
    match m.entries[index]? with
    | none => (.error .wasRemoved, m)
    | some entry =>
      let job := (m.jobFor { entry with dormant }).1
      match (m.setEntry index { entry with dormant }).save saved with
      | none => (.error .saving, m.setEntry index { entry with dormant })
      | some saved => (.ok (saved.status job), { saved with jobs := saved.jobs.set place job })
  | _, _ => (.error .wasRemoved, m)

/-- `pause` and `resume`, by what is to be remembered. -/
def setDormant (id : Text) (dormant : Option Dormant) (saved : Bool)
    (ended : Ended) : Except ManagerError JobStatus × Manager :=
  match m.lookUp id dormant with
  | .error e => (.error e, m)
  | .ok job => (m.stop job ended).replace job dormant saved

def pause (id : Text) (saved : Bool) (ended : Ended) :
    Except ManagerError JobStatus × Manager :=
  m.setDormant id (some .paused) saved ended

def resume (id : Text) (saved : Bool) (ended : Ended) :
    Except ManagerError JobStatus × Manager :=
  m.setDormant id none saved ended

/-- `resolved`, before the lock: the torrent is kept. -/
def resolvedKeep (infoHash : Hash20) (bytes : List UInt8) : Manager :=
  m.setCopy infoHash (some bytes)

/-- Entries with the first one of a kind changed, and saved if that goes
well. -/
def amend (which : Entry → Bool) (change : Entry → Entry) (saved : Bool) : Manager :=
  match m.entries.findIdx? which with
  | none => m
  | some index =>
    let changed := { m with entries := m.entries.modify index change }
    (changed.save saved).getD changed

/-- Whether an entry has a hash and is remembered as a link. -/
def isMagnetOf (infoHash : Hash20) (entry : Entry) : Bool :=
  match entry.source with
  | .magnet _ => decide (entry.infoHash = infoHash)
  | .file _ => false

/-- `resolved`, under the lock of the entries. -/
def resolved (infoHash : Hash20) (saved : Bool) : Manager :=
  match m.store with
  | none => m
  | some dir =>
    m.amend (isMagnetOf infoHash)
      (fun entry => { entry with source := .file (torrentPath dir infoHash) }) saved

def finished (infoHash : Hash20) (reason : Text) (saved : Bool) : Manager :=
  m.amend (fun entry => entry.infoHash = infoHash)
    (fun entry => { entry with dormant := some (.finished reason) }) saved

section

variable {m} {entry : Entry} {saved : Bool} {job old : Job} {id : Text}
  {dormant : Option Dormant} {infoHash : Hash20}

@[simp] theorem copies_setCopy {bytes : Option (List UInt8)} :
    (m.setCopy infoHash bytes).copies = Function.update m.copies infoHash bytes := rfl

/-! `stop` changes the state of a job and nothing else. -/

variable {ended : Ended}

theorem stop_eq : ∃ states, m.stop job ended = { m with states } := by
  unfold stop
  split_ifs <;> exact ⟨_, rfl⟩

@[simp] theorem jobs_stop : (m.stop job ended).jobs = m.jobs := stop_eq.elim fun _ h => h ▸ rfl

@[simp] theorem entries_stop : (m.stop job ended).entries = m.entries :=
  stop_eq.elim fun _ h => h ▸ rfl

@[simp] theorem copies_stop : (m.stop job ended).copies = m.copies :=
  stop_eq.elim fun _ h => h ▸ rfl

@[simp] theorem store_stop : (m.stop job ended).store = m.store := stop_eq.elim fun _ h => h ▸ rfl

@[simp] theorem made_stop : (m.stop job ended).made = m.made := stop_eq.elim fun _ h => h ▸ rfl

theorem hasJob_iff : m.hasJob infoHash = true ↔ infoHash ∈ m.jobs.map Job.infoHash := by
  simp [hasJob]

theorem addLocked_of_hasJob (h : m.hasJob entry.infoHash = true) :
    m.addLocked entry saved = (.error (.alreadyAdded entry.infoHash), m) := by
  rw [addLocked, if_pos h]

theorem addLocked_of_new (h : m.hasJob entry.infoHash = false) : m.addLocked entry saved =
      if m.canSave saved then
        (.ok ((m.pushEntry entry).written.status (m.jobFor entry).1),
          { (m.pushEntry entry).written with jobs := m.jobs ++ [(m.jobFor entry).1] })
      else (.error .saving, m.pushEntry entry) := by
  have hsave : (m.pushEntry entry).canSave saved = m.canSave saved := rfl
  simp only [addLocked, h, Bool.false_eq_true, if_false, save, hsave]
  split_ifs <;> rfl

theorem lt_of_findJob {jobs : List Job} {i : ℕ} (h : findJob jobs id = .ok i) :
    i < jobs.length := by
  unfold findJob at h
  dsimp only at h
  split_ifs at h
  split at h
  · next heq =>
    cases h
    have hmem : i ∈ (List.range jobs.length).filter fun i => jobs[i]?.any fun job =>
        id.trim.lower.isPrefixOf (Text.hex job.infoHash) := by
      rw [heq]
      exact List.mem_singleton_self i
    exact List.mem_range.1 (List.mem_of_mem_filter hmem)
  · cases h
  · cases h

theorem removeTake_cases : (∃ e, findJob m.jobs id = .error e ∧ m.removeTake id = (.error e, m)) ∨
    ∃ i job, findJob m.jobs id = .ok i ∧ m.jobs[i]? = some job ∧
      m.removeTake id = (.ok job, m.takeJob i) := by
  cases hfind : findJob m.jobs id with
  | error e => exact .inl ⟨e, rfl, by simp only [removeTake, hfind]⟩
  | ok i =>
    obtain ⟨job, hjob⟩ : ∃ job, m.jobs[i]? = some job :=
      ⟨_, List.getElem?_eq_getElem (lt_of_findJob hfind)⟩
    exact .inr ⟨i, job, rfl, hjob, by simp only [removeTake, hfind, hjob]⟩

theorem removeForget_eq : m.removeForget job saved = if m.canSave saved then
    (true, (m.forget job.infoHash).written) else (false, m.forget job.infoHash) := by
  have hsave : (m.forget job.infoHash).canSave saved = m.canSave saved := rfl
  simp only [removeForget, save, hsave]
  split_ifs <;> rfl

theorem mem_of_lookUp (h : m.lookUp id dormant = .ok job) : job ∈ m.jobs := by
  simp only [lookUp, bind_eq_ok_iff] at h
  obtain ⟨i, -, found, hfound, h⟩ := h
  have heq : found = job := by
    split_ifs at h <;> exact Except.ok.inj h
  cases hget : m.jobs[i]? with
  | none => simp [hget, orError] at hfound
  | some j =>
    obtain rfl : j = found := by simpa [hget, orError] using hfound
    exact heq ▸ List.mem_of_getElem? hget

theorem replace_of_removed (h : (m.jobs.findIdx? fun job => job.ptr = old.ptr) = none ∨
      (m.entries.findIdx? fun entry => entry.infoHash = old.infoHash) = none) :
    m.replace old dormant saved = (.error .wasRemoved, m) := by
  rw [replace]
  rcases h with h | h
  · rw [h]
  · rw [h]
    cases m.jobs.findIdx? fun job => job.ptr = old.ptr <;> rfl

theorem replace_of_found {place index : ℕ}
    (hplace : (m.jobs.findIdx? fun job => job.ptr = old.ptr) = some place)
    (hindex : (m.entries.findIdx? fun entry => entry.infoHash = old.infoHash) = some index)
    (hentry : m.entries[index]? = some entry) :
    m.replace old dormant saved = if m.canSave saved then
        (.ok ((m.setEntry index { entry with dormant }).written.status
            (m.jobFor { entry with dormant }).1),
          { (m.setEntry index { entry with dormant }).written with
            jobs := m.jobs.set place (m.jobFor { entry with dormant }).1 })
      else (.error .saving, m.setEntry index { entry with dormant }) := by
  have hsave : (m.setEntry index { entry with dormant }).canSave saved = m.canSave saved := rfl
  rw [replace, hplace, hindex]
  simp only [hentry, save, hsave]
  split_ifs <;> rfl

end

/-- A torrent file of one byte, after the `d` that opens it. -/
def oneByteInfo : List UInt8 :=
  ascii "4:infod6:lengthi1e4:name1:a12:piece lengthi16384e6:pieces20:" ++ List.replicate 20 0 ++
    ascii "ee"

/-- The file, and the same torrent with a tracker. -/
def oneByte : Slice := ⟨100 :: oneByteInfo, by decide +kernel⟩

def oneByteTracked : Slice :=
  ⟨ascii "d8:announce1:x" ++ oneByteInfo, by decide +kernel⟩

/-- A link to the torrent whose hash is all zeros, the entry it makes, and
the start of the hash. -/
def zeroLink : Text := Magnet.scheme ++ ['x', 't', '='] ++ Magnet.urnBtih ++ List.replicate 40 '0'

def zeroEntry : Entry := ⟨.replicate 20 0, .magnet zeroLink, [47, 100], {}, none⟩

def zeroId : Text := ['0', '0', '0', '0']

/-- A disk that has a torrent file under every name, one that takes no
entries, and one that has no files. -/
def goodDisk (bytes : Slice) : Disk := ⟨fun _ => some bytes, .done, true⟩

def fullDisk (bytes : Slice) : Disk := ⟨fun _ => some bytes, .done, false⟩

def bareDisk : Disk := ⟨fun _ => none, .done, true⟩

/-- A new manager with the store `/s`. -/
def noTorrents : Manager := { store := some [47, 115] }

end Manager

end BitTorrent.Daemon
