import BitTorrent.Daemon.Manager

/-!
# Calls that fail

A call of the manager changes several places before the last step that can fail, and does not
change them back.
-/

namespace BitTorrent.Daemon

open List

namespace Manager

/-- A job of this address is running. -/
def Running (m : Manager) (ptr : ℕ) : Prop := ptr < m.made ∧ (m.states ptr).isOver = false

/-- **Nothing has changed**, of what a failed call should leave alone. -/
structure Unchanged (m m' : Manager) : Prop where
  jobs : m'.jobs = m.jobs
  entries : m'.entries = m.entries
  running : ∀ ptr, m'.Running ptr ↔ m.Running ptr
  copies : m'.copies = m.copies

/-- A call of the manager. -/
inductive Call
  | add (source : Text) (out : PathBuf) (options : JobOptions)
  | remove (id : Text)
  | pause (id : Text)
  | resume (id : Text)

/-- A call run alone. -/
def call [Digests] [Lowercase] (m : Manager) (disk : Disk) (ended : Ended) :
    Call → Except ManagerError JobStatus × Manager
  | .add source out options => m.add disk source out options
  | .remove id => m.remove id disk.saved ended
  | .pause id => m.pause id disk.saved ended
  | .resume id => m.resume id disk.saved ended

/-- **A failure changes nothing.** -/
def FailsCleanly (m : Manager) (result : Except ManagerError JobStatus × Manager) : Prop :=
  ∀ e, result.1 = .error e → m.Unchanged result.2

/-- What `add` is given is safe: where a copy is written, either the write
leaves what was kept before, or it is whole and the torrent is new; and
where the torrent is new and its copy is there, the entries can be
saved. -/
structure AddSafe (m : Manager) (disk : Disk) (p : Prepared) : Prop where
  copy : ∀ bytes, p.copy = some bytes →
    disk.copied.leaves bytes (m.copies p.entry.infoHash) = m.copies p.entry.infoHash ∨
      (disk.copied = .done ∧ m.hasJob p.entry.infoHash = false)
  save : p.copy = none ∨ disk.copied = .done → m.hasJob p.entry.infoHash = false →
    m.canSave disk.saved = true

/-- What `pause` or `resume` is given is safe: with an entry for the job,
the entries can be saved, or it is a pause of what is over and remembered
as paused; with none, the job is over. -/
def DormantSafe (m : Manager) (disk : Disk) (job : Job) (dormant : Option Dormant) : Prop :=
  match m.entries.find? fun entry => entry.infoHash = job.infoHash with
  | some entry => m.canSave disk.saved = true ∨
      (dormant ≠ none ∧ entry.dormant = dormant ∧ ¬m.Running job.ptr)
  | none => ¬m.Running job.ptr

/-- **A call is safe** in a state, as the disk will answer it. -/
def Call.Safe [Digests] [Lowercase] (m : Manager) (disk : Disk) : Call → Prop
  | .add source out options =>
    ∀ p, m.prepare disk source out options = .ok p → m.AddSafe disk p
  | .remove id => ∀ index, findJob m.jobs id = .ok index → m.canSave disk.saved = true
  | .pause id =>
    ∀ job, m.lookUp id (some .paused) = .ok job → m.DormantSafe disk job (some .paused)
  | .resume id => ∀ job, m.lookUp id none = .ok job → m.DormantSafe disk job none

section

variable {m m' : Manager} {disk : Disk} {ended : Ended} {id : Text} {e : ManagerError}
  {status : JobStatus}

theorem Unchanged.refl : m.Unchanged m := ⟨rfl, rfl, fun _ => Iff.rfl, rfl⟩

theorem failsCleanly_ok : m.FailsCleanly (.ok status, m') := nofun

theorem failsCleanly_error_iff : m.FailsCleanly (.error e, m') ↔ m.Unchanged m' :=
  ⟨fun h => h e rfl, fun h _ _ => h⟩

variable {copied : Write} {p : Prepared}

theorem unchanged_keep_iff : m.Unchanged (m.keep copied p).2 ↔ ∀ bytes, p.copy = some bytes →
      copied.leaves bytes (m.copies p.entry.infoHash) = m.copies p.entry.infoHash := by
  cases hcopy : p.copy with
  | none => simp [keep, hcopy, Unchanged.refl]
  | some bytes =>
    simp only [keep, hcopy, Option.some.injEq, forall_eq']
    constructor
    · intro h
      have hcopies := congrFun h.copies p.entry.infoHash
      rwa [copies_setCopy, Function.update_self] at hcopies
    · intro h
      refine ⟨rfl, rfl, fun _ => Iff.rfl, ?_⟩
      rw [copies_setCopy, h, Function.update_eq_self]

theorem keep_fst_iff : (m.keep copied p).1 = true ↔ p.copy = none ∨ copied = .done := by
  cases hcopy : p.copy with
  | none | some => simp [keep, hcopy]

theorem hasJob_keep {infoHash : Hash20} :
    (m.keep copied p).2.hasJob infoHash = m.hasJob infoHash := by
  cases hcopy : p.copy <;> simp [keep, hcopy, hasJob, setCopy]

theorem canSave_keep {saved : Bool} : (m.keep copied p).2.canSave saved = m.canSave saved := by
  cases hcopy : p.copy <;> simp [keep, hcopy, canSave, setCopy]

variable {entry : Entry}

theorem not_unchanged_pushEntry : ¬m.Unchanged ((m.keep copied p).2.pushEntry entry) := by
  intro h
  have hentries : (m.keep copied p).2.entries = m.entries := by
    cases hcopy : p.copy <;> simp [keep, hcopy, setCopy]
  have hlen := congrArg length h.entries
  simp only [pushEntry, hentries, length_append, length_singleton] at hlen
  omega

theorem failsCleanly_add_iff [Digests] [Lowercase] {source : Text} {out : PathBuf}
    {options : JobOptions} :
    m.FailsCleanly (m.add disk source out options) ↔
      ∀ p, m.prepare disk source out options = .ok p → m.AddSafe disk p := by
  rw [add]
  cases hp : m.prepare disk source out options with
  | error e => simp [failsCleanly_error_iff, Unchanged.refl]
  | ok p =>
    simp only [Except.ok.injEq, forall_eq']
    by_cases hkeep : (m.keep disk.copied p).1 = true
    · rw [if_pos hkeep]
      rw [keep_fst_iff] at hkeep
      by_cases hjob : m.hasJob p.entry.infoHash = true
      · rw [addLocked_of_hasJob (hasJob_keep.trans hjob), failsCleanly_error_iff,
          unchanged_keep_iff]
        constructor
        · exact fun h => ⟨fun bytes hbytes => .inl (h bytes hbytes), by simp [hjob]⟩
        · intro h bytes hbytes
          exact (h.copy bytes hbytes).resolve_right (by simp [hjob])
      · rw [Bool.not_eq_true] at hjob
        rw [addLocked_of_new (hasJob_keep.trans hjob), canSave_keep]
        split_ifs with hsave
        · refine iff_of_true failsCleanly_ok ⟨fun bytes hbytes => .inr ⟨?_, hjob⟩, fun _ _ => hsave⟩
          exact hkeep.resolve_left (by simp [hbytes])
        · rw [failsCleanly_error_iff]
          exact iff_of_false not_unchanged_pushEntry fun h => hsave (h.save hkeep hjob)
    · rw [if_neg hkeep, failsCleanly_error_iff, unchanged_keep_iff]
      rw [keep_fst_iff, not_or] at hkeep
      constructor
      · exact fun h => ⟨fun bytes hbytes => .inl (h bytes hbytes), fun hor => by tauto⟩
      · intro h bytes hbytes
        exact (h.copy bytes hbytes).resolve_right fun hdone => hkeep.2 hdone.1

theorem failsCleanly_remove_iff : m.FailsCleanly (m.remove id disk.saved ended) ↔
      ∀ index, findJob m.jobs id = .ok index → m.canSave disk.saved = true := by
  rcases @removeTake_cases m id with ⟨e, hfind, htake⟩ | ⟨index, job, hfind, hjob, htake⟩
  · simp [remove, htake, hfind, failsCleanly_error_iff, Unchanged.refl]
  · simp only [hfind, Except.ok.injEq, forall_eq', remove, htake]
    rw [removeForget_eq]
    by_cases hsave : (m.takeJob index).canSave disk.saved = true
    · rw [if_pos hsave]
      exact iff_of_true failsCleanly_ok hsave
    · rw [if_neg hsave]
      refine iff_of_false (fun h => ?_) hsave
      have hlen := congrArg length (failsCleanly_error_iff.1 h).jobs
      have hlt := (List.getElem?_eq_some_iff.1 hjob).1
      simp only [forget, takeJob, length_eraseIdx_of_lt hlt] at hlen
      omega

variable {job : Job}

theorem running_stop_iff {ptr : ℕ} :
    (m.stop job ended).Running ptr ↔ m.Running ptr ∧ ptr ≠ job.ptr := by
  unfold stop Running
  split_ifs with hover
  · refine ⟨fun h => ⟨h, ?_⟩, And.left⟩
    rintro rfl
    rw [h.2] at hover
    cases hover
  · rcases eq_or_ne ptr job.ptr with rfl | hne
    · simp [ended.2]
    · simp [hne]

theorem running_setEntry_iff {index ptr : ℕ} : (m.setEntry index entry).Running ptr ↔
      m.Running ptr ∨ (ptr = m.made ∧ entry.dormant = none) := by
  have hstates : (m.setEntry index entry).states = (m.jobFor entry).2.states := rfl
  have hmade : (m.setEntry index entry).made = m.made + 1 := rfl
  rw [Running, Running, hstates, hmade, jobFor]
  rcases eq_or_ne ptr m.made with rfl | hne
  · cases hdormant : entry.dormant with
    | none => simp [JobState.isOver]
    | some dormant => cases dormant <;> simp [Dormant.state, JobState.isOver]
  · simp only [Function.update_of_ne hne, hne, false_and, or_false]
    constructor <;> exact fun h => ⟨by omega, h.2⟩

theorem unchanged_stop_iff : m.Unchanged (m.stop job ended) ↔ ¬m.Running job.ptr := by
  constructor
  · intro h hrun
    exact (running_stop_iff.1 ((h.running job.ptr).2 hrun)).2 rfl
  · intro hrun
    refine ⟨jobs_stop, entries_stop, fun ptr => running_stop_iff.trans ⟨And.left, fun h => ⟨h, ?_⟩⟩,
      copies_stop⟩
    rintro rfl
    exact hrun h

variable {dormant : Option Dormant}

theorem unchanged_setEntry_iff {index : ℕ} (hentry : m.entries[index]? = some entry) :
    m.Unchanged ((m.stop job ended).setEntry index { entry with dormant }) ↔
      dormant ≠ none ∧ entry.dormant = dormant ∧ ¬m.Running job.ptr := by
  have hstop : ∀ ptr, ((m.stop job ended).setEntry index { entry with dormant }).Running ptr ↔
      (m.Running ptr ∧ ptr ≠ job.ptr) ∨ (ptr = m.made ∧ dormant = none) := by
    intro ptr
    rw [running_setEntry_iff, running_stop_iff, made_stop]
  have hentries : ((m.stop job ended).setEntry index { entry with dormant }).entries =
      m.entries.set index { entry with dormant } := by
    rw [setEntry, entries_stop]
  constructor
  · intro h
    refine ⟨?_, ?_, ?_⟩
    · rintro rfl
      have hnew := (h.running m.made).1 ((hstop m.made).2 (.inr ⟨rfl, rfl⟩))
      exact absurd hnew.1 (lt_irrefl _)
    · have hset : (m.entries.set index { entry with dormant })[index]? = m.entries[index]? := by
        rw [← hentries, h.entries]
      rw [getElem?_set_self (List.getElem?_eq_some_iff.1 hentry).1, hentry,
        Option.some.injEq] at hset
      exact (congrArg Entry.dormant hset).symm
    · intro hrun
      rcases (hstop job.ptr).1 ((h.running job.ptr).2 hrun) with hne | hnew
      · exact hne.2 rfl
      · rw [hnew.1] at hrun
        exact absurd hrun.1 (lt_irrefl _)
  · rintro ⟨hsome, rfl, hrun⟩
    refine ⟨jobs_stop, ?_, fun ptr => (hstop ptr).trans ?_, copies_stop⟩
    · obtain ⟨hlt, heq⟩ := List.getElem?_eq_some_iff.1 hentry
      have hset : m.entries.set index entry = m.entries := by
        rw [← heq, set_getElem_self]
      exact hentries.trans hset
    · constructor
      · rintro (h | h)
        · exact h.1
        · exact absurd h.2 hsome
      · intro h
        refine .inl ⟨h, ?_⟩
        rintro rfl
        exact hrun h

theorem failsCleanly_replace_iff (hjob : job ∈ m.jobs) :
    m.FailsCleanly ((m.stop job ended).replace job dormant disk.saved) ↔
      m.DormantSafe disk job dormant := by
  have hentries : (m.stop job ended).entries = m.entries := entries_stop
  have hsave : (m.stop job ended).canSave disk.saved = m.canSave disk.saved := by
    rw [canSave, canSave, store_stop]
  have hplace : ((m.stop job ended).jobs.findIdx? fun j => j.ptr = job.ptr).isSome = true := by
    rw [findIdx?_isSome, jobs_stop, any_eq_true]
    exact ⟨job, hjob, by simp⟩
  obtain ⟨place, hplace⟩ := Option.isSome_iff_exists.1 hplace
  rw [DormantSafe, find?_eq_bind_findIdx?_getElem?]
  cases hindex : m.entries.findIdx? fun entry => entry.infoHash = job.infoHash with
  | none =>
    rw [replace_of_removed (.inr (hentries ▸ hindex)), failsCleanly_error_iff, unchanged_stop_iff]
    rfl
  | some index =>
    obtain ⟨hlt, -⟩ := findIdx?_eq_some_iff_getElem.1 hindex
    obtain ⟨entry, hentry⟩ : ∃ entry, m.entries[index]? = some entry := ⟨_, getElem?_eq_getElem hlt⟩
    rw [replace_of_found hplace (hentries ▸ hindex) (hentries ▸ hentry), hsave]
    simp only [Option.bind_some, hentry]
    split_ifs with hcan
    · exact iff_of_true failsCleanly_ok (.inl hcan)
    · rw [failsCleanly_error_iff, unchanged_setEntry_iff hentry, or_iff_right hcan]

theorem failsCleanly_setDormant_iff : m.FailsCleanly (m.setDormant id dormant disk.saved ended) ↔
      ∀ job, m.lookUp id dormant = .ok job → m.DormantSafe disk job dormant := by
  cases hlook : m.lookUp id dormant with
  | error e => simp [setDormant, hlook, failsCleanly_error_iff, Unchanged.refl]
  | ok job =>
    simp only [setDormant, hlook, Except.ok.injEq, forall_eq']
    exact failsCleanly_replace_iff (mem_of_lookUp hlook)

/-- **When a failed call changes nothing**: exactly when it is safe. -/
theorem failsCleanly_call_iff [Digests] [Lowercase] (c : Call) :
    m.FailsCleanly (m.call disk ended c) ↔ c.Safe m disk := by
  cases c with
  | add source out options => exact failsCleanly_add_iff
  | remove id => exact failsCleanly_remove_iff
  | pause | resume => exact failsCleanly_setDormant_iff

end

/-- The manager after a torrent is added to it. -/
def oneTorrent : Manager :=
  (@add noTorrents .zero .same (goodDisk oneByte) ['/', 'a'] [47, 100] {}).2

/-- **Failed calls that change something.** With no room to save the
entries, `add` leaves its entry, `remove` has dropped the job, and `pause`
has set the entry aside; and an `add` of what is there already has put its
own copy in the place of the one that was kept. -/
theorem failed_calls_change :
    ¬noTorrents.FailsCleanly
      (@call .zero .same noTorrents (fullDisk oneByte) ⟨.stopped, rfl⟩
        (.add ['/', 'a'] [47, 100] {})) ∧
    ¬oneTorrent.FailsCleanly
      (@call .zero .same oneTorrent (fullDisk oneByte) ⟨.stopped, rfl⟩ (.remove zeroId)) ∧
    ¬oneTorrent.FailsCleanly
      (@call .zero .same oneTorrent (fullDisk oneByte) ⟨.stopped, rfl⟩ (.pause zeroId)) ∧
    ¬oneTorrent.FailsCleanly
      (@call .zero .same oneTorrent (goodDisk oneByteTracked) ⟨.stopped, rfl⟩
        (.add ['/', 'b'] [47, 100] {})) := by
  refine ⟨fun h => ?_, fun h => ?_, fun h => ?_, fun h => ?_⟩
  · have hsame := (h .saving (by decide +kernel)).entries
    exact absurd hsame (by decide +kernel)
  · have hsame := (h .saving (by decide +kernel)).jobs
    exact absurd hsame (by decide +kernel)
  · have hsame := (h .saving (by decide +kernel)).entries
    exact absurd hsame (by decide +kernel)
  · have hsame := congrFun (h (.alreadyAdded (.replicate 20 0)) (by decide +kernel)).copies
      (.replicate 20 0)
    exact absurd hsame (by decide +kernel)

end Manager

end BitTorrent.Daemon
