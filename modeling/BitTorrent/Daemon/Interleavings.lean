import BitTorrent.Common.Run
import BitTorrent.Daemon.Manager

/-!
# Calls that interleave

The manager under any number of threads: a call is at one of its phases, and a step is one
critical section of one call, or a report of a job.
-/

namespace BitTorrent.Daemon

open List Option

/-- Where a call has got to: it is about to lock the jobs for `add`; it has
taken a job off the jobs, and has still to drop its entry; it has done so,
and has still to end the job; or it has found the job that it is to pause
or resume. -/
inductive Phase
  | adding (entry : Entry)
  | removing (job : Job)
  | ending (job : Job)
  | replacing (job : Job) (dormant : Option Dormant)

/-- The manager, and the phase of the call each thread is in. -/
structure World where
  manager : Manager
  calls : ℕ → Option Phase

/-- What happens: the sections of `add`, of `remove`, and of `pause` and
`resume`; the reports of a job; and a job's thread moving on. -/
inductive Event
  | addStarts (thread : ℕ) (disk : Manager.Disk) (source : Text) (out : PathBuf)
      (options : JobOptions)
  | adds (thread : ℕ) (saved : Bool)
  | removeTakes (thread : ℕ) (id : Text)
  | removeForgets (thread : ℕ) (saved : Bool)
  | removeEnds (thread : ℕ)
  | looksUp (thread : ℕ) (id : Text) (paused : Bool)
  | replaces (thread : ℕ) (saved : Bool)
  | keeps (infoHash : Hash20) (bytes : List UInt8)
  | resolves (infoHash : Hash20) (saved : Bool)
  | finishes (infoHash : Hash20) (reason : Text) (saved : Bool)
  | moves (ptr : ℕ) (state : JobState)

namespace World

/-- What `pause` or `resume` is to remember. -/
def dormantFor (paused : Bool) : Option Dormant := if paused then some .paused else none

/-- A thread at another phase. -/
def setCall (w : World) (thread : ℕ) (phase : Option Phase) (m : Manager) : World :=
  ⟨m, Function.update w.calls thread phase⟩

/-- A call is made by a thread that is in none. -/
def makeCall (w : World) (thread : ℕ) (w' : World) : Option World :=
  if (w.calls thread).isNone then some w' else none

section

variable [Digests] [Lowercase]

/-- The first part of `add`, with no lock held. -/
def addStarts (w : World) (thread : ℕ) (disk : Manager.Disk) (source : Text) (out : PathBuf)
    (options : JobOptions) : World :=
  match w.manager.prepare disk source out options with
  | .error _ => w
  | .ok p =>
    w.setCall thread (if (w.manager.keep disk.copied p).1 then some (.adding p.entry) else none)
      (w.manager.keep disk.copied p).2

/-- The first section of `remove`. -/
def removeTakes (w : World) (thread : ℕ) (id : Text) : World :=
  match (w.manager.removeTake id).1 with
  | .error _ => w
  | .ok job => w.setCall thread (some (.removing job)) (w.manager.removeTake id).2

/-- The first section of `pause` and `resume`. -/
def looksUp (w : World) (thread : ℕ) (id : Text) (paused : Bool) : World :=
  match w.manager.lookUp id (dormantFor paused) with
  | .error _ => w
  | .ok job => w.setCall thread (some (.replacing job (dormantFor paused))) w.manager

/-- **One step.** `stop` returns once the job is over. -/
def next (w : World) : Event → Option World
  | .addStarts thread disk source out options =>
    w.makeCall thread (w.addStarts thread disk source out options)
  | .adds thread saved =>
    match w.calls thread with
    | some (.adding entry) => some (w.setCall thread none (w.manager.addLocked entry saved).2)
    | _ => none
  | .removeTakes thread id => w.makeCall thread (w.removeTakes thread id)
  | .removeForgets thread saved =>
    match w.calls thread with
    | some (.removing job) =>
      some (w.setCall thread
        (if (w.manager.removeForget job saved).1 then some (.ending job) else none)
        (w.manager.removeForget job saved).2)
    | _ => none
  | .removeEnds thread =>
    match w.calls thread with
    | some (.ending job) =>
      if (w.manager.states job.ptr).isOver then
        some (w.setCall thread none (w.manager.removeEnd job ⟨.stopped, rfl⟩).2)
      else none
    | _ => none
  | .looksUp thread id paused => w.makeCall thread (w.looksUp thread id paused)
  | .replaces thread saved =>
    match w.calls thread with
    | some (.replacing job dormant) =>
      if (w.manager.states job.ptr).isOver then
        some (w.setCall thread none (w.manager.replace job dormant saved).2)
      else none
    | _ => none
  | .keeps infoHash bytes => some ⟨w.manager.resolvedKeep infoHash bytes, w.calls⟩
  | .resolves infoHash saved => some ⟨w.manager.resolved infoHash saved, w.calls⟩
  | .finishes infoHash reason saved => some ⟨w.manager.finished infoHash reason saved, w.calls⟩
  | .moves ptr state =>
    some ⟨{ w.manager with states := Function.update w.manager.states ptr state }, w.calls⟩

end

/-- **The daemon's manager** under calls and reports. -/
def managing [Digests] [Lowercase] : LTS World Event where
  step w e w' := w.next e = some w'

/-- All calls have returned. -/
def Settled (w : World) : Prop := ∀ thread, w.calls thread = none

/-- A `remove` has taken the job of a hash and not yet its entry. -/
def Taken (w : World) (infoHash : Hash20) : Prop :=
  ∃ thread job, w.calls thread = some (.removing job) ∧ job.infoHash = infoHash

end World

/-- The thread that a step is of, unless it is a job's. -/
def Event.thread : Event → Option ℕ
  | .addStarts thread _ _ _ _ => some thread
  | .adds thread _ => some thread
  | .removeTakes thread _ => some thread
  | .removeForgets thread _ => some thread
  | .removeEnds thread => some thread
  | .looksUp thread _ _ => some thread
  | .replaces thread _ => some thread
  | _ => none

/-- **The lists agree**: the jobs and the entries hold the same hashes, each
once, and the entries file holds the entries. -/
structure Manager.Consistent (m : Manager) : Prop where
  jobs : (m.jobs.map Job.infoHash).Nodup
  entries : (m.entries.map Entry.infoHash).Nodup
  same : ∀ h, h ∈ m.entries.map Entry.infoHash ↔ h ∈ m.jobs.map Job.infoHash
  file : m.file.getD [] = entriesText m.entries

/-- The jobs are at addresses of their own, which were given out. -/
structure Manager.Addressed (m : Manager) : Prop where
  given : ∀ job ∈ m.jobs, job.ptr < m.made
  apart : ∀ job ∈ m.jobs, ∀ job' ∈ m.jobs, job.ptr = job'.ptr → job = job'

/-- **No save fails, and no `add` comes between** the two sections of a
`remove` of the same torrent. -/
def Event.Careful (w : World) : Event → World → Prop
  | .adds thread saved, _ => saved = true ∧
      ∀ entry, w.calls thread = some (.adding entry) → ¬w.Taken entry.infoHash
  | .removeForgets _ saved, _ => saved = true
  | .replaces _ saved, _ => saved = true
  | .resolves _ saved, _ => saved = true
  | .finishes _ _ saved, _ => saved = true
  | _, _ => True

namespace World

/-- A job that is in the list, or that a call means to replace. -/
def Knows (w : World) (job : Job) : Prop :=
  job ∈ w.manager.jobs ∨ ∃ thread dormant, w.calls thread = some (.replacing job dormant)

/-- What every `remove` has taken and not yet forgotten, by its thread. -/
structure TakenBy (w : World) (taken : List (ℕ × Job)) : Prop where
  threads : (taken.map Prod.fst).Nodup
  mem : ∀ thread job, (thread, job) ∈ taken ↔ w.calls thread = some (.removing job)

/-- **The invariant**: the entries are those of the jobs and of what a
`remove` has taken, with no hash twice. -/
structure Inv (w : World) : Prop where
  store : w.manager.store.isSome = true
  entries : (w.manager.entries.map Entry.infoHash).Nodup
  same : ∃ taken, w.TakenBy taken ∧ (w.manager.entries.map Entry.infoHash).Perm
    (w.manager.jobs.map Job.infoHash ++ taken.map fun t => t.2.infoHash)
  file : w.manager.file.getD [] = entriesText w.manager.entries
  given : ∀ job, w.Knows job → job.ptr < w.manager.made
  unique : ∀ job job', w.Knows job → w.Knows job' → job.ptr = job'.ptr → job = job'

/-- Another manager with the same lists. -/
structure SameLists (m m' : Manager) : Prop where
  store : m'.store = m.store
  jobs : m'.jobs = m.jobs
  entries : m'.entries = m.entries
  file : m'.file = m.file
  made : m'.made = m.made

section

variable {w w' : World} {thread : ℕ} {phase : Option Phase} {m : Manager}

theorem calls_setCall (thread' : ℕ) : (w.setCall thread phase m).calls thread' =
      if thread' = thread then phase else w.calls thread' :=
  Function.update_apply ..

variable {taken : List (ℕ × Job)}

theorem TakenBy.taken_iff (h : w.TakenBy taken) (x : Hash20) :
    x ∈ taken.map (fun t => t.2.infoHash) ↔ w.Taken x := by
  simp [Taken, ← h.mem]

theorem TakenBy.setCall (h : w.TakenBy taken)
    (hbefore : ∀ job, w.calls thread ≠ some (.removing job))
    (hafter : ∀ job, phase ≠ some (.removing job)) : (w.setCall thread phase m).TakenBy taken := by
  refine ⟨h.threads, fun thread' job => ?_⟩
  rw [calls_setCall, h.mem]
  split_ifs with heq
  · subst heq
    exact iff_of_false (hbefore job) (hafter job)
  · exact Iff.rfl

theorem Inv.of_same_hashes (h : w.Inv) (hstore : w'.manager.store = w.manager.store)
    (hjobs : w'.manager.jobs.map Job.infoHash = w.manager.jobs.map Job.infoHash)
    (hentries : w'.manager.entries.map Entry.infoHash = w.manager.entries.map Entry.infoHash)
    (hfile : w'.manager.file.getD [] = entriesText w'.manager.entries)
    (htaken : ∀ {taken}, w.TakenBy taken → w'.TakenBy taken)
    (hgiven : ∀ job, w'.Knows job → job.ptr < w'.manager.made)
    (hunique : ∀ job job', w'.Knows job → w'.Knows job' → job.ptr = job'.ptr → job = job') :
    w'.Inv := by
  obtain ⟨taken, hby, hperm⟩ := h.same
  refine ⟨hstore ▸ h.store, hentries ▸ h.entries, ⟨taken, htaken hby, ?_⟩, hfile, hgiven, hunique⟩
  rwa [hentries, hjobs]

theorem Inv.of_same_lists (h : w.Inv) (hlists : SameLists w.manager w'.manager)
    (htaken : ∀ {taken}, w.TakenBy taken → w'.TakenBy taken)
    (hknows : ∀ job, w'.Knows job → w.Knows job) : w'.Inv := by
  refine h.of_same_hashes hlists.store (by rw [hlists.jobs]) (by rw [hlists.entries])
    (by rw [hlists.file, hlists.entries, h.file]) htaken (fun job hjob => ?_)
    fun job job' hjob hjob' => h.unique job job' (hknows job hjob) (hknows job' hjob')
  rw [hlists.made]
  exact h.given job (hknows job hjob)

variable {job : Job}

theorem knows_setCall_cases (h : (w.setCall thread phase m).Knows job) :
    job ∈ m.jobs ∨ w.Knows job ∨ ∃ dormant, phase = some (.replacing job dormant) := by
  rcases h with h | ⟨thread', dormant, h⟩
  · exact .inl h
  · rw [calls_setCall] at h
    split_ifs at h
    · exact .inr (.inr ⟨dormant, h⟩)
    · exact .inr (.inl (.inr ⟨thread', dormant, h⟩))

theorem knows_of_setCall (hjobs : ∀ job ∈ m.jobs, job ∈ w.manager.jobs)
    (hafter : ∀ job dormant, phase ≠ some (.replacing job dormant))
    (h : (w.setCall thread phase m).Knows job) : w.Knows job := by
  rcases knows_setCall_cases h with h | h | ⟨dormant, h⟩
  · exact .inl (hjobs job h)
  · exact h
  · exact absurd h (hafter job dormant)

theorem file_written (hstore : m.store.isSome = true) :
    m.written.file.getD [] = entriesText m.entries := by
  simp [Manager.written, hstore]

theorem Inv.addressed_of_new (new : Job) (w' : World) (h : w.Inv) (hptr : new.ptr = w.manager.made)
    (hmade : w'.manager.made = w.manager.made + 1)
    (hknows : ∀ job, w'.Knows job → job = new ∨ w.Knows job) :
    (∀ job, w'.Knows job → job.ptr < w'.manager.made) ∧
      ∀ job job', w'.Knows job → w'.Knows job' → job.ptr = job'.ptr → job = job' := by
  have hfresh : ∀ job, w.Knows job → job.ptr ≠ new.ptr := fun job hjob =>
    hptr ▸ (h.given job hjob).ne
  constructor
  · intro job hjob
    rcases hknows job hjob with rfl | hold
    · omega
    · exact hmade ▸ Nat.lt_succ_of_lt (h.given job hold)
  · intro job job' hjob hjob' heq
    rcases hknows job hjob with rfl | hold <;> rcases hknows job' hjob' with rfl | hold'
    · rfl
    · exact absurd heq.symm (hfresh _ hold')
    · exact absurd heq (hfresh _ hold)
    · exact h.unique job job' hold hold' heq

theorem Inv.adds {entry : Entry} (h : w.Inv) (hcall : w.calls thread = some (.adding entry))
    (hnew : ¬w.Taken entry.infoHash) :
    (w.setCall thread none (w.manager.addLocked entry true).2).Inv := by
  have htaken : ∀ {m : Manager} {taken}, w.TakenBy taken →
    (w.setCall thread none m).TakenBy taken :=
    fun hby => hby.setCall (by simp [hcall]) (by simp)
  by_cases hjob : w.manager.hasJob entry.infoHash = true
  · rw [Manager.addLocked_of_hasJob hjob]
    exact h.of_same_lists ⟨rfl, rfl, rfl, rfl, rfl⟩ htaken
      fun job => knows_of_setCall (fun _ => id) (by simp)
  rw [Bool.not_eq_true] at hjob
  rw [Manager.addLocked_of_new hjob, if_pos (by simp [Manager.canSave])]
  obtain ⟨taken, hby, hperm⟩ := h.same
  have hentry : entry.infoHash ∉ w.manager.entries.map Entry.infoHash := by
    rw [hperm.mem_iff, mem_append, hby.taken_iff, ← Manager.hasJob_iff, hjob]
    exact not_or.2 ⟨Bool.false_ne_true, hnew⟩
  have hknows : ∀ {m : Manager} (job : Job),
      m.jobs = w.manager.jobs ++ [(w.manager.jobFor entry).1] →
      (w.setCall thread none m).Knows job → job = (w.manager.jobFor entry).1 ∨ w.Knows job := by
    intro m job hjobs hknown
    rcases knows_setCall_cases hknown with hmem | hold | ⟨_, ⟨⟩⟩
    · rw [hjobs, mem_append, mem_singleton] at hmem
      exact hmem.symm.imp_right .inl
    · exact .inr hold
  have haddr := h.addressed_of_new (w.manager.jobFor entry).1 (w.setCall thread none
    { (w.manager.pushEntry entry).written with
      jobs := w.manager.jobs ++ [(w.manager.jobFor entry).1] }) rfl rfl fun job => hknows job rfl
  have hpush : (w.manager.pushEntry entry).written.entries = w.manager.entries ++ [entry] := rfl
  refine ⟨h.store, ?_, ⟨taken, htaken hby, ?_⟩, file_written h.store, haddr.1, haddr.2⟩
  · rw [setCall, hpush, map_append]
    exact nodup_append'.2 ⟨h.entries, nodup_singleton _, disjoint_singleton.2 hentry⟩
  · simp only [setCall, hpush, map_append, append_assoc]
    refine (hperm.append_right _).trans ?_
    rw [append_assoc]
    exact perm_append_comm.append_left _

theorem Inv.removeTakes {index : ℕ} (h : w.Inv) (hcall : w.calls thread = none)
    (hjob : w.manager.jobs[index]? = some job) :
    (w.setCall thread (some (.removing job)) (w.manager.takeJob index)).Inv := by
  obtain ⟨taken, hby, hperm⟩ := h.same
  have hjobs : w.manager.jobs.Perm (job :: (w.manager.takeJob index).jobs) := by
    obtain ⟨hlt, rfl⟩ := List.getElem?_eq_some_iff.1 hjob
    exact (getElem_cons_eraseIdx_perm hlt).symm
  have hknows : ∀ job', (w.setCall thread (some (.removing job))
      (w.manager.takeJob index)).Knows job' → w.Knows job' := fun _ =>
    knows_of_setCall (fun _ hmem' => (eraseIdx_sublist _ _).subset hmem') (by simp)
  refine ⟨h.store, h.entries, ⟨(thread, job) :: taken, ⟨?_, fun thread' job' => ?_⟩, ?_⟩, h.file,
    fun job' hjob' => h.given job' (hknows job' hjob'),
    fun job₁ job₂ hjob₁ hjob₂ => h.unique job₁ job₂ (hknows _ hjob₁) (hknows _ hjob₂)⟩
  · refine nodup_cons.2 ⟨fun hmem => ?_, hby.threads⟩
    obtain ⟨⟨_, job'⟩, htook, rfl⟩ := List.mem_map.1 hmem
    cases hcall.symm.trans ((hby.mem _ _).1 htook)
  · rw [calls_setCall, mem_cons, hby.mem, Prod.mk.injEq]
    split_ifs with heq
    · simp [heq, hcall, eq_comm]
    · simp [heq]
  · exact (hperm.trans ((hjobs.map _).append_right _)).trans perm_middle.symm

theorem Inv.removeForgets (h : w.Inv) (hcall : w.calls thread = some (.removing job)) :
    (w.setCall thread (some (.ending job)) (w.manager.forget job.infoHash).written).Inv := by
  obtain ⟨taken, hby, hperm⟩ := h.same
  have hmem : (thread, job) ∈ taken := (hby.mem thread job).2 hcall
  have hrest : (w.manager.entries.map Entry.infoHash).Perm (job.infoHash ::
      (w.manager.jobs.map Job.infoHash ++ (taken.erase (thread, job)).map fun t => t.2.infoHash)) :=
    (hperm.trans (((perm_cons_erase hmem).map _).append_left _)).trans perm_middle
  have hforget : (w.manager.forget job.infoHash).entries.map Entry.infoHash =
      (w.manager.entries.map Entry.infoHash).erase job.infoHash := by
    rw [h.entries.erase_eq_filter, List.filter_map]
    exact congrArg _ (filter_congr fun entry _ => Bool.eq_iff_iff.2 (by simp))
  have hknows : ∀ job', (w.setCall thread (some (.ending job))
      (w.manager.forget job.infoHash).written).Knows job' → w.Knows job' :=
    fun job' => knows_of_setCall (fun _ => id) (by simp)
  refine ⟨h.store, ?_, ⟨taken.erase (thread, job), ⟨?_, fun thread' job' => ?_⟩, ?_⟩,
    file_written h.store, fun job' hjob' => h.given job' (hknows job' hjob'),
    fun job₁ job₂ hjob₁ hjob₂ => h.unique job₁ job₂ (hknows _ hjob₁) (hknows _ hjob₂)⟩
  · exact h.entries.sublist ((filter_sublist ..).map _)
  · exact hby.threads.sublist (erase_sublist.map _)
  · rw [calls_setCall, hby.threads.of_map.mem_erase_iff, hby.mem]
    split_ifs with heq
    · subst heq
      simp [hcall, eq_comm]
    · simp [heq]
  · refine (Perm.of_eq hforget).trans ?_
    have hkept := hrest.erase job.infoHash
    rwa [erase_cons_head] at hkept

theorem map_set_of_eq {α β : Type} {f : α → β} {l : List α} {i : ℕ} {a b : α}
    (ha : l[i]? = some a) (h : f b = f a) : (l.set i b).map f = l.map f := by
  obtain ⟨hlt, rfl⟩ := List.getElem?_eq_some_iff.1 ha
  rw [map_set, h, ← getElem_map f (h := by simpa using hlt), set_getElem_self]

theorem Inv.replaces {dormant : Option Dormant} (h : w.Inv)
    (hcall : w.calls thread = some (.replacing job dormant)) :
    (w.setCall thread none (w.manager.replace job dormant true).2).Inv := by
  have htaken : ∀ {m : Manager} {taken}, w.TakenBy taken →
    (w.setCall thread none m).TakenBy taken :=
    fun hby => hby.setCall (by simp [hcall]) (by simp)
  have hkept : (w.manager.jobs.findIdx? fun j => j.ptr = job.ptr) = none ∨
      (w.manager.entries.findIdx? fun entry => entry.infoHash = job.infoHash) = none →
      (w.setCall thread none (w.manager.replace job dormant true).2).Inv := by
    intro hgone
    rw [Manager.replace_of_removed hgone]
    exact h.of_same_lists ⟨rfl, rfl, rfl, rfl, rfl⟩ htaken
      fun job => knows_of_setCall (fun _ => id) (by simp)
  cases hplace : w.manager.jobs.findIdx? fun j => j.ptr = job.ptr with
  | none => exact hkept (.inl hplace)
  | some place =>
    cases hindex : w.manager.entries.findIdx? fun entry => entry.infoHash = job.infoHash with
    | none => exact hkept (.inr hindex)
    | some index =>
      obtain ⟨hlt, hptr, -⟩ := findIdx?_eq_some_iff_getElem.1 hplace
      obtain ⟨hlt', hhash, -⟩ := findIdx?_eq_some_iff_getElem.1 hindex
      have hentry := getElem?_eq_getElem hlt'
      -- the job in the list at this address is the one that was found
      have hold : w.manager.jobs[place] = job :=
        h.unique _ _ (.inl (getElem_mem hlt)) (.inr ⟨thread, dormant, hcall⟩)
          (of_decide_eq_true hptr)
      rw [Manager.replace_of_found hplace hindex hentry, if_pos (by simp [Manager.canSave])]
      have hjob : w.manager.jobs[place]? = some job := hold ▸ getElem?_eq_getElem hlt
      set entry := w.manager.entries[index]
      have hknows : ∀ job', (w.setCall thread none
          { (w.manager.setEntry index { entry with dormant }).written with
            jobs := w.manager.jobs.set place (w.manager.jobFor { entry with dormant }).1 }).Knows
          job' → job' = (w.manager.jobFor { entry with dormant }).1 ∨ w.Knows job' := by
        intro job' hknown
        rcases knows_setCall_cases hknown with hmem | hold | ⟨_, ⟨⟩⟩
        · exact (mem_or_eq_of_mem_set hmem).symm.imp_right .inl
        · exact .inr hold
      have haddr := h.addressed_of_new _ _ rfl rfl hknows
      exact h.of_same_hashes rfl (map_set_of_eq hjob (of_decide_eq_true hhash))
        (map_set_of_eq hentry rfl) (file_written h.store) htaken haddr.1 haddr.2

theorem Inv.amends {which : Entry → Bool} {change : Entry → Entry} (h : w.Inv)
    (hhash : ∀ entry, (change entry).infoHash = entry.infoHash) :
    Inv ⟨w.manager.amend which change true, w.calls⟩ := by
  have hsave : ∀ m : Manager, (m.save true).getD m = m.written := by
    intro m
    simp [Manager.save, Manager.canSave]
  rw [Manager.amend]
  cases hindex : w.manager.entries.findIdx? which with
  | none => exact h
  | some index =>
    simp only [hsave]
    refine h.of_same_hashes rfl rfl ?_ (file_written h.store) (fun hby => ⟨hby.1, hby.2⟩) h.given
      h.unique
    have hentries : (w.manager.entries.modify index change).map Entry.infoHash =
        w.manager.entries.map Entry.infoHash := by
      refine ext_getElem? fun i => ?_
      rw [getElem?_map, getElem?_map, getElem?_modify, Option.map_eq_map, Option.map_map]
      congr 1
      funext entry
      by_cases hi : index = i <;> simp [hi, hhash]
    exact hentries

theorem eq_of_makeCall {start : World} (h : w.makeCall thread start = some w') :
    w.calls thread = none ∧ w' = start := by
  rw [makeCall, ite_none_right_eq_some] at h
  exact ⟨isNone_iff_eq_none.1 h.1, (some.inj h.2).symm⟩

theorem Inv.addStarts [Digests] [Lowercase] {disk : Manager.Disk} {source : Text} {out : PathBuf}
    {options : JobOptions} (h : w.Inv) (hcall : w.calls thread = none) :
    (w.addStarts thread disk source out options).Inv := by
  rw [World.addStarts]
  cases w.manager.prepare disk source out options with
  | error e => exact h
  | ok p =>
    have hkeep : SameLists w.manager (w.manager.keep disk.copied p).2 := by
      cases hcopy : p.copy <;> constructor <;> simp [Manager.keep, hcopy, Manager.setCopy]
    refine h.of_same_lists hkeep (fun hby => hby.setCall (by simp [hcall]) fun job => ?_)
      fun job => knows_of_setCall (by simp [hkeep.jobs]) fun job dormant => ?_
    · split_ifs <;> simp
    · split_ifs <;> simp

theorem Inv.looksUp {id : Text} {paused : Bool} (h : w.Inv) (hcall : w.calls thread = none) :
    (w.looksUp thread id paused).Inv := by
  rw [World.looksUp]
  cases hlook : w.manager.lookUp id (dormantFor paused) with
  | error e => exact h
  | ok job =>
    refine h.of_same_lists ⟨rfl, rfl, rfl, rfl, rfl⟩
      (fun hby => hby.setCall (by simp [hcall]) (by simp)) ?_
    intro job' hknown
    rcases knows_setCall_cases hknown with hmem | hold | ⟨dormant, ⟨⟩⟩
    · exact .inl hmem
    · exact hold
    · exact .inl (Manager.mem_of_lookUp hlook)

theorem Inv.removeEnds {ended : Ended} (h : w.Inv) (hcall : w.calls thread = some (.ending job)) :
    (w.setCall thread none (w.manager.removeEnd job ended).2).Inv := by
  have hend : SameLists w.manager (w.manager.removeEnd job ended).2 := by
    simp only [Manager.removeEnd, Manager.stop, Manager.setCopy]
    constructor <;> split_ifs <;> simp
  exact h.of_same_lists hend (fun hby => hby.setCall (by simp [hcall]) (by simp))
    fun job => knows_of_setCall (by simp [hend.jobs]) (by simp)

theorem Inv.step [Digests] [Lowercase] {e : Event} (h : w.Inv) (hstep : w.next e = some w')
    (hcareful : e.Careful w w') : w'.Inv := by
  cases e with
  | addStarts thread disk source out options =>
    obtain ⟨hcall, rfl⟩ := eq_of_makeCall hstep
    exact h.addStarts hcall
  | adds thread saved =>
    obtain ⟨rfl, hnew⟩ := hcareful
    rw [next] at hstep
    split at hstep
    · next entry hcall =>
      cases hstep
      exact h.adds hcall (hnew entry hcall)
    · cases hstep
  | removeTakes thread id =>
    obtain ⟨hcall, rfl⟩ := eq_of_makeCall hstep
    rw [World.removeTakes]
    rcases w.manager.removeTake_cases with ⟨e, -, htake⟩ | ⟨index, job, -, hjob, htake⟩
    · rw [htake]
      exact h
    · rw [htake]
      exact h.removeTakes hcall hjob
  | removeForgets thread saved =>
    obtain rfl : saved = true := hcareful
    rw [next] at hstep
    split at hstep
    · next job hcall =>
      cases hstep
      have hsave : w.manager.canSave true = true := by simp [Manager.canSave]
      simp only [Manager.removeForget_eq, if_pos hsave]
      exact h.removeForgets hcall
    · cases hstep
  | removeEnds thread =>
    rw [next] at hstep
    split at hstep
    · next job hcall =>
      obtain ⟨-, ⟨⟩⟩ := ite_none_right_eq_some.1 hstep
      exact h.removeEnds hcall
    · cases hstep
  | looksUp thread id paused =>
    obtain ⟨hcall, rfl⟩ := eq_of_makeCall hstep
    exact h.looksUp hcall
  | replaces thread saved =>
    obtain rfl : saved = true := hcareful
    rw [next] at hstep
    split at hstep
    · next job dormant hcall =>
      obtain ⟨-, ⟨⟩⟩ := ite_none_right_eq_some.1 hstep
      exact h.replaces hcall
    · cases hstep
  | keeps | moves =>
    cases hstep
    exact h.of_same_lists ⟨rfl, rfl, rfl, rfl, rfl⟩ (fun hby => ⟨hby.1, hby.2⟩) fun _ => id
  | resolves infoHash saved =>
    obtain rfl : saved = true := hcareful
    cases hstep
    rw [Manager.resolved]
    cases w.manager.store with
    | none => exact h
    | some dir => exact h.amends fun _ => rfl
  | finishes infoHash reason saved =>
    obtain rfl : saved = true := hcareful
    cases hstep
    exact h.amends fun _ => rfl

theorem Inv.start (hstore : m.store.isSome = true) (hcons : m.Consistent)
    (haddr : m.Addressed) : Inv ⟨m, fun _ => none⟩ := by
  have hknows : ∀ job, Knows ⟨m, fun _ => none⟩ job → job ∈ m.jobs := by
    rintro job (hmem | ⟨thread, dormant, hcall⟩)
    · exact hmem
    · cases hcall
  refine ⟨hstore, hcons.entries, ⟨[], ⟨nodup_nil, fun _ _ => by simp⟩, ?_⟩, hcons.file,
    fun job hjob => haddr.given job (hknows job hjob), fun job job' hjob hjob' =>
      haddr.apart job (hknows job hjob) job' (hknows job' hjob')⟩
  rw [map_nil, append_nil]
  exact (perm_ext_iff_of_nodup hcons.entries hcons.jobs).2 hcons.same

theorem Inv.consistent (h : w.Inv) (hsettled : w.Settled) : w.manager.Consistent := by
  obtain ⟨taken, hby, hperm⟩ := h.same
  obtain rfl : taken = [] := by
    refine eq_nil_iff_forall_not_mem.2 fun ⟨thread, job⟩ hmem => ?_
    cases (hsettled thread).symm.trans ((hby.mem thread job).1 hmem)
  rw [map_nil, append_nil] at hperm
  exact ⟨hperm.nodup_iff.1 h.entries, h.entries, fun _ => hperm.mem_iff, h.file⟩

/-- **The lists agree once every call has returned**, in every run in which
no save fails and no `add` comes between the sections of a `remove` of the
same torrent. -/
theorem consistent_of_careful [Digests] [Lowercase] {es : List Event}
    (hstore : m.store.isSome = true) (hcons : m.Consistent) (haddr : m.Addressed)
    (hrun : (managing.restrict fun w e w' => e.Careful w w').Run ⟨m, fun _ => none⟩ es w)
    (hsettled : w.Settled) : w.manager.Consistent := by
  refine Inv.consistent ?_ hsettled
  refine hrun.invariant (fun w e w' h hstep => ?_) (Inv.start hstore hcons haddr)
  exact h.step hstep.1 hstep.2

end

section

variable [Digests] [Lowercase] {w w' : World} {e : Event} {thread : ℕ} {es : List Event}

theorem calls_of_ne_thread (hstep : w.next e = some w') (hne : e.thread ≠ some thread) :
    w'.calls thread = w.calls thread := by
  have hset : ∀ {thread' phase m}, some thread' ≠ some thread →
      (w.setCall thread' phase m).calls thread = w.calls thread := by
    intro thread' phase m hne
    rw [calls_setCall, if_neg fun heq => hne (congrArg some heq.symm)]
  cases e with
  | addStarts | removeTakes | looksUp =>
    obtain ⟨-, rfl⟩ := eq_of_makeCall hstep
    simp only [addStarts, removeTakes, looksUp]
    split
    · rfl
    · exact hset hne
  | adds | removeForgets =>
    simp only [next] at hstep
    split at hstep
    · cases hstep
      exact hset hne
    · cases hstep
  | removeEnds | replaces =>
    simp only [next] at hstep
    split at hstep
    · obtain ⟨-, ⟨⟩⟩ := ite_none_right_eq_some.1 hstep
      exact hset hne
    · cases hstep
  | keeps | resolves | finishes | moves =>
    cases hstep
    rfl

theorem settled_of_run (hrun : managing.Run w es w') (hstart : w.Settled)
    (hend : ∀ thread ∈ es.filterMap Event.thread, w'.calls thread = none) : w'.Settled := by
  intro thread
  by_cases hmem : thread ∈ es.filterMap Event.thread
  · exact hend thread hmem
  · clear hend
    induction hrun with
    | nil => exact hstart thread
    | snoc hrun hstep ih =>
      rw [filterMap_append, mem_append, not_or] at hmem
      rw [calls_of_ne_thread hstep, ih hmem.1]
      intro heq
      exact hmem.2 (by simp [heq])

end

open Manager (noTorrents bareDisk zeroLink zeroEntry zeroId)

/-- A manager with one torrent. -/
def oneAdded : Manager := (noTorrents.addLocked zeroEntry true).2

/-- The torrent is removed while another thread is about to pause it. -/
def removedAndPaused : List Event :=
  [.looksUp 0 zeroId true, .removeTakes 1 zeroId, .removeForgets 1 true, .moves 0 .stopped,
    .replaces 0 true, .removeEnds 1]

theorem consistent_of_careful_sample :
    let _ := Digests.zero
    let _ := Lowercase.same
    ∃ w, (managing.restrict fun w e w' => e.Careful w w').Run ⟨oneAdded, fun _ => none⟩
      removedAndPaused w ∧ w.Settled ∧ oneAdded.jobs.length = 1 ∧ w.manager.jobs.length = 0 ∧
      w.manager.Consistent := by
  let _ := Digests.zero
  let _ := Lowercase.same
  have hok : ∃ w ∈ removedAndPaused.foldlM next ⟨oneAdded, fun _ => none⟩,
      (∀ thread ∈ removedAndPaused.filterMap Event.thread, w.calls thread = none) ∧
      w.manager.jobs.length = 0 := by
    decide +kernel
  obtain ⟨w, hw, hcalls, hjobs⟩ := hok
  have hrun : managing.Run ⟨oneAdded, fun _ => none⟩ removedAndPaused w :=
    LTS.run_of_foldlM (fun _ _ _ => id) hw
  have hsettled := settled_of_run hrun (fun _ => rfl) hcalls
  have hcareful := hrun.restrict_of_labels (G := fun w e w' => e.Careful w w')
    (by simp [removedAndPaused, Event.Careful])
  refine ⟨w, hcareful, hsettled, by decide, hjobs,
    consistent_of_careful rfl ⟨?_, ?_, fun _ => Iff.rfl, rfl⟩ ⟨?_, ?_⟩ hcareful hsettled⟩
  all_goals decide +kernel

/-- A torrent is removed, and added again by another thread between the two
sections. -/
def addedBetween : List Event :=
  [.addStarts 0 bareDisk zeroLink [47, 100] {}, .adds 0 true, .removeTakes 1 zeroId,
    .addStarts 2 bareDisk zeroLink [47, 100] {}, .adds 2 true, .removeForgets 1 true,
    .moves 0 .stopped, .removeEnds 1]

/-- A torrent is added, and the entries cannot be saved. -/
def addedUnsaved : List Event :=
  [.addStarts 0 bareDisk zeroLink [47, 100] {}, .adds 0 false]

/-- The calls of a run have returned, and an info hash is in one of the two
lists only. -/
theorem exists_of_disagrees [Digests] [Lowercase] {es : List Event}
    (h : ∃ w ∈ es.foldlM next ⟨noTorrents, fun _ => none⟩,
      (∀ thread ∈ es.filterMap Event.thread, w.calls thread = none) ∧
      ∃ x ∈ w.manager.jobs.map Job.infoHash ++ w.manager.entries.map Entry.infoHash,
        ¬(x ∈ w.manager.entries.map Entry.infoHash ↔ x ∈ w.manager.jobs.map Job.infoHash)) :
    ∃ w, managing.Run ⟨noTorrents, fun _ => none⟩ es w ∧ w.Settled ∧ ¬w.manager.Consistent := by
  obtain ⟨w, hw, hcalls, x, -, hne⟩ := h
  have hrun : managing.Run ⟨noTorrents, fun _ => none⟩ es w :=
    LTS.run_of_foldlM (fun _ _ _ => id) hw
  exact ⟨w, hrun, settled_of_run hrun (fun _ => rfl) hcalls, fun hcons => hne (hcons.same x)⟩

/-- **The lists come apart**: by an `add` between the sections of a
`remove`, and by a save that fails. -/
theorem lists_disagree :
    (∃ w, (@managing .zero .same).Run ⟨noTorrents, fun _ => none⟩ addedBetween w ∧ w.Settled ∧
      ¬w.manager.Consistent) ∧
    ∃ w, (@managing .zero .same).Run ⟨noTorrents, fun _ => none⟩ addedUnsaved w ∧ w.Settled ∧
      ¬w.manager.Consistent := by
  let _ := Digests.zero
  let _ := Lowercase.same
  exact ⟨exists_of_disagrees (by decide +kernel), exists_of_disagrees (by decide +kernel)⟩

end World

end BitTorrent.Daemon
