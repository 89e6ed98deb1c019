import BitTorrent.Daemon.Manager

/-!
# What is remembered of a request

An `add` request goes through `parse_request`, `Manager::add`, `to_line` and, when the daemon
starts again, `from_line`.
-/

namespace BitTorrent.Daemon

open List Text PathBuf

namespace Manager

/-- What the entry that `add` makes has of the request. -/
structure Makes (m : Manager) (source : Text) (out : PathBuf) (options : JobOptions)
    (entry : Entry) : Prop where
  outDir : entry.outDir = out
  only : entry.options.only = options.only
  prefer : entry.options.prefer = options.prefer
  inRange : options.InRange → entry.options.InRange
  magnet : Magnet.scheme.isPrefixOf source = true → entry.source = .magnet source
  file : Magnet.scheme.isPrefixOf source = false → entry.source =
    .file (m.store.elim (.ofText source) fun dir => torrentPath dir entry.infoHash)

variable {m m' : Manager} {disk : Disk} {source : Text} {out : PathBuf} {options : JobOptions}
  {p : Prepared} {status : JobStatus}

theorem makes_of_prepareMagnet (hscheme : Magnet.scheme.isPrefixOf source = true)
    (h : prepareMagnet source out options = .ok p) : m.Makes source out options p.entry := by
  simp only [prepareMagnet, bind_eq_ok_iff, pure, Except.pure, Except.ok.injEq] at h
  obtain ⟨link, -, rfl⟩ := h
  refine ⟨rfl, ?_, ?_, ?_, fun _ => rfl, fun hfalse => ?_⟩
  · show JobOptions.only (if _ then _ else _) = _
    split_ifs <;> rfl
  · show JobOptions.prefer (if _ then _ else _) = _
    split_ifs <;> rfl
  · intro hrange
    show JobOptions.InRange (if _ then _ else _)
    split_ifs
    · refine ⟨?_, hrange.maxUp, hrange.maxDown⟩
      intro i hi
      obtain ⟨index, -, rfl⟩ := mem_map.1 hi
      exact Nat.mod_lt _ (by decide)
    · exact hrange
  · rw [hscheme] at hfalse
    cases hfalse

section

variable [Digests] [Lowercase]

theorem makes_of_prepareTorrent {bytes : Slice} (hscheme : Magnet.scheme.isPrefixOf source = false)
    (h : m.prepareTorrent (.ofText source) bytes out options = .ok p) :
    m.Makes source out options p.entry := by
  simp only [prepareTorrent, bind_eq_ok_iff] at h
  obtain ⟨torrent, -, mask, -, preferMask, -, h⟩ := h
  cases hstore : m.store with
  | none | some =>
    rw [hstore] at h
    cases h
    exact ⟨rfl, rfl, rfl, id, fun htrue => by simp [hscheme] at htrue, fun _ => by rw [hstore]; rfl⟩

theorem makes_of_prepare (h : m.prepare disk source out options = .ok p) :
    m.Makes source out options p.entry := by
  simp only [prepare] at h
  split_ifs at h with hout hscheme hpath
  · exact makes_of_prepareMagnet hscheme h
  · rw [bind_eq_ok_iff] at h
    obtain ⟨bytes, -, h⟩ := h
    exact makes_of_prepareTorrent (Bool.not_eq_true _ ▸ hscheme) h

theorem makes_of_add {entry : Entry} (h : m.add disk source out options = (.ok status, m'))
    (hentries : m'.entries = m.entries ++ [entry]) : m.Makes source out options entry := by
  cases hprepare : m.prepare disk source out options with
  | error e => simp [add, hprepare] at h
  | ok p =>
    have hkeep : (m.keep disk.copied p).2.entries = m.entries := by
      unfold keep
      split <;> rfl
    simp only [add, hprepare] at h
    split_ifs at h with hkept
    · cases hjob : (m.keep disk.copied p).2.hasJob p.entry.infoHash with
      | true => simp [addLocked_of_hasJob hjob] at h
      | false =>
        cases hsave : (m.keep disk.copied p).2.canSave disk.saved with
        | false => simp [addLocked_of_new hjob, hsave] at h
        | true =>
          rw [addLocked_of_new hjob, if_pos hsave, Prod.mk.injEq] at h
          have hpushed : m'.entries = m.entries ++ [p.entry] := by
            rw [← h.2, ← hkeep]
            rfl
          rw [hpushed, append_cancel_left_eq, List.cons.injEq] at hentries
          exact hentries.1 ▸ makes_of_prepare hprepare
    · simp at h

end

end Manager

section

variable {dir path : PathBuf} {infoHash : Hash20} {patterns : List Text} {e : Entry}

theorem isUtf8_torrentPath_iff : IsUtf8 (Manager.torrentPath dir infoHash) ↔ IsUtf8 dir := by
  have hascii : (hex infoHash ++ Manager.torrentSuffix).isAscii = true := by
    have hhex := isAscii_hex infoHash
    simp only [isAscii] at hhex
    rw [isAscii, all_append, hhex]
    decide
  have hrel : isAbsolute (.ofText (hex infoHash ++ Manager.torrentSuffix)) = false := by
    obtain ⟨c, digits, hhex⟩ : ∃ c digits, hex infoHash = c :: digits := by
      refine exists_cons_of_length_pos ?_
      rw [length_hex]
      decide
    have hbounds := toNat_of_mem_hex (hhex ▸ mem_cons_self : c ∈ hex infoHash)
    rw [hhex, cons_append]
    refine isAbsolute_ofText_cons (by omega) ?_
    rintro rfl
    exact absurd hbounds.1 (by decide)
  rw [Manager.torrentPath, isUtf8_join_iff hascii hrel, isUtf8_join_iff (by decide) (by decide)]

theorem rereadPatterns_eq_iff (h : ArePatterns patterns) :
    rereadPatterns patterns = patterns ↔ ∀ p ∈ patterns.dropLast, p.getLast? ≠ some '\r' :=
  nonemptyLines_joinLines_iff (fun p hp => (h p hp).2) fun p hp => (h p hp).1

theorem Entry.reread_eq_iff : e.reread = e ↔ e.source.reread = e.source ∧ IsUtf8 e.outDir ∧
      rereadPatterns e.options.only = e.options.only ∧
      rereadPatterns e.options.prefer = e.options.prefer := by
  rcases e with ⟨infoHash, source, out, ⟨files, only, prefer, sequential, up, down⟩, dormant⟩
  simp [Entry.reread, ofText_toStringLossy_iff]

end

/-- Nothing of a request is lost: no pattern that another follows ends in a
carriage return, and a copy is kept in a directory whose path is UTF-8. -/
structure Survives (store : Option PathBuf) (source : Text) (options : JobOptions) : Prop where
  only : ∀ p ∈ options.only.dropLast, p.getLast? ≠ some '\r'
  prefer : ∀ p ∈ options.prefer.dropLast, p.getLast? ≠ some '\r'
  dir : Magnet.scheme.isPrefixOf source = false → ∀ dir ∈ store, IsUtf8 dir

/-- A line that `parse_request` and `Manager::add` accept, and the entry
that is made from it. -/
structure Added [Digests] [Lowercase] where
  line : Text
  m : Manager
  disk : Manager.Disk
  source : Text
  out : PathBuf
  options : JobOptions
  status : JobStatus
  entry : Entry
  parsed : parseRequest line = .ok (.add source out options)
  added : (m.add disk source out options).1 = .ok status
  pushed : (m.add disk source out options).2.entries = m.entries ++ [entry]

namespace Added

section

variable [Digests] [Lowercase] (a : Added)

theorem makes : a.m.Makes a.source a.out a.options a.entry :=
  Manager.makes_of_add (Prod.ext a.added rfl) a.pushed

theorem inRange : a.entry.options.InRange :=
  a.makes.inRange (sound_of_parseRequest a.parsed).inRange

theorem reread_source_iff : a.entry.source.reread = a.entry.source ↔
      (Magnet.scheme.isPrefixOf a.source = false → ∀ dir ∈ a.m.store, IsUtf8 dir) := by
  cases hscheme : Magnet.scheme.isPrefixOf a.source with
  | true =>
    rw [a.makes.magnet hscheme]
    exact iff_of_true rfl fun hfalse => Bool.noConfusion hfalse
  | false =>
    rw [a.makes.file hscheme, Source.reread, Source.file.injEq, ofText_toStringLossy_iff]
    cases hstore : a.m.store with
    | none => exact iff_of_true ⟨a.source, rfl⟩ fun _ dir hdir => by cases hdir
    | some dir => simp [isUtf8_torrentPath_iff]

theorem reread_iff : a.entry.reread = a.entry ↔ Survives a.m.store a.source a.options := by
  have hsound := sound_of_parseRequest a.parsed
  have hmakes := a.makes
  rw [Entry.reread_eq_iff, a.reread_source_iff, hmakes.outDir, hmakes.only, hmakes.prefer,
    rereadPatterns_eq_iff hsound.only, rereadPatterns_eq_iff hsound.prefer]
  constructor
  · rintro ⟨hdir, -, honly, hprefer⟩
    exact ⟨honly, hprefer, hdir⟩
  · intro h
    exact ⟨h.dir, hsound.out, h.only, h.prefer⟩

/-- **When an entry is read back as it was**, by itself and in a list with
others: exactly when nothing of its request is lost. Its line is one line
in any case. -/
theorem readBack_iff :
    (∀ a : Added, '\n' ∉ a.entry.toLine ∧
      (Entry.fromLine a.entry.toLine = .ok a.entry ↔ Survives a.m.store a.source a.options)) ∧
    ∀ adds : List Added, (adds.map fun a => a.entry.infoHash).Nodup →
      (parseEntries (entriesText (adds.map Added.entry)) = (adds.map Added.entry, []) ↔
        ∀ a ∈ adds, Survives a.m.store a.source a.options) := by
  refine ⟨fun a => ⟨Entry.not_mem_toLine, ?_⟩, fun adds hdistinct => ?_⟩
  · rw [Entry.fromLine_toLine a.inRange, Except.ok.injEq, a.reread_iff]
  · have hrange : ∀ e ∈ adds.map Added.entry, e.options.InRange := by
      intro e he
      obtain ⟨a, -, rfl⟩ := mem_map.1 he
      exact a.inRange
    have hdistinct' : ((adds.map Added.entry).map Entry.infoHash).Nodup := by
      rw [map_map]
      exact hdistinct
    rw [parseEntries_entriesText hrange hdistinct', Prod.mk.injEq, map_map,
      map_inj_left]
    simp only [and_true, Function.comp_apply, reread_iff]

end

open Json

/-- A line that asks to add what a source gives to `/d`. -/
def addLine (source only : Text) : Text :=
  ((((Object.new.string Key.cmd.text ['a', 'd', 'd']).string Key.source.text source).string
    Key.out.text ['/', 'd']).string Key.only.text only).finish

/-- A link is added, with two patterns. -/
def twoPatterns : @Added .zero .same :=
  let _ := Digests.zero
  let _ := Lowercase.same
  { line := addLine Manager.zeroLink ['a', '\n', 'b']
    m := .noTorrents
    disk := Manager.bareDisk
    source := Manager.zeroLink
    out := [47, 100]
    options := { only := [['a'], ['b']] }
    status := ⟨.replicate 20 0, .checking, [47, 100]⟩
    entry := { Manager.zeroEntry with options := { only := [['a'], ['b']] } }
    parsed := by decide +kernel
    added := by decide +kernel
    pushed := by decide +kernel }

/-- The same link, where the first pattern ends in a carriage return. -/
def carriageReturn : @Added .zero .same :=
  let _ := Digests.zero
  let _ := Lowercase.same
  { line := addLine Manager.zeroLink ['a', '\r', '\r', '\n', 'b']
    m := .noTorrents
    disk := Manager.bareDisk
    source := Manager.zeroLink
    out := [47, 100]
    options := { only := [['a', '\r'], ['b']] }
    status := ⟨.replicate 20 0, .checking, [47, 100]⟩
    entry := { Manager.zeroEntry with options := { only := [['a', '\r'], ['b']] } }
    parsed := by decide +kernel
    added := by decide +kernel
    pushed := by decide +kernel }

/-- A file is added to a manager whose directory is `/` and a byte that is
no text. -/
def oddDirectory : @Added .zero .same :=
  let _ := Digests.zero
  let _ := Lowercase.same
  { line := addLine ['/', 'a'] []
    m := { store := some [47, 255] }
    disk := Manager.goodDisk Manager.oneByte
    source := ['/', 'a']
    out := [47, 100]
    options := {}
    status := ⟨.replicate 20 0, .checking, [47, 100]⟩
    entry := ⟨.replicate 20 0, .file (Manager.torrentPath [47, 255] (.replicate 20 0)), [47, 100],
      {}, none⟩
    parsed := by decide +kernel
    added := by decide +kernel
    pushed := by decide +kernel }

theorem readBack_iff_sample :
    let _ := Digests.zero
    let _ := Lowercase.same
    Entry.fromLine twoPatterns.entry.toLine = .ok twoPatterns.entry ∧
      parseEntries (entriesText [twoPatterns.entry]) = ([twoPatterns.entry], []) := by
  let _ := Digests.zero
  let _ := Lowercase.same
  have honly : Survives (some [47, 115]) Manager.zeroLink { only := [['a'], ['b']] } := by
    refine ⟨by decide, by decide, fun hfalse => ?_⟩
    exact absurd hfalse (by decide +kernel)
  have hsurvives : Survives twoPatterns.m.store twoPatterns.source twoPatterns.options := honly
  refine ⟨(readBack_iff.1 twoPatterns).2.2 hsurvives, (readBack_iff.2 [twoPatterns] ?_).2 ?_⟩
  · exact nodup_singleton _
  · intro a ha
    rw [mem_singleton] at ha
    exact ha ▸ hsurvives

/-- **Requests that are read back as others**: the first loses its carriage
return, the second its directory. -/
theorem read_back_as_others :
    let _ := Digests.zero
    let _ := Lowercase.same
    (∃ a : Added, Entry.fromLine a.entry.toLine =
        .ok { Manager.zeroEntry with options := { only := [['a'], ['b']] } } ∧
      a.entry.options.only = [['a', '\r'], ['b']]) ∧
    ∃ a : Added, Entry.fromLine a.entry.toLine ≠ .ok a.entry := by
  refine ⟨⟨carriageReturn, ?_, rfl⟩, ⟨oddDirectory, ?_⟩⟩ <;> decide +kernel

end Added

end BitTorrent.Daemon
