import BitTorrent.Torrent.Pieces

/-!
# Names stay below the directory

The names of an accepted torrent reach the disk by three routes: the one name of the `length`
form, the path lists of the `files` form, and the names met on the way down a v2 file tree.
-/

namespace BitTorrent

open List

/-- **A plain name**: neither empty nor a step to this directory or the
one above, with no separator of either kind and no NUL. -/
structure Plain (c : Name) : Prop where
  nonempty : c ≠ []
  notHere : c ≠ [46]
  notAbove : c ≠ [46, 46]
  noSlash : 47 ∉ c
  noBackslash : 92 ∉ c
  noNul : 0 ∉ c

theorem plain_of_isSafeComponent {c : Name} (h : isSafeComponent c = true) : Plain c := by
  simp only [isSafeComponent, Bool.and_eq_true, bne_iff_ne, Bool.not_eq_true',
    Bool.or_eq_false_iff, contains_eq_mem, decide_eq_false_iff_not] at h
  obtain ⟨⟨⟨hne, ⟨hslash, hback⟩, hnul⟩, hdot⟩, hdots⟩ := h
  exact ⟨hne, hdot, hdots, hslash, hback, hnul⟩

/-- A path that names something below the directory it is joined to. -/
def SafePath (path : List Name) : Prop := path ≠ [] ∧ ∀ c ∈ path, isSafeComponent c = true

/-- **The names of a torrent are safe**: its own, those of its files, and
those of the files of its tree where it has one. -/
structure TorrentFile.Named (t : TorrentFile) : Prop where
  name : isSafeComponent t.name = true
  files : ∀ f ∈ t.files, SafePath f.1
  tree : ∀ md, t.v2 = some md → ∀ f ∈ md.files, SafePath f.path

theorem parseFile_safePath {f : Bencode} {o : (List Name × ℕ) × Bool} (h : parseFile f = .ok o) :
    SafePath o.1.1 := by
  refine ⟨?_, (parseFile_spec h).2.2⟩
  unfold parseFile at h
  simp only [bind_eq_ok_iff, check_eq_ok_iff, required_eq_ok_iff] at h
  obtain ⟨length, -, -, path, -, hne, h⟩ := h
  split at h
  · cases h
  · cases h
    exact hne

theorem safePath_of_forall₂ {fileList : List Bencode} {parsed : List ((List Name × ℕ) × Bool)}
    (h : List.Forall₂ (fun f o => parseFile f = .ok o) fileList parsed) :
    ∀ o ∈ parsed, SafePath o.1.1 := by
  induction h with
  | nil => simp
  | cons ho _ ih => exact forall_mem_cons.2 ⟨parseFile_safePath ho, ih⟩

variable {files : List (List Name × ℕ)}

theorem parseFiles_safePath {info : Bencode} {name : Name} (hname : isSafeComponent name = true)
    {padding : List Bool}
    (h : parseFiles info name = .ok (files, padding)) : ∀ f ∈ files, SafePath f.1 := by
  unfold parseFiles at h
  split at h
  · simp only [check_eq_ok_iff, Except.ok.injEq, Prod.mk.injEq] at h
    obtain ⟨-, rfl, -⟩ := h
    simpa [SafePath] using hname
  · split at h
    · rw [bind_eq_ok_iff] at h
      obtain ⟨parsed, hparsed, h⟩ := h
      cases h
      intro f hf
      obtain ⟨o, ho, rfl⟩ := mem_map.1 hf
      exact safePath_of_forall₂ (mapM_parseFile hparsed) o ho
    · cases h

section

variable [Digests] {rawInfo : List UInt8} {info : Bencode}

theorem buildTorrentFromInfo_named {outer : Outer} {t : TorrentFile} (hord : info.Ordered)
    (h : buildTorrentFromInfo info rawInfo outer = .ok t) : t.Named := by
  have htree : ∀ {tree md layers}, fileTreeOf info = some tree →
      v2Meta info tree rawInfo layers = .ok md → ∀ f ∈ md.files, SafePath f.path :=
    fun htree hread f hf =>
      have hfound := V2.parseFileTree_found (ordered_of_fileTreeOf hord htree) (v2Meta_spec hread).1
      ⟨hfound.named f hf, hfound.safe f hf⟩
  obtain ⟨-, hv1 | ⟨tree, md, hv2⟩⟩ := built_cases h
  · have hname := parseName_safe hv1.name
    refine ⟨hname, parseFiles_safePath hname hv1.files, fun md hmd => ?_⟩
    obtain ⟨tree, hfound, hread⟩ := hv1.tree md hmd
    exact htree hfound hread
  · have hsafe := htree hv2.found hv2.read
    refine ⟨parseName_safe hv2.name, fun f hf => ?_, fun md' hmd => ?_⟩
    · rw [hv2.files] at hf
      obtain ⟨file, hfile, rfl⟩ := mem_map.1 hf
      exact hsafe file hfile
    · cases hv2.v2.symm.trans hmd
      exact hsafe

namespace TorrentFile

variable {t : TorrentFile}

theorem Named.installLayers {t' : TorrentFile} {layers : V2.Layers} (hn : t.Named)
    (h : t.installLayers layers = .ok t') : t'.Named := by
  obtain ⟨md, v2Pieces, hmd, -, -, rfl⟩ := of_installLayers h
  refine ⟨hn.name, hn.files, ?_⟩
  rintro _ ⟨⟩
  exact hn.tree md hmd

theorem Accepted.named (h : t.Accepted) : t.Named :=
  h.rule buildTorrentFromInfo_named fun _ hn _ _ h => hn.installLayers h

end TorrentFile

end

variable {s : FileSpan} {base : Path}

theorem path_of_mem_layFiles {padding : ℕ → Bool} {next : ℕ → ℕ}
    (hsafe : ∀ f ∈ files, SafePath f.1) :
    ∀ index cursor, s ∈ layFiles base padding next index cursor files →
      ∃ f ∈ files, s.path = base ++ f.1 := by
  induction files with
  | nil => simp [layFiles]
  | cons f files ih =>
    intro index cursor hs
    rw [forall_mem_cons] at hsafe
    rw [layFiles, mem_cons] at hs
    rcases hs with rfl | hs
    · exact ⟨f, by simp, foldl_join_of_isSafeComponent hsafe.1.2 base⟩
    · obtain ⟨g, hg, hpath⟩ := ih hsafe.2 _ _ hs
      exact ⟨g, by simp [hg], hpath⟩

theorem TorrentFile.Named.path_of_mem_fileSpans {t : TorrentFile} (h : t.Named)
    (hs : s ∈ t.fileSpans base) : ∃ f ∈ t.files, s.path = base ++ f.1 := by
  unfold fileSpans at hs
  split at hs <;> exact path_of_mem_layFiles h.files 0 0 hs

/-- **The files of an accepted torrent lie strictly below the directory**
they are put in, by plain names alone, and so is the torrent's own name
plain. -/
theorem accepted_confined [Digests] {t : TorrentFile} (h : t.Accepted) :
    Plain t.name ∧ (∀ f ∈ t.files, ∀ c ∈ f.1, Plain c) ∧
      (∀ md, t.v2 = some md → ∀ f ∈ md.files, ∀ c ∈ f.path, Plain c) ∧
      ∀ base, ∀ s ∈ t.fileSpans base,
        ∃ below, below ≠ [] ∧ (∀ c ∈ below, Plain c) ∧ s.path = base ++ below := by
  have hn := h.named
  have hplain : ∀ path, SafePath path → ∀ c ∈ path, Plain c :=
    fun path hpath c hc => plain_of_isSafeComponent (hpath.2 c hc)
  refine ⟨plain_of_isSafeComponent hn.name, fun f hf => hplain _ (hn.files f hf),
    fun md hmd f hf => hplain _ (hn.tree md hmd f hf), fun base s hs => ?_⟩
  obtain ⟨f, hf, hpath⟩ := hn.path_of_mem_fileSpans hs
  exact ⟨f.1, (hn.files f hf).1, hplain _ (hn.files f hf), hpath⟩

theorem accepted_confined_sample :
    ∃ (data : Slice) (t : TorrentFile), @parseTorrentFile Digests.zero data = .ok t ∧
      t.files = [([[97]], 1), ([[97]], 1)] ∧ Plain t.name ∧
      ∀ s ∈ t.fileSpans [[98]],
        ∃ below, below ≠ [] ∧ (∀ c ∈ below, Plain c) ∧ s.path = [98] :: below := by
  let _ := Digests.zero
  let data : Slice := ⟨sameNameTwice, by decide +kernel⟩
  have hok : ∃ t ∈ (parseTorrentFile data).toOption, t.files = [([[97]], 1), ([[97]], 1)] := by
    decide +kernel
  obtain ⟨t, ht, hfiles⟩ := exists_ok hok
  obtain ⟨hname, -, -, hspans⟩ := accepted_confined (.parsed ht)
  exact ⟨data, t, ht, hfiles, hname, hspans [[98]]⟩

end BitTorrent
