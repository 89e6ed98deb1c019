import BitTorrent.Bencode.Canonical
import BitTorrent.Disk.ReadBack
import BitTorrent.Torrent.Parse

/-!
# Where a torrent's files go

Two files of a torrent are *apart* when neither path is the other or a directory above it.
-/

namespace BitTorrent

open List Option

/-- **Apart**: neither path is the other, nor a directory above it. -/
def Apart (a b : List Name) : Prop := ¬ a <+: b ∧ ¬ b <+: a

instance (a b : List Name) : Decidable (Apart a b) := instDecidableAnd

theorem ordered_of_get {v w : Bencode} {key : List UInt8} (hv : v.Ordered)
    (h : v.get key = some w) : w.Ordered := by
  obtain ⟨entries, hdict, hlookup⟩ := bind_eq_some_iff.1 h
  obtain rfl : v = .dict entries := by
    cases v with
    | dict es => simpa [Bencode.asDict] using hdict
    | int | bytes | list => cases hdict
  rw [Bencode.Ordered] at hv
  replace hv := hv.2
  clear hdict h
  induction entries with
  | nil => cases hlookup
  | cons e entries ih =>
    obtain ⟨k, child⟩ := e
    rw [Bencode.OrderedEntries] at hv
    rw [lookup_cons] at hlookup
    split at hlookup
    · cases hlookup
      exact hv.1
    · exact ih hlookup hv.2

/-- What an accepted file is built from. -/
theorem built_of_parse [Digests] {data : Slice} {t : TorrentFile}
    (h : parseTorrentFile data = .ok t) : ∃ top entries info rawInfo,
      Bencode.decode data = .ok top ∧ top.asDict = some entries ∧
      top.get Key.info = some info ∧ info.Ordered ∧ findKeySpan data.1 Key.info = .ok rawInfo ∧
      buildTorrentFromInfo info rawInfo (outerOf top) = .ok t := by
  simp only [parseTorrentFile, bind_eq_ok_iff, liftDecode_eq_ok_iff, required_eq_ok_iff] at h
  obtain ⟨top, htop, entries, hdict, info, hinfo, rawInfo, hraw, h⟩ := h
  have hord := ordered_of_get ((Bencode.decode_eq_ok_iff data top).1 htop).2.2 hinfo
  exact ⟨top, entries, info, rawInfo, htop, hdict, hinfo, hord, hraw, h⟩

/-- What an accepted info dictionary is built from. -/
theorem built_of_dict [Digests] {rawInfo : Slice} {expectedInfoHash : Hash20}
    {announce : Option (List UInt8)} {announceList : List (List (List UInt8))} {t : TorrentFile}
    (h : fromInfoDictBytes rawInfo expectedInfoHash announce announceList = .ok t) :
    ∃ info, Bencode.decode rawInfo = .ok info ∧ info.Ordered ∧
      buildTorrentFromInfo info rawInfo.1 ⟨announce, announceList, [], none⟩ = .ok t := by
  simp only [fromInfoDictBytes, check_eq_ok_iff, bind_eq_ok_iff, liftDecode_eq_ok_iff] at h
  obtain ⟨-, info, hdecode, h⟩ := h
  exact ⟨info, hdecode, ((Bencode.decode_eq_ok_iff rawInfo info).1 hdecode).2.2, h⟩

namespace V2

variable {path : List Name}

/-- A file of the tree: where it is, that it has a root where it has bytes,
and that its length was one of 64 bits. -/
theorem leafFile_spec {leaf : Bencode} {f : V2File} (h : leafFile path leaf = .ok f) :
    f.path = path ∧ (0 < f.length ↔ f.root.isSome = true) ∧ f.length < 2 ^ 63 := by
  unfold leafFile at h
  split at h
  · cases h
  · rename_i length _
    rw [check_eq_ok_iff, bind_eq_ok_iff] at h
    obtain ⟨-, root, -, h⟩ := h
    rw [check_eq_ok_iff] at h
    obtain ⟨hroot, h⟩ := h
    cases h
    simp only [bne_iff_ne, ne_eq, not_not] at hroot
    refine ⟨rfl, by rw [← hroot, decide_eq_true_iff], ?_⟩
    have := length.toInt_lt
    dsimp only
    omega

mutual

variable {I : List V2File → Prop}

/-- **The rule for a walk**: what each file found keeps, within the limits
of the walk, the whole walk keeps. -/
theorem walk_rule (hleaf : ∀ path files leaf f, path.length ≤ maxTreeDepth →
      files.length < maxFiles → leafFile path leaf = .ok f → I files → I (files ++ [f]))
    {path : List Name} (hpath : path.length ≤ maxTreeDepth) {files : List V2File}
    (hfiles : I files) : ∀ (node : Bencode) (out : List V2File),
      walk path files node = .ok out → I out
  | .dict entries, out, h => by
    rw [walk] at h
    split at h
    · rw [check_eq_ok_iff, check_eq_ok_iff, bind_eq_ok_iff, not_le] at h
      obtain ⟨-, hroom, file, hfile, hout⟩ := h
      cases hout
      exact hleaf _ _ _ _ hpath hroom hfile hfiles
    · rw [check_eq_ok_iff, not_le] at h
      exact walkEntries_rule hleaf h.1 hfiles entries out h.2
  | .int _, _, h => by simp [walk] at h
  | .bytes _, _, h => by simp [walk] at h
  | .list _, _, h => by simp [walk] at h

theorem walkEntries_rule (hleaf : ∀ path files leaf f, path.length ≤ maxTreeDepth →
      files.length < maxFiles → leafFile path leaf = .ok f → I files → I (files ++ [f]))
    {path : List Name} (hpath : path.length < maxTreeDepth) {files : List V2File}
    (hfiles : I files) : ∀ (entries : Entries) (out : List V2File),
      walkEntries path files entries = .ok out → I out
  | [], out, h => by
    rw [walkEntries] at h
    cases h
    exact hfiles
  | (name, child) :: entries, out, h => by
    rw [walkEntries, check_eq_ok_iff, check_eq_ok_iff, bind_eq_ok_iff] at h
    obtain ⟨-, -, mid, hchild, hrest⟩ := h
    have hlen : (path ++ [name]).length ≤ maxTreeDepth := by
      rw [length_append, length_singleton]
      omega
    exact walkEntries_rule hleaf hpath (walk_rule hleaf hlen hfiles child mid hchild) entries out
      hrest

end

/-- What holds of every file that a leaf describes holds of every file of a
tree. -/
theorem parseFileTree_all {P : V2File → Prop}
    (hleaf : ∀ path leaf f, leafFile path leaf = .ok f → P f) {tree : Bencode}
    {files : List V2File} (h : parseFileTree tree = .ok files) : ∀ f ∈ files, P f :=
  walk_rule (I := fun files => ∀ f ∈ files, P f)
    (fun _ _ _ _ _ _ hfile hfiles => forall_mem_append.2 ⟨hfiles,
      forall_mem_singleton.2 (hleaf _ _ _ hfile)⟩) (Nat.zero_le _) (by simp) tree files h

/-- The files found under a directory: they are under it, their names
are safe, and they are apart. -/
structure Found (path : List Name) (new : List V2File) : Prop where
  under : ∀ f ∈ new, path <+: f.path
  named : ∀ f ∈ new, f.path ≠ []
  safe : ∀ f ∈ new, ∀ c ∈ f.path, isSafeComponent c = true
  apart : (new.map V2File.path).Pairwise Apart

theorem apart_of_ne {k k' : Name} (hne : k ≠ k') {a b : List Name}
    (ha : path ++ [k] <+: a) (hb : path ++ [k'] <+: b) : Apart a b := by
  obtain ⟨u, rfl⟩ := ha
  obtain ⟨v, rfl⟩ := hb
  simp only [Apart, append_assoc, prefix_append_right_inj, singleton_append, cons_prefix_cons]
  exact ⟨fun h => hne h.1, fun h => hne h.1.symm⟩

mutual

theorem walk_found (path : List Name) (hpath : ∀ c ∈ path, isSafeComponent c = true)
    (files : List V2File) : ∀ (node : Bencode) (out : List V2File), node.Ordered →
      walk path files node = .ok out → ∃ new, out = files ++ new ∧ Found path new
  | .dict entries, out, hord, h => by
    rw [walk] at h
    rw [Bencode.Ordered] at hord
    split at h
    · rename_i leaf _
      rw [check_eq_ok_iff, check_eq_ok_iff, bind_eq_ok_iff] at h
      obtain ⟨hbeside, -, f, hf, hout⟩ := h
      cases hout
      have hp := (leafFile_spec hf).1
      refine ⟨[f], rfl, ⟨?_, ?_, ?_, by simp⟩⟩
      · simp [hp]
      · simp only [mem_singleton, forall_eq, hp]
        exact fun h => hbeside (.inr h)
      · simpa [hp] using hpath
    · rw [check_eq_ok_iff] at h
      obtain ⟨new, hnew, hfound, -⟩ :=
        walkEntries_found path hpath files entries out hord.1 hord.2 h.2
      exact ⟨new, hnew, hfound⟩
  | .int _, _, _, h => by simp [walk] at h
  | .bytes _, _, _, h => by simp [walk] at h
  | .list _, _, _, h => by simp [walk] at h

theorem walkEntries_found (path : List Name) (hpath : ∀ c ∈ path, isSafeComponent c = true)
    (files : List V2File) : ∀ (entries : Entries) (out : List V2File),
      (entries.map Prod.fst).Pairwise (· < ·) → Bencode.OrderedEntries entries →
      walkEntries path files entries = .ok out →
      ∃ new, out = files ++ new ∧ Found path new ∧
        ∀ f ∈ new, ∃ k ∈ entries.map Prod.fst, path ++ [k] <+: f.path
  | [], out, _, _, h => by
    rw [walkEntries] at h
    cases h
    exact ⟨[], by simp, ⟨by simp, by simp, by simp, by simp⟩, by simp⟩
  | (name, child) :: entries, out, hkeys, hord, h => by
    rw [walkEntries, check_eq_ok_iff, check_eq_ok_iff, bind_eq_ok_iff] at h
    obtain ⟨-, hsafe, mid, hchild, hrest⟩ := h
    rw [Bencode.OrderedEntries] at hord
    rw [map_cons, pairwise_cons] at hkeys
    have hpath' : ∀ c ∈ path ++ [name], isSafeComponent c = true :=
      forall_mem_append.2 ⟨hpath, forall_mem_singleton.2 (by simpa using hsafe)⟩
    obtain ⟨new₁, rfl, hf₁⟩ := walk_found (path ++ [name]) hpath' files child mid hord.1 hchild
    obtain ⟨new₂, rfl, hf₂, hunder₂⟩ :=
      walkEntries_found path hpath (files ++ new₁) entries out hkeys.2 hord.2 hrest
    refine ⟨new₁ ++ new₂, by simp, ⟨?_, ?_, ?_, ?_⟩, ?_⟩
    · intro f hf
      rcases mem_append.1 hf with hf | hf
      · exact (prefix_append path [name]).trans (hf₁.under f hf)
      · exact hf₂.under f hf
    · intro f hf
      rcases mem_append.1 hf with hf | hf
      · exact hf₁.named f hf
      · exact hf₂.named f hf
    · intro f hf
      rcases mem_append.1 hf with hf | hf
      · exact hf₁.safe f hf
      · exact hf₂.safe f hf
    · rw [map_append, pairwise_append]
      refine ⟨hf₁.apart, hf₂.apart, ?_⟩
      intro a ha b hb
      obtain ⟨f, hf, rfl⟩ := List.mem_map.1 ha
      obtain ⟨f', hf', rfl⟩ := List.mem_map.1 hb
      -- one lies under this name, the other under a later one
      obtain ⟨k, hk, hunder⟩ := hunder₂ f' hf'
      refine apart_of_ne ?_ (hf₁.under f hf) hunder
      rintro rfl
      exact List.lt_irrefl _ (hkeys.1 _ hk)
    · intro f hf
      rcases mem_append.1 hf with hf | hf
      · exact ⟨name, by simp, hf₁.under f hf⟩
      · obtain ⟨k, hk, hunder⟩ := hunder₂ f hf
        exact ⟨k, by simp only [map_cons, mem_cons, hk, or_true], hunder⟩

end

theorem parseFileTree_found {tree : Bencode} {files : List V2File} (hord : tree.Ordered)
    (h : parseFileTree tree = .ok files) : Found [] files := by
  obtain ⟨new, rfl, hfound⟩ := walk_found [] (by simp) [] tree files hord h
  simpa using hfound

end V2

/-- The paths that an info dictionary lists for files that are not
padding. The `length` form lists none. -/
def listedPaths (info : Bencode) : List (List Name) :=
  match (info.get Key.length).bind Bencode.asInt, (info.get Key.files).bind Bencode.asList with
  | none, some fileList => (fileList.filter fun f => !isPaddingEntry f).filterMap entryPath
  | _, _ => []

/-- **The paths listed are apart**, or the files are those of a tree and
no list is read. -/
def ListedApart (info : Bencode) : Prop :=
  ((fileTreeOf info).isSome = true ∧ info.get Key.pieces = none) ∨
    (listedPaths info).Pairwise Apart

/-- What was read of each file of a torrent: its path and length, and
whether it is padding. -/
structure Parsed (t : TorrentFile) (parsed : List ((List Name × ℕ) × Bool)) : Prop where
  files : t.files = parsed.map Prod.fst
  padding : t.padding = parsed.map Prod.snd
  safe : ∀ o ∈ parsed, ∀ c ∈ o.1.1, isSafeComponent c = true
  -- a v2 torrent has no padding, so its table's flags are its files'
  noPadding : t.isV2Only = true → ∀ o ∈ parsed, o.2 = false

/-- The paths of the files that are not padding. -/
def realPaths (parsed : List ((List Name × ℕ) × Bool)) : List (List Name) :=
  (parsed.filter fun o => !o.2).map fun o => o.1.1

theorem parseFile_spec {f : Bencode} {o : (List Name × ℕ) × Bool} (h : parseFile f = .ok o) :
    entryPath f = some o.1.1 ∧ o.2 = isPaddingEntry f ∧ ∀ c ∈ o.1.1, isSafeComponent c = true := by
  unfold parseFile at h
  simp only [bind_eq_ok_iff, check_eq_ok_iff, required_eq_ok_iff] at h
  obtain ⟨length, -, -, path, hpath, -, h⟩ := h
  split at h
  · cases h
  · rename_i hfind
    cases h
    refine ⟨hpath, rfl, fun c hc => ?_⟩
    simpa using find?_eq_none.1 hfind c hc

variable {parsed : List ((List Name × ℕ) × Bool)} {fileList : List Bencode}

theorem mapM_parseFile (h : fileList.mapM parseFile = .ok parsed) :
    List.Forall₂ (fun f o => parseFile f = .ok o) fileList parsed := by
  induction fileList generalizing parsed with
  | nil =>
    cases h
    exact List.Forall₂.nil
  | cons f fileList ih =>
    simp only [mapM_cons, bind_eq_ok_iff] at h
    obtain ⟨o, ho, rest, hrest, h⟩ := h
    cases h
    exact List.Forall₂.cons ho (ih hrest)

theorem realPaths_of_forall₂ (h : List.Forall₂ (fun f o => parseFile f = .ok o) fileList parsed) :
    realPaths parsed = (fileList.filter fun f => !isPaddingEntry f).filterMap entryPath ∧
      ∀ o ∈ parsed, ∀ c ∈ o.1.1, isSafeComponent c = true := by
  induction h with
  | nil => exact ⟨rfl, by simp⟩
  | @cons f o fileList parsed ho _ ih =>
    obtain ⟨hpath, hpad, hsafe⟩ := parseFile_spec ho
    obtain ⟨ih, ihsafe⟩ := ih
    refine ⟨?_, forall_mem_cons.2 ⟨hsafe, ihsafe⟩⟩
    unfold realPaths at ih ⊢
    cases hp : isPaddingEntry f with
    | true =>
      rw [filter_cons_of_neg (by simp [hpad, hp]), filter_cons_of_neg (by simp [hp]), ih]
    | false =>
      rw [filter_cons_of_pos (by simp [hpad, hp]), filter_cons_of_pos (by simp [hp]),
        map_cons, filterMap_cons_some hpath, ih]

variable {info : Bencode} {name : Name}

theorem parseFiles_spec (hname : isSafeComponent name = true)
    {files : List (List Name × ℕ)} {padding : List Bool}
    (h : parseFiles info name = .ok (files, padding)) :
    ∃ parsed, files = parsed.map Prod.fst ∧ padding = parsed.map Prod.snd ∧
      (∀ o ∈ parsed, ∀ c ∈ o.1.1, isSafeComponent c = true) ∧
      ((realPaths parsed).Pairwise Apart ↔ (listedPaths info).Pairwise Apart) := by
  unfold parseFiles at h
  unfold listedPaths
  cases hlen : (info.get Key.length).bind Bencode.asInt with
  | some len =>
    simp only [hlen, check_eq_ok_iff, Except.ok.injEq, Prod.mk.injEq] at h
    obtain ⟨-, rfl, rfl⟩ := h
    exact ⟨[(([name], _), false)], rfl, rfl, by simpa using hname, by simp [realPaths]⟩
  | none =>
    simp only [hlen] at h
    cases hfiles : (info.get Key.files).bind Bencode.asList with
    | none => simp [hfiles] at h
    | some fileList =>
      simp only [hfiles, bind_eq_ok_iff] at h
      obtain ⟨parsed, hparsed, h⟩ := h
      cases h
      obtain ⟨hpaths, hsafe⟩ := realPaths_of_forall₂ (mapM_parseFile hparsed)
      exact ⟨parsed, rfl, rfl, hsafe, by rw [hpaths]⟩

theorem parseName_safe (h : parseName info = .ok name) : isSafeComponent name = true := by
  simp only [parseName, bind_eq_ok_iff, check_eq_ok_iff] at h
  obtain ⟨_, -, hsafe, h⟩ := h
  cases h
  simpa using hsafe

section

variable [Digests] {rawInfo : List UInt8}

omit [Digests] in
theorem ordered_of_fileTreeOf {tree : Bencode} (hord : info.Ordered)
    (h : fileTreeOf info = some tree) : tree.Ordered := by
  unfold fileTreeOf at h
  split at h
  · exact ordered_of_get hord h
  · cases h

variable {t : TorrentFile}

theorem buildTorrentFromInfo_parsed {outer : Outer} (hord : info.Ordered)
    (h : buildTorrentFromInfo info rawInfo outer = .ok t) :
    ∃ parsed, Parsed t parsed ∧ ((realPaths parsed).Pairwise Apart ↔ ListedApart info) := by
  obtain ⟨rfl, hv1 | ⟨tree, md, hv2⟩⟩ := built_cases h
  · -- where there are v1 hashes, it is the list that counts
    obtain ⟨parsed, hf, hp, hsafe, hiff⟩ := parseFiles_spec (parseName_safe hv1.name) hv1.files
    have hsome := isSome_iff_ne_none.1 hv1.hashed
    refine ⟨parsed, ⟨hf, hp, hsafe, fun hv2 => ?_⟩, hiff.trans ⟨.inr, ?_⟩⟩
    · simp [TorrentFile.isV2Only, hsome] at hv2
    · rintro (⟨-, hnone⟩ | hlist)
      · exact absurd hnone hsome
      · exact hlist
  · have hfound := V2.parseFileTree_found (ordered_of_fileTreeOf hord hv2.found)
      (v2Meta_spec hv2.read).1
    refine ⟨md.files.map fun f => ((f.path, f.length), false), ⟨?_, ?_, ?_, ?_⟩,
      iff_of_true ?_ (.inl ⟨by simp [hv2.found], hv2.unhashed⟩)⟩
    · simp [hv2.files]
    · simp [hv2.padding, hv2.files, Function.comp_def]
    · intro o ho
      obtain ⟨f, hf, rfl⟩ := List.mem_map.1 ho
      exact hfound.safe f hf
    · intro _ o ho
      obtain ⟨f, hf, rfl⟩ := List.mem_map.1 ho
      rfl
    · simpa [realPaths, List.filter_map, Function.comp_def] using hfound.apart

end

/-- The paths of a table of files, padding left out. -/
def diskPaths (spans : List FileSpan) : List Path :=
  (spans.filter fun s => !s.padding).map FileSpan.path

/-- **Where a byte of the torrent is written**: a file, and the offset in
it. Padding is not written. -/
def located (spans : List FileSpan) (g : ℕ) : Option (Path × ℕ) :=
  (spanAt spans g).bind fun s => if s.padding then none else some (s.path, g - s.start)

variable {spans : List FileSpan}

theorem located_inj (h : Laid spans) (hd : DistinctPaths spans) {g g' : ℕ}
    {place : Path × ℕ} (hg : located spans g = some place) (hg' : located spans g' = some place) :
    g = g' := by
  unfold located at hg hg'
  obtain ⟨s, hs, hg⟩ := bind_eq_some_iff.1 hg
  obtain ⟨s', hs', hg'⟩ := bind_eq_some_iff.1 hg'
  obtain ⟨hmem, hstart, -⟩ := h.spanAt_eq_some_iff.1 hs
  obtain ⟨hmem', hstart', -⟩ := h.spanAt_eq_some_iff.1 hs'
  split at hg
  · cases hg
  · split at hg'
    · cases hg'
    · rename_i hp hp'
      cases hg
      obtain ⟨hpath, hoff⟩ : s'.path = s.path ∧ g' - s'.start = g - s.start := by simpa using hg'
      obtain rfl := hd.eq_of_path_eq hmem' hmem (by simpa using hp') (by simpa using hp) hpath
      omega

theorem diskPaths_layFiles (base : Path) {padding : ℕ → Bool} (next : ℕ → ℕ) : ∀ index cursor,
      (∀ o ∈ parsed, ∀ c ∈ o.1.1, isSafeComponent c = true) →
      (∀ i < parsed.length, padding (index + i) = (parsed.map Prod.snd).getD i false) →
      diskPaths (layFiles base padding next index cursor (parsed.map Prod.fst)) =
        (realPaths parsed).map (base ++ ·) := by
  induction parsed with
  | nil => exact fun _ _ _ _ => rfl
  | cons o parsed ih =>
    intro index cursor hsafe hpad
    rw [forall_mem_cons] at hsafe
    have hhead : padding index = o.2 := hpad 0 (by simp)
    have hrest := ih (index + 1) (next (cursor + o.1.2)) hsafe.2 fun i hi => by
      have := hpad (i + 1) (by simpa using hi)
      rw [Nat.add_right_comm, Nat.add_assoc, this]
      rfl
    unfold diskPaths realPaths at hrest ⊢
    rw [map_cons, layFiles, foldl_join_of_isSafeComponent hsafe.1, hhead]
    cases hp : o.2 with
    | true => rw [filter_cons_of_neg (by simp), filter_cons_of_neg (by simp [hp]), hrest]
    | false =>
      rw [filter_cons_of_pos (by simp), filter_cons_of_pos (by simp [hp])]
      simp only [map_cons, hrest]

theorem Parsed.diskPaths_fileSpans (h : Parsed t parsed) (base : Path) :
    diskPaths (t.fileSpans base) = (realPaths parsed).map (base ++ ·) := by
  unfold TorrentFile.fileSpans
  split
  · rename_i hv2
    rw [buildFileSpansAligned, h.files]
    refine diskPaths_layFiles base _ 0 0 h.safe fun i hi => ?_
    rw [getD_eq_getElem?_getD, getElem?_map, getElem?_eq_getElem hi,
      map_some, getD_some, h.noPadding hv2 _ (getElem_mem hi)]
  · rw [buildFileSpansPadded, h.files]
    refine diskPaths_layFiles base _ 0 0 h.safe fun i _ => ?_
    rw [Nat.zero_add, h.padding]

theorem pairwise_apart_map_append (base : Path) (paths : List (List Name)) :
    (paths.map (base ++ ·)).Pairwise Apart ↔ paths.Pairwise Apart := by
  rw [pairwise_map]
  unfold Apart
  simp only [prefix_append_right_inj]

theorem TorrentFile.isTable_fileSpans (t : TorrentFile) (base : Path) :
    IsTable (t.fileSpans base) := by
  unfold TorrentFile.fileSpans
  split
  · exact .inr ⟨_, _, _, rfl⟩
  · exact .inl ⟨_, _, _, rfl⟩

theorem distinctPaths_of_apart (h : (diskPaths spans).Pairwise Apart) : DistinctPaths spans := by
  refine h.imp ?_
  rintro a b hab rfl
  exact hab.1 prefix_rfl

/-- **The files of a torrent are separate**, whatever directory they go
to: no two have one path or a path inside the other's, and a place in a
file belongs to one byte of the torrent. -/
structure TorrentFile.Separate (t : TorrentFile) : Prop where
  apart : ∀ base, (diskPaths (t.fileSpans base)).Pairwise Apart
  place : ∀ base g g' place, located (t.fileSpans base) g = some place →
    located (t.fileSpans base) g' = some place → g = g'

theorem Parsed.separate_iff
    (h : Parsed t parsed) : t.Separate ↔ (realPaths parsed).Pairwise Apart := by
  have hpaths : ∀ base, (diskPaths (t.fileSpans base)).Pairwise Apart ↔
      (realPaths parsed).Pairwise Apart := by
    intro base
    rw [h.diskPaths_fileSpans base, pairwise_apart_map_append]
  constructor
  · exact fun hsep => (hpaths []).1 (hsep.apart [])
  · intro hreal
    refine ⟨fun base => (hpaths base).2 hreal, fun base g g' place => ?_⟩
    exact located_inj (t.isTable_fileSpans base).laid
      (distinctPaths_of_apart ((hpaths base).2 hreal))

/-- **When the files of an accepted torrent are separate**: exactly when
it has a file tree and no v1 hashes, or the paths listed for files that
are not padding are apart. The list is not checked for that. -/
theorem separate_iff_listedApart [Digests] :
    (∀ (data : Slice) t, parseTorrentFile data = .ok t →
      ∃ top info, Bencode.decode data = .ok top ∧ top.get Key.info = some info ∧
        (t.Separate ↔ ListedApart info)) ∧
    ∀ (rawInfo : Slice) expectedInfoHash announce announceList t,
      fromInfoDictBytes rawInfo expectedInfoHash announce announceList = .ok t →
      ∃ info, Bencode.decode rawInfo = .ok info ∧ (t.Separate ↔ ListedApart info) := by
  constructor
  · intro data t h
    obtain ⟨top, _, info, _, htop, -, hinfo, hord, -, hbuild⟩ := built_of_parse h
    obtain ⟨parsed, hparsed, hiff⟩ := buildTorrentFromInfo_parsed hord hbuild
    exact ⟨top, info, htop, hinfo, hparsed.separate_iff.trans hiff⟩
  · intro rawInfo hash announce announceList t h
    obtain ⟨info, hdecode, hord, hbuild⟩ := built_of_dict h
    obtain ⟨parsed, hparsed, hiff⟩ := buildTorrentFromInfo_parsed hord hbuild
    exact ⟨info, hdecode, hparsed.separate_iff.trans hiff⟩

/-- A torrent file that lists the path `a` twice, for two files of one
byte each. -/
def sameNameTwice : List UInt8 :=
  ascii "d4:infod5:filesld6:lengthi1e4:pathl1:aeed6:lengthi1e4:pathl1:aeee4:name1:n" ++
    ascii "12:piece lengthi16384e6:pieces20:" ++ List.replicate 20 0 ++ ascii "ee"

/-- **Two files of one path are accepted.** -/
theorem parseTorrentFile_sameNameTwice :
    ∃ (data : Slice) (t : TorrentFile),
      @parseTorrentFile Digests.zero data = .ok t ∧ ¬ t.Separate := by
  let _ := Digests.zero
  let data : Slice := ⟨sameNameTwice, by decide +kernel⟩
  have hok : ∃ t ∈ (parseTorrentFile data).toOption,
      ¬ (diskPaths (t.fileSpans [])).Pairwise Apart := by
    decide +kernel
  obtain ⟨t, ht, hnot⟩ := exists_ok hok
  exact ⟨data, t, ht, fun hsep => hnot (hsep.apart [])⟩

end BitTorrent
