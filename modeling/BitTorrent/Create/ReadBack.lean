import BitTorrent.Create.Hashing
import BitTorrent.Create.Written
import BitTorrent.Session.Download
import BitTorrent.Torrent.Tiling

/-!
# A v1 torrent is read back

What `create` makes in the v1 form is a torrent of the files it was given: the parser accepts it
and finds the same name, files and lengths, and each piece of the files, read through the spans
that the torrent lays out, has the hash that is listed for it.
-/

namespace BitTorrent

open List Option Digests TorrentFile

open Bencode (lookup_insertEntry lookup_insertSome IsValue isValue_bytes isValue_int isValue_list)

section

variable {spans : List FileSpan} {fs : FileSystem}

theorem Laid.shows_span (h : Laid spans) {s : FileSpan} (hs : s ∈ spans)
    (hp : s.padding = false) {bytes : List UInt8} (hbytes : fs.bytesOf s.path = some bytes)
    (hstop : s.stop = s.start + bytes.length) : Shows spans fs s.start bytes := by
  intro i hi
  have hat : spanAt spans (s.start + i) = some s := h.spanAt_eq_some_iff.2 ⟨hs, by omega, by omega⟩
  rw [view, hat, bind_some, hp, if_neg Bool.false_ne_true, byteAt, hbytes,
    bind_some, Nat.add_sub_cancel_left]

variable {base : Path}

theorem Laid.shows_layFiles (h : Laid spans) {padding : ℕ → Bool}
    (hpadding : ∀ i, padding i = false) : ∀ (files : List (List Name × List UInt8))
    (index cursor : ℕ),
    (∀ s ∈ layFiles base padding id index cursor (files.map fun f => (f.1, f.2.length)),
      s ∈ spans) →
    (∀ f ∈ files, fs.bytesOf (f.1.foldl Path.join base) = some f.2) →
      Shows spans fs cursor (files.map Prod.snd).flatten
  | [], _, _, _, _ => fun _ hi => absurd hi (Nat.not_lt_zero _)
  | (path, bytes) :: files, index, cursor, hmem, hdisk => by
    rw [map_cons, layFiles, forall_mem_cons] at hmem
    rw [forall_mem_cons] at hdisk
    rw [map_cons, flatten_cons, shows_append]
    refine ⟨h.shows_span hmem.1 (hpadding index) hdisk.1 rfl, ?_⟩
    exact h.shows_layFiles hpadding files (index + 1) (cursor + bytes.length) hmem.2 hdisk.2

end

namespace Create

section

variable {name : Name} {pieceLength total : ℕ} {pieces : List UInt8} {priv multiFile : Bool}
  {entries : List Entry}

theorem isValue_fileEntry (e : Entry) : IsValue 2 (fileEntry e) := by
  refine (Bencode.IsDict.nil.insertValue (isValue_int _) |>.insertValue ?_).isValue
  refine isValue_list fun v hv => ?_
  obtain ⟨part, -, rfl⟩ := List.mem_map.1 hv
  exact isValue_bytes part

theorem isValue_infoV1 :
    IsValue 4 (infoV1 name pieceLength pieces priv multiFile entries total) := by
  have hpriv : ∀ v, (if priv then some (Bencode.int 1) else none) = some v → IsValue 3 v := by
    intro v hv
    split at hv
    · cases hv
      exact isValue_int 1
    · cases hv
  have hfiles : IsValue 3 (.list (entries.map fileEntry)) := by
    refine isValue_list fun v hv => ?_
    obtain ⟨e, -, rfl⟩ := List.mem_map.1 hv
    exact isValue_fileEntry e
  have hdict := ((Bencode.IsDict.nil.insertValue (k := Key.name) (isValue_bytes name)).insertValue
    (k := Key.pieceLength) (isValue_int (.ofNat pieceLength))).insertValue (k := Key.pieces)
      (isValue_bytes pieces) |>.insertSomeValue (k := Key.priv) hpriv
  refine Bencode.IsDict.isValue ?_
  split
  · exact hdict.insertValue hfiles
  · exact hdict.insertValue (isValue_int _)

variable {info : Bencode}

theorem get_infoV1 (h : infoV1 name pieceLength pieces priv multiFile entries total = info) :
    info.get Key.name = some (text name) ∧
      info.get Key.pieceLength = some (.int (.ofNat pieceLength)) ∧
      info.get Key.pieces = some (.bytes pieces) ∧ info.get Key.metaVersion = none ∧
      info.get Key.length = (if multiFile then none else some (.int (.ofNat total))) ∧
      info.get Key.files = if multiFile then some (.list (entries.map fileEntry)) else none := by
  subst h
  cases multiFile <;>
    simp +decide only [infoV1, Bencode.get, Bencode.asDict, bind_some, lookup_insertEntry,
      lookup_insertSome, lookup_nil, ↓reduceIte, and_self]

theorem parseFile_fileEntry {e : Entry} (hlen : e.length < 2 ^ 63) (hne : e.path ≠ [])
    (hnames : Nameable e.path) : parseFile (fileEntry e) = .ok ((e.path, e.length), false) := by
  have hlength : (fileEntry e).get Key.length = some (.int (.ofNat e.length)) := by
    rw [fileEntry, Bencode.get, Bencode.asDict, bind_some, lookup_insertEntry, lookup_insertEntry]
    rfl
  have hpath : entryPath (fileEntry e) = some e.path := by
    rw [entryPath, fileEntry, Bencode.get, Bencode.asDict, bind_some, lookup_insertEntry,
      if_pos rfl, bind_some, Bencode.asList, map_some,
      filterMap_asStr_text fun part hpart => (hnames part hpart).1]
  have hattr : isPaddingEntry (fileEntry e) = false := by
    rw [isPaddingEntry, fileEntry, Bencode.get, Bencode.asDict, bind_some,
      lookup_insertEntry, lookup_insertEntry]
    rfl
  have hsafe : e.path.find? (fun part => !isSafeComponent part) = none := by
    rw [find?_eq_none]
    intro part hpart
    rw [(hnames part hpart).2]
    decide
  rw [parseFile, hlength, hpath, hattr]
  simp only [bind_some, Bencode.asInt, required, bind, Except.bind,
    if_neg (not_ofNat_lt_zero hlen), if_neg hne, toNat_toInt_ofNat hlen, hsafe]
  rfl

theorem parseFiles_infoV1 (h : infoV1 name pieceLength pieces priv multiFile entries total = info)
    (htotal : total < 2 ^ 63) (hsum : (entries.map Entry.length).sum = total)
    (hnames : ∀ e ∈ entries, e.path ≠ [] ∧ Nameable e.path)
    (hsingle : multiFile = false → entries.map Entry.path = [[name]]) :
    parseFiles info name =
      .ok (entries.map fun e => (e.path, e.length), entries.map fun _ => false) := by
  obtain ⟨-, -, -, -, hlength, hfiles⟩ := get_infoV1 h
  rw [parseFiles, hlength, hfiles]
  cases multiFile with
  | false =>
    obtain ⟨e, rfl⟩ : ∃ e, entries = [e] := by
      rw [← length_eq_one_iff, ← length_map Entry.path, hsingle rfl]
      rfl
    have hpath : e.path = [name] := singleton_injective (hsingle rfl)
    have hlen : e.length = total := by simpa using hsum
    simp only [Bool.false_eq_true, ↓reduceIte, bind_some, Bencode.asInt,
      if_neg (not_ofNat_lt_zero htotal), toNat_toInt_ofNat htotal, map_cons, map_nil,
      hpath, hlen]
  | true =>
    have hparsed : (entries.map fileEntry).mapM parseFile =
        .ok (entries.map fun e => ((e.path, e.length), false)) := by
      rw [mapM_map]
      refine mapM_eq_pure_map fun e he => ?_
      have hle : e.length ≤ total := by
        rw [← hsum]
        exact single_le_sum (by simp) _ (List.mem_map_of_mem he)
      exact parseFile_fileEntry (by omega) (hnames e he).1 (hnames e he).2
    simp only [↓reduceIte, bind_none, bind_some, Bencode.asList, hparsed, bind,
      Except.bind, List.map_map]
    rfl

variable [Digests] {rawInfo : List UInt8} {outer : Outer}

/-- The torrent that is read from a v1 info dictionary. -/
def readV1 (info : Bencode) (rawInfo : List UInt8) (outer : Outer) (name : Name)
    (pieceLength : ℕ) (pieces : List UInt8) (multiFile : Bool) (entries : List Entry) :
    TorrentFile where
  announce := outer.announce
  announceList := outer.announceList
  info := info
  infoHash := sha1 rawInfo
  pieceLength := pieceLength
  pieces := V2.asChunks 20 pieces
  name := name
  files := entries.map fun e => (e.path, e.length)
  padding := entries.map fun _ => false
  multiFile := multiFile
  urlList := outer.urlList
  priv := parsePrivate info
  v2 := none
  v2Pieces := []

theorem buildTorrentFromInfo_infoV1 (hpos : 0 < pieceLength) (hmax : pieceLength ≤ maxPieceLength)
    (hname : Bencode.validUtf8 name = true ∧ isSafeComponent name = true)
    (hpieces : pieces.length % 20 = 0)
    (hcount : (V2.asChunks 20 pieces).length = (total + pieceLength - 1) / pieceLength)
    (htotal : total < 2 ^ 63) (hsum : (entries.map Entry.length).sum = total)
    (hnames : ∀ e ∈ entries, e.path ≠ [] ∧ Nameable e.path)
    (hsingle : multiFile = false → entries.map Entry.path = [[name]]) :
    buildTorrentFromInfo (infoV1 name pieceLength pieces priv multiFile entries total) rawInfo
        outer =
      .ok (readV1 (infoV1 name pieceLength pieces priv multiFile entries total) rawInfo outer name
        pieceLength pieces multiFile entries) := by
  have hlen : pieceLength < 2 ^ 63 := by
    unfold maxPieceLength at hmax
    omega
  generalize hinfo : infoV1 name pieceLength pieces priv multiFile entries total = info
  have hfiles := parseFiles_infoV1 hinfo htotal hsum hnames hsingle
  obtain ⟨hgetName, hgetLen, hgetPieces, hgetVersion, hgetLength, hgetFiles⟩ := get_infoV1 hinfo
  have hmulti : (((info.get Key.length).bind Bencode.asInt).isNone &&
      (info.get Key.files).isSome) = multiFile := by
    rw [hgetLength, hgetFiles]
    cases multiFile with
    | false | true => rfl
  have hlengths : (entries.map fun e => (e.path, e.length)).map Prod.snd =
      entries.map Entry.length := by
    rw [List.map_map]
    rfl
  have htree : fileTreeOf info = none := by
    rw [fileTreeOf, hgetVersion]
    rfl
  rw [buildTorrentFromInfo, hgetVersion, htree, hgetPieces]
  dsimp only [bind_none, filter_none]
  rw [buildV1Torrent, parsePieceLength, hgetLen, hgetPieces, parseName_of_get hgetName hname]
  simp only [bind_some, Bencode.asInt, Bencode.asBytes, required, bind, Except.bind,
    if_neg (not_ofNat_le_zero hpos hlen), toNat_toInt_ofNat hlen, hpieces, ne_eq, not_true_eq_false,
    ↓reduceIte, if_neg (not_lt.2 hmax), hlengths, hsum, checkedTotal,
    if_neg (show ¬ 2 ^ 64 ≤ total by omega), hcount, hfiles, hmulti]
  rfl

end

variable {t : TorrentFile}

theorem trackerTiers_eq {trackers : List (List Utf8)}
    (hannounce : t.announce = trackers.flatten.head?.map Subtype.val)
    (hlist : t.announceList = (if 1 < trackers.flatten.length then
      trackers.filter fun tier => tier ≠ [] else []).map fun tier => tier.map Subtype.val) :
    t.trackerTiers = (trackers.filter fun tier => tier ≠ []).map fun tier =>
      tier.map Subtype.val := by
  have hne : ∀ tier ∈ trackers.filter fun tier => tier ≠ [], tier ≠ [] := fun tier htier => by
    simpa using (mem_filter.1 htier).2
  have hflat : trackers.flatten = (trackers.filter fun tier => tier ≠ []).flatten :=
    flatten_filter_ne_nil.symm
  rw [hflat] at hannounce hlist
  generalize (trackers.filter fun tier => tier ≠ []) = tiers at hne hannounce hlist ⊢
  match tiers with
  | [] =>
    rw [trackerTiers, hannounce, hlist]
    rfl
  | [] :: _ => exact absurd rfl (hne [] (by simp))
  | (url :: rest) :: more =>
    rw [flatten_cons, cons_append, head?_cons, map_some] at hannounce
    by_cases hone : 1 < ((url :: rest) :: more).flatten.length
    · -- the list has every tier, and `announce` is in the first
      rw [if_pos hone] at hlist
      have hfilter : t.announceList.filter (fun tier => tier ≠ []) = t.announceList := by
        rw [filter_eq_self, hlist]
        intro tier htier
        obtain ⟨tier', htier', rfl⟩ := List.mem_map.1 htier
        rw [decide_eq_true_iff, Ne, map_eq_nil_iff]
        exact hne tier' htier'
      have hmem : (t.announceList.any fun tier => tier.contains url.1) = true := by
        rw [hlist]
        simp
      rw [trackerTiers, hannounce, hfilter]
      dsimp only
      rw [if_pos hmem, hlist]
    · -- one tracker is all there is
      have hlen : rest.length + more.flatten.length = 0 := by
        simp only [flatten_cons, length_append, length_cons] at hone
        omega
      have hrest : rest = [] := length_eq_zero_iff.1 (by omega)
      have hmore : more = [] := by
        cases more with
        | nil => rfl
        | cons tier more =>
          have hpos := length_pos_of_ne_nil (hne tier (by simp))
          rw [flatten_cons, length_append] at hlen
          omega
      rw [if_neg hone] at hlist
      rw [trackerTiers, hannounce, hlist, hrest, hmore]
      rfl

section

variable [Digests] {source : Source} {options : CreateOptions} {created : Created}
  {root : SourceRoot} {entries : List Entry}

omit [Digests] in
theorem length_contentOf (h : ∀ e ∈ entries, e.file.Whole) :
    (contentOf entries).length = (entries.map Entry.length).sum := by
  rw [contentOf, length_flatten, List.map_map]
  refine congrArg List.sum (map_congr_left fun e he => ?_)
  exact (h e he).length_eq

variable {pieceLength : ℕ} {pieces : List UInt8}

theorem length_pieces
    (hpos : 0 < pieceLength) (hpieces : hashPieces entries pieceLength = .ok pieces) :
    (V2.asChunks 20 pieces).length =
      ((entries.map Entry.length).sum + pieceLength - 1) / pieceLength := by
  obtain ⟨hwhole, hchunks, -⟩ := hashPieces_spec hpos hpieces
  rw [hchunks, length_map, V2.chunks, length_map, length_range, length_contentOf hwhole]

theorem parse_createV1 {name : Name} (hname : nameOf source options = .ok name)
    (hentries : source.entries name root = .ok entries)
    (hlen : UsablePieceLength (measured (root.files name)) pieceLength)
    (h : createV1 name (isDir root) entries pieceLength (measured (root.files name)) options =
      .ok created) {data : Slice} (hdata : data.1 = created.bytes) :
    ∃ info pieces, hashPieces entries pieceLength = .ok pieces ∧
      created.infoHash = sha1 info.encode ∧
      parseTorrentFile data = .ok (readV1 info info.encode
        ⟨options.trackers.flatten.head?.map Subtype.val,
          (if 1 < options.trackers.flatten.length then
            options.trackers.filter fun tier => tier ≠ [] else []).map fun tier =>
              tier.map Subtype.val,
          options.webSeeds.map Subtype.val, none⟩
        name pieceLength pieces (isDir root) entries) := by
  rw [createV1, bind_eq_ok_iff] at h
  obtain ⟨pieces, hpieces, h⟩ := h
  cases h
  obtain ⟨hfound, hnames⟩ := Source.entries_spec (nameOf_spec hname) hentries
  obtain ⟨-, -, htwenty⟩ := hashPieces_spec hlen.pos hpieces
  refine ⟨infoV1 name pieceLength pieces options.priv (isDir root) entries
    (measured (root.files name)), pieces, hpieces, rfl, ?_⟩
  rw [parseTorrentFile_topLevel (isValue_infoV1.mono (by decide)) (by simp) hdata]
  have hsum : (entries.map Entry.length).sum = measured (root.files name) := by
    rw [sum_length_eq_measured, hfound]
  refine buildTorrentFromInfo_infoV1 hlen.pos hlen.max (nameOf_spec hname) htwenty ?_
    hlen.total_lt hsum hnames fun hfile => ?_
  · rw [length_pieces hlen.pos hpieces, hsum]
  · cases root with
    | dir nodes => cases hfile
    | file f =>
      cases hentries
      rfl

variable {fs : FileSystem}

omit [Digests] in
theorem shows_contentOf {base : Path} (hwhole : ∀ e ∈ entries, e.file.Whole)
    (hnames : ∀ e ∈ entries, Nameable e.path)
    (hdisk : ∀ e ∈ entries, fs.bytesOf (base ++ e.path) = some e.file.content) :
    Shows (buildFileSpansPadded base (entries.map fun e => (e.path, e.length))
      (entries.map fun _ => false)) fs 0 (contentOf entries) := by
  let files := entries.map fun e => (e.path, e.file.content)
  have hfiles : (files.map fun f => (f.1, f.2.length)) =
      entries.map fun e => (e.path, e.length) := by
    rw [List.map_map]
    exact map_congr_left fun e he => congrArg (Prod.mk e.path) (hwhole e he).length_eq
  have hcontent : contentOf entries = (files.map Prod.snd).flatten := by
    rw [List.map_map]
    rfl
  rw [hcontent]
  refine (laid_padded base _ _).shows_layFiles (fun i => ?_) files 0 0
    (fun s hs => by rwa [hfiles] at hs) ?_
  · show (entries.map fun _ => false).getD i false = false
    rw [getD_eq_getElem?_getD, getElem?_map]
    cases entries[i]? with
    | none | some => rfl
  · intro f hf
    obtain ⟨e, he, rfl⟩ := List.mem_map.1 hf
    rw [foldl_join_of_isSafeComponent fun part hpart => (hnames e he part hpart).2]
    exact hdisk e he

theorem pieceIsOnDisk_readV1 {name : Name} {info : Bencode} {rawInfo : List UInt8} {outer : Outer}
    {multiFile : Bool} (hsized : t.Sized)
    (ht : t = readV1 info rawInfo outer name pieceLength pieces multiFile entries)
    (hpieces : hashPieces entries pieceLength = .ok pieces)
    (hnames : ∀ e ∈ entries, Nameable e.path)
    (hdisk : ∀ e ∈ entries, fs.bytesOf (base ++ e.path) = some e.file.content) {i : UInt32}
    (hi : i.toNat < t.pieces.length) : pieceIsOnDisk (t.fileSpans base) t fs i = true := by
  have hlength : t.pieceLength = pieceLength := by rw [ht]; rfl
  obtain ⟨hwhole, hchunks, -⟩ := hashPieces_spec (hlength ▸ hsized.pos) hpieces
  have hspans : t.fileSpans base = buildFileSpansPadded base
      (entries.map fun e => (e.path, e.length)) (entries.map fun _ => false) := by rw [ht]; rfl
  have htotal : t.totalLength = (contentOf entries).length := by
    rw [length_contentOf hwhole, ht, totalLength, readV1, List.map_map]
    rfl
  have hv1 : t.isV2Only = false := by rw [ht]; rfl
  obtain ⟨hlt, hlen⟩ := hsized.pieceLen_v1_eq_min hv1 hi
  -- the piece, as the spans show it and as it was hashed
  let piece := slice (contentOf entries) (i.toNat * t.pieceLength) t.pieceLength
  have hpiece : piece.length = t.pieceLen i.toNat := by
    rw [hlen, htotal, length_slice, Nat.min_comm]
  have hcut : piece = slice (contentOf entries) (i.toNat * t.pieceLength) (t.pieceLen i.toNat) := by
    show (drop _ _).take _ = (drop _ _).take _
    rw [take_eq_take_min, length_drop, hlen, htotal, Nat.min_comm]
  have hshows : Shows (t.fileSpans base) fs (i.toNat * t.pieceLength) piece := by
    have h := (shows_contentOf hwhole hnames hdisk).slice (i.toNat * t.pieceLength)
      (t.pieceLen i.toNat) (by omega)
    rw [Nat.zero_add] at h
    rw [hspans, hcut]
    exact h
  have hlaid : Laid (t.fileSpans base) := hspans ▸ laid_padded base _ _
  have hread : readPieceBytes (t.fileSpans base) i t.pieceLength (t.pieceLen i.toNat) fs =
      some (.ok piece) := (readPieceBytes_eq_ok_iff hlaid).2 ⟨hpiece, hshows⟩
  have hhash : t.pieces[i.toNat]? = some (sha1 piece) := by
    have hcount : i.toNat < ((contentOf entries).length + t.pieceLength - 1) / t.pieceLength :=
      (lt_ceil_iff hsized.pos).2 (by omega)
    have hlist : t.pieces = (V2.chunks t.pieceLength (contentOf entries)).map sha1 := by
      rw [hlength, ← hchunks, ht]
      rfl
    rw [hlist, V2.chunks, List.map_map, getElem?_map, getElem?_range hcount]
    rfl
  have hnone : t.v2Pieces[i.toNat]? = none := by rw [ht]; rfl
  rw [pieceIsOnDisk, if_neg (not_le.2 hi), hread]
  dsimp only
  rw [pieceMatches, hnone, hhash]
  exact beq_self_eq_true _

/-- **A v1 torrent is read back.** Of a source of fewer than 2^64 bytes,
whatever its files are and however they are read, the parser accepts what
`create` made: with the same info hash, name, files and lengths, with the
tiers that name a tracker and with the web seeds. Wherever the files are,
each piece that resuming reads through the spans of the torrent has its
hash. -/
theorem parse_create_v1 (hroot : source.root = .ok root)
    (h : create source options = .ok created) (hv1 : options.v2 = false)
    (hsize : measured (root.files created.name) < 2 ^ 64) {data : Slice}
    (hdata : data.1 = created.bytes) :
    ∃ t, parseTorrentFile data = .ok t ∧ t.infoHash = created.infoHash ∧ t.name = created.name ∧
      nameOf source options = .ok t.name ∧ t.multiFile = isDir root ∧
      (∀ f ∈ root.files t.name, f.2.Whole) ∧
      t.files = (root.files t.name).map (fun f => (f.1, f.2.content.length)) ∧
      t.trackerTiers = (options.trackers.filter fun tier => tier ≠ []).map
        (fun tier => tier.map Subtype.val) ∧
      t.urlList = options.webSeeds.map Subtype.val ∧ t.pieces.length ≤ maxPieces ∧
      ∀ fs base, (∀ f ∈ root.files t.name, fs.bytesOf (base ++ f.1) = some f.2.content) →
        ∀ i : UInt32, i.toNat < t.pieces.length →
          pieceIsOnDisk (t.fileSpans base) t fs i = true := by
  obtain ⟨name, entries, pieceLength, hname, hentries, hne, hlen, h⟩ := create_cases hroot h
  rw [hv1, if_neg Bool.false_ne_true] at h
  have hnamed : created.name = name := by
    rw [createV1, bind_eq_ok_iff] at h
    obtain ⟨pieces, -, h⟩ := h
    cases h
    rfl
  rw [hnamed] at hsize
  rw [Nat.mod_eq_of_lt hsize] at hlen h
  replace hlen := choosePieceLength_spec hlen
  obtain ⟨info, pieces, hpieces, hhash, hparse⟩ := parse_createV1 hname hentries hlen h hdata
  obtain ⟨hfound, hnames⟩ := Source.entries_spec (nameOf_spec hname) hentries
  obtain ⟨hwhole, -, -⟩ := hashPieces_spec hlen.pos hpieces
  have hwhole' : ∀ f ∈ root.files name, f.2.Whole := by
    rw [← hfound]
    intro f hf
    obtain ⟨e, he, rfl⟩ := List.mem_map.1 hf
    exact hwhole e he
  refine ⟨_, hparse, hhash.symm, hnamed.symm, hname, rfl, hwhole', ?_, trackerTiers_eq rfl rfl, rfl,
    ?_, fun fs base hdisk i hi => ?_⟩
  · show (entries.map fun e => (e.path, e.length)) =
      (root.files name).map fun f => (f.1, f.2.content.length)
    rw [← hfound, List.map_map]
    exact map_congr_left fun e he => congrArg (Prod.mk e.path) (hwhole e he).length_eq.symm
  · show (V2.asChunks 20 pieces).length ≤ maxPieces
    rw [length_pieces hlen.pos hpieces, sum_length_eq_measured, hfound]
    exact hlen.few
  · refine pieceIsOnDisk_readV1 (TorrentFile.Accepted.parsed hparse).sized rfl hpieces
      (fun e he => (hnames e he).2) (fun e he => ?_) hi
    refine hdisk e.found ?_
    show e.found ∈ root.files name
    rw [← hfound]
    exact List.mem_map_of_mem he

end

/-- A file of one byte, `a`, that is read in one piece. -/
def oneByteFile : Source where
  path := [[97]]
  display := [97]
  resolved := .ok [[97]]
  root := .ok (.file ⟨1, .ok [1], []⟩)
  distinct := fun _ h => by cases h

/-- A tier of the tracker `t`, and one of none. -/
def oneTracker : CreateOptions where
  pieceLength := none
  trackers := [[⟨[116], by decide⟩], []]
  webSeeds := [⟨[119], by decide⟩]
  priv := false
  comment := none
  createdBy := none
  creationDate := none
  name := none
  v2 := false

theorem parse_create_v1_sample :
    ∃ (created : Created) (data : Slice) (t : TorrentFile),
      @create zero oneByteFile oneTracker = .ok created ∧ data.1 = created.bytes ∧
      @parseTorrentFile zero data = .ok t ∧ t.files = [([[97]], 1)] ∧
      t.trackerTiers = [[[116]]] ∧ t.urlList = [[119]] := by
  let _ := zero
  have hok : ∃ c ∈ (create oneByteFile oneTracker).toOption, c.name = [97] ∧
      c.bytes.length < 2 ^ 63 := by
    decide +kernel
  obtain ⟨created, hcreated, hname, hlen⟩ := exists_ok hok
  have hsize : measured ((SourceRoot.file ⟨1, .ok [1], []⟩).files created.name) < 2 ^ 64 := by
    rw [hname]
    decide
  let data : Slice := ⟨created.bytes, hlen⟩
  obtain ⟨t, ht, -, htname, -, -, -, hfiles, htiers, hurls, -⟩ :=
    parse_create_v1 (show oneByteFile.root = .ok (.file ⟨1, .ok [1], []⟩) from rfl) hcreated rfl
      hsize (show data.1 = created.bytes from rfl)
  rw [htname, hname] at hfiles
  exact ⟨created, data, t, hcreated, rfl, ht, hfiles, htiers, hurls⟩

/-- **A tier that names no tracker does not come back.** -/
theorem empty_tier_dropped :
    ∃ (created : Created) (data : Slice) (t : TorrentFile),
      @create zero oneByteFile oneTracker = .ok created ∧ data.1 = created.bytes ∧
      @parseTorrentFile zero data = .ok t ∧ t.announceList = [] ∧
      t.trackerTiers ≠ oneTracker.trackers.map fun tier => tier.map Subtype.val := by
  let _ := zero
  have hok : ∃ c ∈ (create oneByteFile oneTracker).toOption, ∃ h : c.bytes.length < 2 ^ 63,
      ∃ t ∈ (parseTorrentFile ⟨c.bytes, h⟩).toOption, t.announceList = [] ∧
        t.trackerTiers ≠ oneTracker.trackers.map fun tier => tier.map Subtype.val := by
    decide +kernel
  obtain ⟨created, hcreated, hlen, hread⟩ := exists_ok hok
  obtain ⟨t, ht, hlist, htiers⟩ := exists_ok hread
  exact ⟨created, ⟨created.bytes, hlen⟩, t, hcreated, rfl, ht, hlist, htiers⟩

end Create

end BitTorrent
