import BitTorrent.Create.Built
import BitTorrent.Session.Layers

/-!
# When a v2 torrent is read back

What `create` makes in the v2 form is not always a torrent of the files it was given.
-/

namespace BitTorrent

open List V2 TorrentFile

open Bencode (lookup_insertEntry lookup_insertSome IsDict IsValue isValue_bytes isValue_int)

namespace Create

theorem leafFile_leafOf {path : List Name} {length : ℕ} {root : Option Hash32}
    (hlen : length < 2 ^ 63) (hroot : decide (0 < length) = root.isSome) :
    leafFile path (leafOf length root) = .ok ⟨path, length, root⟩ := by
  have hlength : (leafOf length root).get keyLength = some (.int (.ofNat length)) := by
    rw [leafOf, Bencode.get, Bencode.asDict, Option.bind_some, lookup_insertSome,
      lookup_insertEntry]
    rfl
  have hleaf : leafRoot (leafOf length root) = .ok root := by
    rw [leafRoot, leafOf, Bencode.get, Bencode.asDict, Option.bind_some, lookup_insertSome,
      if_pos rfl, lookup_insertEntry, if_neg (by decide), lookup_nil, Option.or_none]
    cases root with
    | none => rfl
    | some r =>
      have hhash : toHash r.toList = some r := dif_pos r.2
      simp only [Option.map_some, Bencode.asBytes, Option.bind_some, hhash]
  rw [leafFile, hlength, hleaf]
  simp only [Option.bind_some, Bencode.asInt, if_neg (not_ofNat_lt_zero hlen),
    toNat_toInt_ofNat hlen, hroot, bind, Except.bind, bne_self_eq_false, Bool.false_eq_true,
    ↓reduceIte]
  rfl

theorem parseLayer_layerBytes (root : Hash32) (layer : List Hash32) :
    parseLayer (root.toList, layerBytes layer) = .ok (root, layer) := by
  have hhash : toHash root.toList = some root := dif_pos root.2
  have hlen : (layer.map List.Vector.toList).flatten.length % 32 = 0 := by
    rw [length_flatten_vectors, Nat.mul_mod_left]
  simp only [parseLayer, layerBytes, hhash, Bencode.asBytes, hlen, ne_eq, not_true_eq_false,
    ↓reduceIte, asChunks_flatten (by decide : 0 < 32)]

variable {es : Entries}

theorem parseLayers_layered (h : ∀ kv ∈ es, ∃ (root : Hash32) (layer : List Hash32),
      kv = (root.toList, layerBytes layer)) :
    ∃ layers, parseLayers (some (.dict es)) = .ok layers ∧
      ∀ (root : Hash32) (layer : List Hash32), es.lookup root.toList = some (layerBytes layer) →
        layers.lookup root = some layer := by
  show ∃ layers, es.mapM parseLayer = .ok layers ∧ _
  induction es with
  | nil => exact ⟨[], rfl, fun _ _ h => by cases h⟩
  | cons kv es ih =>
    rw [forall_mem_cons] at h
    obtain ⟨⟨root, layer, rfl⟩, hrest⟩ := h
    obtain ⟨layers, hlayers, hlookup⟩ := ih hrest
    refine ⟨(root, layer) :: layers, ?_, fun root' layer' hfound => ?_⟩
    · rw [mapM_cons, parseLayer_layerBytes, hlayers]
      rfl
    · rw [Bencode.lookup_cons] at hfound
      rw [lookup_cons]
      by_cases heq : root' = root
      · rw [heq, if_pos rfl] at hfound
        have hbytes : layerBytes layer = layerBytes layer' := Option.some.inj hfound
        have hsame := congrArg parseLayer (congrArg (Prod.mk root.toList) hbytes)
        rw [parseLayer_layerBytes, parseLayer_layerBytes] at hsame
        cases hsame
        rw [heq, beq_self_eq_true]
      · rw [if_neg fun hlist => heq (List.Vector.toList_injective hlist)] at hfound
        rw [beq_false_of_ne heq]
        exact hlookup root' layer' hfound

section

variable {tree : Entries} {name : Name} {pieceLength : ℕ} {priv : Bool}

theorem isValue_infoV2 {n : ℕ} (htree : IsDict n tree) :
    IsValue (n + 2) (infoV2 tree name pieceLength priv) := by
  have hpriv : ∀ v, (if priv then some (Bencode.int 1) else none) = some v →
      IsValue (n + 1) v := by
    intro v hv
    split at hv
    · cases hv
      exact isValue_int 1
    · cases hv
  exact ((IsDict.nil.insertValue htree.isValue).insertValue (isValue_int 2)
    |>.insertValue (isValue_bytes name) |>.insertValue (isValue_int (.ofNat pieceLength))
    |>.insertSomeValue hpriv).isValue

variable {info : Bencode}

theorem get_infoV2 (h : infoV2 tree name pieceLength priv = info) :
    info.get Key.fileTree = some (.dict tree) ∧ info.get Key.metaVersion = some (.int 2) ∧
      info.get Key.name = some (text name) ∧
      info.get Key.pieceLength = some (.int (.ofNat pieceLength)) ∧
      info.get Key.pieces = none := by
  subst h
  simp +decide only [infoV2, Bencode.get, Bencode.asDict, Option.bind_some, lookup_insertEntry,
    lookup_insertSome, lookup_nil, ↓reduceIte, and_self]

variable [Digests] {files : List V2.V2File} {layers : V2.Layers} {rawInfo : List UInt8}
  {outer : Outer}

/-- The torrent that is read from a v2 info dictionary. -/
def readV2 (info : Bencode) (rawInfo : List UInt8) (outer : Outer) (name : Name)
    (pieceLength : ℕ) (files : List V2.V2File) (layers : V2.Layers) : TorrentFile where
  announce := outer.announce
  announceList := outer.announceList
  info := info
  infoHash := shortHash (Digests.sha256 rawInfo)
  pieceLength := pieceLength
  pieces := ((V2.planPieces files layers pieceLength).getD []).map fun p => shortHash p.root
  name := name
  files := files.map fun f => (f.path, f.length)
  padding := List.replicate (files.map fun f => (f.path, f.length)).length false
  multiFile := files.map V2.V2File.path != [[name]]
  urlList := outer.urlList
  priv := parsePrivate info
  v2 := some ⟨files, layers, Digests.sha256 rawInfo⟩
  v2Pieces := (V2.planPieces files layers pieceLength).getD []

theorem buildTorrentFromInfo_infoV2 (h : infoV2 tree name pieceLength priv = info)
    (hmax : pieceLength ≤ maxPieceLength)
    (hvalid : validPieceLength (.ofNat pieceLength) = true)
    (hname : Bencode.validUtf8 name = true ∧ isSafeComponent name = true)
    (htree : parseFileTree (.dict tree) = .ok files)
    (hlayers : parseLayers outer.layers = .ok layers)
    (htotal : (files.map V2.V2File.length).sum < 2 ^ 64) :
    buildTorrentFromInfo info rawInfo outer =
      (liftV2 (validateLayers files layers (.ofNat pieceLength))).map fun _ =>
        readV2 info rawInfo outer name pieceLength files layers := by
  have hlen : pieceLength < 2 ^ 63 := by
    unfold maxPieceLength at hmax
    omega
  obtain ⟨hgetTree, hgetVersion, hgetName, hgetLen, hgetPieces⟩ := get_infoV2 h
  have hpiece : parsePieceLength info = .ok (.ofNat pieceLength) := by
    rw [parsePieceLength, hgetLen]
    rfl
  have hversion : fileTreeOf info = some (.dict tree) := by
    rw [fileTreeOf, hgetVersion, hgetTree]
    rfl
  rw [buildTorrentFromInfo, hgetVersion, hversion, hgetPieces]
  show buildV2OnlyTorrent _ _ rawInfo outer = _
  rw [buildV2OnlyTorrent, v2Meta, hpiece, parseName_of_get hgetName hname, htree, hlayers]
  simp only [bind, Except.bind, hvalid, Bool.not_true, Bool.false_eq_true, ↓reduceIte,
    toNat_toInt_ofNat hlen, if_neg (not_lt.2 hmax), liftV2]
  cases validateLayers files layers (.ofNat pieceLength) with
  | error e => rfl
  | ok u =>
    simp only [pure, Except.pure, checkedTotal, if_neg (not_le.2 htotal)]
    rfl

end

section

variable [Digests] {k : ℕ} {entries : List Entry} {b : Building}

/-- A file as the reader finds it. -/
def fileOf (e : Entry) : V2.V2File := ⟨e.path, e.length, contentRoot e.file.content⟩

theorem decide_eq_isSome_contentRoot {e : Entry} (h : e.file.Whole) :
    decide (0 < e.length) = (contentRoot e.file.content).isSome := by
  have hlen : e.length = e.file.content.length := h.length_eq.symm
  rw [hlen, contentRoot]
  cases e.file.content with
  | nil | cons => rfl

theorem BuiltOf.parseFileTree (h : BuiltOf k entries b)
    (hnames : ∀ e ∈ entries, Nameable e.path) (hwhole : ∀ e ∈ entries, e.file.Whole)
    (hdepth : ∀ e ∈ entries, e.path.length ≤ maxTreeDepth)
    (hcount : entries.length ≤ maxFiles) (hlen : ∀ e ∈ entries, e.length < 2 ^ 63) :
    parseFileTree (.dict b.tree) = .ok (entries.map fileOf) := by
  let read : List Name → Bencode → V2.V2File := fun path leaf =>
    (leafFile path leaf).toOption.getD ⟨path, 0, none⟩
  have hleaf : ∀ e ∈ entries, leafFile e.path (leafOf e.length (contentRoot e.file.content)) =
      .ok (fileOf e) := fun e he =>
    leafFile_leafOf (hlen e he) (decide_eq_isSome_contentRoot (hwhole e he))
  have hread : ∀ e ∈ entries, read e.path (leafOf e.length (contentRoot e.file.content)) =
      fileOf e := by
    intro e he
    show (leafFile _ _).toOption.getD _ = _
    rw [hleaf e he]
    rfl
  have hreadable : Readable read [] (treeFilesIn b.tree) := by
    rw [h.files]
    intro f hf
    obtain ⟨e, he, rfl⟩ := mem_map.1 hf
    refine ⟨hnames e he, by simpa using hdepth e he, ?_⟩
    rw [nil_append, hread e he, hleaf e he]
  have hroom : ([] : List V2.V2File).length + (treeFilesIn b.tree).length ≤ maxFiles := by
    rw [h.files, length_map, length_nil, Nat.zero_add]
    exact hcount
  rw [V2.parseFileTree, V2.walk, lookup_nil_of_isDirectory h.directory]
  show walkEntries [] [] b.tree = _
  rw [walkEntries_directory [] [] b.tree h.directory hreadable hroom, h.files, nil_append, map_map]
  exact congrArg Except.ok (map_congr_left fun e he => hread e he)

/-- **Files that keep one layer have as many pieces.** -/
def LayersAgree (pieceLength : ℕ) (files : List (List Name × DiskFile)) : Prop :=
  ∀ f ∈ files, ∀ g ∈ files, pieceLength < f.2.content.length → pieceLength < g.2.content.length →
    V2.fileRoot f.2.content = V2.fileRoot g.2.content →
      (f.2.content.length + pieceLength - 1) / pieceLength =
        (g.2.content.length + pieceLength - 1) / pieceLength

variable {layers : V2.Layers}

theorem layerFits_iff (hk : 14 ≤ k) {e g : Entry} (hwhole : e.file.Whole)
    (hlong : 2 ^ k < g.file.content.length) (hne : e.file.content ≠ [])
    (hroot : fileRoot g.file.content = fileRoot e.file.content)
    (hlookup : layers.lookup (fileRoot e.file.content) = some (fileLayer g.file.content (k - 14))) :
    layerFits layers (2 ^ k) (fileOf e) = true ↔ (g.file.content.length + 2 ^ k - 1) / 2 ^ k =
        (e.file.content.length + 2 ^ k - 1) / 2 ^ k := by
  have hlen : e.length = e.file.content.length := hwhole.length_eq.symm
  have hmerkle := merkleRoot_fileLayer (two_pow_eq_mul_block hk ▸ hlong)
  rw [← two_pow_eq_mul_block hk] at hmerkle
  rw [layerFits, fileOf, contentRoot, if_neg hne]
  simp only [hlookup, hmerkle, hroot, beq_self_eq_true, Bool.and_true, beq_iff_eq, hlen]
  rw [length_fileLayer, ← two_pow_eq_mul_block hk]

omit [Digests] in
theorem ne_nil_of_lt {content : List UInt8} (h : 2 ^ k < content.length) : content ≠ [] := by
  rintro rfl
  exact absurd h (Nat.not_lt_zero _)

theorem LayersOf.validateLayers_iff (hk : 14 ≤ k) (hk' : k < 63) (h : LayersOf k entries es)
    (hwhole : ∀ e ∈ entries, e.file.Whole)
    (hlookup : ∀ (root : Hash32) (layer : List Hash32),
      es.lookup root.toList = some (layerBytes layer) → layers.lookup root = some layer) :
    validateLayers (entries.map fileOf) layers (.ofNat (2 ^ k)) = .ok () ↔
      LayersAgree (2 ^ k) (entries.map Entry.found) := by
  have hpow : 2 ^ k < 2 ^ 63 := Nat.pow_lt_pow_right (by decide) hk'
  have hok : validateLayers (entries.map fileOf) layers (.ofNat (2 ^ k)) = .ok () ↔
      ∀ e ∈ entries, 2 ^ k < e.file.content.length →
        layerFits layers (2 ^ k) (fileOf e) = true := by
    rw [validateLayers, validPieceLength_pow hk hk', toNat_toInt_ofNat hpow, if_neg (by decide)]
    simp only [ite_eq_left_iff, reduceCtorEq, imp_false, not_not, all_eq_true,
      mem_filter, mem_map, decide_eq_true_eq, and_imp, forall_exists_index,
      forall_apply_eq_imp_iff₂]
    refine forall₂_congr fun e he => ?_
    have hlen : (fileOf e).length = e.file.content.length := (hwhole e he).length_eq.symm
    rw [hlen]
  rw [hok]
  constructor
  · intro hfits f hf g hg hflong hglong hroot
    obtain ⟨e, he, rfl⟩ := mem_map.1 hf
    obtain ⟨e', he', rfl⟩ := mem_map.1 hg
    obtain ⟨d, hd, hdlong, hdroot, hdlookup⟩ := h.held e he hflong
    have hlayer := hlookup _ _ hdlookup
    have hcount := (layerFits_iff hk (hwhole e he) hdlong (ne_nil_of_lt hflong) hdroot hlayer).1
      (hfits e he hflong)
    have hroot' : fileRoot e.file.content = fileRoot e'.file.content := hroot
    rw [hroot'] at hlayer hdroot
    have hcount' := (layerFits_iff hk (hwhole e' he') hdlong (ne_nil_of_lt hglong) hdroot hlayer).1
      (hfits e' he' hglong)
    exact hcount.symm.trans hcount'
  · intro hagree e he hlong
    obtain ⟨g, hg, hglong, hroot, hglookup⟩ := h.held e he hlong
    rw [layerFits_iff hk (hwhole e he) hglong (ne_nil_of_lt hlong) hroot (hlookup _ _ hglookup)]
    exact hagree g.found (mem_map_of_mem hg) e.found (mem_map_of_mem he) hglong hlong hroot

theorem LayersOf.exists_planPieces (h : LayersOf k entries es)
    (hwhole : ∀ e ∈ entries, e.file.Whole)
    (hlookup : ∀ (root : Hash32) (layer : List Hash32),
      es.lookup root.toList = some (layerBytes layer) → layers.lookup root = some layer) :
    ∃ pieces, planPieces (entries.map fileOf) layers (2 ^ k) = some pieces := by
  refine BitTorrent.exists_planPieces fun f hf hlong root hroot => ?_
  obtain ⟨e, he, rfl⟩ := mem_map.1 hf
  have hlong : 2 ^ k < e.file.content.length := by
    rw [(hwhole e he).length_eq]
    exact hlong
  obtain ⟨g, -, -, -, hglookup⟩ := h.held e he hlong
  have hsome : some (fileRoot e.file.content) = some root := by
    rw [← hroot, fileOf, contentRoot, if_neg (ne_nil_of_lt hlong)]
  exact ⟨_, hlookup _ _ (Option.some.inj hsome ▸ hglookup)⟩

end

end Create

namespace TorrentFile

variable {t : TorrentFile}

theorem Planned.v2Ready_of_plan (hp : t.Planned) (hs : t.Sized) (hv2 : t.isV2Only = true)
    {md : V2.V2Meta} (hmd : t.v2 = some md) {pieces : List V2.V2Piece}
    (hplan : planPieces md.files md.layers t.pieceLength = some pieces)
    (hpos : 0 < t.totalLength) : t.v2Ready = true := by
  obtain ⟨md', hmd', hfiles, hfit, hpieces⟩ := hp.v2 hv2
  obtain rfl : md' = md := Option.some.inj (hmd'.symm.trans hmd)
  rw [hplan, Option.getD_some] at hpieces
  simp only [planPieces, Option.bind_eq_bind, Option.bind_eq_some_iff, Option.pure_def,
    Option.some.injEq] at hplan
  obtain ⟨plans, hplans, hflat⟩ := hplan
  obtain ⟨-, htotal, -⟩ := hfit.plans_tile hs.pos hs.le md'.files 0 plans (fun _ h => h) hplans
  have hne : t.v2Pieces ≠ [] := by
    intro hnil
    rw [hpieces] at hnil
    rw [hflat, hnil, ← hfiles, map_nil, sum_nil] at htotal
    rw [totalLength] at hpos
    omega
  simp [v2Ready, hv2, hne]

/-- **How the files are laid out**: under the name of the torrent, where
it is one of several files. -/
def layout (t : TorrentFile) : List (List Name × ℕ) :=
  t.files.map fun f => (if t.multiFile then t.name :: f.1 else f.1, f.2)

variable [Digests] {data : Slice}

theorem walked_of_parse (h : parseTorrentFile data = .ok t) (hv2 : t.isV2Only = true) :
    ∃ files, Create.Within files ∧ t.files = files.map (fun f => (f.path, f.length)) ∧
      t.multiFile = (files.map V2.V2File.path != [[t.name]]) := by
  obtain ⟨_, _, _, _, -, -, -, -, -, hbuild⟩ := built_of_parse h
  obtain ⟨rfl, hv1 | ⟨tree, md, hread⟩⟩ := built_cases hbuild
  · simp [isV2Only, Option.isSome_iff_ne_none.1 hv1.hashed] at hv2
  · exact ⟨md.files, Create.parseFileTree_within (v2Meta_spec hread.read).1, hread.files,
      hread.multiFile⟩

end TorrentFile

/-- **The files of a source as they are**: under its name, where it is a
directory. -/
def SourceRoot.layout (name : Name) (root : SourceRoot) : List (List Name × ℕ) :=
  (root.files name).map fun f => (if Create.isDir root then name :: f.1 else f.1, f.2.length)

namespace Create

section

variable [Digests] {source : Source} {options : CreateOptions} {created : Created}
  {root : SourceRoot} {name : Name} {pieceLength : ℕ} {entries : List Entry}

/-- What is read of a v2 torrent, if its layers fit. -/
structure ReadsAs (name : Name) (entries : List Entry) (k : ℕ) (layers : V2.Layers)
    (t : TorrentFile) : Prop where
  name_eq : t.name = name
  files_eq : t.files = entries.map fun e => (e.path, e.length)
  multiFile_eq : t.multiFile = (entries.map Entry.path != [[name]])
  v2Only : t.isV2Only = true
  v2_eq : ∃ hash, t.v2 = some ⟨entries.map fileOf, layers, hash⟩
  pieceLength_eq : t.pieceLength = 2 ^ k

theorem parse_createV2 {total : ℕ} {data : Slice} (hname : nameOf source options = .ok name)
    (hroot : source.root = .ok root) (hentries : source.entries name root = .ok entries)
    (hlen : UsablePieceLength total pieceLength)
    (h : createV2 name entries pieceLength total options = .ok created)
    (hsize : measured (root.files name) < 2 ^ 63)
    (hdepth : ∀ f ∈ root.files name, f.1.length ≤ maxTreeDepth)
    (hcount : (root.files name).length ≤ maxFiles)
    (hdata : data.1 = created.bytes) :
    ∃ (k : ℕ) (es : Entries) (layers : V2.Layers) (t : TorrentFile),
      (pieceLength = 2 ^ k ∧ 14 ≤ k ∧ k < 63) ∧ (∀ e ∈ entries, e.file.Whole) ∧
      LayersOf k entries es ∧
      (∀ (root : Hash32) (layer : List Hash32), es.lookup root.toList = some (layerBytes layer) →
        layers.lookup root = some layer) ∧
      ReadsAs name entries k layers t ∧ t.infoHash = created.infoHash ∧
      parseTorrentFile data =
        (liftV2 (validateLayers (entries.map fileOf) layers (.ofNat (2 ^ k)))).map fun _ => t := by
  rw [createV2, check_eq_ok_iff, bind_eq_ok_iff] at h
  obtain ⟨hvalid, b, hb, h⟩ := h
  cases h
  obtain ⟨hfound, hnames⟩ := Source.entries_spec (nameOf_spec hname) hentries
  -- the piece length is a power of two, of a block at least
  obtain ⟨k, rfl⟩ := hlen.power
  have hvalid : validPieceLength (.ofNat (2 ^ k)) = true := by simpa using hvalid
  have hpow : 2 ^ k < 2 ^ 63 := by
    have := hlen.max
    unfold maxPieceLength at this
    omega
  have hk : 14 ≤ k := by
    rw [validPieceLength, toNat_toInt_ofNat hpow, decide_eq_true_iff] at hvalid
    exact (Nat.pow_le_pow_iff_right Nat.one_lt_two).1 hvalid.1
  have hk' : k < 63 := (Nat.pow_lt_pow_iff_right Nat.one_lt_two).1 hpow
  obtain ⟨hwhole, hbuilt⟩ := BuiltOf.foldlM hk entries BuiltOf.nil hb hnames
    (by rw [nil_append, hfound]; exact source.pairwise_files hroot name)
  rw [nil_append] at hbuilt
  -- so are the bounds that the reader has
  have hmem : ∀ e ∈ entries, e.found ∈ root.files name := fun e he =>
    hfound ▸ mem_map_of_mem he
  have hsum : (entries.map Entry.length).sum < 2 ^ 63 := by
    rw [sum_length_eq_measured, hfound]
    exact hsize
  have hlength : ∀ e ∈ entries, e.length < 2 ^ 63 := fun e he =>
    (single_le_sum (by simp) _ (mem_map_of_mem he)).trans_lt hsum
  have htree := hbuilt.parseFileTree (fun e he => (hnames e he).2) hwhole
    (fun e he => hdepth _ (hmem e he))
    (by rw [← length_map Entry.found, hfound]; exact hcount) hlength
  obtain ⟨layers, hlayers, hlookup⟩ := parseLayers_layered hbuilt.layers.layered
  have hdict : IsDict 97 b.tree := hbuilt.depth 97 fun e he => by
    have : e.path.length ≤ 64 := hdepth _ (hmem e he)
    omega
  have hvalue : ∀ v, some (Bencode.dict b.layers) = some v → IsValue 99 v := by
    rintro v ⟨⟩
    exact hbuilt.layers.isDict.isValue.mono (by decide)
  have htotal : ((entries.map fileOf).map V2.V2File.length).sum < 2 ^ 64 := by
    rw [map_map]
    exact lt_trans hsum (by decide)
  refine ⟨k, b.layers, layers, _, ⟨rfl, hk, hk'⟩, hwhole, hbuilt.layers, hlookup, ?_, ?_,
    (parseTorrentFile_topLevel (isValue_infoV2 hdict) hvalue hdata).trans
      (buildTorrentFromInfo_infoV2 rfl hlen.max hvalid (nameOf_spec hname) htree hlayers htotal)⟩
  · refine ⟨rfl, ?_, ?_, ?_, ⟨_, rfl⟩, rfl⟩
    · show (entries.map fileOf).map (fun f => (f.path, f.length)) = _
      rw [map_map]
      rfl
    · show ((entries.map fileOf).map V2.V2File.path != [[name]]) = _
      rw [map_map]
      rfl
    · rw [isV2Only, readV2, (get_infoV2 rfl).2.2.2.2]
      rfl
  · rfl

/-- **When a source can be read back** from its v2 torrent. -/
structure Recoverable (pieceLength : ℕ) (name : Name) (root : SourceRoot) : Prop where
  size : measured (root.files name) < 2 ^ 64
  depth : ∀ f ∈ root.files name, f.1.length ≤ V2.maxTreeDepth
  count : (root.files name).length ≤ V2.maxFiles
  /-- A directory does not hold just a file of its own name. -/
  named : isDir root = true → (root.files name).map Prod.fst ≠ [[name]]
  layers : LayersAgree pieceLength (root.files name)

/-- **The torrent is read back**: accepted, ready, with the same info
hash, and with the files of the source where the source has them. -/
def ReadBack (data : Slice) (created : Created) (root : SourceRoot) : Prop :=
  ∃ t, parseTorrentFile data = .ok t ∧ t.v2Ready = true ∧ t.infoHash = created.infoHash ∧
    t.layout = root.layout created.name

omit [Digests] in
theorem sum_layout : ((root.layout name).map Prod.snd).sum = measured (root.files name) := by
  rw [SourceRoot.layout, map_map]
  rfl

variable {t : TorrentFile}

omit [Digests] in
theorem sum_layout_eq_totalLength : (t.layout.map Prod.snd).sum = t.totalLength := by
  rw [layout, totalLength, map_map]
  rfl

variable {files : List V2.V2File}

omit [Digests] in
theorem paths_of_layout (hdir : isDir root = true)
    (hne : ∀ f ∈ root.files name, f.1 ≠ []) (hsome : root.files name ≠ [])
    (hfiles : t.files = files.map fun f => (f.path, f.length))
    (hmulti : t.multiFile = (files.map V2.V2File.path != [[t.name]]))
    (hlayout : t.layout = root.layout name) :
    t.name = name ∧ t.multiFile = true ∧
      files.map V2.V2File.path = (root.files name).map Prod.fst := by
  have hpaths := congrArg (map Prod.fst) hlayout
  have hleft : t.layout.map Prod.fst = (files.map V2.V2File.path).map fun p =>
      if t.multiFile then t.name :: p else p := by
    rw [layout, hfiles, map_map, map_map, map_map]
    rfl
  have hright : (root.layout name).map Prod.fst =
      ((root.files name).map Prod.fst).map (cons name) := by
    rw [SourceRoot.layout, hdir, map_map, map_map]
    rfl
  rw [hleft, hright] at hpaths
  cases hm : t.multiFile with
  | false =>
    -- one path of one name is the path of nothing in a directory
    rw [hm] at hmulti hpaths
    have hone : files.map V2.V2File.path = [[t.name]] := by simpa using hmulti.symm
    obtain ⟨f, rest, hcons⟩ := exists_cons_of_ne_nil hsome
    rw [hone, hcons] at hpaths
    have hnil : f.1 = [] := by
      have := (List.cons.inj hpaths).1
      exact (List.cons.inj this).2.symm
    exact absurd hnil (hne f (hcons ▸ mem_cons_self))
  | true =>
    rw [hm] at hpaths
    have hname : t.name = name := by
      obtain ⟨f, rest, hcons⟩ := exists_cons_of_ne_nil hsome
      rw [hcons] at hpaths
      cases files with
      | nil => cases hpaths
      | cons g files => exact (List.cons.inj (List.cons.inj hpaths).1).1
    refine ⟨hname, rfl, map_injective_iff.2 (cons_injective (a := name)) ?_⟩
    rw [hname] at hpaths
    exact hpaths

omit [Digests] in
theorem bounds_of_layout (hne : ∀ f ∈ root.files name, f.1 ≠ []) (hsome : root.files name ≠ [])
    (hwithin : Within files) (hfiles : t.files = files.map fun f => (f.path, f.length))
    (hmulti : t.multiFile = (files.map V2.V2File.path != [[t.name]]))
    (hlayout : t.layout = root.layout name) :
    (∀ f ∈ root.files name, f.1.length ≤ maxTreeDepth) ∧ (root.files name).length ≤ maxFiles ∧
      (isDir root = true → (root.files name).map Prod.fst ≠ [[name]]) := by
  cases root with
  | file f =>
    refine ⟨fun g hg => ?_, (show 1 ≤ maxFiles by decide), nofun⟩
    rw [mem_singleton.1 hg]
    exact (show 1 ≤ maxTreeDepth by decide)
  | dir nodes =>
    obtain ⟨hname, hm, hpaths⟩ := paths_of_layout rfl hne hsome hfiles hmulti hlayout
    refine ⟨fun f hf => ?_, ?_, fun _ hone => ?_⟩
    · have hmem : f.1 ∈ files.map V2.V2File.path := hpaths ▸ mem_map_of_mem hf
      obtain ⟨g, hg, hgf⟩ := mem_map.1 hmem
      rw [← hgf]
      exact hwithin.depth g hg
    · have hlen := congrArg length hpaths
      rw [length_map, length_map] at hlen
      rw [← hlen]
      exact hwithin.count
    · rw [hm, hpaths, hone, hname, bne_self_eq_false] at hmulti
      cases hmulti

theorem layout_of_readsAs {k : ℕ}
    (ht : ReadsAs name entries k layers t) (hfound : entries.map Entry.found = root.files name)
    (hdir : isDir root = true → (root.files name).map Prod.fst ≠ [[name]]) :
    t.layout = root.layout name := by
  have hpaths : entries.map Entry.path = (root.files name).map Prod.fst := by
    rw [← hfound, map_map]
    rfl
  have hmulti : t.multiFile = isDir root := by
    rw [ht.multiFile_eq, hpaths]
    cases root with
    | file f => exact bne_self_eq_false _
    | dir nodes => exact bne_iff_ne.2 (hdir rfl)
  rw [layout, SourceRoot.layout, ht.files_eq, hmulti, ht.name_eq, ← hfound, map_map, map_map]
  rfl

/-- **A v2 torrent is read back exactly where its source is recoverable.** -/
theorem readBack_create_v2_iff (hroot : source.root = .ok root)
    (h : create source options = .ok created) (hv2 : options.v2 = true)
    (hname : nameOf source options = .ok name)
    (hlen : choosePieceLength options (measured (root.files name) % 2 ^ 64) = .ok pieceLength)
    {data : Slice} (hdata : data.1 = created.bytes) :
    ReadBack data created root ↔ Recoverable pieceLength name root := by
  obtain ⟨name', entries, pieceLength', hname', hentries, hnonzero, hlen', h⟩ :=
    create_cases hroot h
  obtain rfl : name' = name := Except.ok.inj (hname'.symm.trans hname)
  obtain rfl : pieceLength' = pieceLength := Except.ok.inj (hlen'.symm.trans hlen)
  rw [hv2, if_pos rfl] at h
  have hnamed : created.name = name' := by
    rw [createV2, check_eq_ok_iff, bind_eq_ok_iff] at h
    obtain ⟨-, b, -, h⟩ := h
    cases h
    rfl
  obtain ⟨hfound, hnames⟩ := Source.entries_spec (nameOf_spec hname) hentries
  have husable := choosePieceLength_spec hlen
  rw [ReadBack, hnamed]
  constructor
  · rintro ⟨t, hparse, hready, hhash, hlayout⟩
    have hv2Only : t.isV2Only = true := (Bool.and_eq_true_iff.1 hready).1
    obtain ⟨files, hwithin, hfiles, hmulti⟩ := TorrentFile.walked_of_parse hparse hv2Only
    have hne : ∀ f ∈ root.files name', f.1 ≠ [] := by
      rw [← hfound]
      intro f hf
      obtain ⟨e, he, rfl⟩ := mem_map.1 hf
      exact (hnames e he).1
    have hsome : root.files name' ≠ [] := by
      intro hnil
      rw [hnil] at hnonzero
      exact hnonzero rfl
    obtain ⟨hdepth, hcount, hdir⟩ := bounds_of_layout hne hsome hwithin hfiles hmulti hlayout
    have hsize : measured (root.files name') < 2 ^ 64 := by
      have htotal := (TorrentFile.Accepted.parsed hparse).planned.total
      rwa [← sum_layout, ← hlayout, sum_layout_eq_totalLength]
    rw [Nat.mod_eq_of_lt hsize] at husable h
    obtain ⟨k, es, layers, t', ⟨rfl, hk, hk'⟩, hwhole, hkept, hlookup, -, -, hread⟩ :=
      parse_createV2 hname hroot hentries husable h husable.total_lt hdepth hcount hdata
    refine ⟨hsize, hdepth, hcount, hdir, ?_⟩
    rw [← hfound, ← hkept.validateLayers_iff hk hk' hwhole hlookup]
    rw [hread] at hparse
    cases hfit : V2.validateLayers (entries.map fileOf) layers (.ofNat (2 ^ k)) with
    | ok _ => rfl
    | error e =>
      rw [hfit] at hparse
      cases hparse
  · rintro ⟨hsize, hdepth, hcount, hdir, hlayers⟩
    rw [Nat.mod_eq_of_lt hsize] at husable h
    obtain ⟨k, es, layers, t, ⟨rfl, hk, hk'⟩, hwhole, hkept, hlookup, ht, hhash, hread⟩ :=
      parse_createV2 hname hroot hentries husable h husable.total_lt hdepth hcount hdata
    rw [← hfound, ← hkept.validateLayers_iff hk hk' hwhole hlookup] at hlayers
    rw [hlayers] at hread
    have haccepted : t.Accepted := .parsed hread
    have hlayout := layout_of_readsAs ht hfound hdir
    obtain ⟨hash, hmd⟩ := ht.v2_eq
    obtain ⟨pieces, hplan⟩ := hkept.exists_planPieces hwhole hlookup
    refine ⟨t, hread, haccepted.planned.v2Ready_of_plan haccepted.sized ht.v2Only hmd
      (ht.pieceLength_eq ▸ hplan) ?_, hhash, hlayout⟩
    rw [← sum_layout_eq_totalLength, hlayout, sum_layout]
    rw [Nat.mod_eq_of_lt hsize] at hnonzero
    exact Nat.pos_of_ne_zero hnonzero

end

/-- The v2 form, and nothing else asked for. -/
def plainV2 : CreateOptions where
  pieceLength := none
  trackers := []
  webSeeds := []
  priv := false
  comment := none
  createdBy := none
  creationDate := none
  name := none
  v2 := true

/-- The directory `a` with a file of one byte in it. -/
def directoryOf (name : Name) : Source where
  path := [[97]]
  display := [97]
  resolved := .ok [[97]]
  root := .ok (.dir [(name, .file ⟨1, .ok [1], []⟩)])
  distinct := by
    rintro entries ⟨⟩
    exact ⟨nodup_singleton _, trivial, trivial⟩

theorem readBack_create_v2_iff_sample :
    let _ := Digests.zero
    ∃ (created : Created) (data : Slice),
      create (directoryOf [98]) plainV2 = .ok created ∧ data.1 = created.bytes ∧
      ReadBack data created (.dir [([98], .file ⟨1, .ok [1], []⟩)]) := by
  let _ := Digests.zero
  have hok : ∃ c ∈ (create (directoryOf [98]) plainV2).toOption, c.bytes.length < 2 ^ 63 := by
    decide +kernel
  obtain ⟨created, hcreated, hlen⟩ := exists_ok hok
  let root : SourceRoot := .dir [([98], .file ⟨1, .ok [1], []⟩)]
  have hfiles : root.files [97] = [([[98]], ⟨1, .ok [1], []⟩)] := rfl
  have hname : nameOf (directoryOf [98]) plainV2 = .ok [97] :=
    eq_ok_of_mem_toOption (by decide +kernel)
  have hchoose : choosePieceLength plainV2 (measured (root.files [97]) % 2 ^ 64) = .ok 16384 :=
    eq_ok_of_mem_toOption (by decide +kernel)
  have hrecoverable : Recoverable 16384 [97] root := by
    refine ⟨by decide, ?_, by decide, fun _ => by decide, ?_⟩
    · rw [hfiles]
      decide
    · rw [hfiles]
      intro f hf g hg hflong
      rw [mem_singleton.1 hf] at hflong
      exact absurd hflong (by decide)
  refine ⟨created, ⟨created.bytes, hlen⟩, hcreated, rfl, ?_⟩
  have hroot : (directoryOf [98]).root = .ok root := rfl
  exact (readBack_create_v2_iff hroot hcreated rfl hname hchoose rfl).2 hrecoverable

/-- **A file in a directory of the same name is read back as a single
file**, beside where it was. -/
theorem own_name_flattened :
    let _ := Digests.zero
    ∃ (created : Created) (data : Slice) (t : TorrentFile),
      create (directoryOf [97]) plainV2 = .ok created ∧ data.1 = created.bytes ∧
      parseTorrentFile data = .ok t ∧ t.v2Ready = true ∧
      t.layout = [([[97]], 1)] ∧
      (SourceRoot.dir [([97], .file ⟨1, .ok [1], []⟩)]).layout [97] = [([[97], [97]], 1)] ∧
      ¬ ReadBack data created (.dir [([97], .file ⟨1, .ok [1], []⟩)]) := by
  let _ := Digests.zero
  have hok : ∃ c ∈ (create (directoryOf [97]) plainV2).toOption, c.name = [97] ∧
      ∃ h : c.bytes.length < 2 ^ 63, ∃ t ∈ (parseTorrentFile ⟨c.bytes, h⟩).toOption,
        t.v2Ready = true ∧ t.layout = [([[97]], 1)] := by
    decide +kernel
  obtain ⟨created, hcreated, hname, hlen, hread⟩ := exists_ok hok
  obtain ⟨t, ht, hready, hlayout⟩ := exists_ok hread
  refine ⟨created, ⟨created.bytes, hlen⟩, t, hcreated, rfl, ht, hready, hlayout, rfl, ?_⟩
  rintro ⟨t', ht', -, -, hlayout'⟩
  obtain rfl : t = t' := Except.ok.inj (ht.symm.trans ht')
  rw [hlayout, hname] at hlayout'
  exact absurd hlayout' (by decide)

end Create

end BitTorrent
