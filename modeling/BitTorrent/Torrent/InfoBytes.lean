import BitTorrent.Torrent.Paths

/-!
# The bytes of the info dictionary

`find_key_span` walks the raw bytes beside the decoder, to hash the info dictionary as it was
written.
-/

namespace BitTorrent

open List

/-- What `find_key_span` returns: where the value of the key starts, and
where it ends. -/
def keySpan (data key : List UInt8) : Except TorrentError (ℕ × ℕ) :=
  if data.head? ≠ some Bencode.tagDict then .error .notADict
  else do
    let (atValue, after) ← findKey key data.length data.tail
    return (data.length - atValue.length, data.length - after.length)

namespace Bencode

theorem decodeValue_encodeBytes {k rest : List UInt8}
    (hlen : (encodeBytes k ++ rest).length < 2 ^ 63) :
    decodeValue true maxDepth (encodeBytes k ++ rest) = .ok (bytes k, rest) :=
  decodeValue_encode (v := bytes k) hlen (Nat.zero_le _) trivial

theorem encodeEntries_append (es es' : Entries) :
    encodeEntries (es ++ es') = encodeEntries es ++ encodeEntries es' := by
  induction es with
  | nil => simp [encodeEntries]
  | cons e es ih => simp [encodeEntries, ih]

variable {v : Bencode} {entries : Entries} {key : List UInt8}

theorem depth_le_depthEntries
    (h : entries.lookup key = some v) : v.depth ≤ depthEntries entries := by
  induction entries with
  | nil => cases h
  | cons e entries ih =>
    rw [lookup_cons] at h
    rw [depthEntries]
    split at h
    · cases h
      exact le_max_left _ _
    · exact (ih h).trans (le_max_right _ _)

end Bencode

open Bencode in
theorem findKey_encodeEntries {key rest : List UInt8} :
    ∀ (entries : Entries) (fuel : ℕ), entries.length < fuel →
      (encodeEntries entries ++ tagEnd :: rest).length < 2 ^ 63 →
      depthEntries entries ≤ maxDepth → OrderedEntries entries → entries.lookup key = some v →
      ∃ before after, entries = before ++ (key, v) :: after ∧
        findKey key fuel (encodeEntries entries ++ tagEnd :: rest) =
          .ok (encode v ++ (encodeEntries after ++ tagEnd :: rest),
            encodeEntries after ++ tagEnd :: rest)
  | [], _, _, _, _, _, hlookup => by cases hlookup
  | (k, w) :: entries, 0, hfuel, _, _, _, _ => by omega
  | (k, w) :: entries, fuel + 1, hfuel, hlen, hdepth, hord, hlookup => by
    rw [depthEntries] at hdepth
    rw [OrderedEntries] at hord
    simp only [encodeEntries, append_assoc] at hlen ⊢
    have hlen' : (encode w ++ (encodeEntries entries ++ tagEnd :: rest)).length < 2 ^ 63 := by
      rw [length_append] at hlen
      omega
    have hw : decodeValue true maxDepth (encode w ++ (encodeEntries entries ++ tagEnd :: rest)) =
        .ok (w, encodeEntries entries ++ tagEnd :: rest) :=
      decodeValue_encode hlen' (by omega) hord.1
    -- a key starts with a digit, so the dict does not end here
    obtain ⟨c, y, hc, hend⟩ := exists_encodeBytes_eq_cons k
    have hstep : findKey key (fuel + 1)
          (encodeBytes k ++ (encode w ++ (encodeEntries entries ++ tagEnd :: rest))) =
        if k = key then .ok (encode w ++ (encodeEntries entries ++ tagEnd :: rest),
          encodeEntries entries ++ tagEnd :: rest)
        else findKey key fuel (encodeEntries entries ++ tagEnd :: rest) := by
      rw [findKey, decodeValue_encodeBytes hlen]
      simp only [hc, cons_append, peek, liftDecode, bind, Except.bind, if_neg hend, hw]
      rfl
    rw [hstep]
    by_cases hk : k = key
    · subst hk
      obtain rfl : w = v := by simpa using hlookup
      exact ⟨[], entries, rfl, if_pos rfl⟩
    · rw [if_neg hk]
      rw [List.lookup_cons, beq_false_of_ne (Ne.symm hk)] at hlookup
      have hlen'' : (encodeEntries entries ++ tagEnd :: rest).length < 2 ^ 63 := by
        rw [length_append] at hlen'
        omega
      obtain ⟨before, after, rfl, hfind⟩ := findKey_encodeEntries entries fuel
        (by simpa using hfuel) hlen'' (by omega) hord.2 hlookup
      exact ⟨(k, w) :: before, after, rfl, hfind⟩

open Bencode in
theorem length_le_length_encodeEntries (entries : Entries) :
    entries.length ≤ (encodeEntries entries).length := by
  induction entries with
  | nil => simp
  | cons e entries ih =>
    obtain ⟨c, y, hc, -⟩ := exists_encodeBytes_eq_cons e.1
    rw [encodeEntries, hc]
    simp only [length_cons, length_append]
    omega

open Bencode in
theorem keySpan_of_decode {data : Slice} (hdecode : decode data = .ok (dict entries))
    (hlookup : entries.lookup key = some v) :
    ∃ before after, entries = before ++ (key, v) :: after ∧
      data.1 = tagDict :: (encodeEntries before ++ encodeBytes key) ++ encode v ++
        (encodeEntries after ++ [tagEnd]) ∧
      keySpan data.1 key = .ok ((tagDict :: (encodeEntries before ++ encodeBytes key)).length,
        (tagDict :: (encodeEntries before ++ encodeBytes key)).length + (encode v).length) ∧
      findKeySpan data.1 key = .ok (encode v) := by
  obtain ⟨hdata, hdepth, hord⟩ := (decode_eq_ok_iff data _).1 hdecode
  rw [encode] at hdata
  rw [depth] at hdepth
  rw [Ordered] at hord
  have hlen := data.2
  have hfuel : entries.length < data.1.length := by
    have := length_le_length_encodeEntries entries
    rw [hdata]
    simp only [length_cons, length_append]
    omega
  rw [hdata, length_cons] at hlen
  obtain ⟨before, after, hentries, hfind⟩ := findKey_encodeEntries entries data.1.length hfuel
    (Nat.lt_of_succ_lt hlen) (by omega) hord.2 hlookup
  have hsplit : data.1 = tagDict :: (encodeEntries before ++ encodeBytes key) ++ encode v ++
      (encodeEntries after ++ [tagEnd]) := by
    rw [hdata, hentries, encodeEntries_append, encodeEntries]
    simp only [append_assoc, cons_append]
  have htail : findKey key data.1.length data.1.tail =
      .ok (encode v ++ (encodeEntries after ++ [tagEnd]), encodeEntries after ++ [tagEnd]) := by
    rw [← hfind, hdata, tail_cons]
  have hhead : ¬ data.1.head? ≠ some tagDict := by simp [hdata]
  refine ⟨before, after, hentries, hsplit, ?_, ?_⟩
  · have hl := congrArg length hsplit
    simp only [length_append, length_cons] at hl
    rw [keySpan, if_neg hhead, htail]
    simp only [bind, Except.bind, pure, Except.pure, Except.ok.injEq, Prod.mk.injEq,
      length_append, length_cons]
    omega
  · rw [findKeySpan, if_neg hhead, htail]
    simp [bind, Except.bind, pure, Except.pure]

theorem toList_shortHash (h : Hash32) : (shortHash h).toList = h.toList.take 20 := by
  refine ext_getElem (by simp) fun i hi _ => ?_
  have hi' : i < 20 := by simpa using hi
  have hlen : i < h.toList.length := by
    rw [List.Vector.toList_length]
    omega
  simp only [shortHash, List.Vector.toList_ofFn, List.getElem_ofFn, getElem_take]
  rw [getD_eq_getElem?_getD, getElem?_eq_getElem hlen, Option.getD_some]

section

variable [Digests] {rawInfo : List UInt8}
  {info : Bencode} {t : TorrentFile} {outer : Outer} (outer' : Outer)

theorem buildV1Torrent_outer {v2 : Option V2.V2Meta} (v2' : Option V2.V2Meta)
    (h : buildV1Torrent info rawInfo outer v2 = .ok t) :
    t.info = info ∧ t.infoHash = Digests.sha1 rawInfo ∧
      ∃ t', buildV1Torrent info rawInfo outer' v2' = .ok t' ∧ t'.infoHash = t.infoHash := by
  simp only [buildV1Torrent, bind_eq_ok_iff, check_eq_ok_iff] at h ⊢
  obtain ⟨pl, hpl, hpos, raw, hraw, hmod, hle, name, hname, ⟨files, padding⟩, hfiles, total,
    htotal, hcount, h⟩ := h
  cases h
  exact ⟨rfl, rfl, _, ⟨pl, hpl, hpos, raw, hraw, hmod, hle, name, hname, (files, padding), hfiles,
    total, htotal, hcount, rfl⟩, rfl⟩

variable {tree : Bencode}

theorem v2Meta_noLayers {layers : Option Bencode}
    {md : V2.V2Meta} {pl : Int64} (hpl : parsePieceLength info = .ok pl)
    (hvalid : V2.validPieceLength pl = true) (h : v2Meta info tree rawInfo layers = .ok md) :
    md.infoHash = Digests.sha256 rawInfo ∧
      v2Meta info tree rawInfo none = .ok { md with layers := [] } := by
  simp only [v2Meta, bind_eq_ok_iff, liftV2_eq_ok_iff] at h ⊢
  obtain ⟨files, hfiles, _, -, _, -, _, -, h⟩ := h
  cases h
  refine ⟨rfl, files, hfiles, [], rfl, pl, hpl, (), ?_, rfl⟩
  have hfits : ∀ file, V2.layerFits [] pl.toInt.toNat file = true := by
    intro file
    unfold V2.layerFits
    cases file.root with
    | none | some => rfl
  rw [V2.validateLayers, hvalid, if_neg (by simp), if_pos (all_eq_true.2 fun f _ => hfits f)]

theorem buildV2OnlyTorrent_outer (hnone : outer'.layers = none)
    (h : buildV2OnlyTorrent info tree rawInfo outer = .ok t) :
    t.info = info ∧ t.infoHash = shortHash (Digests.sha256 rawInfo) ∧
      ∃ t', buildV2OnlyTorrent info tree rawInfo outer' = .ok t' ∧ t'.infoHash = t.infoHash := by
  simp only [buildV2OnlyTorrent, bind_eq_ok_iff, check_eq_ok_iff, hnone] at h ⊢
  obtain ⟨pl, hpl, hvalid, hle, name, hname, md, hmd, total, htotal, h⟩ := h
  cases h
  obtain ⟨hhash, hmeta⟩ := v2Meta_noLayers hpl (by simpa using hvalid) hmd
  exact ⟨rfl, by rw [← hhash], _, ⟨pl, hpl, hvalid, hle, name, hname, _, hmeta, total, htotal, rfl⟩,
    rfl⟩

/-- The hash that peers and trackers know a dictionary by: the first 20
bytes of its SHA-256 if it is v2 only, and else its SHA-1. -/
def versionHash (info : Bencode) (rawInfo : List UInt8) : Hash20 :=
  if (fileTreeOf info).isSome && (info.get Key.pieces).isNone then
    shortHash (Digests.sha256 rawInfo)
  else Digests.sha1 rawInfo

theorem infoHashMatches_versionHash (info : Bencode) :
    infoHashMatches rawInfo (versionHash info rawInfo) = true := by
  unfold versionHash
  split
  · rw [infoHashMatches, toList_shortHash]
    simp
  · simp [infoHashMatches]

theorem buildTorrentFromInfo_outer (hnone : outer'.layers = none)
    (h : buildTorrentFromInfo info rawInfo outer = .ok t) :
    t.info = info ∧ t.infoHash = versionHash info rawInfo ∧
      ∃ t', buildTorrentFromInfo info rawInfo outer' = .ok t' ∧ t'.infoHash = t.infoHash := by
  unfold buildTorrentFromInfo at h ⊢
  split at h
  · cases h
  · split at h
    · rename_i htree hpieces
      obtain ⟨hinfo, hhash, hother⟩ := buildV2OnlyTorrent_outer outer' hnone h
      exact ⟨hinfo, by simp [versionHash, htree, hpieces, hhash], hother⟩
    · rename_i htree hpieces
      obtain ⟨hinfo, hhash, hother⟩ := buildV1Torrent_outer outer'
        (v2Meta info _ rawInfo outer'.layers).toOption h
      exact ⟨hinfo, by simp [versionHash, hpieces, hhash], hother⟩
    · rename_i htree
      obtain ⟨hinfo, hhash, hother⟩ := buildV1Torrent_outer outer' none h
      exact ⟨hinfo, by simp [versionHash, htree, hhash], hother⟩

/-- **The span of the info dictionary.** In every file that is accepted,
the span found is where the value of the top-level key `info` lies, its
bytes are the encoding of what the decoder read there, and those bytes
are accepted alone and give the same info hash. -/
theorem infoSpan_exact {data : Slice} {t : TorrentFile} (h : parseTorrentFile data = .ok t) :
    ∃ entries before after, ∃ raw : Slice,
      Bencode.decode data = .ok (.dict entries) ∧ entries = before ++ (Key.info, t.info) :: after ∧
      data.1 = Bencode.tagDict :: (Bencode.encodeEntries before ++ Bencode.encodeBytes Key.info) ++
        raw.1 ++ (Bencode.encodeEntries after ++ [Bencode.tagEnd]) ∧
      keySpan data.1 Key.info =
        .ok ((Bencode.tagDict ::
            (Bencode.encodeEntries before ++ Bencode.encodeBytes Key.info)).length,
          (Bencode.tagDict ::
              (Bencode.encodeEntries before ++ Bencode.encodeBytes Key.info)).length +
            raw.1.length) ∧
      findKeySpan data.1 Key.info = .ok raw.1 ∧ raw.1 = t.info.encode ∧
      ∀ announce announceList, ∃ t',
        fromInfoDictBytes raw t.infoHash announce announceList = .ok t' ∧
          t'.infoHash = t.infoHash := by
  obtain ⟨top, entries, info, raw, htop, hdict, hinfo, hinfoOrd, hraw, hbuild⟩ := built_of_parse h
  obtain rfl : top = .dict entries := by
    cases top with
    | dict es => simpa [Bencode.asDict] using hdict
    | int | bytes | list => cases hdict
  obtain ⟨before, after, hentries, hdata, hspan, hbytes⟩ := keySpan_of_decode htop hinfo
  obtain rfl : raw = info.encode := Except.ok.inj (hraw.symm.trans hbytes)
  have hlen : info.encode.length < 2 ^ 63 := by
    have := data.2
    rw [hdata] at this
    simp only [length_append] at this
    omega
  obtain ⟨rfl, hhash, -⟩ := buildTorrentFromInfo_outer ⟨none, [], [], none⟩ rfl hbuild
  refine ⟨entries, before, after, ⟨_, hlen⟩, htop, hentries, hdata, hspan, hbytes, rfl,
    fun announce announceList => ?_⟩
  obtain ⟨-, -, t', ht', hsame⟩ :=
    buildTorrentFromInfo_outer ⟨announce, announceList, [], none⟩ rfl hbuild
  refine ⟨t', ?_, hsame⟩
  -- the dictionary is nested less deep than the file it is in
  obtain ⟨-, hdepth, -⟩ := (Bencode.decode_eq_ok_iff data _).1 htop
  have hdecode : Bencode.decode ⟨t.info.encode, hlen⟩ = .ok t.info := by
    refine (Bencode.decode_eq_ok_iff _ _).2 ⟨rfl, ?_, hinfoOrd⟩
    have := Bencode.depth_le_depthEntries hinfo
    rw [Bencode.depth] at hdepth
    omega
  rw [fromInfoDictBytes, hhash, infoHashMatches_versionHash, hdecode]
  exact ht'

/-- The hash a dictionary is asked for by is the one its version goes by. -/
def NamedByVersion (rawInfo : Slice) (expected : Hash20) : Prop :=
  ∃ info, Bencode.decode rawInfo = .ok info ∧ expected = versionHash info rawInfo.1

/-- **The torrent of a dictionary has the hash it was accepted for** just
where that is the hash its version goes by. -/
theorem infoHash_eq_iff {raw : Slice} {expected : Hash20} {announce : Option (List UInt8)}
    {announceList : List (List (List UInt8))}
    (h : fromInfoDictBytes raw expected announce announceList = .ok t) :
    t.infoHash = expected ↔ NamedByVersion raw expected := by
  obtain ⟨info, hinfo, -, hbuild⟩ := built_of_dict h
  obtain ⟨-, hhash, -⟩ := buildTorrentFromInfo_outer ⟨none, [], [], none⟩ rfl hbuild
  rw [hhash]
  constructor
  · exact fun heq => ⟨info, hinfo, heq.symm⟩
  · rintro ⟨info', hinfo', heq⟩
    obtain rfl : info = info' := Except.ok.inj (hinfo.symm.trans hinfo')
    exact heq.symm

end

theorem infoSpan_exact_sample :
    ∃ (data : Slice) (t : TorrentFile) (raw : Slice),
      @parseTorrentFile Digests.zero data = .ok t ∧ keySpan data.1 Key.info = .ok (7, 128) ∧
      findKeySpan data.1 Key.info = .ok raw.1 ∧ raw.1 = t.info.encode ∧
      ∃ t', @fromInfoDictBytes Digests.zero raw t.infoHash none [] = .ok t' ∧
        t'.infoHash = t.infoHash := by
  let _ := Digests.zero
  let data : Slice := ⟨sameNameTwice, by decide +kernel⟩
  have hok : ∃ t ∈ (parseTorrentFile data).toOption, t.isV2Only = false := by
    decide +kernel
  obtain ⟨t, ht, -⟩ := exists_ok hok
  obtain ⟨entries, before, after, raw, -, -, -, -, hbytes, hraw, halone⟩ := infoSpan_exact ht
  exact ⟨data, t, raw, ht, by decide +kernel, hbytes, hraw, halone none []⟩

/-- The dictionary of a hybrid torrent of one file. -/
def hybridInfo : Slice :=
  ⟨(Bencode.dict [(Key.fileTree, .dict [([110], .dict [([], .dict [(V2.keyLength, .int 1),
      (V2.keyPiecesRoot, .bytes (.replicate 32 0))])])]),
    (Key.length, .int 1), (Key.metaVersion, .int 2), (Key.name, .bytes [110]),
    (Key.pieceLength, .int 16384), (Key.pieces, .bytes (.replicate 20 0))]).encode,
    by decide +kernel⟩

/-- Digests that differ: SHA-1 is all zeros, SHA-256 all ones. -/
@[reducible] def Digests.apart : Digests := ⟨fun _ => .replicate 20 0, fun _ => .replicate 32 1⟩

theorem infoHash_eq_iff_sample : ∃ t,
    @fromInfoDictBytes Digests.apart hybridInfo (.replicate 20 0) none [] = .ok t ∧
      t.infoHash = .replicate 20 0 := by
  let _ := Digests.apart
  have hok : ∃ t ∈ (fromInfoDictBytes hybridInfo (.replicate 20 0) none []).toOption,
      t.isV2Only = false := by
    decide +kernel
  obtain ⟨t, ht, -⟩ := exists_ok hok
  exact ⟨t, ht, (infoHash_eq_iff ht).2 (exists_ok (by decide +kernel))⟩

/-- **A hybrid torrent asked for by its v2 hash** is accepted, and comes
out under its v1 hash. -/
theorem hybrid_under_v1_hash : ∃ t,
    @fromInfoDictBytes Digests.apart hybridInfo (.replicate 20 1) none [] = .ok t ∧
      t.v2.isSome = true ∧ t.infoHash = .replicate 20 0 := by
  exact exists_ok (by decide +kernel)

end BitTorrent
