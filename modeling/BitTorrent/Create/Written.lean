import BitTorrent.Create.Torrent
import BitTorrent.Torrent.InfoBytes

/-!
# What is written is read

The file that `top_level` writes around an info dictionary is one that `parse_torrent_file` takes
apart again: it decodes, the span of its `info` is the dictionary as it was encoded, and the
trackers and web seeds are those that were given.
-/

namespace BitTorrent

open List Option

open Bencode (insertEntry insertSome)

namespace Bencode

variable {items : List Bencode}

theorem orderedItems_of_forall (h : ∀ v ∈ items, v.Ordered) : OrderedItems items := by
  induction items with
  | nil => trivial
  | cons v items ih =>
    rw [forall_mem_cons] at h
    exact ⟨h.1, ih h.2⟩

theorem depthItems_le_of_forall {n : ℕ} (h : ∀ v ∈ items, v.depth ≤ n) : depthItems items ≤ n := by
  induction items with
  | nil => exact Nat.zero_le n
  | cons v items ih =>
    rw [forall_mem_cons] at h
    exact max_le h.1 (ih h.2)

/-- **A value of the source** that is nested so deep at most. -/
def IsValue (n : ℕ) (v : Bencode) : Prop := v.Ordered ∧ v.depth ≤ n

variable {n m : ℕ} {v : Bencode}

theorem IsValue.mono (h : IsValue n v) (hnm : n ≤ m) : IsValue m v := ⟨h.1, h.2.trans hnm⟩

theorem isValue_bytes (b : List UInt8) : IsValue n (bytes b) := ⟨trivial, Nat.zero_le n⟩

theorem isValue_int (i : Int64) : IsValue n (int i) := ⟨trivial, Nat.zero_le n⟩

theorem isValue_list (h : ∀ v ∈ items, IsValue n v) : IsValue (n + 1) (list items) :=
  ⟨orderedItems_of_forall fun v hv => (h v hv).1,
    Nat.succ_le_succ (depthItems_le_of_forall fun v hv => (h v hv).2)⟩

variable {es : Entries}

theorem IsDict.isValue (h : IsDict n es) :
    IsValue (n + 1) (dict es) := ⟨h.ordered_dict, h.depth_dict⟩

variable {k : List UInt8}

theorem IsDict.insertValue (h : IsDict n es)
    (hv : IsValue n v) : IsDict n (Bencode.insertEntry k v es) := h.insertEntry hv.1 hv.2

theorem IsDict.insertSomeValue
    {o : Option Bencode} (h : IsDict n es) (ho : ∀ v, o = some v → IsValue n v) :
    IsDict n (Bencode.insertSome k o es) :=
  h.insertSome fun v hv => ho v hv

theorem asStr_bytes (s : Utf8) : asStr (bytes s.1) = some s.1 := by
  rw [asStr, asBytes, filter_some, if_pos s.2]

end Bencode

open Bencode

namespace Create

variable {info : Bencode} {pieceLayers : Option Bencode} {announce : Option Utf8}
  {announceList : List (List Utf8)} {webSeeds : List Utf8} {extras : Extras} {n : ℕ}

theorem filterMap_asStr_text {parts : List (List UInt8)}
    (h : ∀ part ∈ parts, validUtf8 part = true) : (parts.map text).filterMap asStr = parts := by
  induction parts with
  | nil => rfl
  | cons part parts ih =>
    rw [forall_mem_cons] at h
    have hpart : asStr (text part) = some part := asStr_bytes ⟨part, h.1⟩
    rw [map_cons, filterMap_cons, hpart, ih h.2]

theorem strings_map_text (urls : List Utf8) :
    strings (urls.map fun url => text url.1) = urls.map Subtype.val := by
  have hvalid : ∀ url ∈ urls.map Subtype.val, validUtf8 url = true := by
    intro url hurl
    obtain ⟨url, -, rfl⟩ := List.mem_map.1 hurl
    exact url.2
  have h := filterMap_asStr_text hvalid
  rw [List.map_map] at h
  exact h

theorem parseName_of_get {name : Name} (h : info.get Key.name = some (text name))
    (hname : validUtf8 name = true ∧ isSafeComponent name = true) : parseName info = .ok name := by
  have htext : asStr (text name) = some name := asStr_bytes ⟨name, hname.1⟩
  rw [parseName, h, bind_some, htext]
  simp only [required, bind, Except.bind, hname.2, Bool.not_true, Bool.false_eq_true, ↓reduceIte]
  rfl

theorem isValue_tiers (announceList : List (List Utf8)) : IsValue 2 (tiers announceList) := by
  refine isValue_list fun v hv => ?_
  obtain ⟨tier, -, rfl⟩ := List.mem_map.1 hv
  refine isValue_list fun v hv => ?_
  obtain ⟨url, -, rfl⟩ := List.mem_map.1 hv
  exact isValue_bytes url.1

theorem isValue_urlList {v : Bencode} (h : urlList webSeeds = some v) : IsValue 1 v := by
  match webSeeds, h with
  | [one], h =>
    cases h
    exact isValue_bytes one.1
  | one :: two :: rest, h =>
    cases h
    refine isValue_list fun v hv => ?_
    obtain ⟨url, -, rfl⟩ := List.mem_map.1 hv
    exact isValue_bytes url.1

theorem isDict_topEntries (hn : 2 ≤ n) (hinfo : IsValue n info)
    (hlayers : ∀ v, pieceLayers = some v → IsValue n v) :
    IsDict n (topEntries info pieceLayers announce announceList webSeeds extras) := by
  have htext : ∀ (o : Option Utf8) v, (o.map fun s => text s.1) = some v → IsValue n v := by
    intro o v hv
    obtain ⟨s, -, rfl⟩ := map_eq_some_iff.1 hv
    exact isValue_bytes s.1
  have hdate : ∀ v, (extras.creationDate.map fun date => Bencode.int
      (.ofNat (min date (2 ^ 63 - 1)))) = some v → IsValue n v := by
    intro v hv
    obtain ⟨date, -, rfl⟩ := map_eq_some_iff.1 hv
    exact isValue_int _
  have htiers : ∀ v, (if announceList = [] then none else some (tiers announceList)) = some v →
      IsValue n v := by
    intro v hv
    split at hv
    · cases hv
    · cases hv
      exact (isValue_tiers announceList).mono hn
  refine IsDict.insertSomeValue (IsDict.insertValue ?_ hinfo) hlayers
  refine IsDict.insertSomeValue ?_ hdate
  refine IsDict.insertSomeValue (IsDict.insertSomeValue ?_ (htext _)) (htext _)
  refine IsDict.insertSomeValue ?_ fun v hv => (isValue_urlList hv).mono (by omega)
  exact IsDict.insertSomeValue (IsDict.insertSomeValue IsDict.nil (htext _)) htiers

variable {top : Entries}

theorem lookup_topEntries
    (h : topEntries info pieceLayers announce announceList webSeeds extras = top) :
    top.lookup Key.info = some info ∧ top.lookup Key.pieceLayers = pieceLayers ∧
      top.lookup Key.announce = announce.map (fun url => text url.1) ∧
      top.lookup Key.announceList =
        (if announceList = [] then none else some (tiers announceList)) ∧
      top.lookup Key.urlList = urlList webSeeds := by
  subst h
  simp +decide only [topEntries, lookup_insertSome, lookup_insertEntry, lookup_nil, or_none,
    ↓reduceIte, and_self]

theorem outerOf_announce (h : top.lookup Key.announce = announce.map fun url => text url.1) :
    (outerOf (.dict top)).announce = announce.map Subtype.val := by
  show (top.lookup Key.announce).bind asStr = announce.map Subtype.val
  rw [h]
  cases announce with
  | none => rfl
  | some url => exact asStr_bytes url

theorem outerOf_announceList (h : top.lookup Key.announceList =
    if announceList = [] then none else some (tiers announceList)) :
    (outerOf (.dict top)).announceList = announceList.map fun tier => tier.map Subtype.val := by
  show (((top.lookup Key.announceList).bind asList).getD []).filterMap
    (fun tier => tier.asList.map strings) = announceList.map fun tier => tier.map Subtype.val
  rw [h]
  split
  · rename_i hnil
    rw [hnil]
    rfl
  · rw [bind_some, tiers, asList, getD_some, filterMap_map]
    have htier : ((fun tier : Bencode => tier.asList.map strings) ∘ fun tier : List Utf8 =>
        list (tier.map fun url => text url.1)) = fun tier => some (tier.map Subtype.val) := by
      funext tier
      exact congrArg some (strings_map_text tier)
    rw [htier, filterMap_eq_map']

theorem outerOf_urlList (h : top.lookup Key.urlList = urlList webSeeds) :
    (outerOf (.dict top)).urlList = webSeeds.map Subtype.val := by
  unfold outerOf
  dsimp only [Bencode.get, asDict, bind_some]
  rw [h]
  rcases webSeeds with _ | ⟨one, _ | ⟨two, rest⟩⟩
  · rfl
  · exact strings_map_text [one]
  · exact strings_map_text (one :: two :: rest)

theorem outerOf_topEntries
    (h : topEntries info pieceLayers announce announceList webSeeds extras = top) :
    outerOf (.dict top) = ⟨announce.map Subtype.val, announceList.map fun tier =>
      tier.map Subtype.val, webSeeds.map Subtype.val, pieceLayers⟩ := by
  obtain ⟨-, hlayers, hannounce, htiers, hurls⟩ := lookup_topEntries h
  rw [← outerOf_announce hannounce, ← outerOf_announceList htiers, ← outerOf_urlList hurls]
  exact congrArg (Outer.mk _ _ _) hlayers

theorem parseTorrentFile_topLevel [Digests] (hinfo : IsValue 99 info)
    (hlayers : ∀ v, pieceLayers = some v → IsValue 99 v) {data : Slice}
    (hdata : data.1 = topLevel info pieceLayers announce announceList webSeeds extras) :
    parseTorrentFile data = buildTorrentFromInfo info info.encode
      ⟨announce.map Subtype.val, announceList.map fun tier => tier.map Subtype.val,
        webSeeds.map Subtype.val, pieceLayers⟩ := by
  have hvalue : IsValue 100
      (.dict (topEntries info pieceLayers announce announceList webSeeds extras)) :=
    (isDict_topEntries (by decide) hinfo hlayers).isValue
  rw [topLevel] at hdata
  generalize htop : topEntries info pieceLayers announce announceList webSeeds extras = top
    at hdata hvalue
  have hdecode : Bencode.decode data = .ok (.dict top) :=
    (Bencode.decode_eq_ok_iff data _).2 ⟨hdata, hvalue.2, hvalue.1⟩
  obtain ⟨hfound, -⟩ := lookup_topEntries htop
  obtain ⟨-, -, -, -, -, hspan⟩ := keySpan_of_decode hdecode hfound
  rw [parseTorrentFile, hdecode]
  simp only [liftDecode, required, asDict, bind, Except.bind, Bencode.get, bind_some, hfound, hspan,
    outerOf_topEntries htop]

end Create

end BitTorrent
