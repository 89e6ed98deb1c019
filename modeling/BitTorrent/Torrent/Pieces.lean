import BitTorrent.Piece.Assembler
import BitTorrent.Torrent.Paths
import BitTorrent.V2.FileTree

/-!
# The pieces of a torrent

`build_work_queue` of `downloader/mod.rs`, and what every accepted
torrent says of its pieces: there are as many as its length needs, none
is longer than the piece length, and so their ranges do not meet.
-/

namespace BitTorrent

open List Option

namespace TorrentFile

/-- Whether bytes are a piece: a v2 piece is checked by its merkle tree, a
v1 one by SHA-1. -/
def pieceMatches [Digests] (t : TorrentFile) (index : ℕ) (data : List UInt8) : Bool :=
  match t.v2Pieces[index]? with
  | some p => V2.merkleMatches data p.width.toNat p.root
  | none => t.pieces[index]? == some (Digests.sha1 data)

def buildWorkQueue (t : TorrentFile) : List PieceWork :=
  t.pieces.zipIdx.map fun p => {
    index := .ofNat p.2
    hash := p.1
    length := .ofNat (t.pieceLen p.2)
    merkle := t.v2Pieces[p.2]?.map fun v => ⟨v.root, v.width⟩ }

/-- **The torrents there are to download**: read from a file, or from an
info dictionary a peer sent, and then given the piece layers it lacked, a
map with one layer for a root. -/
inductive Accepted [Digests] : TorrentFile → Prop
  | parsed {data : Slice} {t : TorrentFile} : parseTorrentFile data = .ok t → Accepted t
  | fetched {rawInfo : Slice} {expectedInfoHash : Hash20} {announce : Option (List UInt8)}
      {announceList : List (List (List UInt8))} {t : TorrentFile} :
      fromInfoDictBytes rawInfo expectedInfoHash announce announceList = .ok t → Accepted t
  | completed {t t' : TorrentFile} {layers : V2.Layers} :
      Accepted t → t.isV2Only = true → (layers.map Prod.fst).Nodup →
      t.installLayers layers = .ok t' → Accepted t'

/-- **The sizes of a torrent.** -/
structure Sized (t : TorrentFile) : Prop where
  pos : 0 < t.pieceLength
  le : t.pieceLength ≤ maxPieceLength
  v1 : t.isV2Only = false → t.v2Pieces = [] ∧
    t.pieces.length = (t.totalLength + t.pieceLength - 1) / t.pieceLength
  v2 : t.isV2Only = true → t.pieces.length = t.v2Pieces.length ∧
    ∀ p ∈ t.v2Pieces, p.file < t.files.length ∧ p.length.toNat ≤ t.pieceLength
  -- what the pieces were planned from are the files
  tree : ∀ md, t.isV2Only = true → t.v2 = some md → md.files.length = t.files.length

end TorrentFile

namespace V2

theorem planPieces_spec {files : List V2File} {layers : Layers} {pieceLength : ℕ}
    {pieces : List V2Piece} (h : planPieces files layers pieceLength = some pieces) :
    ∀ p ∈ pieces, p.file < files.length ∧ p.length.toNat ≤ pieceLength := by
  intro p hp
  obtain ⟨file, plan, hfile, hplan, hin⟩ := exists_planFile_of_mem h hp
  exact ⟨(List.getElem?_eq_some_iff.1 hfile).1, (mem_planFile hplan hin).2⟩

end V2

namespace TorrentFile

variable [Digests] {t : TorrentFile}

/-- **The rule for accepted torrents**: what holds of every torrent that is
built, and is kept when layers are installed, holds of all of them. -/
theorem Accepted.rule {P : TorrentFile → Prop}
    (hbuilt : ∀ {info rawInfo outer t}, Bencode.Ordered info →
      buildTorrentFromInfo info rawInfo outer = .ok t → P t)
    (hlayers : ∀ {t t' layers}, Accepted t → P t → t.isV2Only = true →
      (layers.map Prod.fst).Nodup → t.installLayers layers = .ok t' → P t')
    (h : t.Accepted) : P t := by
  induction h with
  | parsed h =>
    obtain ⟨_, _, _, _, -, -, -, hord, -, hbuild⟩ := built_of_parse h
    exact hbuilt hord hbuild
  | fetched h =>
    obtain ⟨info, -, hord, hbuild⟩ := built_of_dict h
    exact hbuilt hord hbuild
  | completed hacc hv2 hnodup h ih => exact hlayers hacc ih hv2 hnodup h

theorem sized_of_build {info : Bencode} {rawInfo : List UInt8} {outer : Outer}
    (h : buildTorrentFromInfo info rawInfo outer = .ok t) : t.Sized := by
  obtain ⟨rfl, hv1 | ⟨tree, md, hv2⟩⟩ := built_cases h
  · have hno : t.isV2Only = false := by simp [isV2Only, hv1.hashed]
    exact ⟨hv1.pos, hv1.le, fun _ => ⟨hv1.unplanned, hv1.count⟩,
      fun h => absurd (hno.symm.trans h) (by simp), fun _ h => absurd (hno.symm.trans h) (by simp)⟩
  · have hyes : t.isV2Only = true := by simp [isV2Only, hv2.v2, hv2.unhashed]
    have hlen : t.files.length = md.files.length := by rw [hv2.files, length_map]
    refine ⟨hv2.pos, hv2.le, fun h => absurd (hyes.symm.trans h) (by simp),
      fun _ => ⟨hv2.pieces, fun p hp => ?_⟩, fun md' _ hmd => ?_⟩
    · rw [hv2.planned] at hp
      cases hplan : V2.planPieces md.files md.layers t.pieceLength with
      | none => simp [hplan] at hp
      | some pieces =>
        rw [hplan, getD_some] at hp
        exact hlen ▸ V2.planPieces_spec hplan p hp
    · cases hv2.v2.symm.trans hmd
      exact hlen.symm

theorem Sized.installLayers {t' : TorrentFile} {layers : V2.Layers} (hs : t.Sized)
    (hv2 : t.isV2Only = true) (h : t.installLayers layers = .ok t') : t'.Sized := by
  obtain ⟨md, v2Pieces, hmd, -, hplan, rfl⟩ := of_installLayers h
  have hinfo : (t.info.get Key.pieces).isNone = true := (Bool.and_eq_true_iff.1 hv2).2
  have hfiles := hs.tree md hv2 hmd
  refine ⟨hs.pos, hs.le, fun h => ?_, fun _ => ⟨by simp, ?_⟩, ?_⟩
  · simp [isV2Only, hinfo] at h
  · rw [← hfiles]
    exact V2.planPieces_spec hplan
  · rintro _ - ⟨⟩
    exact hfiles

theorem Accepted.sized (h : t.Accepted) : t.Sized :=
  h.rule (fun _ h => sized_of_build h) fun _ hs hv2 _ h => hs.installLayers hv2 h

omit [Digests] in
theorem Sized.pieceLen_v1 (hs : t.Sized) (hv1 : t.isV2Only = false) {i : ℕ}
    (hi : i < t.pieces.length) :
    i * t.pieceLength < t.totalLength ∧
      t.pieceLen i = min (i * t.pieceLength + t.pieceLength) t.totalLength - i * t.pieceLength := by
  obtain ⟨hnil, hcount⟩ := hs.v1 hv1
  have hpos := hs.pos
  have hmul : ∀ k, k ≤ t.pieces.length → k * t.pieceLength ≤ t.totalLength + t.pieceLength - 1 := by
    intro k hk
    rw [hcount] at hk
    exact (Nat.le_div_iff_mul_le hpos).1 hk
  have hnext := hmul (i + 1) hi
  rw [Nat.succ_mul] at hnext
  refine ⟨by omega, ?_⟩
  unfold pieceLen
  rw [if_neg (by simp [hnil])]
  split
  · rename_i hlast
    -- the last piece ends with the torrent
    have hall : t.totalLength ≤ i * t.pieceLength + t.pieceLength := by
      have hlt := Nat.lt_div_mul_add (a := t.totalLength + t.pieceLength - 1) hpos
      rw [← hcount, show t.pieces.length = i + 1 by omega, Nat.succ_mul] at hlt
      omega
    rw [← hlast, Nat.min_eq_right hall, Nat.mul_comm]
  · have hlater := hmul (i + 2) (by omega)
    rw [Nat.succ_mul, Nat.succ_mul] at hlater
    omega

omit [Digests] in
theorem Sized.pieceLen_le (hs : t.Sized) {i : ℕ} (hi : i < t.pieces.length) :
    t.pieceLen i ≤ t.pieceLength := by
  cases hv2 : t.isV2Only with
  | false =>
    rw [(hs.pieceLen_v1 hv2 hi).2]
    omega
  | true =>
    obtain ⟨hcount, hle⟩ := hs.v2 hv2
    have hi' : i < t.v2Pieces.length := hcount ▸ hi
    unfold pieceLen
    rw [if_pos (ne_nil_of_length_pos (by omega)), getElem?_eq_getElem hi']
    exact (hle _ (getElem_mem hi')).2

theorem Sized.work (hs : t.Sized) (hcount : t.pieces.length ≤ 2 ^ 32) {w : PieceWork}
    (hw : w ∈ t.buildWorkQueue) :
    w.index.toNat < t.pieces.length ∧ w.length.toNat = t.pieceLen w.index.toNat ∧
      ∀ data, w.matches data = t.pieceMatches w.index.toNat data := by
  obtain ⟨⟨hash, i⟩, hmem, rfl⟩ := List.mem_map.1 hw
  have hget := mem_zipIdx_iff_getElem?.1 hmem
  have hi : i < t.pieces.length := (List.getElem?_eq_some_iff.1 hget).1
  have hindex : (UInt32.ofNat i).toNat = i := by
    rw [UInt32.toNat_ofNat']
    exact Nat.mod_eq_of_lt (by omega)
  have hlen : t.pieceLen i < 2 ^ 32 := by
    have h₁ := hs.pieceLen_le hi
    have h₂ := hs.le
    unfold maxPieceLength at h₂
    omega
  dsimp only
  refine ⟨by omega, ?_, fun data => ?_⟩
  · rw [hindex, UInt32.toNat_ofNat', Nat.mod_eq_of_lt hlen]
  · rw [hindex, pieceMatches, PieceWork.matches]
    dsimp only at hget ⊢
    cases t.v2Pieces[i]? with
    | some p => rfl
    | none =>
      rw [hget, map_none]
      simp [eq_comm]

end TorrentFile

end BitTorrent
