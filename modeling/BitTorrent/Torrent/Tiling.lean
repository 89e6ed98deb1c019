import BitTorrent.Torrent.Pieces
import Mathlib.Algebra.Order.BigOperators.Group.List

/-!
# Pieces tile the content

The lengths of the pieces of an accepted torrent add up to what they are pieces of: the whole
content where it is one range of bytes, and each file by itself in a v2 torrent.
-/

namespace BitTorrent

open List Option U64 V2

theorem sum_range_min (len size c : ℕ) :
    ((range c).map fun n => min (len - n * size) size).sum = min len (c * size) := by
  induction c with
  | zero => simp
  | succ c ih =>
    rw [range_succ, map_append, sum_append, ih, Nat.succ_mul]
    simp only [map_cons, map_nil, sum_singleton]
    omega

theorem sum_range_ceil {len size : ℕ} (hsize : 0 < size) :
    ((range ((len + size - 1) / size)).map fun n => min (len - n * size) size).sum = len := by
  rw [sum_range_min, Nat.min_eq_left (le_ceil_mul hsize)]

namespace V2

/-- `plan_pieces` for one file, in machine arithmetic. -/
def planFile64 (layers : Layers) (pieceLength index : ℕ) (file : V2File) :
    Option (List V2Piece) :=
  match file.root with
  | none => some []
  | some root =>
    if file.length ≤ pieceLength then do
      let length ← toU32 file.length
      let width ← toU32 ((file.length + block - 1) / block).nextPowerOfTwo
      return [⟨index, 0, length, root, width⟩]
    else do
      let layer ← layers.lookup root
      layer.zipIdx.mapM fun (hash, n) => do
        let offset ← mul n pieceLength
        let left ← sub file.length offset
        let length ← toU32 (min left pieceLength)
        let width ← toU32 (pieceLength / block)
        return ⟨index, offset, length, hash, width⟩

/-- `plan_pieces`, in machine arithmetic. -/
def planPieces64 (files : List V2File) (layers : Layers) (pieceLength : ℕ) :
    Option (List V2Piece) := do
  let plans ← files.zipIdx.mapM fun (file, index) => planFile64 layers pieceLength index file
  return plans.flatten

/-- **A layer has a hash for every piece** of each file that it is the
layer of, and a file has a root exactly when it has bytes. -/
structure Fitted (files : List V2File) (layers : Layers) (pieceLength : ℕ) : Prop where
  rooted : ∀ f ∈ files, f.root = none → f.length = 0
  unrooted : ∀ f ∈ files, f.length = 0 → f.root = none
  layer : ∀ f ∈ files, pieceLength < f.length → ∀ root, f.root = some root →
    ∀ layer, layers.lookup root = some layer →
      layer.length = (f.length + pieceLength - 1) / pieceLength

section

variable {files : List V2File} {layers : Layers} {pieceLength : ℕ} {file : V2File}
  {layer : List Hash32} {root : Hash32}

theorem Fitted.offset_lt (h : Fitted files layers pieceLength) (hpos : 0 < pieceLength)
    (hf : file ∈ files) (hlong : pieceLength < file.length)
    (hroot : file.root = some root) (hlayer : layers.lookup root = some layer)
    {e : Hash32 × ℕ} (he : e ∈ layer.zipIdx) : e.2 * pieceLength < file.length := by
  have hlt : e.2 < layer.length := (List.getElem?_eq_some_iff.1 (mem_zipIdx_iff_getElem?.1 he)).1
  rw [h.layer file hf hlong root hroot layer hlayer] at hlt
  exact (lt_ceil_iff hpos).1 hlt

theorem Fitted.planFile64_eq (h : Fitted files layers pieceLength) (hpos : 0 < pieceLength)
    (hle : pieceLength ≤ maxPieceLength) (hf : file ∈ files) (hlen : file.length < 2 ^ 64)
    (index : ℕ) : planFile64 layers pieceLength index file =
      planFile layers pieceLength index file := by
  unfold maxPieceLength at hle
  unfold planFile64 planFile
  cases hroot : file.root with
  | none => rfl
  | some root =>
    dsimp only
    by_cases hshort : file.length ≤ pieceLength
    · rw [if_pos hshort, if_pos hshort, toU32_of_lt (by omega)]
      have hblocks : (file.length + block - 1) / block ≤ 2 ^ 13 := by
        have : (file.length + block - 1) / block ≤ (2 ^ 27 + block - 1) / block :=
          Nat.div_le_div_right (by omega)
        exact this.trans (by decide)
      have hwidth := nextPowerOfTwo_le_pow hblocks
      rw [toU32_of_lt (by omega)]
      rfl
    · rw [if_neg hshort, if_neg hshort]
      cases hlayer : layers.lookup root with
      | none => rfl
      | some layer =>
        refine mapM_eq_some_map fun e he => ?_
        have hoff := h.offset_lt hpos hf (not_le.1 hshort) hroot hlayer he
        have hwidth : pieceLength / block ≤ pieceLength := Nat.div_le_self _ _
        rw [mul_of_lt (by omega), bind_eq_bind, bind_some,
          sub_of_le hoff.le, bind_eq_bind, bind_some,
          toU32_of_lt (by omega), toU32_of_lt (by omega)]
        rfl

/-- The pieces of a file. -/
def pieceCount (pieceLength : ℕ) (file : V2File) : ℕ :=
  (file.length + pieceLength - 1) / pieceLength

theorem pieceCount_eq_zero (hpos : 0 < pieceLength) (h : file.length = 0) :
    pieceCount pieceLength file = 0 :=
  Nat.le_zero.1 ((ceil_le_iff hpos).2 (by omega))

/-- The `m`th piece of a file, as it is planned. -/
structure IsPiece (pieceLength : ℕ) (file : V2File) (index m : ℕ) (p : V2Piece) : Prop where
  file_eq : p.file = index
  offset_eq : p.offset = m * pieceLength
  length_eq : p.length.toNat = min (file.length - m * pieceLength) pieceLength
  offset_lt : m * pieceLength < file.length

theorem IsPiece.toNat_ofNat (hle : pieceLength ≤ maxPieceLength) {n : ℕ} (hn : n ≤ pieceLength) :
    (UInt32.ofNat n).toNat = n := by
  unfold maxPieceLength at hle
  rw [UInt32.toNat_ofNat', Nat.mod_eq_of_lt (by omega)]

variable {pieces : List V2Piece} {index : ℕ}

theorem Fitted.planFile_isPiece (h : Fitted files layers pieceLength) (hpos : 0 < pieceLength)
    (hle : pieceLength ≤ maxPieceLength) (hf : file ∈ files)
    (hplan : planFile layers pieceLength index file = some pieces) :
    pieces.length = pieceCount pieceLength file ∧
      ∀ m p, pieces[m]? = some p → IsPiece pieceLength file index m p := by
  unfold planFile at hplan
  cases hroot : file.root with
  | none =>
    simp only [hroot, Option.some.injEq] at hplan
    subst hplan
    exact ⟨(pieceCount_eq_zero hpos (h.rooted file hf hroot)).symm, by simp⟩
  | some root =>
    simp only [hroot] at hplan
    have hne : file.length ≠ 0 := fun h0 => by simp [h.unrooted file hf h0] at hroot
    by_cases hshort : file.length ≤ pieceLength
    · rw [if_pos hshort, Option.some.injEq] at hplan
      subst hplan
      constructor
      · -- one piece: the length is more than none and no more than one
        have hone : pieceCount pieceLength file ≤ 1 := (ceil_le_iff hpos).2 (by omega)
        have hsome : 0 < pieceCount pieceLength file := (lt_ceil_iff hpos).2 (by omega)
        rw [length_singleton]
        omega
      · intro m p hp
        cases m with
        | zero =>
          cases hp
          refine ⟨rfl, (Nat.zero_mul _).symm, ?_, by omega⟩
          dsimp only
          rw [IsPiece.toNat_ofNat hle hshort]
          omega
        | succ m => cases hp
    · rw [if_neg hshort] at hplan
      simp only [bind_eq_bind, bind_eq_some_iff, Option.pure_def, Option.some.injEq] at hplan
      obtain ⟨layer, hlayer, rfl⟩ := hplan
      have hcount := h.layer file hf (not_le.1 hshort) root hroot layer hlayer
      refine ⟨by rw [length_map, length_zipIdx, hcount]; rfl, fun m p hp => ?_⟩
      rw [getElem?_map, map_eq_some_iff] at hp
      obtain ⟨e, he, rfl⟩ := hp
      rw [getElem?_zipIdx, map_eq_some_iff] at he
      obtain ⟨hash, hhash, rfl⟩ := he
      have hm : m < layer.length := (List.getElem?_eq_some_iff.1 hhash).1
      rw [hcount, lt_ceil_iff hpos] at hm
      refine ⟨rfl, by simp, ?_, hm⟩
      simp only [Nat.zero_add]
      exact IsPiece.toNat_ofNat hle (Nat.min_le_right _ _)

theorem Fitted.planFile_tile (h : Fitted files layers pieceLength) (hpos : 0 < pieceLength)
    (hle : pieceLength ≤ maxPieceLength) (hf : file ∈ files)
    (hplan : planFile layers pieceLength index file = some pieces) :
    (∀ p ∈ pieces, p.file = index ∧ 1 ≤ p.length.toNat) ∧
      (pieces.map fun p => p.length.toNat).sum = file.length := by
  obtain ⟨hcount, hpiece⟩ := h.planFile_isPiece hpos hle hf hplan
  constructor
  · intro p hp
    obtain ⟨m, hm⟩ := mem_iff_getElem?.1 hp
    have hp := hpiece m p hm
    have := hp.offset_lt
    exact ⟨hp.file_eq, by rw [hp.length_eq]; omega⟩
  · have hlens : (pieces.map fun p => p.length.toNat) = (range pieces.length).map fun n =>
        min (file.length - n * pieceLength) pieceLength := by
      refine ext_getElem (by simp) fun m hm hm' => ?_
      rw [getElem_map, getElem_map, getElem_range]
      exact (hpiece m _ (getElem?_eq_getElem _)).length_eq
    rw [hlens, hcount, pieceCount, sum_range_ceil hpos]

theorem Fitted.plans_tile (h : Fitted files layers pieceLength) (hpos : 0 < pieceLength)
    (hle : pieceLength ≤ maxPieceLength) : ∀ (part : List V2File) (n : ℕ)
      (plans : List (List V2Piece)), (∀ f ∈ part, f ∈ files) →
      (part.zipIdx n).mapM (fun e => planFile layers pieceLength e.2 e.1) = some plans →
      (∀ p ∈ plans.flatten, n ≤ p.file ∧ 1 ≤ p.length.toNat) ∧
      (plans.flatten.map fun p => p.length.toNat).sum = (part.map V2File.length).sum ∧
      ∀ k (hk : k < part.length),
        ((plans.flatten.filter fun p => p.file = n + k).map fun p => p.length.toNat).sum =
          part[k].length
  | [], n, plans, _, hplans => by
    cases hplans
    simp
  | f :: part, n, plans, hmem, hplans => by
    rw [forall_mem_cons] at hmem
    simp only [zipIdx_cons, mapM_cons, bind_eq_bind, bind_eq_some_iff,
      Option.pure_def, Option.some.injEq] at hplans
    obtain ⟨first, hfirst, rest, hrest, rfl⟩ := hplans
    obtain ⟨hown, hsum⟩ := h.planFile_tile hpos hle hmem.1 hfirst
    obtain ⟨hfrom, htotal, heach⟩ := h.plans_tile hpos hle part (n + 1) rest hmem.2 hrest
    rw [flatten_cons]
    refine ⟨fun p hp => ?_, ?_, fun k hk => ?_⟩
    · rcases mem_append.1 hp with hp | hp
      · exact ⟨(hown p hp).1.ge, (hown p hp).2⟩
      · exact ⟨by have := (hfrom p hp).1; omega, (hfrom p hp).2⟩
    · rw [map_append, sum_append, hsum, htotal, map_cons, sum_cons]
    · rw [filter_append, map_append, sum_append]
      cases k with
      | zero =>
        -- the first file's are all of its plan and none of the others'
        rw [filter_eq_self.2 fun p hp => by simp [(hown p hp).1],
          filter_eq_nil_iff.2 fun p hp => by have := (hfrom p hp).1; simp; omega]
        simp [hsum]
      | succ k =>
        rw [filter_eq_nil_iff.2 fun p hp => by have := (hown p hp).1; simp; omega]
        have := heach k (by simpa using hk)
        rw [show n + 1 + k = n + (k + 1) by omega] at this
        simpa using this

end

variable {files : List V2File}

theorem fitted_of_validateLayers [Digests] {layers : Layers}
    {pieceLength : Int64} (hrooted : ∀ f ∈ files, 0 < f.length ↔ f.root.isSome = true)
    (h : validateLayers files layers pieceLength = .ok ()) :
    Fitted files layers pieceLength.toInt.toNat := by
  refine ⟨fun f hf hnone => ?_, fun f hf hzero => ?_, fun f hf hlong root hroot layer hlayer => ?_⟩
  · have := hrooted f hf
    simp only [hnone, isSome_none, Bool.false_eq_true, iff_false] at this
    omega
  · have := hrooted f hf
    rw [hzero] at this
    simpa using this
  · unfold validateLayers at h
    rw [check_eq_ok_iff] at h
    obtain ⟨-, h⟩ := h
    split at h
    · rename_i hall
      have hfit := List.all_eq_true.1 hall f (by simpa using ⟨hf, hlong⟩)
      simp only [layerFits, hroot, hlayer, Bool.and_eq_true, beq_iff_eq] at hfit
      exact hfit.1
    · cases h

theorem lookup_insertLayer (layers : Layers) (entry : Hash32 × List Hash32) (root : Hash32) :
    (insertLayer layers entry).lookup root =
      if root = entry.1 then some entry.2 else layers.lookup root := by
  induction layers with
  | nil =>
    rw [insertLayer, lookup_cons]
    by_cases h : root = entry.1 <;> simp [h, beq_false_of_ne]
  | cons e layers ih =>
    rw [insertLayer]
    split
    · rw [lookup_cons]
      by_cases h : root = entry.1 <;> simp [h, beq_false_of_ne]
    · split
      · rename_i heq
        rw [lookup_cons]
        by_cases h : root = entry.1
        · simp [h]
        · rw [beq_false_of_ne h, lookup_cons, beq_false_of_ne (heq ▸ h)]
          simp [h]
      · rename_i hne
        rw [lookup_cons, lookup_cons, ih]
        by_cases h : root = entry.1
        · rw [beq_false_of_ne (h.trans_ne hne)]
        · simp [h]

theorem lookup_foldl_insertLayer : ∀ (layers base : Layers), (layers.map Prod.fst).Nodup →
      (layers.foldl insertLayer base).lookup root = some layer →
      layers.lookup root = some layer ∨ base.lookup root = some layer
  | [], base, _, h => .inr h
  | e :: layers, base, hnodup, h => by
    rw [map_cons, nodup_cons] at hnodup
    rcases lookup_foldl_insertLayer layers (insertLayer base e) hnodup.2 h with hin | hbase
    · -- the root is another than the first one's
      have hne : root ≠ e.1 := by
        rintro rfl
        obtain ⟨l₁, l₂, rfl, -⟩ := lookup_eq_some_iff.1 hin
        exact hnodup.1 (by simp)
      exact .inl (by rw [lookup_cons, beq_false_of_ne hne]; exact hin)
    · rw [lookup_insertLayer] at hbase
      split at hbase
      · rename_i heq
        exact .inl (by rw [lookup_cons, heq, beq_self_eq_true, ← hbase])
      · exact .inr hbase

end V2

/-- What `SeederShared` keeps of the sizes of a torrent. -/
structure SeederShared where
  pieceLength : ℕ
  totalLength : ℕ
  pieceLengths : Option (List UInt32)

namespace SeederShared

def pieceLen (shared : SeederShared) (pieceIndex : UInt32) : ℕ :=
  match shared.pieceLengths with
  | some lengths => (lengths[pieceIndex.toNat]?.map UInt32.toNat).getD 0
  | none => min shared.pieceLength (shared.totalLength - pieceIndex.toNat * shared.pieceLength)

/-- `SeederShared::piece_len`, in machine arithmetic. The subtraction
saturates. -/
def pieceLen64 (shared : SeederShared) (pieceIndex : UInt32) : Option ℕ :=
  match shared.pieceLengths with
  | some lengths => some ((lengths[pieceIndex.toNat]?.map UInt32.toNat).getD 0)
  | none => do
    let start ← mul pieceIndex.toNat shared.pieceLength
    return min shared.pieceLength (shared.totalLength - start)

end SeederShared

namespace TorrentFile

/-- The sizes that `session::prepare` gives to the serving side. -/
def seederShared (t : TorrentFile) : SeederShared where
  pieceLength := t.pieceLength
  totalLength := t.totalLength
  pieceLengths := if t.v2Pieces ≠ [] then some (t.v2Pieces.map V2.V2Piece.length) else none

def v2Ready (t : TorrentFile) : Bool :=
  t.isV2Only && (t.v2Pieces != [] || t.totalLength == 0)

/-- `piece_len`, in machine arithmetic. The subtraction from the count
saturates. -/
def pieceLen64 (t : TorrentFile) (index : ℕ) : Option ℕ :=
  if t.v2Pieces ≠ [] then some ((t.v2Pieces[index]?.map fun p => p.length.toNat).getD 0)
  else if index = t.pieces.length - 1 then do
    let total ← U64.sum 0 (t.files.map Prod.snd)
    let before ← mul t.pieceLength (t.pieces.length - 1)
    sub total before
  else some t.pieceLength

/-- **The plan of a torrent**: its total fits, and the pieces of a v2 one
are planned from files with layers that fit them. -/
structure Planned (t : TorrentFile) : Prop where
  total : t.totalLength < 2 ^ 64
  v2 : t.isV2Only = true → ∃ md, t.v2 = some md ∧
    t.files.map Prod.snd = md.files.map V2.V2File.length ∧
    V2.Fitted md.files md.layers t.pieceLength ∧
    t.v2Pieces = (V2.planPieces md.files md.layers t.pieceLength).getD []

variable {t : TorrentFile}

section

variable [Digests] {rawInfo : List UInt8}

theorem planned_of_build {info : Bencode} {outer : Outer}
    (h : buildTorrentFromInfo info rawInfo outer = .ok t) : t.Planned := by
  obtain ⟨rfl, hv1 | ⟨tree, md, hv2⟩⟩ := built_cases h
  · refine ⟨hv1.total, fun hv2 => ?_⟩
    simp [isV2Only, isSome_iff_ne_none.1 hv1.hashed] at hv2
  · have hlens : t.files.map Prod.snd = md.files.map V2.V2File.length := by
      rw [hv2.files, List.map_map]
      rfl
    obtain ⟨pl, hpl, hlen⟩ := hv2.pieceLength
    obtain ⟨hfiles, pl', hpl', hvalid⟩ := v2Meta_spec hv2.read
    obtain rfl : pl = pl' := Except.ok.inj (hpl.symm.trans hpl')
    have hfit := fitted_of_validateLayers
      (parseFileTree_all (fun _ _ _ h => (leafFile_spec h).2.1) hfiles) hvalid
    exact ⟨by rw [totalLength, hlens]; exact hv2.total,
      fun _ => ⟨_, hv2.v2, hlens, hlen ▸ hfit, hv2.planned⟩⟩

omit [Digests] in
theorem Sized.toNat_toInt_ofNat (hs : t.Sized) :
    (Int64.ofNat t.pieceLength).toInt.toNat = t.pieceLength := by
  have hle := hs.le
  unfold maxPieceLength at hle
  exact BitTorrent.toNat_toInt_ofNat (by omega)

theorem Planned.installLayers {t' : TorrentFile} {layers : V2.Layers} (hp : t.Planned)
    (hs : t.Sized) (hv2 : t.isV2Only = true) (hnodup : (layers.map Prod.fst).Nodup)
    (h : t.installLayers layers = .ok t') : t'.Planned := by
  obtain ⟨md, v2Pieces, hmd, hvalid, hplan, rfl⟩ := of_installLayers h
  obtain ⟨md', hmd', hfiles, hfit, -⟩ := hp.v2 hv2
  obtain rfl := Option.some.inj (hmd.symm.trans hmd')
  refine ⟨hp.total, fun _ => ⟨_, rfl, hfiles, ?_, by rw [hplan]; rfl⟩⟩
  have hrooted : ∀ f ∈ md.files, 0 < f.length ↔ f.root.isSome = true := by
    intro f hf
    rw [isSome_iff_ne_none, Nat.pos_iff_ne_zero, not_iff_not]
    exact ⟨hfit.unrooted f hf, hfit.rooted f hf⟩
  have hnew := fitted_of_validateLayers hrooted hvalid
  rw [hs.toNat_toInt_ofNat] at hnew
  refine ⟨hfit.rooted, hfit.unrooted, fun f hf hlong root hroot layer hlayer => ?_⟩
  rcases lookup_foldl_insertLayer layers md.layers hnodup hlayer with hin | hbefore
  · exact hnew.layer f hf hlong root hroot layer hin
  · exact hfit.layer f hf hlong root hroot layer hbefore

theorem Accepted.planned (h : t.Accepted) : t.Planned :=
  h.rule (fun _ h => planned_of_build h) fun hacc hp hv2 hnodup h =>
    hp.installLayers hacc.sized hv2 hnodup h

end

theorem Planned.plan_of_ready (hp : t.Planned) (hready : t.v2Ready = true) :
    ∃ md, t.v2 = some md ∧ t.files.map Prod.snd = md.files.map V2.V2File.length ∧
      V2.Fitted md.files md.layers t.pieceLength ∧
      planPieces md.files md.layers t.pieceLength = some t.v2Pieces := by
  simp only [v2Ready, Bool.and_eq_true, Bool.or_eq_true, bne_iff_ne, beq_iff_eq] at hready
  obtain ⟨md, hmd, hfiles, hfit, hplan⟩ := hp.v2 hready.1
  refine ⟨md, hmd, hfiles, hfit, ?_⟩
  rcases hready.2 with hne | hzero
  · cases hsome : planPieces md.files md.layers t.pieceLength with
    | none => simp [hsome, hplan] at hne
    | some pieces => rw [hplan, hsome, getD_some]
  · -- with no bytes at all no file has a root, and there is nothing to plan
    have hempty : ∀ f ∈ md.files, f.root = none := by
      intro f hf
      rw [totalLength, hfiles, List.sum_eq_zero_iff_forall_eq_nat] at hzero
      exact hfit.unrooted f hf (hzero _ (mem_map_of_mem hf))
    have hsome : planPieces md.files md.layers t.pieceLength =
        some (md.files.zipIdx.map fun _ => ([] : List V2.V2Piece)).flatten := by
      rw [planPieces, mapM_eq_some_map (g := fun _ => [])]
      · rfl
      · intro e he
        have hroot := hempty e.1 (fst_mem_of_mem_zipIdx he)
        simp [planFile, hroot]
    rw [hsome] at hplan
    rw [hsome, hplan, getD_some]

theorem pieceLen_v2 (hne : t.v2Pieces ≠ []) (i : ℕ) :
    t.pieceLen i = (t.v2Pieces[i]?.map fun p => p.length.toNat).getD 0 := by
  rw [pieceLen, if_pos hne]

section

variable (hs : t.Sized)

include hs

theorem Planned.tile_v2 (hp : t.Planned) (hready : t.v2Ready = true) :
    (∀ p ∈ t.v2Pieces, 1 ≤ p.length.toNat) ∧
      (t.v2Pieces.map fun p => p.length.toNat).sum = t.totalLength ∧
      ∀ k (hk : k < t.files.length),
        ((t.v2Pieces.filter fun p => p.file = k).map fun p => p.length.toNat).sum =
          t.files[k].2 := by
  obtain ⟨md, -, hfiles, hfit, hplan⟩ := hp.plan_of_ready hready
  simp only [planPieces, bind_eq_bind, bind_eq_some_iff, Option.pure_def, some.injEq] at hplan
  obtain ⟨plans, hplans, hflat⟩ := hplan
  obtain ⟨hone, htotal, heach⟩ :=
    hfit.plans_tile hs.pos hs.le md.files 0 plans (fun _ h => h) hplans
  rw [hflat] at hone htotal heach
  refine ⟨fun p hp => (hone p hp).2, by rw [htotal, totalLength, hfiles], fun k hk => ?_⟩
  have hlen := congrArg length hfiles
  simp only [length_map] at hlen
  have := heach k (by omega)
  rw [Nat.zero_add] at this
  rw [this]
  have hget := congrArg (fun l : List ℕ => l[k]?) hfiles
  simp only [getElem?_map, getElem?_eq_getElem hk,
    getElem?_eq_getElem (show k < md.files.length by omega), map_some,
    some.injEq] at hget
  exact hget.symm

variable {i : ℕ}

theorem Sized.pieceLen_v1_eq_min (hv1 : t.isV2Only = false) (hi : i < t.pieces.length) :
    i * t.pieceLength < t.totalLength ∧
      t.pieceLen i = min (t.totalLength - i * t.pieceLength) t.pieceLength := by
  obtain ⟨hlt, hlen⟩ := hs.pieceLen_v1 hv1 hi
  exact ⟨hlt, by rw [hlen]; omega⟩

theorem Planned.one_le_pieceLen (hp : t.Planned) (hknown : t.isV2Only = false ∨ t.v2Ready = true)
    (hi : i < t.pieces.length) : 1 ≤ t.pieceLen i := by
  rcases hknown with hv1 | hready
  · obtain ⟨hlt, hlen⟩ := hs.pieceLen_v1_eq_min hv1 hi
    have := hs.pos
    omega
  · have hv2 : t.isV2Only = true := (Bool.and_eq_true_iff.1 hready).1
    have hi' : i < t.v2Pieces.length := by rw [← (hs.v2 hv2).1]; exact hi
    rw [pieceLen_v2 (ne_nil_of_length_pos (by omega)), getElem?_eq_getElem hi']
    exact (hp.tile_v2 hs hready).1 _ (getElem_mem hi')

theorem Planned.sum_pieceLen (hp : t.Planned) (hknown : t.isV2Only = false ∨ t.v2Ready = true) :
    ((range t.pieces.length).map t.pieceLen).sum = t.totalLength := by
  rcases hknown with hv1 | hready
  · rw [map_congr_left fun i hi =>
      (hs.pieceLen_v1_eq_min hv1 (mem_range.1 hi)).2, (hs.v1 hv1).2, sum_range_ceil hs.pos]
  · have hv2 : t.isV2Only = true := (Bool.and_eq_true_iff.1 hready).1
    have hmap : (range t.pieces.length).map t.pieceLen =
        t.v2Pieces.map fun p => p.length.toNat := by
      rw [(hs.v2 hv2).1]
      refine ext_getElem (by simp) fun i hi hi' => ?_
      simp only [length_map] at hi'
      rw [getElem_map, getElem_range,
        pieceLen_v2 (ne_nil_of_length_pos (by omega)), getElem?_eq_getElem hi',
        getElem_map]
      rfl
    rw [hmap, (hp.tile_v2 hs hready).2.1]

theorem Sized.seederShared_pieceLen {i : UInt32} (hi : i.toNat < t.pieces.length) :
    t.seederShared.pieceLen i = t.pieceLen i.toNat := by
  cases hv2 : t.isV2Only with
  | false =>
    have hnil := (hs.v1 hv2).1
    rw [(hs.pieceLen_v1_eq_min hv2 hi).2]
    simp only [SeederShared.pieceLen, seederShared, hnil, ne_eq, not_true_eq_false, ↓reduceIte]
    exact Nat.min_comm _ _
  | true =>
    have hne : t.v2Pieces ≠ [] := ne_nil_of_length_pos (by rw [← (hs.v2 hv2).1]; omega)
    rw [pieceLen_v2 hne]
    simp only [SeederShared.pieceLen, seederShared, if_pos hne, getElem?_map, Option.map_map]
    rfl

theorem Sized.seederShared_pieceLen64 (i : UInt32) :
    t.seederShared.pieceLen64 i = some (t.seederShared.pieceLen i) := by
  have hmul : i.toNat * t.pieceLength < 2 ^ 64 := by
    have hi := i.toNat_lt
    have hle := hs.le
    unfold maxPieceLength at hle
    calc i.toNat * t.pieceLength ≤ 2 ^ 32 * 2 ^ 27 := Nat.mul_le_mul (by omega) hle
      _ < 2 ^ 64 := by decide
  unfold SeederShared.pieceLen64 SeederShared.pieceLen
  cases t.seederShared.pieceLengths with
  | some lengths => rfl
  | none =>
    rw [show t.seederShared.pieceLength = t.pieceLength from rfl, mul_of_lt hmul]
    rfl

theorem Planned.pieceLen64_eq (hp : t.Planned) (hi : i < t.pieces.length) :
    t.pieceLen64 i = some (t.pieceLen i) := by
  unfold pieceLen64 pieceLen
  by_cases hne : t.v2Pieces ≠ []
  · rw [if_pos hne, if_pos hne]
  · rw [if_neg hne, if_neg hne]
    split
    · rename_i hlast
      have hv1 : t.isV2Only = false := by
        cases hv2 : t.isV2Only with
        | false => rfl
        | true =>
          have hcount := (hs.v2 hv2).1
          rw [not_not.1 hne, length_nil] at hcount
          omega
      have hlt := (hs.pieceLen_v1_eq_min hv1 hi).1
      rw [hlast, Nat.mul_comm] at hlt
      have hsum : sum 0 (t.files.map Prod.snd) = some t.totalLength := by
        rw [sum_of_lt (by rw [Nat.zero_add]; exact hp.total), Nat.zero_add, totalLength]
      have htotal := hp.total
      rw [hsum, bind_eq_bind, bind_some, mul_of_lt (by omega), bind_some, sub_of_le hlt.le]
    · rfl

theorem Planned.planPieces64_eq (hp : t.Planned) (hv2 : t.isV2Only = true) {md : V2.V2Meta}
    (hmd : t.v2 = some md) :
    planPieces64 md.files md.layers t.pieceLength =
      planPieces md.files md.layers t.pieceLength := by
  obtain ⟨md', hmd', hfiles, hfit, -⟩ := hp.v2 hv2
  obtain rfl : md' = md := Option.some.inj (hmd'.symm.trans hmd)
  have hlen : ∀ f ∈ md'.files, f.length < 2 ^ 64 := by
    intro f hf
    have htotal := hp.total
    rw [totalLength, hfiles] at htotal
    exact (single_le_sum (by simp) _ (mem_map_of_mem hf)).trans_lt htotal
  have heach : ∀ e ∈ md'.files.zipIdx, planFile64 md'.layers t.pieceLength e.2 e.1 =
      planFile md'.layers t.pieceLength e.2 e.1 := by
    intro e he
    have hf := fst_mem_of_mem_zipIdx he
    exact hfit.planFile64_eq hs.pos hs.le hf (hlen e.1 hf) e.2
  rw [planPieces64, planPieces]
  congr 1
  exact mapM_congr_of_mem heach

end

/-- **The pieces of an accepted torrent tile its content.** Where its
pieces are known, each has a length between one and the piece length and
together they are the whole; in a v2 torrent those of a file are that
file; the serving side works out the same lengths; and no operation of
these computations leaves its machine type. -/
theorem pieces_tile [Digests] {t : TorrentFile} (hacc : t.Accepted)
    (hknown : t.isV2Only = false ∨ t.v2Ready = true) :
    (∀ i < t.pieces.length, 1 ≤ t.pieceLen i ∧ t.pieceLen i ≤ t.pieceLength) ∧
      ((List.range t.pieces.length).map t.pieceLen).sum = t.totalLength ∧
      (t.isV2Only = true → ∀ k (hk : k < t.files.length),
        ((t.v2Pieces.filter fun p => p.file = k).map fun p => p.length.toNat).sum =
          t.files[k].2) ∧
      (∀ i : UInt32, i.toNat < t.pieces.length →
        t.seederShared.pieceLen i = t.pieceLen i.toNat) ∧
      (∀ i < t.pieces.length, t.pieceLen64 i = some (t.pieceLen i)) ∧
      (∀ i : UInt32, t.seederShared.pieceLen64 i = some (t.seederShared.pieceLen i)) ∧
      ∀ md, t.isV2Only = true → t.v2 = some md →
        V2.planPieces64 md.files md.layers t.pieceLength =
          V2.planPieces md.files md.layers t.pieceLength := by
  have hs := hacc.sized
  have hp := hacc.planned
  refine ⟨fun i hi => ⟨hp.one_le_pieceLen hs hknown hi, hs.pieceLen_le hi⟩,
    hp.sum_pieceLen hs hknown, fun hv2 => ?_, fun i hi => hs.seederShared_pieceLen hi,
    fun i hi => hp.pieceLen64_eq hs hi, hs.seederShared_pieceLen64,
    fun md hv2 hmd => hp.planPieces64_eq hs hv2 hmd⟩
  rcases hknown with hv1 | hready
  · simp [hv1] at hv2
  · exact (hp.tile_v2 hs hready).2.2

/-- A v2 torrent file of one file of 20000 bytes, in two pieces of at most
16384. -/
def twoPieces : List UInt8 :=
  ascii "d4:infod9:file treed1:ad0:d6:lengthi20000e11:pieces root32:" ++ List.replicate 32 0 ++
    ascii "eee12:meta versioni2e4:name1:n12:piece lengthi16384ee12:piece layersd32:" ++
    List.replicate 32 0 ++ ascii "64:" ++ List.replicate 64 0 ++ ascii "ee"

theorem pieces_tile_sample :
    ∃ (data : Slice) (t : TorrentFile), @parseTorrentFile Digests.zero data = .ok t ∧
      t.v2Ready = true ∧ t.pieces.length = 2 ∧ t.totalLength = 20000 ∧
      (∀ i < t.pieces.length, 1 ≤ t.pieceLen i ∧ t.pieceLen i ≤ t.pieceLength) ∧
      ((List.range t.pieces.length).map t.pieceLen).sum = 20000 := by
  let _ := Digests.zero
  let data : Slice := ⟨twoPieces, by decide +kernel⟩
  have hok : ∃ t ∈ (parseTorrentFile data).toOption, t.v2Ready = true ∧ t.pieces.length = 2 ∧
      t.totalLength = 20000 := by
    decide +kernel
  obtain ⟨t, ht, hready, hcount, htotal⟩ := exists_ok hok
  obtain ⟨hlens, hsum, -⟩ := pieces_tile (.parsed ht) (Or.inr hready)
  exact ⟨data, t, ht, hready, hcount, htotal, hlens, hsum.trans htotal⟩

end TorrentFile

end BitTorrent
