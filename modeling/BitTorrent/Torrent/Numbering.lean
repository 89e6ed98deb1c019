import BitTorrent.Torrent.Tiling
import BitTorrent.V2.HashRange

/-!
# One numbering of the pieces

Three passes over the files of a v2 torrent keep a count each: the plan of the pieces, the layout
of the files on piece boundaries, and the sources of hashes with the first piece of each file.
-/

namespace BitTorrent

open List Option V2

variable {i : ℕ}

theorem getElem?_flatten_iff {α : Type*} {ll : List (List α)} {a : α} :
    ll.flatten[i]? = some a ↔ ∃ k m l, ll[k]? = some l ∧ l[m]? = some a ∧
      i = ((ll.take k).map length).sum + m := by
  induction ll generalizing i with
  | nil => simp
  | cons l ll ih =>
    rw [flatten_cons]
    constructor
    · intro h
      by_cases hi : i < l.length
      · exact ⟨0, i, l, rfl, by rwa [getElem?_append_left hi] at h, by simp⟩
      · rw [getElem?_append_right (not_lt.1 hi)] at h
        obtain ⟨k, m, l', hl', ha, hsum⟩ := ih.1 h
        refine ⟨k + 1, m, l', hl', ha, ?_⟩
        rw [take_succ_cons, map_cons, sum_cons]
        omega
    · rintro ⟨k, m, l', hl', ha, rfl⟩
      cases k with
      | zero =>
        obtain rfl : l = l' := some.inj hl'
        have hm := (List.getElem?_eq_some_iff.1 ha).1
        rw [take_zero, map_nil, sum_nil, Nat.zero_add, getElem?_append_left hm, ha]
      | succ k =>
        rw [take_succ_cons, map_cons, sum_cons, Nat.add_assoc,
          getElem?_append_right (Nat.le_add_right _ _), Nat.add_sub_cancel_left]
        exact ih.2 ⟨k, m, l', hl', ha, rfl⟩

namespace V2

/-- The pieces of the files before the `k`th. -/
def firstPiece (pieceLength : ℕ) (files : List V2File) (k : ℕ) : ℕ :=
  ((files.take k).map (pieceCount pieceLength)).sum

section

variable {files : List V2File} {layers : Layers} {pieceLength : ℕ} {file : V2File}

theorem firstPiece_zero (files : List V2File) : firstPiece pieceLength files 0 = 0 := rfl

theorem firstPiece_cons_succ (file : V2File) (files : List V2File) (k : ℕ) :
    firstPiece pieceLength (file :: files) (k + 1) =
      pieceCount pieceLength file + firstPiece pieceLength files k := rfl

variable {pieces : List V2Piece}

theorem Fitted.plans_isPiece (h : Fitted files layers pieceLength) (hpos : 0 < pieceLength)
    (hle : pieceLength ≤ maxPieceLength) : ∀ (part : List V2File) (n : ℕ)
      (plans : List (List V2Piece)), (∀ f ∈ part, f ∈ files) →
      (part.zipIdx n).mapM (fun e => planFile layers pieceLength e.2 e.1) = some plans →
      plans.map length = part.map (pieceCount pieceLength) ∧
      ∀ k f l, part[k]? = some f → plans[k]? = some l →
        ∀ m p, l[m]? = some p → IsPiece pieceLength f (n + k) m p
  | [], n, plans, _, hplans => by
    cases hplans
    simp
  | f :: part, n, plans, hmem, hplans => by
    rw [forall_mem_cons] at hmem
    simp only [zipIdx_cons, mapM_cons, bind_eq_bind, bind_eq_some_iff,
      Option.pure_def, Option.some.injEq] at hplans
    obtain ⟨first, hfirst, rest, hrest, rfl⟩ := hplans
    obtain ⟨hcount, hown⟩ := h.planFile_isPiece hpos hle hmem.1 hfirst
    obtain ⟨hcounts, heach⟩ := h.plans_isPiece hpos hle part (n + 1) rest hmem.2 hrest
    refine ⟨by rw [map_cons, map_cons, hcount, hcounts], fun k g l hg hl => ?_⟩
    cases k with
    | zero =>
      cases hg
      cases hl
      exact hown
    | succ k =>
      have := heach k g l hg hl
      rwa [show n + 1 + k = n + (k + 1) by omega] at this

section

variable (hplan : planPieces files layers pieceLength = some pieces)

include hplan

section

variable (h : Fitted files layers pieceLength)

include h

theorem Fitted.exists_plans (hpos : 0 < pieceLength) (hle : pieceLength ≤ maxPieceLength) :
    ∃ plans : List (List V2Piece), pieces = plans.flatten ∧
      plans.map length = files.map (pieceCount pieceLength) ∧
      (∀ k, ((plans.take k).map length).sum = firstPiece pieceLength files k) ∧
      ∀ k f l, files[k]? = some f → plans[k]? = some l →
        ∀ m p, l[m]? = some p → IsPiece pieceLength f k m p := by
  simp only [planPieces, bind_eq_bind, bind_eq_some_iff, Option.pure_def,
    Option.some.injEq] at hplan
  obtain ⟨plans, hplans, rfl⟩ := hplan
  obtain ⟨hcounts, heach⟩ := h.plans_isPiece hpos hle files 0 plans (fun _ hf => hf) hplans
  refine ⟨plans, rfl, hcounts, fun k => ?_, fun k f l hf hl => ?_⟩
  · rw [firstPiece, map_take, map_take, hcounts]
  · have := heach k f l hf hl
    rwa [Nat.zero_add] at this

theorem Fitted.planPieces_isPiece (hpos : 0 < pieceLength)
    (hle : pieceLength ≤ maxPieceLength) {p : V2Piece} (hi : pieces[i]? = some p) :
    ∃ k m f, files[k]? = some f ∧
      i = firstPiece pieceLength files k + m ∧ IsPiece pieceLength f k m p := by
  obtain ⟨plans, rfl, hcounts, hfirst, heach⟩ := h.exists_plans hplan hpos hle
  obtain ⟨k, m, l, hl, hp, rfl⟩ := getElem?_flatten_iff.1 hi
  have hk : k < files.length := by
    have hlen := congrArg length hcounts
    have := (List.getElem?_eq_some_iff.1 hl).1
    simp only [length_map] at hlen
    omega
  exact ⟨k, m, files[k], getElem?_eq_getElem hk, by rw [hfirst],
    heach k _ l (getElem?_eq_getElem hk) hl m p hp⟩

theorem Fitted.planPieces_first (hpos : 0 < pieceLength)
    (hle : pieceLength ≤ maxPieceLength) {k : ℕ} (hk : files[k]? = some file)
    (hsome : 0 < file.length) :
    ∃ p, pieces[firstPiece pieceLength files k]? = some p ∧ IsPiece pieceLength file k 0 p := by
  obtain ⟨plans, rfl, hcounts, hfirst, heach⟩ := h.exists_plans hplan hpos hle
  have hlength := congrArg (fun l : List ℕ => l[k]?) hcounts
  simp only [getElem?_map, hk, map_some, map_eq_some_iff] at hlength
  obtain ⟨l, hl, hcount⟩ := hlength
  have hl0 : 0 < l.length := by
    rw [hcount]
    exact (lt_ceil_iff hpos).2 (by omega)
  refine ⟨l[0], getElem?_flatten_iff.2 ⟨k, 0, l, hl, getElem?_eq_getElem hl0, ?_⟩,
    heach k _ l hk hl 0 _ (getElem?_eq_getElem hl0)⟩
  rw [hfirst, Nat.add_zero]

end

end

namespace HashSource

variable {root : Hash32}

theorem lookup_sources_of_not_root :
    ∀ (files : List V2File) (found : List (Hash32 × SourceFile)) (nextPiece : UInt32),
      (∀ f ∈ files, f.root ≠ some root) →
      (sources layers pieceLength found nextPiece files).lookup root = found.lookup root
  | [], found, nextPiece, _ => rfl
  | f :: files, found, nextPiece, hroot => by
    rw [forall_mem_cons] at hroot
    rw [sources]
    split
    · exact lookup_sources_of_not_root files _ _ hroot.2
    · rename_i r hr
      have hne : root ≠ r := fun h => hroot.1 (by rw [hr, h])
      dsimp only
      split
      · exact lookup_sources_of_not_root files _ _ hroot.2
      · rw [lookup_sources_of_not_root files _ _ hroot.2, lookup_cons, beq_false_of_ne hne]

theorem lookup_sources (hpos : 0 < pieceLength)
    (hlayers : pieceLength < file.length → (layers.lookup root).isSome)
    (hroot : file.root = some root) :
    ∀ (files : List V2File) (found : List (Hash32 × SourceFile)) (n k : ℕ),
      (∀ f ∈ files, f.root = none → f.length = 0) →
      files.Pairwise (fun f g => ∀ r, f.root = some r → g.root ≠ some r) →
      files[k]? = some file →
      ∃ layer, (sources layers pieceLength found (.ofNat n) files).lookup root =
        some ⟨file.length, .ofNat (n + firstPiece pieceLength files k), layer⟩
  | [], _, _, _, _, _, hk => by cases hk
  | f :: files, found, n, k, hempty, hdistinct, hk => by
    rw [forall_mem_cons] at hempty
    rw [pairwise_cons] at hdistinct
    cases k with
    | zero =>
      obtain rfl : f = file := some.inj hk
      have hlayer : ∃ layer, (if pieceLength < f.length then layers.lookup root else some []) =
          some layer := by
        split
        · rename_i hlong
          exact isSome_iff_exists.1 (hlayers hlong)
        · exact ⟨[], rfl⟩
      obtain ⟨layer, hlayer⟩ := hlayer
      refine ⟨layer, ?_⟩
      simp only [sources, hroot, hlayer]
      rw [lookup_sources_of_not_root files _ _ fun g hg => hdistinct.1 g hg root hroot,
        lookup_cons, beq_self_eq_true, firstPiece_zero, Nat.add_zero]
    | succ k =>
      have hnext : ∀ found', ∃ layer, (sources layers pieceLength found'
          (.ofNat (n + pieceCount pieceLength f)) files).lookup root =
          some ⟨file.length, .ofNat (n + firstPiece pieceLength (f :: files) (k + 1)), layer⟩ := by
        intro found'
        rw [firstPiece_cons_succ, ← Nat.add_assoc]
        exact lookup_sources hpos hlayers hroot files found' _ k hempty.2 hdistinct.2 hk
      rw [sources]
      split
      · rename_i hnone
        have := hnext found
        rwa [pieceCount_eq_zero hpos (hempty.1 hnone), Nat.add_zero] at this
      · dsimp only
        rw [← UInt32.ofNat_add]
        split <;> exact hnext _

end HashSource

end

end V2

/-- `u64::next_multiple_of`, where it fits. -/
def U64.nextMultipleOf (n m : ℕ) : Option ℕ :=
  if n % m = 0 then some n else U64.add n (m - n % m)

/-- The loop of `build_file_spans_aligned`, in machine arithmetic. -/
def layAligned64 (baseDir : Path) (pieceLength : ℕ) :
    ℕ → List (List Name × ℕ) → Option (List FileSpan)
  | _, [] => some []
  | cursor, (parts, length) :: files => do
    let stop ← U64.add cursor length
    let cursor' ← U64.nextMultipleOf stop (max pieceLength 1)
    let spans ← layAligned64 baseDir pieceLength cursor' files
    return ⟨parts.foldl Path.join baseDir, cursor, stop, false⟩ :: spans

/-- `build_file_spans_aligned`, in machine arithmetic. -/
def buildFileSpansAligned64 (baseDir : Path) (files : List (List Name × ℕ)) (pieceLength : ℕ) :
    Option (List FileSpan) :=
  layAligned64 baseDir pieceLength 0 files

theorem nextMultipleOf_mul_add {m : ℕ} (hm : 0 < m) (c n : ℕ) :
    nextMultipleOf (c * m + n) m = (c + (n + m - 1) / m) * m := by
  have hsum : c * m + n + m - 1 = n + m - 1 + c * m := by omega
  rw [nextMultipleOf, hsum, Nat.add_mul_div_right _ _ hm, Nat.add_comm c]

theorem U64.nextMultipleOf_of_lt {n m : ℕ} (hm : 0 < m)
    (h : BitTorrent.nextMultipleOf n m < 2 ^ 64) :
    U64.nextMultipleOf n m = some (BitTorrent.nextMultipleOf n m) := by
  have hn : n / m * m + n % m = n := by rw [Nat.mul_comm, Nat.div_add_mod]
  have hlt := Nat.mod_lt n hm
  have hnext := nextMultipleOf_mul_add hm (n / m) (n % m)
  rw [hn] at hnext
  unfold U64.nextMultipleOf
  split
  · rename_i h0
    rw [h0, Nat.zero_add, Nat.div_eq_of_lt (Nat.sub_lt hm Nat.one_pos), Nat.add_zero] at hnext
    rw [hnext]
    congr 1
    omega
  · -- what is left over is rounded up to one more
    have hone : (n % m + m - 1) / m = 1 := by
      have h₁ : (n % m + m - 1) / m ≤ 1 := (ceil_le_iff hm).2 (by omega)
      have h₂ : 0 < (n % m + m - 1) / m := (lt_ceil_iff hm).2 (by omega)
      omega
    rw [hone, Nat.succ_mul] at hnext
    rw [U64.add_of_lt (by omega)]
    congr 1
    omega

section

variable {pieceLength : ℕ}

theorem getElem?_layFiles_aligned (hpos : 0 < pieceLength) (baseDir : Path) :
    ∀ (files : List (List Name × ℕ)) (v2Files : List V2.V2File) (index c : ℕ),
      files.map Prod.snd = v2Files.map V2.V2File.length →
      ∀ k f, v2Files[k]? = some f → ∃ span,
        (layFiles baseDir (fun _ => false) (nextMultipleOf · (max pieceLength 1)) index
          (c * pieceLength) files)[k]? = some span ∧
        span.start = (c + firstPiece pieceLength v2Files k) * pieceLength ∧
        span.stop = span.start + f.length
  | [], v2Files, _, _, hlens, k, f, hk => by
    obtain rfl : v2Files = [] := map_eq_nil_iff.1 hlens.symm
    cases hk
  | (parts, length) :: files, [], _, _, hlens, _, _, _ => by cases hlens
  | (parts, length) :: files, g :: v2Files, index, c, hlens, k, f, hk => by
    obtain ⟨rfl, hrest⟩ := List.cons.inj hlens
    cases k with
    | zero =>
      obtain rfl : g = f := Option.some.inj hk
      exact ⟨_, rfl, by rw [firstPiece_zero, Nat.add_zero], rfl⟩
    | succ k =>
      rw [firstPiece_cons_succ, ← Nat.add_assoc]
      rw [layFiles, getElem?_cons_succ, Nat.max_eq_left hpos, nextMultipleOf_mul_add hpos]
      have := getElem?_layFiles_aligned hpos baseDir files v2Files (index + 1)
        (c + pieceCount pieceLength g) hrest k f hk
      rwa [Nat.max_eq_left hpos] at this

theorem layAligned64_eq (hpos : 0 < pieceLength) (hle : pieceLength ≤ maxPieceLength)
    (baseDir : Path) : ∀ (files : List (List Name × ℕ)) (v2Files : List V2.V2File) (index c : ℕ),
      files.map Prod.snd = v2Files.map V2.V2File.length →
      (∀ f ∈ v2Files, f.length < 2 ^ 63) → c * pieceLength < 2 ^ 64 →
      (∀ k f, v2Files[k]? = some f → 0 < f.length → c + firstPiece pieceLength v2Files k < 2 ^ 32) →
      layAligned64 baseDir pieceLength (c * pieceLength) files =
        some (layFiles baseDir (fun _ => false) (nextMultipleOf · (max pieceLength 1)) index
          (c * pieceLength) files)
  | [], _, _, _, _, _, _, _ => rfl
  | (parts, length) :: files, [], _, _, hlens, _, _, _ => by cases hlens
  | (parts, length) :: files, g :: v2Files, index, c, hlens, hshort, hc, hfirst => by
    obtain ⟨rfl, hrestLens⟩ := List.cons.inj hlens
    rw [forall_mem_cons] at hshort
    have hnext : nextMultipleOf (c * pieceLength + g.length) pieceLength =
        (c + pieceCount pieceLength g) * pieceLength := nextMultipleOf_mul_add hpos c g.length
    -- a file with bytes begins low, and one without adds none
    have hbound : c * pieceLength + g.length < 2 ^ 64 ∧
        (c + pieceCount pieceLength g) * pieceLength < 2 ^ 64 := by
      by_cases hzero : g.length = 0
      · rw [hzero, pieceCount_eq_zero hpos hzero]
        exact ⟨hc, hc⟩
      · have hlow := hfirst 0 g rfl (by omega)
        rw [firstPiece_zero, Nat.add_zero] at hlow
        have hcursor : c * pieceLength ≤ 2 ^ 32 * 2 ^ 27 := Nat.mul_le_mul hlow.le hle
        have hround : pieceCount pieceLength g * pieceLength ≤ g.length + pieceLength - 1 :=
          Nat.div_mul_le_self _ _
        have hlen := hshort.1
        unfold maxPieceLength at hle
        rw [Nat.add_mul]
        omega
    have hrest : layAligned64 baseDir pieceLength
        ((c + pieceCount pieceLength g) * pieceLength) files = some (layFiles baseDir
          (fun _ => false) (nextMultipleOf · (max pieceLength 1)) (index + 1)
            ((c + pieceCount pieceLength g) * pieceLength) files) := by
      refine layAligned64_eq hpos hle baseDir files v2Files (index + 1) _ hrestLens hshort.2
        hbound.2 ?_
      intro k f hk hf
      have := hfirst (k + 1) f hk hf
      rwa [firstPiece_cons_succ, ← Nat.add_assoc] at this
    rw [layAligned64, layFiles, Nat.max_eq_left hpos, hnext, U64.add_of_lt hbound.1,
      bind_eq_bind, bind_some,
      U64.nextMultipleOf_of_lt hpos (hnext.trans_lt hbound.2), hnext]
    rw [Nat.max_eq_left hpos] at hrest
    rw [bind_some, hrest]
    rfl

end

namespace V2

end V2

namespace TorrentFile

variable {t : TorrentFile} {md : V2.V2Meta}

section

variable [Digests] {rawInfo : List UInt8}

theorem v2Meta_length_lt {info tree : Bencode} {layers : Option Bencode}
    (h : v2Meta info tree rawInfo layers = .ok md) : ∀ f ∈ md.files, f.length < 2 ^ 63 :=
  parseFileTree_all (fun _ _ _ h => (leafFile_spec h).2.2) (v2Meta_spec h).1

theorem length_lt_of_build {info : Bencode} {outer : Outer}
    (h : buildTorrentFromInfo info rawInfo outer = .ok t) (hmd : t.v2 = some md) :
    ∀ f ∈ md.files, f.length < 2 ^ 63 := by
  obtain ⟨-, hv1 | ⟨tree, md', hv2⟩⟩ := built_cases h
  · obtain ⟨tree, -, hread⟩ := hv1.tree md hmd
    exact v2Meta_length_lt hread
  · cases hv2.v2.symm.trans hmd
    exact v2Meta_length_lt hv2.read

theorem Accepted.length_lt (h : t.Accepted) :
    ∀ md, t.v2 = some md → ∀ f ∈ md.files, f.length < 2 ^ 63 := by
  refine h.rule (P := fun t => ∀ md, t.v2 = some md → ∀ f ∈ md.files, f.length < 2 ^ 63)
    (fun _ h _ => length_lt_of_build h) fun _ ih _ _ h md hmd => ?_
  obtain ⟨md', _, hmd', -, -, rfl⟩ := of_installLayers h
  cases hmd
  exact ih md' hmd'

end

/-- **The plan, the layout and the sources number alike.** The layout
does not overflow; a planned piece lies in the span of its file, and
there in the place that its number says; no two meet; and the source of
each file with bytes has the number of the file's first piece. -/
structure NumberedAlike (t : TorrentFile) (md : V2.V2Meta) : Prop where
  laid : ∀ baseDir, buildFileSpansAligned64 baseDir t.files t.pieceLength =
    some (t.fileSpans baseDir)
  inside : ∀ baseDir i p, t.v2Pieces[i]? = some p → ∃ span,
    (t.fileSpans baseDir)[p.file]? = some span ∧ span.start + p.offset = i * t.pieceLength ∧
      i * t.pieceLength + p.length.toNat ≤ span.stop
  apart : ∀ i j p q, t.v2Pieces[i]? = some p → t.v2Pieces[j]? = some q → i < j →
    i * t.pieceLength + p.length.toNat ≤ j * t.pieceLength
  numbered : ∀ k f root, md.files[k]? = some f → f.root = some root →
    ∃ source file p, V2.HashSource.new md.files md.layers t.pieceLength = some source ∧
      source.files.lookup root = some file ∧
      t.v2Pieces[file.firstPiece.toNat]? = some p ∧ p.file = k ∧ p.offset = 0

/-- **What a map by root and a `u32` can number**: files of different
roots, each with fewer than `2 ^ 32` pieces before it. -/
structure Numberable (pieceLength : ℕ) (files : List V2.V2File) : Prop where
  distinct : files.Pairwise fun f g => ∀ root, f.root = some root → g.root ≠ some root
  few : ∀ k f, files[k]? = some f → f.root.isSome →
    V2.firstPiece pieceLength files k < 2 ^ 32

theorem fileSpans_of_ready (hready : t.v2Ready = true) (baseDir : Path) :
    t.fileSpans baseDir = buildFileSpansAligned baseDir t.files t.pieceLength :=
  if_pos (Bool.and_eq_true_iff.1 hready).1

variable {p : V2.V2Piece}

theorem Planned.inside (hp : t.Planned) (hs : t.Sized) (hready : t.v2Ready = true)
    (baseDir : Path) (hi : t.v2Pieces[i]? = some p) :
    ∃ span, (t.fileSpans baseDir)[p.file]? = some span ∧ span.start + p.offset = i * t.pieceLength ∧
      i * t.pieceLength + p.length.toNat ≤ span.stop := by
  obtain ⟨md, -, hfiles, hfit, hplan⟩ := hp.plan_of_ready hready
  obtain ⟨k, m, f, hf, rfl, hpiece⟩ := hfit.planPieces_isPiece hplan hs.pos hs.le hi
  obtain ⟨span, hspan, hstart, hstop⟩ :=
    getElem?_layFiles_aligned hs.pos baseDir t.files md.files 0 0 hfiles k f hf
  rw [Nat.zero_add] at hstart
  rw [Nat.zero_mul] at hspan
  have hoff : span.start + p.offset =
      (firstPiece t.pieceLength md.files k + m) * t.pieceLength := by
    rw [hstart, hpiece.offset_eq, Nat.add_mul]
  refine ⟨span, ?_, hoff, ?_⟩
  · rw [fileSpans_of_ready hready, hpiece.file_eq]
    exact hspan
  · have hlen := hpiece.length_eq
    have hlt := hpiece.offset_lt
    have hoffset := hpiece.offset_eq
    omega

theorem Sized.apart (hs : t.Sized) (hready : t.v2Ready = true) {j : ℕ}
    (hi : t.v2Pieces[i]? = some p) (hij : i < j) :
    i * t.pieceLength + p.length.toNat ≤ j * t.pieceLength := by
  have hv2 : t.isV2Only = true := (Bool.and_eq_true_iff.1 hready).1
  have hlen := ((hs.v2 hv2).2 p (mem_of_getElem? hi)).2
  calc i * t.pieceLength + p.length.toNat
      ≤ (i + 1) * t.pieceLength := by rw [Nat.succ_mul]; omega
    _ ≤ j * t.pieceLength := Nat.mul_le_mul_right _ hij

theorem Planned.numbered (hp : t.Planned) (hs : t.Sized) (hready : t.v2Ready = true)
    (hmd : t.v2 = some md) (hnum : Numberable t.pieceLength md.files) {k : ℕ} {f : V2.V2File}
    {root : Hash32} (hf : md.files[k]? = some f) (hroot : f.root = some root) :
    ∃ source file p, V2.HashSource.new md.files md.layers t.pieceLength = some source ∧
      source.files.lookup root = some file ∧
      t.v2Pieces[file.firstPiece.toNat]? = some p ∧ p.file = k ∧ p.offset = 0 := by
  obtain ⟨md', hmd', -, hfit, hplan⟩ := hp.plan_of_ready hready
  obtain rfl : md' = md := some.inj (hmd'.symm.trans hmd)
  have hmem := mem_of_getElem? hf
  have hpos : 0 < f.length := by
    refine Nat.pos_of_ne_zero fun h0 => ?_
    rw [hfit.unrooted f hmem h0] at hroot
    cases hroot
  -- the layer is there, or nothing would have been planned
  have hlayer : t.pieceLength < f.length → (md'.layers.lookup root).isSome := by
    intro hlong
    obtain ⟨p, hp, hpiece⟩ := hfit.planPieces_first hplan hs.pos hs.le hf hpos
    obtain ⟨g, plan, hg, hfile, -⟩ := exists_planFile_of_mem hplan (mem_of_getElem? hp)
    rw [hpiece.file_eq, hf] at hg
    cases hg
    rw [planFile, hroot] at hfile
    dsimp only at hfile
    rw [if_neg (not_le.2 hlong), bind_eq_bind, bind_eq_some_iff] at hfile
    obtain ⟨layer, hlayer, -⟩ := hfile
    rw [hlayer]
    rfl
  obtain ⟨layer, hlookup⟩ := V2.HashSource.lookup_sources hs.pos hlayer hroot md'.files [] 0 k
    hfit.rooted hnum.distinct hf
  rw [Nat.zero_add] at hlookup
  obtain ⟨p, hp, hpiece⟩ := hfit.planPieces_first hplan hs.pos hs.le hf hpos
  have hfew := hnum.few k f hf (by rw [hroot]; rfl)
  refine ⟨⟨t.pieceLength, _⟩, _, p, ?_, hlookup, ?_, hpiece.file_eq, ?_⟩
  · rw [V2.HashSource.new]
    refine if_neg fun hnil => ?_
    rw [show (.ofNat 0 : UInt32) = 0 from rfl, hnil] at hlookup
    cases hlookup
  · rw [UInt32.toNat_ofNat', Nat.mod_eq_of_lt hfew]
    exact hp
  · rw [hpiece.offset_eq, Nat.zero_mul]

theorem NumberedAlike.numberable (h : t.NumberedAlike md) (hp : t.Planned) (hs : t.Sized)
    (hready : t.v2Ready = true) (hmd : t.v2 = some md) : Numberable t.pieceLength md.files := by
  obtain ⟨md', hmd', -, hfit, hplan⟩ := hp.plan_of_ready hready
  obtain rfl : md' = md := some.inj (hmd'.symm.trans hmd)
  constructor
  · -- one entry has one number, and the piece with it is of one file
    rw [pairwise_iff_getElem]
    intro j k hj hk hjk root hrootj hrootk
    obtain ⟨source, file, p, hsource, hfile, hp, hpj, -⟩ :=
      h.numbered j _ root (getElem?_eq_getElem hj) hrootj
    obtain ⟨source', file', p', hsource', hfile', hp', hpk, -⟩ :=
      h.numbered k _ root (getElem?_eq_getElem hk) hrootk
    obtain rfl := some.inj (hsource.symm.trans hsource')
    obtain rfl := some.inj (hfile.symm.trans hfile')
    obtain rfl := some.inj (hp.symm.trans hp')
    omega
  · intro k f hf hsome
    obtain ⟨root, hroot⟩ := isSome_iff_exists.1 hsome
    obtain ⟨source, file, p, -, -, hp, hpk, hzero⟩ := h.numbered k f root hf hroot
    obtain ⟨k', m, g, hg, hnumber, hpiece⟩ := hfit.planPieces_isPiece hplan hs.pos hs.le hp
    obtain rfl : k' = k := hpiece.file_eq.symm.trans hpk
    have := file.firstPiece.toNat_lt
    omega

/-- **The three passes number alike exactly where a map by root and a
`u32` can number.** -/
theorem numberedAlike_iff [Digests] (hacc : t.Accepted) (hready : t.v2Ready = true)
    (hmd : t.v2 = some md) : t.NumberedAlike md ↔ Numberable t.pieceLength md.files := by
  have hp := hacc.planned
  have hs := hacc.sized
  refine ⟨fun h => h.numberable hp hs hready hmd, fun hnum => ⟨fun baseDir => ?_,
    fun baseDir i p hi => hp.inside hs hready baseDir hi,
    fun i j p q hi _ hij => hs.apart hready hi hij,
    fun k f root hf hroot => hp.numbered hs hready hmd hnum hf hroot⟩⟩
  obtain ⟨md', hmd', hfiles, hfit, -⟩ := hp.plan_of_ready hready
  obtain rfl : md' = md := Option.some.inj (hmd'.symm.trans hmd)
  have hlaid := layAligned64_eq hs.pos hs.le baseDir t.files md'.files 0 0 hfiles
    (hacc.length_lt _ hmd) (by omega) fun k f hf hpos => ?_
  · rw [Nat.zero_mul] at hlaid
    rw [fileSpans_of_ready hready]
    exact hlaid
  · rw [Nat.zero_add]
    refine hnum.few k f hf (isSome_iff_ne_none.2 fun hnone => ?_)
    have := hfit.rooted f (mem_of_getElem? hf) hnone
    omega

/-- A v2 torrent file of two files of one byte, `a` and `b`, with a root of
zeros and one of another byte. -/
def twoFiles (byte : UInt8) : List UInt8 :=
  ascii "d4:infod9:file treed1:ad0:d6:lengthi1e11:pieces root32:" ++ List.replicate 32 0 ++
    ascii "ee1:bd0:d6:lengthi1e11:pieces root32:" ++ List.replicate 32 byte ++
    ascii "eee12:meta versioni2e4:name1:n12:piece lengthi16384eee"

theorem numberedAlike_iff_sample :
    ∃ (data : Slice) (t : TorrentFile) (md : V2.V2Meta),
      @parseTorrentFile Digests.zero data = .ok t ∧ t.v2 = some md ∧
      t.v2Pieces.map V2.V2Piece.file = [0, 1] ∧
      md.files.map V2.V2File.root = [some V2.zeroHash, some (.replicate 32 1)] ∧
      t.NumberedAlike md := by
  let _ := Digests.zero
  let data : Slice := ⟨twoFiles 1, by decide +kernel⟩
  have hok : ∃ t ∈ (parseTorrentFile data).toOption, t.v2Ready = true ∧
      t.v2Pieces.map V2.V2Piece.file = [0, 1] ∧ ∃ md ∈ t.v2,
      md.files.map V2.V2File.root = [some V2.zeroHash, some (.replicate 32 1)] ∧
      ∀ k < md.files.length, V2.firstPiece t.pieceLength md.files k < 2 ^ 32 := by
    decide +kernel
  obtain ⟨t, ht, hready, hpieces, md, hmd, hroots, hfew⟩ := exists_ok hok
  refine ⟨data, t, md, ht, hmd, hpieces, hroots,
    (numberedAlike_iff (.parsed ht) hready hmd).2 ⟨?_, ?_⟩⟩
  · have hpair : (md.files.map V2.V2File.root).Pairwise fun f g =>
        ∀ root, f = some root → g ≠ some root := by
      rw [hroots, pairwise_pair]
      rintro _ ⟨⟩
      decide
    exact pairwise_map.1 hpair
  · exact fun k f hk _ => hfew k (List.getElem?_eq_some_iff.1 hk).1

/-- The pieces are of the two files in turn, and the one source that there
is for both has the second one's number. -/
theorem same_root_misnumbered :
    ∃ (data : Slice) (t : TorrentFile) (md : V2.V2Meta),
      @parseTorrentFile Digests.zero data = .ok t ∧ t.v2Ready = true ∧ t.v2 = some md ∧
      md.files.map V2.V2File.root = [some V2.zeroHash, some V2.zeroHash] ∧
      t.v2Pieces.map V2.V2Piece.file = [0, 1] ∧
      (V2.HashSource.new md.files md.layers t.pieceLength).bind (fun source =>
        (source.files.lookup V2.zeroHash).map V2.SourceFile.firstPiece) = some 1 ∧
      ¬ t.NumberedAlike md := by
  let _ := Digests.zero
  let data : Slice := ⟨twoFiles 0, by decide +kernel⟩
  have hok : ∃ t ∈ (parseTorrentFile data).toOption, t.v2Ready = true ∧ ∃ md ∈ t.v2,
      md.files.map V2.V2File.root = [some V2.zeroHash, some V2.zeroHash] ∧
      t.v2Pieces.map V2.V2Piece.file = [0, 1] ∧
      (V2.HashSource.new md.files md.layers t.pieceLength).bind (fun source =>
        (source.files.lookup V2.zeroHash).map V2.SourceFile.firstPiece) = some 1 := by
    decide +kernel
  obtain ⟨t, ht, hready, md, hmd, hroots, hpieces, hsource⟩ := exists_ok hok
  refine ⟨data, t, md, ht, hready, hmd, hroots, hpieces, hsource, fun h => ?_⟩
  have hacc : t.Accepted := .parsed ht
  have hdistinct := (h.numberable hacc.planned hacc.sized hready hmd).distinct
  -- the two have a root in common
  have hpair : (md.files.map V2.V2File.root).Pairwise fun f g =>
      ∀ root, f = some root → g ≠ some root := pairwise_map.2 hdistinct
  rw [hroots, pairwise_pair] at hpair
  exact hpair V2.zeroHash rfl rfl

end TorrentFile

end BitTorrent
