import BitTorrent.Common.Fallible
import BitTorrent.Common.HashTree
import BitTorrent.Common.Machine
import BitTorrent.Common.Rounding
import BitTorrent.V2.Metadata

/-!
# The tree of a file

`hash_file` of `v2.rs`: a file's tree in two stages, the pieces each by themselves and the layer
of pieces above them, padded with the roots of trees of zeros; and a file of at most one piece in
one stage.
-/

namespace BitTorrent.V2

open List Option HashTree

structure FileHashes where
  root : Option Hash32
  layer : List Hash32
deriving DecidableEq

section

variable [Digests]

def pieceHash (data : List UInt8) (pieceLength : ℕ) : Hash32 :=
  merkleRoot (blockHashes data) (pieceLength / block) zeroHash

/-- The loop of `hash_file` over the pieces of what is left to read, or
`none` where the reader ends first. A turn reads at least a byte, so the
bytes left are turns enough. -/
def hashPieces (pieceLength : ℕ) : ℕ → List UInt8 → ℕ → Option (List Hash32)
  | 0, _, _ => some []
  | fuel + 1, reader, left =>
    if left = 0 then some []
    else
      let take := min left pieceLength
      if reader.length < take then none
      else do
        let layer ← hashPieces pieceLength fuel (reader.drop take) (left - take)
        return pieceHash (reader.take take) pieceLength :: layer

/-- `hash_file`: `none` is `UnexpectedEof`. -/
def hashFile (reader : List UInt8) (length pieceLength : ℕ) : Option FileHashes :=
  if length = 0 then some ⟨none, []⟩
  else if length ≤ pieceLength then
    if reader.length < length then none
    else
      let leaves := blockHashes (reader.take length)
      some ⟨some (merkleRoot leaves leaves.length.nextPowerOfTwo zeroHash), []⟩
  else do
    let layer ← hashPieces pieceLength length reader length
    return ⟨some (merkleRoot layer layer.length.nextPowerOfTwo (layerPad pieceLength)), layer⟩

theorem pairUp_eq_levelUp (level : List Hash32) : pairUp level = levelUp parent level := by
  induction level using pairUp.induct with
  | case1 left right rest ih => rw [pairUp, levelUp, ih]
  | case2 level h =>
    rw [pairUp, levelUp] <;> exact h

theorem zeroSubtree_eq_tower (k : ℕ) : zeroSubtree k = tower parent zeroHash k := by
  induction k with
  | zero => rfl
  | succ k ih => rw [zeroSubtree, tower, ih]

theorem climb_map_range (f : ℕ → Hash32) (k fuel : ℕ) (hfuel : k ≤ fuel) :
    climb fuel ((range (2 ^ k)).map f) = [node parent f k 0] := by
  induction k generalizing f fuel with
  | zero =>
    cases fuel with
    | zero | succ => rfl
  | succ k ih =>
    obtain ⟨fuel, rfl⟩ : ∃ n, fuel = n + 1 := ⟨fuel - 1, by omega⟩
    have hpow : 2 ^ (k + 1) = 2 * 2 ^ k := pow_succ' 2 k
    have hlen : 1 < ((range (2 ^ (k + 1))).map f).length := by
      have : 0 < 2 ^ k := Nat.pow_pos (by decide)
      rw [length_map, length_range]
      omega
    rw [climb, if_pos hlen, pairUp_eq_levelUp, hpow, levelUp_map_range,
      ih _ _ (by omega), node_node, Nat.add_comm]

omit [Digests] in
theorem resize_eq_map_range {α : Type*} (l : List α) (n : ℕ) (pad : α) :
    resize l n pad = (range n).map fun i => l.getD i pad := by
  refine ext_getElem? fun i => ?_
  rw [resize, getElem?_append, getElem?_map, getElem?_replicate]
  simp only [length_take, getElem?_take, getD_eq_getElem?_getD]
  by_cases hi : i < n
  · rw [getElem?_range hi]
    by_cases hl : i < l.length
    · simp [hi, hl]
    · rw [if_neg (by omega), if_pos (by omega), map_some,
        getElem?_eq_none (not_lt.1 hl), getD_none]
  · have hnone : (range n)[i]? = none := getElem?_eq_none (by simpa using hi)
    rw [hnone, if_neg (by omega), if_neg (by omega)]
    rfl

theorem merkleRoot_eq_node (leaves : List Hash32) (k : ℕ) (pad : Hash32) :
    merkleRoot leaves (2 ^ k) pad = node parent (fun i => leaves.getD i pad) k 0 := by
  have hpow : max (2 ^ k) 1 = 2 ^ k := Nat.max_eq_left Nat.one_le_two_pow
  rw [merkleRoot, hpow, resize_eq_map_range, climb_map_range _ _ _ (Nat.lt_two_pow_self).le,
    headD_cons]

/-- The leaves of a file's tree: the hashes of its blocks, and zeros
after them. -/
def leavesOf (content : List UInt8) (i : ℕ) : Hash32 := (blockHashes content).getD i zeroHash

theorem length_blockHashes (content : List UInt8) :
    (blockHashes content).length = (content.length + block - 1) / block := by
  simp [blockHashes, chunks]

omit [Digests] in
theorem block_pos : 0 < block := by decide

variable {content : List UInt8} {i : ℕ}

theorem leavesOf_of_lt (hi : i * block < content.length) :
    leavesOf content i = Digests.sha256 (slice content (i * block) block) := by
  have hlt : i < (content.length + block - 1) / block := (lt_ceil_iff block_pos).2 hi
  rw [leavesOf, getD_eq_getElem?_getD, blockHashes, chunks, List.map_map, getElem?_map,
    getElem?_range hlt]
  rfl

theorem leavesOf_of_le (hi : content.length ≤ i * block) : leavesOf content i = zeroHash := by
  have hle : (content.length + block - 1) / block ≤ i := (ceil_le_iff block_pos).2 hi
  rw [leavesOf, getD_eq_getElem?_getD,
    getElem?_eq_none (by rw [length_blockHashes]; exact hle), getD_none]

theorem leavesOf_slice (content : List UInt8) (a m : ℕ) (hi : i < m) :
    leavesOf (slice content (a * block) (m * block)) i = leavesOf content (a + i) := by
  have hin : i * block + block ≤ m * block := by
    rw [← Nat.succ_mul]
    exact Nat.mul_le_mul_right block hi
  have hpos := block_pos
  have hadd : (a + i) * block = a * block + i * block := Nat.add_mul a i block
  have hlen : (slice content (a * block) (m * block)).length =
      min (m * block) (content.length - a * block) := length_slice _ _ _
  by_cases hlt : (a + i) * block < content.length
  · have hpiece : i * block < (slice content (a * block) (m * block)).length := by omega
    rw [leavesOf_of_lt hlt, leavesOf_of_lt hpiece, slice_slice hin, hadd]
  · have hpiece : (slice content (a * block) (m * block)).length ≤ i * block := by omega
    rw [leavesOf_of_le (not_lt.1 hlt), leavesOf_of_le hpiece]

theorem pieceHash_slice (content : List UInt8) (j n : ℕ) :
    pieceHash (slice content (n * (2 ^ j * block)) (2 ^ j * block)) (2 ^ j * block) =
      node parent (leavesOf content) j n := by
  rw [pieceHash, Nat.mul_div_cancel _ block_pos, merkleRoot_eq_node, ← Nat.mul_assoc]
  have hnode : node parent (fun i => leavesOf content (n * 2 ^ j + i)) j 0 =
      node parent (leavesOf content) j n := node_shift (leavesOf content) j n 0
  rw [← hnode]
  refine node_congr fun i _ hi => ?_
  exact leavesOf_slice content (n * 2 ^ j) (2 ^ j) (by simpa using hi)

variable {j : ℕ}

theorem node_leavesOf_of_le {n : ℕ} (h : content.length ≤ n * (2 ^ j * block)) :
    node parent (leavesOf content) j n = zeroSubtree j := by
  rw [zeroSubtree_eq_tower]
  refine node_eq_tower fun i hi _ => leavesOf_of_le (h.trans ?_)
  rw [← Nat.mul_assoc]
  exact Nat.mul_le_mul_right block hi

/-- **The root of a file's tree**: over all its blocks, and zeros up to a
power of two of them. -/
def fileRoot (content : List UInt8) : Hash32 :=
  node parent (leavesOf content) (Nat.clog 2 (blockHashes content).length) 0

/-- **The piece layer of a file**, for pieces of `2 ^ j` blocks: the nodes
above each of them. -/
def fileLayer (content : List UInt8) (j : ℕ) : List Hash32 :=
  (List.range ((content.length + 2 ^ j * block - 1) / (2 ^ j * block))).map
    (node parent (leavesOf content) j)

theorem length_fileLayer (content : List UInt8) (j : ℕ) : (fileLayer content j).length =
      (content.length + 2 ^ j * block - 1) / (2 ^ j * block) := by
  simp [fileLayer]

omit [Digests] in
theorem pieceLength_pos (j : ℕ) : 0 < 2 ^ j * block :=
  Nat.mul_pos (Nat.pow_pos (by decide)) block_pos

theorem getD_fileLayer (content : List UInt8) (j i : ℕ) :
    (fileLayer content j).getD i (zeroSubtree j) = node parent (leavesOf content) j i := by
  rw [getD_eq_getElem?_getD, fileLayer, getElem?_map]
  by_cases hi : i < (content.length + 2 ^ j * block - 1) / (2 ^ j * block)
  · rw [getElem?_range hi, map_some, getD_some]
  · have hnone : (range ((content.length + 2 ^ j * block - 1) / (2 ^ j * block)))[i]? = none :=
      getElem?_eq_none (by simpa using hi)
    rw [hnone, map_none, getD_none, node_leavesOf_of_le]
    rw [lt_ceil_iff (pieceLength_pos j)] at hi
    exact not_lt.1 hi

omit [Digests] in
theorem layerPad_log (j : ℕ) : (2 ^ j * block / block).log2 = j := by
  rw [Nat.mul_div_cancel _ block_pos, Nat.log2_two_pow]

theorem clog_fileLayer (h : 2 ^ j * block < content.length) :
    j + Nat.clog 2 (fileLayer content j).length = Nat.clog 2 (blockHashes content).length := by
  have hpow : 0 < 2 ^ j := Nat.pow_pos (by decide)
  have hle : 2 ^ j ≤ (blockHashes content).length := by
    rw [length_blockHashes]
    exact ((lt_ceil_iff block_pos).2 h).le
  rw [← clog_ceil_div_pow hle, length_fileLayer, length_blockHashes, ceil_ceil block_pos hpow,
    Nat.add_comm]

theorem merkleRoot_fileLayer (h : 2 ^ j * block < content.length) :
    merkleRoot (fileLayer content j) (fileLayer content j).length.nextPowerOfTwo
      (layerPad (2 ^ j * block)) = fileRoot content := by
  rw [layerPad, layerPad_log, nextPowerOfTwo_eq, merkleRoot_eq_node]
  simp only [getD_fileLayer]
  rw [node_node, clog_fileLayer h, fileRoot]

theorem hashPieces_drop (content : List UInt8) (j : ℕ) : ∀ fuel n : ℕ,
    content.length - n * (2 ^ j * block) ≤ fuel →
    hashPieces (2 ^ j * block) fuel (content.drop (n * (2 ^ j * block)))
        (content.length - n * (2 ^ j * block)) =
      some ((range' n ((fileLayer content j).length - n)).map
        (node parent (leavesOf content) j)) := by
  have hpos := pieceLength_pos j
  intro fuel
  -- from the end of the file on there is no piece
  have hend : ∀ n, content.length ≤ n * (2 ^ j * block) → (fileLayer content j).length - n = 0 := by
    intro n hn
    rw [length_fileLayer]
    exact Nat.sub_eq_zero_of_le ((ceil_le_iff hpos).2 hn)
  induction fuel with
  | zero =>
    intro n hfuel
    rw [hashPieces, hend n (by omega)]
    rfl
  | succ fuel ih =>
    intro n hfuel
    rw [hashPieces]
    split
    · rename_i hleft
      rw [hend n (by omega)]
      rfl
    · rename_i hleft
      have hin : n < (fileLayer content j).length := by
        rw [length_fileLayer, lt_ceil_iff hpos]
        omega
      have hnext : (n + 1) * (2 ^ j * block) = n * (2 ^ j * block) + 2 ^ j * block :=
        Nat.succ_mul _ _
      have hdrop : (content.drop (n * (2 ^ j * block))).drop
          (min (content.length - n * (2 ^ j * block)) (2 ^ j * block)) =
            content.drop ((n + 1) * (2 ^ j * block)) := by
        rw [drop_drop]
        by_cases hlast : content.length - n * (2 ^ j * block) ≤ 2 ^ j * block
        · rw [drop_of_length_le (by omega), drop_of_length_le (by omega)]
        · rw [hnext, Nat.min_eq_right (by omega)]
      have htake : (content.drop (n * (2 ^ j * block))).take
          (min (content.length - n * (2 ^ j * block)) (2 ^ j * block)) =
            slice content (n * (2 ^ j * block)) (2 ^ j * block) := by
        rw [slice, Nat.min_comm, ← take_take, ← length_drop, take_length]
      have hleft' : content.length - n * (2 ^ j * block) -
          min (content.length - n * (2 ^ j * block)) (2 ^ j * block) =
            content.length - (n + 1) * (2 ^ j * block) := by omega
      dsimp only
      rw [if_neg (by rw [length_drop]; omega), hdrop, hleft', ih (n + 1) (by omega), htake,
        pieceHash_slice, show (fileLayer content j).length - n =
          (fileLayer content j).length - (n + 1) + 1 by omega, range'_succ]
      rfl

theorem hashFile_eq (hne : content ≠ []) (j : ℕ) : hashFile content content.length (2 ^ j * block) =
      some ⟨some (fileRoot content),
        if content.length ≤ 2 ^ j * block then [] else fileLayer content j⟩ := by
  have hlen : content.length ≠ 0 := by simpa using hne
  rw [hashFile, if_neg hlen]
  split
  · rw [if_neg (lt_irrefl _), take_length]
    dsimp only
    rw [nextPowerOfTwo_eq, merkleRoot_eq_node]
    rfl
  · rename_i hlong
    have hlayer := hashPieces_drop content j content.length 0 (by omega)
    rw [Nat.zero_mul, drop_zero, Nat.sub_zero, Nat.sub_zero, length_fileLayer,
      ← range_eq_range'] at hlayer
    rw [hlayer]
    have hroot := merkleRoot_fileLayer (not_le.1 hlong)
    unfold fileLayer at hroot ⊢
    simp only [bind_eq_bind, bind_some, Option.pure_def, hroot]

/-- **Nothing collides** between two pieces and nothing hashes to zeros:
what injective hashes would give, asked of the two pieces alone, since no
function into 32 bytes is injective on everything. -/
structure CollisionFree (data piece : List UInt8) (height : ℕ) : Prop where
  pairs : HashTree.NoCollision parent (HashTree.TreePair parent (leavesOf data) height)
    (HashTree.TreePair parent (leavesOf piece) height)
  blocks : ∀ b ∈ chunks block data, ∀ c ∈ chunks block piece,
    Digests.sha256 b = Digests.sha256 c → b = c
  zeros : ∀ b ∈ chunks block data ++ chunks block piece, Digests.sha256 b ≠ zeroHash

variable {data : List UInt8}

omit [Digests] in
theorem slice_mem_chunks (hi : i * block < data.length) :
    slice data (i * block) block ∈ chunks block data :=
  List.mem_map.2 ⟨i, mem_range.2 ((lt_ceil_iff block_pos).2 hi), rfl⟩

variable {height : ℕ} {piece : List UInt8}

theorem CollisionFree.slice_eq
    (hfree : CollisionFree data piece height) (hleaf : leavesOf data i = leavesOf piece i) :
    slice data (i * block) block = slice piece (i * block) block := by
  by_cases hdata : i * block < data.length
  · have hmem := slice_mem_chunks hdata
    rw [leavesOf_of_lt hdata] at hleaf
    by_cases hpiece : i * block < piece.length
    · rw [leavesOf_of_lt hpiece] at hleaf
      exact hfree.blocks _ hmem _ (slice_mem_chunks hpiece) hleaf
    · rw [leavesOf_of_le (not_lt.1 hpiece)] at hleaf
      exact absurd hleaf (hfree.zeros _ (mem_append_left _ hmem))
  · rw [leavesOf_of_le (not_lt.1 hdata)] at hleaf
    by_cases hpiece : i * block < piece.length
    · rw [leavesOf_of_lt hpiece] at hleaf
      exact absurd hleaf.symm (hfree.zeros _ (mem_append_right _ (slice_mem_chunks hpiece)))
    · rw [slice, slice, drop_of_length_le (not_lt.1 hdata),
        drop_of_length_le (not_lt.1 hpiece)]

theorem CollisionFree.eq_of_node_eq
    (hfree : CollisionFree data piece height) (hdata : data.length ≤ 2 ^ height * block)
    (hpiece : piece.length ≤ 2 ^ height * block)
    (hroot : node parent (leavesOf data) height 0 =
      node parent (leavesOf piece) height 0) : data = piece := by
  refine ext_getElem? fun n => ?_
  by_cases hn : n < 2 ^ height * block
  · have hi : n / block < 2 ^ height := Nat.div_lt_of_lt_mul (by rwa [Nat.mul_comm])
    have hleaf := leaves_eq_of_node_eq (l := 0) (i := 0) (by omega) (by simp)
      hfree.pairs (by rw [Nat.zero_add]; exact hroot) hi
    rw [Nat.zero_mul, Nat.zero_add, node] at hleaf
    have hat := congrArg (fun l : List UInt8 => l[n % block]?) (hfree.slice_eq hleaf)
    simpa only [getElem?_slice, if_pos (Nat.mod_lt n block_pos), Nat.div_add_mod'] using hat
  · rw [getElem?_eq_none (by omega), getElem?_eq_none (by omega)]

theorem merkleMatches_pow_iff {root : Hash32} : merkleMatches data (2 ^ height) root = true ↔
      data.length ≤ min (2 ^ height * block) (2 ^ 64 - 1) ∧
        node parent (leavesOf data) height 0 = root := by
  have hpow : (2 ^ height).isPowerOfTwo := ⟨height, rfl⟩
  rw [merkleMatches, merkleRoot_eq_node]
  split
  · rename_i hbad
    have hlong := hbad.resolve_left (not_not.2 hpow)
    simp only [Bool.false_eq_true, false_iff, not_and]
    exact fun hle => absurd hle (not_le.2 hlong)
  · rename_i hgood
    rw [beq_iff_eq]
    exact (and_iff_right (not_lt.1 fun hlong => hgood (.inr hlong))).symm

/-- **A piece that can be checked**: what `merkle_matches` compares with
is the root of the tree over the piece's own bytes, as wide as it says. -/
structure Checkable (content : List UInt8) (pieceLength : ℕ) (p : V2Piece) (height : ℕ) :
    Prop where
  width : p.width.toNat = 2 ^ height
  fits : (slice content p.offset pieceLength).length ≤ min (2 ^ height * block) (2 ^ 64 - 1)
  root : p.root = node parent (leavesOf (slice content p.offset pieceLength)) height 0

variable {p : V2Piece} {pieceLength : ℕ}

theorem Checkable.merkleMatches (h : Checkable content pieceLength p height) :
    merkleMatches (slice content p.offset pieceLength) p.width.toNat p.root = true ∧
      ∀ data, CollisionFree data (slice content p.offset pieceLength) height →
        merkleMatches data p.width.toNat p.root = true →
          data = slice content p.offset pieceLength := by
  rw [h.width]
  refine ⟨merkleMatches_pow_iff.2 ⟨h.fits, h.root.symm⟩, fun data hfree hdata => ?_⟩
  obtain ⟨hlen, hnode⟩ := merkleMatches_pow_iff.1 hdata
  have hfits := h.fits
  exact hfree.eq_of_node_eq (by omega) (by omega) (hnode.trans h.root)

variable {pieces : List V2Piece} {layers : Layers} {index : ℕ}

omit [Digests] in
theorem mem_planFile {file : V2File} (h : planFile layers pieceLength index file = some pieces)
    (hp : p ∈ pieces) : p.file = index ∧ p.length.toNat ≤ pieceLength := by
  have hmod : ∀ n ≤ pieceLength, (UInt32.ofNat n).toNat ≤ pieceLength := fun n hn => by
    rw [UInt32.toNat_ofNat']
    exact (Nat.mod_le _ _).trans hn
  unfold planFile at h
  split at h
  · cases h
    cases hp
  · split at h
    · rename_i hle
      cases h
      rw [mem_singleton.1 hp]
      exact ⟨rfl, hmod _ hle⟩
    · simp only [bind_eq_bind, bind_eq_some_iff, Option.pure_def,
        Option.some.injEq] at h
      obtain ⟨layer, -, rfl⟩ := h
      obtain ⟨e, -, rfl⟩ := List.mem_map.1 hp
      exact ⟨rfl, hmod _ (Nat.min_le_right _ _)⟩

theorem checkable_whole (hj : j < 32) (hshort : content.length ≤ 2 ^ j * block) :
    Checkable content (2 ^ j * block) ⟨index, 0, .ofNat content.length, fileRoot content,
        .ofNat ((content.length + block - 1) / block).nextPowerOfTwo⟩
      (Nat.clog 2 (blockHashes content).length) := by
  have hown : slice content 0 (2 ^ j * block) = content := by
    rw [slice, drop_zero, take_of_length_le hshort]
  have hpow : 2 ^ j < 2 ^ 32 := Nat.pow_lt_pow_right (by decide) hj
  have hle : ((content.length + block - 1) / block).nextPowerOfTwo ≤ 2 ^ j :=
    nextPowerOfTwo_le_pow ((ceil_le_iff block_pos).2 hshort)
  have hfits : content.length ≤ 2 ^ Nat.clog 2 (blockHashes content).length * block := by
    rw [← nextPowerOfTwo_eq, length_blockHashes]
    exact (le_ceil_mul block_pos).trans (Nat.mul_le_mul_right _ (le_nextPowerOfTwo _))
  have hblock : 2 ^ j * block ≤ 2 ^ 64 - 1 := (Nat.mul_le_mul_right _ hpow.le).trans (by decide)
  refine ⟨?_, ?_, ?_⟩
  · rw [← nextPowerOfTwo_eq, length_blockHashes]
    exact UInt32.toNat_ofNat_of_lt (hle.trans_lt hpow)
  · rw [hown]
    exact le_min hfits (hshort.trans hblock)
  · rw [hown]
    rfl

theorem checkable_piece {n : ℕ} {length : UInt32} (hj : j < 32) : Checkable content (2 ^ j * block)
      ⟨index, n * (2 ^ j * block), length, node parent (leavesOf content) j n,
        .ofNat (2 ^ j * block / block)⟩ j := by
  have hpow : 2 ^ j < 2 ^ 32 := Nat.pow_lt_pow_right (by decide) hj
  have hblock : 2 ^ j * block ≤ 2 ^ 64 - 1 := (Nat.mul_le_mul_right _ hpow.le).trans (by decide)
  refine ⟨?_, ?_, ?_⟩
  · rw [Nat.mul_div_cancel _ block_pos]
    exact UInt32.toNat_ofNat_of_lt hpow
  · rw [length_slice]
    omega
  · rw [← pieceHash_slice, pieceHash, Nat.mul_div_cancel _ block_pos, merkleRoot_eq_node]
    rfl

variable {path : List Name}

theorem planFile_checkable (hlayer : 2 ^ j * block < content.length →
      layers.lookup (fileRoot content) = some (fileLayer content j))
    (hplan : planFile layers (2 ^ j * block) index
      ⟨path, content.length, some (fileRoot content)⟩ = some pieces)
    (hp : p ∈ pieces) :
    (j < 32 → ∃ height, Checkable content (2 ^ j * block) p height) ∧
      p.length = .ofNat (slice content p.offset (2 ^ j * block)).length := by
  unfold planFile at hplan
  dsimp only at hplan
  split at hplan
  · rename_i hshort
    cases hplan
    rw [mem_singleton.1 hp]
    refine ⟨fun hj => ⟨_, checkable_whole hj hshort⟩, ?_⟩
    rw [length_slice, Nat.sub_zero, Nat.min_eq_right hshort]
  · rename_i hlong
    rw [hlayer (not_le.1 hlong)] at hplan
    simp only [bind_eq_bind, bind_some, Option.pure_def, Option.some.injEq] at hplan
    rw [← hplan] at hp
    obtain ⟨e, he, rfl⟩ := List.mem_map.1 hp
    have hnode : e.1 = node parent (leavesOf content) j e.2 := by
      have hget := mem_zipIdx_iff_getElem?.1 he
      rw [← getD_fileLayer, getD_eq_getElem?_getD, hget, getD_some]
    dsimp only
    rw [hnode]
    exact ⟨fun hj => ⟨j, checkable_piece hj⟩, by rw [length_slice, Nat.min_comm]⟩

variable {files : List V2File}

omit [Digests] in
theorem exists_planFile_of_mem (hplan : planPieces files layers pieceLength = some pieces)
    (hp : p ∈ pieces) : ∃ file plan, files[p.file]? = some file ∧
      planFile layers pieceLength p.file file = some plan ∧ p ∈ plan := by
  simp only [planPieces, bind_eq_bind, bind_eq_some_iff, Option.pure_def,
    Option.some.injEq] at hplan
  obtain ⟨plans, hplans, rfl⟩ := hplan
  obtain ⟨plan, hmem, hin⟩ := mem_flatten.1 hp
  obtain ⟨e, he, hfile⟩ := mem_of_mapM_eq_some hplans plan hmem
  have hindex := (mem_planFile hfile hin).1
  refine ⟨e.1, plan, ?_, by rw [hindex]; exact hfile, hin⟩
  rw [hindex]
  exact mem_zipIdx_iff_getElem?.1 he

variable {k : ℕ}

omit [Digests] in
theorem validPieceLength_pow (hk : 14 ≤ k) (hk' : k < 63) :
    validPieceLength (.ofNat (2 ^ k)) = true := by
  have hlt : 2 ^ k < 2 ^ 63 := Nat.pow_lt_pow_right (by decide) hk'
  rw [validPieceLength, toNat_toInt_ofNat hlt, decide_eq_true_iff]
  exact ⟨Nat.pow_le_pow_right Nat.zero_lt_two hk, k, rfl⟩

theorem layerFits_fileLayer (hlong : 2 ^ j * block < content.length)
    (hlayer : layers.lookup (fileRoot content) = some (fileLayer content j))
    (path : List Name) :
    layerFits layers (2 ^ j * block) ⟨path, content.length, some (fileRoot content)⟩ = true := by
  simp only [layerFits, hlayer, merkleRoot_fileLayer hlong, beq_self_eq_true, Bool.and_true]
  rw [length_fileLayer, beq_iff_eq]

theorem validateLayers_fileLayer (content : List UInt8) (hj : j + 14 < 63)
    (path : List Name) {layer : List Hash32}
    (hlayer : 2 ^ j * block < content.length → layer = fileLayer content j) :
    validateLayers [⟨path, content.length, some (fileRoot content)⟩]
      [(fileRoot content, layer)] (.ofNat (2 ^ (j + 14))) = .ok () := by
  have hlt : 2 ^ (j + 14) < 2 ^ 63 := Nat.pow_lt_pow_right (by decide) hj
  rw [validateLayers, validPieceLength_pow (by omega) hj, toNat_toInt_ofNat hlt,
    show 2 ^ (j + 14) = 2 ^ j * block from pow_add 2 j 14, if_neg (by decide), if_pos]
  refine List.all_eq_true.2 fun f hf => ?_
  obtain ⟨hmem, hlong⟩ := mem_filter.1 hf
  rw [mem_singleton.1 hmem] at hlong ⊢
  have hlong : 2 ^ j * block < content.length := of_decide_eq_true hlong
  rw [hlayer hlong]
  exact layerFits_fileLayer hlong (by simp) path

theorem merkleRoot_blockHashes (content : List UInt8) :
    merkleRoot (blockHashes content) (blockHashes content).length.nextPowerOfTwo zeroHash =
      fileRoot content := by
  rw [nextPowerOfTwo_eq, merkleRoot_eq_node]
  rfl

omit [Digests] in
theorem two_pow_eq_mul_block (hk : 14 ≤ k) : 2 ^ k = 2 ^ (k - 14) * block := by
  rw [show block = 2 ^ 14 from rfl, ← pow_add, Nat.sub_add_cancel hk]

theorem hashFile_pow (hne : content ≠ []) (hk : 14 ≤ k) :
    hashFile content content.length (2 ^ k) = some ⟨some (fileRoot content),
      if content.length ≤ 2 ^ k then [] else fileLayer content (k - 14)⟩ := by
  rw [two_pow_eq_mul_block hk, hashFile_eq hne]

theorem planPieces_checks (hk : 14 ≤ k)
    (hplan : planPieces files layers (2 ^ k) = some pieces) (hp : p ∈ pieces)
    (hfile : files[p.file]? = some ⟨path, content.length, some (fileRoot content)⟩)
    (hlayer : 2 ^ k < content.length →
      layers.lookup (fileRoot content) = some (fileLayer content (k - 14))) :
    (k < 46 → merkleMatches (slice content p.offset (2 ^ k)) p.width.toNat p.root = true ∧
      ∀ data, CollisionFree data (slice content p.offset (2 ^ k)) p.width.toNat.log2 →
        merkleMatches data p.width.toNat p.root = true → data = slice content p.offset (2 ^ k)) ∧
    (k < 32 → p.length.toNat = (slice content p.offset (2 ^ k)).length) := by
  obtain ⟨file, plan, hfile', hfileplan, hin⟩ := exists_planFile_of_mem hplan hp
  rw [hfile, some.injEq] at hfile'
  rw [two_pow_eq_mul_block hk] at hlayer hfileplan ⊢
  rw [← hfile'] at hfileplan
  obtain ⟨hcheck, hlength⟩ := planFile_checkable hlayer hfileplan hin
  refine ⟨fun hk' => ?_, fun hk' => ?_⟩
  · obtain ⟨height, hcheck⟩ := hcheck (by omega)
    have hlog : p.width.toNat.log2 = height := by rw [hcheck.width, Nat.log2_two_pow]
    rw [hlog]
    exact hcheck.merkleMatches
  · have hlt : 2 ^ (k - 14) * block < 2 ^ 32 := by
      rw [← two_pow_eq_mul_block hk]
      exact Nat.pow_lt_pow_right Nat.one_lt_two hk'
    have hle := length_slice content p.offset (2 ^ (k - 14) * block)
    rw [hlength]
    exact UInt32.toNat_ofNat_of_lt (Nat.lt_of_le_of_lt (by omega) hlt)

/-- **A file's tree and its pieces.** Whatever power of two the piece
length is, `hash_file` gives one root, that of the tree over all the
file's blocks; the layer it gives passes `validate_layers` against that
root; and `merkle_matches` accepts each planned piece's own bytes, and no
others as long as nothing collides. The width of a piece is a `u32`, in
which pieces of `2 ^ 46` bytes and more have none, and so is its length,
in which those of `2 ^ 32` and more have none. -/
theorem hashFile_checks {k : ℕ} (hk : 14 ≤ k) (content : List UInt8) :
    ∃ hashes, hashFile content content.length (2 ^ k) = some hashes ∧
      (hashes.root = if content = [] then none
        else some (merkleRoot (blockHashes content)
          (blockHashes content).length.nextPowerOfTwo zeroHash)) ∧
      (∀ k', 14 ≤ k' → (hashFile content content.length (2 ^ k')).map FileHashes.root =
        some hashes.root) ∧
      (k < 63 → ∀ path, validateLayers [⟨path, content.length, hashes.root⟩]
        (hashes.root.toList.map fun root => (root, hashes.layer)) (.ofNat (2 ^ k)) = .ok ()) ∧
      (∀ files layers path index pieces,
        files[index]? = some (⟨path, content.length, hashes.root⟩ : V2File) →
        (2 ^ k < content.length → ∀ root, hashes.root = some root →
          layers.lookup root = some hashes.layer) →
        planPieces files layers (2 ^ k) = some pieces → ∀ p ∈ pieces, p.file = index →
          (k < 46 → merkleMatches (slice content p.offset (2 ^ k)) p.width.toNat p.root = true ∧
            ∀ data, CollisionFree data (slice content p.offset (2 ^ k)) p.width.toNat.log2 →
              merkleMatches data p.width.toNat p.root = true →
                data = slice content p.offset (2 ^ k)) ∧
          (k < 32 → p.length.toNat = (slice content p.offset (2 ^ k)).length)) := by
  by_cases hne : content = []
  · subst hne
    refine ⟨⟨none, []⟩, rfl, by simp, fun k' _ => rfl, fun hk' path => ?_, ?_⟩
    · rw [validateLayers, validPieceLength_pow hk hk']
      simp
    · -- an empty file has no root, and so no piece
      intro files layers path index pieces hfile _ hplan p hp rfl
      obtain ⟨file, plan, hfile', hfileplan, hin⟩ := exists_planFile_of_mem hplan hp
      rw [hfile, Option.some.injEq] at hfile'
      rw [← hfile'] at hfileplan
      cases hfileplan
      cases hin
  · refine ⟨_, hashFile_pow hne hk, by rw [if_neg hne, merkleRoot_blockHashes], fun k' hk' => ?_,
      fun hk' path => ?_, ?_⟩
    · rw [hashFile_pow hne hk', map_some]
    · have hlayer : 2 ^ (k - 14) * block < content.length →
          (if content.length ≤ 2 ^ k then [] else fileLayer content (k - 14)) =
            fileLayer content (k - 14) := by
        rw [← two_pow_eq_mul_block hk]
        exact fun hlong => if_neg (not_le.2 hlong)
      have hvalid := validateLayers_fileLayer content (by omega) path hlayer
      rwa [Nat.sub_add_cancel hk] at hvalid
    · intro files layers path index pieces hfile hlayer hplan p hp rfl
      refine planPieces_checks hk hplan hp hfile fun hlong => ?_
      rw [hlayer hlong _ rfl, if_neg (not_le.2 hlong)]

end

/-- Digests that tell short pieces apart, to try a result out on: a one,
and what begins the bytes. -/
@[reducible] def leadingBytes : Digests where
  sha1 _ := .replicate 20 0
  sha256 bytes := ⟨1 :: (bytes ++ List.replicate 31 0).take 31, by simp⟩

theorem collisionFree_nine : @CollisionFree leadingBytes [9] (slice [1, 2, 3] 0 (2 ^ 14)) 0 := by
  refine @CollisionFree.mk leadingBytes _ _ _ (fun p q hp => ?_) (by decide +kernel)
    (by decide +kernel)
  -- a tree of one leaf pairs nothing
  obtain ⟨l, i, hl, -⟩ := hp
  omega

theorem hashFile_checks_sample :
    let _ := leadingBytes
    ∃ hashes, hashFile [1, 2, 3] 3 (2 ^ 14) = some hashes ∧
      (∃ pieces, planPieces [⟨[], 3, hashes.root⟩] [] (2 ^ 14) = some pieces ∧ pieces ≠ [] ∧
        ∀ p ∈ pieces, merkleMatches [1, 2, 3] p.width.toNat p.root = true ∧
          merkleMatches [9] p.width.toNat p.root ≠ true) := by
  let _ := leadingBytes
  obtain ⟨hashes, hhash, hroot, -, -, hplan⟩ :=
    hashFile_checks (show 14 ≤ 14 by decide) ([1, 2, 3] : List UInt8)
  refine ⟨hashes, hhash, ?_⟩
  rw [if_neg (by decide)] at hroot
  rw [hroot]
  refine ⟨_, rfl, by simp, fun p hp => ?_⟩
  have hfile : p.file = 0 ∧ p.offset = 0 ∧ p.width = 1 := by
    rw [mem_singleton.1 hp]
    decide +kernel
  obtain ⟨hown, hother⟩ := (hplan [⟨[], 3, hashes.root⟩] [] [] 0 _ rfl (by simp)
    (by rw [hroot]; rfl) p hp hfile.1).1 (by decide)
  rw [hfile.2.1] at hown hother
  refine ⟨hown, fun hnine => ?_⟩
  have := hother [9] (by rw [hfile.2.2]; exact collisionFree_nine) hnine
  exact absurd this (by decide)

/-- A piece of `2 ^ 46` bytes has `2 ^ 32` blocks, which in a `u32` is
none: `merkle_matches` refuses its own bytes. -/
theorem merkleMatches_own_false :
    let _ := leadingBytes
    ∃ hashes p, hashFile (List.replicate (2 ^ 46) 0) (2 ^ 46) (2 ^ 46) = some hashes ∧
      planPieces [⟨[], 2 ^ 46, hashes.root⟩] [] (2 ^ 46) = some [p] ∧ p.offset = 0 ∧
      merkleMatches (List.replicate (2 ^ 46) 0) p.width.toNat p.root = false := by
  let _ := leadingBytes
  have hlen : (List.replicate (2 ^ 46) (0 : UInt8)).length = 2 ^ 46 := length_replicate
  have hne : List.replicate (2 ^ 46) (0 : UInt8) ≠ [] :=
    ne_nil_of_length_pos (by rw [hlen]; decide)
  have hhash := hashFile_pow hne (show 14 ≤ 46 by decide)
  rw [hlen] at hhash
  refine ⟨_, ⟨0, 0, .ofNat (2 ^ 46), fileRoot (List.replicate (2 ^ 46) 0), 0⟩, hhash, ?_, rfl, ?_⟩
  · have hwidth : UInt32.ofNat ((2 ^ 46 + block - 1) / block).nextPowerOfTwo = 0 := by
      rw [show (2 ^ 46 + block - 1) / block = 2 ^ 32 by decide, nextPowerOfTwo_eq,
        Nat.clog_pow 2 32 (by decide)]
      rfl
    simp only [planPieces, zipIdx_singleton, mapM_cons, mapM_nil, planFile,
      le_refl, if_true, hwidth]
    rfl
  · rw [merkleMatches, if_pos]
    exact Or.inl (by decide)

end BitTorrent.V2
