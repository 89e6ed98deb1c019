import BitTorrent.V2.HashRange

/-!
# Leaves worked out from the pieces

`answer_leaves` of `v2.rs`: a request for hashes of the lowest layer, that of the blocks, which no
torrent carries.
-/

namespace BitTorrent.V2

open List Option HashTree

section

variable [Digests]

/-- The piece that `leaf` holds, by its number in the file, with the
hashes of its blocks. -/
abbrev LeafCache : Type := Option (ℕ × List Hash32)

/-- What `leaf` takes the leaves of a file from. -/
structure LeafReader where
  blocks : ℕ
  blocksPerPiece : ℕ
  firstPiece : UInt32
  readPiece : UInt32 → Option (List UInt8)

namespace LeafReader

/-- The cache with a piece in it, which is read unless it is held. -/
def hold (r : LeafReader) (piece : ℕ) (cache : LeafCache) : Option LeafCache :=
  if cache.map Prod.fst ≠ some piece then
    (r.readPiece (r.firstPiece + .ofNat piece)).map fun data => some (piece, blockHashes data)
  else some cache

def leaf (r : LeafReader) (n : ℕ) (cache : LeafCache) : Option (Hash32 × LeafCache) :=
  if r.blocks ≤ n then some (zeroHash, cache)
  else do
    let cache ← r.hold (n / r.blocksPerPiece) cache
    let held ← cache
    let hash ← held.2[n % r.blocksPerPiece]?
    return (hash, cache)

/-- Leaves one after another, and none where one of them is not to be
had. -/
def leaves (r : LeafReader) : List ℕ → LeafCache → Option (List Hash32 × LeafCache)
  | [], cache => some ([], cache)
  | n :: ns, cache => do
    let first ← r.leaf n cache
    let rest ← r.leaves ns first.2
    return (first.1 :: rest.1, rest.2)

/-- The root over the `2 ^ j` leaves from a multiple of that on. -/
def rootOfLeaves (r : LeafReader) (position j : ℕ) (cache : LeafCache) :
    Option (Hash32 × LeafCache) := do
  let got ← r.leaves (List.range' (position <<< j) (2 ^ j)) cache
  return (merkleRoot got.1 got.1.length zeroHash, got.2)

/-- The uncle `j` layers up: from the tree over the pieces, or from the
leaves below. -/
def uncle (r : LeafReader) (piecesTree : Option (List (List Hash32))) (piecesAt index j : ℕ)
    (cache : LeafCache) : Option (Hash32 × LeafCache) :=
  let sibling := (index >>> j) ^^^ 1
  match piecesTree with
  | none => r.rootOfLeaves sibling j cache
  | some tree =>
    if piecesAt ≤ j then do
      let layer ← tree[j - piecesAt]?
      let hash ← layer[sibling]?
      return (hash, cache)
    else r.rootOfLeaves sibling j cache

/-- The loop of `answer_leaves` over the proof layers. -/
def uncles (r : LeafReader) (piecesTree : Option (List (List Hash32)))
    (piecesAt height index : ℕ) : List ℕ → LeafCache → Option (List Hash32)
  | [], _ => some []
  | j :: js, cache =>
    if height ≤ j then some []
    else do
      let first ← r.uncle piecesTree piecesAt index j cache
      let rest ← r.uncles piecesTree piecesAt height index js first.2
      return first.1 :: rest

end LeafReader

/-- `HashSource::answer_leaves`. Its checks are those of `hash_range` at
layer 0, and one on the number of hashes. -/
def HashSource.answerLeaves (source : HashSource) (root : Hash32)
    (index length proofLayers : ℕ) (readPiece : UInt32 → Option (List UInt8)) :
    Option HashRange := do
  let file ← source.files.lookup root
  let blocks := (file.length + block - 1) / block
  let piecesAt := pieceLayer source.pieceLength
  let height :=
    if file.layer = [] then trailingZeros 64 blocks.nextPowerOfTwo
    else fileHeight file.length source.pieceLength
  if badRange 0 height index length ∨ maxHashesPerRequest < length then none
  else
    let reader : LeafReader := ⟨blocks, source.pieceLength / block, file.firstPiece, readPiece⟩
    let hashes ← reader.leaves (List.range' index length) none
    let below := trailingZeros 32 length
    let piecesTree :=
      if file.layer = [] then none else some (upperLayers file.layer piecesAt height)
    let uncles ← reader.uncles piecesTree piecesAt height index
      (List.range' below (proofLayers + 1 - below)) hashes.2
    return ⟨hashes.1, uncles⟩

/-- **A reader of a file**: it has all of its pieces, of `2 ^ j` blocks. -/
structure LeafReader.Reads (r : LeafReader) (content : List UInt8) (j : ℕ) : Prop where
  blocks_eq : r.blocks = (content.length + block - 1) / block
  blocksPerPiece_eq : r.blocksPerPiece = 2 ^ j
  read : ∀ n, n * (2 ^ j * block) < content.length →
    r.readPiece (r.firstPiece + .ofNat n) =
      some (slice content (n * (2 ^ j * block)) (2 ^ j * block))

/-- What is held is a piece of the file. -/
def LeafCache.Of (content : List UInt8) (j : ℕ) (cache : LeafCache) : Prop :=
  ∀ held, cache = some held →
    held.2 = blockHashes (slice content (held.1 * (2 ^ j * block)) (2 ^ j * block))

variable {r : LeafReader} {content : List UInt8} {j : ℕ} {cache : LeafCache}

theorem LeafCache.of_none : LeafCache.Of content j none := by
  rintro held ⟨⟩

theorem getElem?_blockHashes_slice {n : ℕ} (hn : n * block < content.length) :
    (blockHashes (slice content (n / 2 ^ j * (2 ^ j * block)) (2 ^ j * block)))[n % 2 ^ j]? =
      some (leavesOf content n) := by
  have hpow : 0 < 2 ^ j := Nat.two_pow_pos j
  have hmod := Nat.mod_lt n hpow
  have hsum : n / 2 ^ j * 2 ^ j + n % 2 ^ j = n := Nat.div_add_mod' n (2 ^ j)
  have hleaf := leavesOf_slice content (n / 2 ^ j * 2 ^ j) (2 ^ j) hmod
  rw [hsum, Nat.mul_assoc] at hleaf
  have hlt : n % 2 ^ j <
      (blockHashes (slice content (n / 2 ^ j * (2 ^ j * block)) (2 ^ j * block))).length := by
    have hin : n % 2 ^ j * block < 2 ^ j * block := Nat.mul_lt_mul_of_pos_right hmod block_pos
    have hblock : n * block = n / 2 ^ j * (2 ^ j * block) + n % 2 ^ j * block := by
      rw [← Nat.mul_assoc, ← Nat.add_mul, hsum]
    rw [length_blockHashes, lt_ceil_iff block_pos, length_slice]
    omega
  rw [getElem?_eq_getElem hlt, ← hleaf, leavesOf, getD_eq_getElem?_getD,
    getElem?_eq_getElem hlt, getD_some]

namespace LeafReader

theorem Reads.hold (h : r.Reads content j) (hc : cache.Of content j) {piece : ℕ}
    (hpiece : piece * (2 ^ j * block) < content.length) :
    ∃ hashes, r.hold piece cache = some (some (piece, hashes)) ∧
      hashes = blockHashes (slice content (piece * (2 ^ j * block)) (2 ^ j * block)) := by
  unfold LeafReader.hold
  split
  · rw [h.read piece hpiece]
    exact ⟨_, rfl, rfl⟩
  · rename_i hheld
    obtain ⟨held, rfl, rfl⟩ := map_eq_some_iff.1 (not_not.1 hheld)
    exact ⟨held.2, rfl, hc held rfl⟩

theorem Reads.leaf (h : r.Reads content j) (hc : cache.Of content j) (n : ℕ) :
    ∃ cache', r.leaf n cache = some (leavesOf content n, cache') ∧ cache'.Of content j := by
  unfold LeafReader.leaf
  rw [h.blocks_eq, h.blocksPerPiece_eq]
  split
  · rename_i hpast
    rw [leavesOf_of_le ((ceil_le_iff block_pos).1 hpast)]
    exact ⟨cache, rfl, hc⟩
  · rename_i hin
    have hn : n * block < content.length := (lt_ceil_iff block_pos).1 (not_le.1 hin)
    have hpiece : n / 2 ^ j * (2 ^ j * block) < content.length := by
      rw [← Nat.mul_assoc]
      exact (Nat.mul_le_mul_right block (Nat.div_mul_le_self n (2 ^ j))).trans_lt hn
    obtain ⟨hashes, hhold, hhashes⟩ := h.hold hc hpiece
    refine ⟨some (n / 2 ^ j, hashes), ?_, ?_⟩
    · simp only [hhold, bind_eq_bind, bind_some, hhashes,
        getElem?_blockHashes_slice hn]
      rfl
    · rintro held ⟨⟩
      exact hhashes

theorem Reads.leaves (h : r.Reads content j) : ∀ (ns : List ℕ) {cache : LeafCache},
    cache.Of content j → ∃ cache', r.leaves ns cache = some (ns.map (leavesOf content), cache') ∧
      cache'.Of content j
  | [], cache, hc => ⟨cache, rfl, hc⟩
  | n :: ns, cache, hc => by
    obtain ⟨mid, hleaf, hmid⟩ := h.leaf hc n
    obtain ⟨last, hrest, hlast⟩ := Reads.leaves h ns hmid
    refine ⟨last, ?_, hlast⟩
    rw [LeafReader.leaves, hleaf, bind_eq_bind, bind_some, hrest]
    rfl

theorem Reads.rootOfLeaves (h : r.Reads content j) (hc : cache.Of content j) (position i : ℕ) :
    ∃ cache', r.rootOfLeaves position i cache =
      some (node parent (leavesOf content) i position, cache') ∧ cache'.Of content j := by
  obtain ⟨cache', hleaves, hc'⟩ := h.leaves (range' (position <<< i) (2 ^ i)) hc
  refine ⟨cache', ?_, hc'⟩
  have hroot : merkleRoot ((range' (position <<< i) (2 ^ i)).map (leavesOf content)) (2 ^ i)
      zeroHash = node parent (leavesOf content) i position := by
    have hnode : node parent (fun n => leavesOf content (position * 2 ^ i + n)) i 0 =
        node parent (leavesOf content) i position :=
      node_shift (leavesOf content) i position 0
    rw [merkleRoot_eq_node, ← hnode]
    refine node_congr fun n _ hn => ?_
    rw [range'_eq_map_range, List.map_map, Nat.shiftLeft_eq]
    exact getD_map_range_of_lt _ (by simpa using hn) _
  rw [LeafReader.rootOfLeaves, hleaves, bind_eq_bind, bind_some]
  dsimp only
  rw [length_map, length_range', hroot]
  rfl

/-- **The tree over the pieces**, where there is one: the file's own. -/
def PiecesTree (content : List UInt8) (piecesAt height : ℕ)
    (piecesTree : Option (List (List Hash32))) : Prop :=
  ∀ tree, piecesTree = some tree → ∀ i position, piecesAt ≤ i → i < height →
    position < 2 ^ (height - i) → (tree[i - piecesAt]?.bind fun layer => layer[position]?) =
      some (node parent (leavesOf content) i position)

variable {piecesTree : Option (List (List Hash32))} {piecesAt height index : ℕ}

theorem Reads.uncle (h : r.Reads content j) (htree : PiecesTree content piecesAt height piecesTree)
    (hindex : index < 2 ^ height) (hc : cache.Of content j) {i : ℕ} (hi : i < height) :
    ∃ cache', r.uncle piecesTree piecesAt index i cache =
      some (node parent (leavesOf content) i (sibling (index / 2 ^ i)),
        cache') ∧ cache'.Of content j := by
  obtain ⟨k, rfl⟩ : ∃ k, height = i + (k + 1) := ⟨height - i - 1, by omega⟩
  have hsibling : (index >>> i) ^^^ 1 = sibling (index / 2 ^ i) := by
    rw [xor_one_eq_sibling, Nat.shiftRight_eq_div_pow]
  have hwithin : sibling (index / 2 ^ i) < 2 ^ (k + 1) := by
    rw [pow_add] at hindex
    exact sibling_lt (Nat.div_lt_of_lt_mul hindex)
  unfold uncle
  rw [hsibling]
  dsimp only
  split
  · exact h.rootOfLeaves hc _ i
  · rename_i tree
    split
    · rename_i habove
      have hnode := htree tree rfl i _ habove hi (by rwa [Nat.add_sub_cancel_left])
      obtain ⟨layer, hlayer, hhash⟩ := bind_eq_some_iff.1 hnode
      refine ⟨cache, ?_, hc⟩
      rw [hlayer, bind_eq_bind, bind_some, hhash]
      rfl
    · exact h.rootOfLeaves hc _ i

theorem Reads.uncles (h : r.Reads content j) (htree : PiecesTree content piecesAt height piecesTree)
    (hindex : index < 2 ^ height) : ∀ (n below : ℕ) {cache : LeafCache}, cache.Of content j →
      r.uncles piecesTree piecesAt height index (range' below n) cache =
        some ((range' below (min n (height - below))).map fun i =>
          node parent (leavesOf content) i (sibling (index / 2 ^ i)))
  | 0, below, cache, _ => by
    rw [Nat.zero_min]
    rfl
  | n + 1, below, cache, hc => by
    rw [range'_succ, LeafReader.uncles]
    split
    · rename_i hpast
      rw [show min (n + 1) (height - below) = 0 by omega]
      rfl
    · rename_i hin
      obtain ⟨cache', huncle, hc'⟩ := h.uncle htree hindex hc (not_le.1 hin)
      rw [huncle, bind_eq_bind, bind_some, Reads.uncles h htree hindex n (below + 1) hc',
        show min (n + 1) (height - below) = min n (height - (below + 1)) + 1 by omega,
        range'_succ]
      rfl

end LeafReader

/-- The layers of a file's tree above its blocks. -/
def treeHeight (content : List UInt8) : ℕ := Nat.clog 2 (blockHashes content).length

variable {layer : List Hash32}

theorem answerLeaves_height (hfew : (blockHashes content).length < 2 ^ 31)
    (hlayer : layer = if content.length ≤ 2 ^ j * block then [] else fileLayer content j) :
    (if layer = [] then trailingZeros 64 ((content.length + block - 1) / block).nextPowerOfTwo
      else fileHeight content.length (2 ^ j * block)) = treeHeight content := by
  have hclog : treeHeight content ≤ 31 := (Nat.clog_le_iff_le_pow Nat.one_lt_two).2 hfew.le
  by_cases hshort : content.length ≤ 2 ^ j * block
  · rw [if_pos hshort] at hlayer
    unfold treeHeight at hclog ⊢
    rw [if_pos hlayer, ← length_blockHashes, nextPowerOfTwo_eq, trailingZeros_two_pow (by omega)]
  · have hlong := not_le.1 hshort
    rw [if_neg hshort] at hlayer
    have hne : fileLayer content j ≠ [] := by
      refine ne_nil_of_length_pos ?_
      rw [length_fileLayer, lt_ceil_iff (pieceLength_pos j)]
      omega
    have hsum : j + Nat.clog 2 (fileLayer content j).length = treeHeight content :=
      clog_fileLayer hlong
    have hpieces : (fileLayer content j).length ≤ 2 ^ 31 :=
      (Nat.clog_le_iff_le_pow Nat.one_lt_two).1 (by omega)
    rw [length_fileLayer] at hpieces hsum
    rw [if_neg (by rw [hlayer]; exact hne), fileHeight_mul_block (by omega) hpieces, hsum]

theorem answerLeaves_piecesTree (hfew : (blockHashes content).length < 2 ^ 31)
    (hlayer : layer = if content.length ≤ 2 ^ j * block then [] else fileLayer content j) :
    LeafReader.PiecesTree content (pieceLayer (2 ^ j * block)) (treeHeight content)
      (if layer = [] then none
        else some (upperLayers layer (pieceLayer (2 ^ j * block)) (treeHeight content))) := by
  have hclog : treeHeight content ≤ 31 := (Nat.clog_le_iff_le_pow Nat.one_lt_two).2 hfew.le
  intro tree htree i position hle hlt hposition
  split at htree
  · cases htree
  · rename_i hne
    cases htree
    have hlong : ¬ content.length ≤ 2 ^ j * block := by
      intro hshort
      rw [if_pos hshort] at hlayer
      exact hne hlayer
    rw [if_neg hlong] at hlayer
    have hsum : j + Nat.clog 2 (fileLayer content j).length = treeHeight content :=
      clog_fileLayer (not_le.1 hlong)
    have hj : pieceLayer (2 ^ j * block) = j := pieceLayer_mul_block (by omega)
    have hisLayer : IsLayer (leavesOf content) j layer := by
      rw [hlayer]
      exact isLayer_fileLayer content j
    rw [hj] at hle ⊢
    rw [upperLayers_eq hisLayer (by omega), getElem?_map,
      getElem?_range (show i - j < treeHeight content - j + 1 by omega), map_some,
      bind_some, getElem?_map,
      getElem?_range (by rwa [show treeHeight content - j - (i - j) =
        treeHeight content - i by omega]), map_some, Nat.add_sub_cancel' hle]

theorem map_leavesOf_range' (content : List UInt8) (index n : ℕ) :
    (List.range' index n).map (leavesOf content) =
      resize (slice (blockHashes content) index n) n zeroHash := by
  rw [resize_eq_map_range, range'_eq_map_range, List.map_map]
  refine map_congr_left fun i hi => ?_
  rw [mem_range] at hi
  rw [Function.comp_apply, leavesOf, slice, getD_eq_getElem?_getD, getD_eq_getElem?_getD,
    getElem?_take_of_lt hi, getElem?_drop]

section

variable {source : HashSource} {root : Hash32} {file : SourceFile} {k index length proofLayers : ℕ}
  {readPiece : UInt32 → Option (List UInt8)}

theorem HashSource.answerLeaves_eq (hpieces : source.pieceLength = 2 ^ j * block)
    (hlayer : file.layer = if content.length ≤ 2 ^ j * block then [] else fileLayer content j)
    (hlength : file.length = content.length) (hfile : source.files.lookup root = some file)
    (hread : ∀ n, n * source.pieceLength < content.length → readPiece (file.firstPiece + .ofNat n) =
        some (slice content (n * source.pieceLength) source.pieceLength))
    (hfew : (blockHashes content).length < 2 ^ 31) {b p : ℕ} (hb : 1 ≤ b)
    (hbh : b ≤ treeHeight content) (hp : p < 2 ^ (treeHeight content - b))
    (hmax : 2 ^ b ≤ maxHashesPerRequest) (hproof : treeHeight content ≤ proofLayers + 1) :
    source.answerLeaves root (p * 2 ^ b) (2 ^ b) proofLayers readPiece =
      some ⟨rangeNodes (leavesOf content) 0 (p * 2 ^ b) (2 ^ b),
        nodeUncles (leavesOf content) b p (treeHeight content - b)⟩ := by
  have hheight : treeHeight content ≤ 31 := (Nat.clog_le_iff_le_pow Nat.one_lt_two).2 hfew.le
  have hgood : ¬ badRange 0 (treeHeight content) (p * 2 ^ b) (2 ^ b) :=
    not_badRange hb (by omega) (by simpa using hp) (by omega)
  have hindex : p * 2 ^ b < 2 ^ treeHeight content := by
    rw [show treeHeight content = treeHeight content - b + b by omega, pow_add]
    exact Nat.mul_lt_mul_of_pos_right hp (Nat.two_pow_pos b)
  rw [hpieces] at hread
  have hreads : LeafReader.Reads ⟨(content.length + block - 1) / block, 2 ^ j * block / block,
      file.firstPiece, readPiece⟩ content j :=
    ⟨rfl, Nat.mul_div_cancel _ block_pos, hread⟩
  obtain ⟨cache, hleaves, hcache⟩ := hreads.leaves (range' (p * 2 ^ b) (2 ^ b)) LeafCache.of_none
  have huncles := hreads.uncles (answerLeaves_piecesTree hfew hlayer) hindex
    (proofLayers + 1 - b) b hcache
  rw [HashSource.answerLeaves, hfile, bind_eq_bind, bind_some]
  dsimp only
  rw [hlength, hpieces, answerLeaves_height hfew hlayer,
    if_neg (not_or.2 ⟨hgood, not_lt.2 hmax⟩), hleaves, trailingZeros_two_pow (by omega)]
  simp only [bind_eq_bind, bind_some, huncles, Option.pure_def]
  congr 2
  · rw [rangeNodes, range'_eq_map_range, List.map_map]
    rfl
  · rw [nodeUncles, show min (proofLayers + 1 - b) (treeHeight content - b) =
      treeHeight content - b by omega, range'_eq_map_range, List.map_map]
    refine map_congr_left fun i _ => ?_
    rw [Function.comp_apply, pow_add, Nat.mul_comm p, Nat.mul_div_mul_left _ _ (Nat.two_pow_pos b)]

/-- **Leaves worked out from the true pieces verify.** Of a file of more
than one block and fewer than `2 ^ 31`, in one piece or in many, whatever
range is allowed is answered; the answer leads to the root, and has the
hashes of the file's own blocks with zeros after the last. -/
theorem HashSource.verifyRange_answerLeaves (hk : 14 ≤ k) (hpieces : source.pieceLength = 2 ^ k)
    (hhash : hashFile content content.length source.pieceLength = some ⟨some root, file.layer⟩)
    (hlength : file.length = content.length) (hfile : source.files.lookup root = some file)
    (hread : ∀ n, n * source.pieceLength < content.length →
      readPiece (file.firstPiece + .ofNat n) =
        some (slice content (n * source.pieceLength) source.pieceLength))
    (hmany : 1 < (blockHashes content).length) (hfew : (blockHashes content).length < 2 ^ 31)
    (hallowed : ¬ badRange 0 (treeHeight content) index length)
    (hmax : length ≤ maxHashesPerRequest) (hproof : treeHeight content ≤ proofLayers + 1) :
    ∃ range, source.answerLeaves root index length proofLayers readPiece = some range ∧
      verifyRange root 0 (treeHeight content) index range.hashes range.uncles proofLayers = true ∧
      range.hashes = resize (slice (blockHashes content) index length) length zeroHash := by
  have hne : content ≠ [] := by
    rintro rfl
    simp [length_blockHashes] at hmany
    exact absurd hmany (by decide)
  have hheight : treeHeight content ≤ 31 := (Nat.clog_le_iff_le_pow Nat.one_lt_two).2 hfew.le
  have hpow := hpieces
  rw [two_pow_eq_mul_block hk] at hpow
  rw [hpow, hashFile_eq hne, Option.some.injEq, FileHashes.mk.injEq, Option.some.injEq] at hhash
  obtain ⟨rfl, hlayer⟩ := hhash
  obtain ⟨b, p, hb, rfl, rfl, hbh, hp⟩ := exists_of_not_badRange hallowed
  rw [Nat.zero_add] at hbh hp
  refine ⟨_, HashSource.answerLeaves_eq hpow hlayer.symm hlength hfile hread hfew hb hbh hp hmax
    hproof, ?_, ?_⟩
  · have hverify : verifyRange (node parent (leavesOf content) (treeHeight content) 0) 0
        (treeHeight content) (p * 2 ^ b) (rangeNodes (leavesOf content) 0 (p * 2 ^ b) (2 ^ b))
        (nodeUncles (leavesOf content) (0 + b) p (treeHeight content - (0 + b)))
        proofLayers = true :=
      verifyRange_nodes hb (by omega) (by omega) (by rwa [Nat.zero_add]) (by omega) hproof
    rw [Nat.zero_add] at hverify
    exact hverify
  · rw [← map_leavesOf_range', range'_eq_map_range, List.map_map]
    rfl

end

end

theorem length_blockHashes_sample [Digests] :
    (blockHashes (replicate 70000 (0 : UInt8))).length = 5 := by
  rw [length_blockHashes, length_replicate]
  rfl

theorem HashSource.verifyRange_answerLeaves_sample :
    ∃ (source : HashSource) (root : Hash32) (readPiece : UInt32 → Option (List UInt8))
      (range : HashRange), source.pieceLength = 2 ^ 15 ∧
      @answerLeaves .spread source root 4 2 2 readPiece = some range ∧
      @verifyRange .spread root 0 3 4 range.hashes range.uncles 2 = true := by
  let _ := Digests.spread
  let content : List UInt8 := List.replicate 70000 0
  let readPiece : UInt32 → Option (List UInt8) := fun n =>
    some (slice content (n.toNat * 2 ^ 15) (2 ^ 15))
  let file : SourceFile := ⟨content.length, 0, fileLayer content 1⟩
  let source : HashSource := ⟨2 ^ 15, [(fileRoot content, file)]⟩
  have hlen : content.length = 70000 := length_replicate
  have hpieces : source.pieceLength = 2 ^ 15 := rfl
  have hfile : source.files.lookup (fileRoot content) = some file := lookup_cons_self
  have hheight : treeHeight content = 3 := by
    rw [treeHeight, length_blockHashes_sample]
    decide
  have hhash : hashFile content content.length (2 ^ 15) =
      some ⟨some (fileRoot content), file.layer⟩ := by
    rw [show 2 ^ 15 = 2 ^ 1 * block from rfl,
      hashFile_eq (ne_nil_of_length_pos (by rw [hlen]; decide)),
      if_neg (by rw [hlen]; decide)]
  have hread : ∀ n, n * 2 ^ 15 < content.length →
      readPiece (file.firstPiece + .ofNat n) = some (slice content (n * 2 ^ 15) (2 ^ 15)) := by
    intro n hn
    have hnumber : (file.firstPiece + UInt32.ofNat n).toNat = n := by
      rw [show file.firstPiece = 0 from rfl, UInt32.zero_add, UInt32.toNat_ofNat',
        Nat.mod_eq_of_lt (by omega)]
    simp only [readPiece, hnumber]
  have hallowed : ¬ badRange 0 (treeHeight content) 4 2 := by
    rw [hheight]
    decide
  have hproof : treeHeight content ≤ 2 + 1 := hheight.le
  obtain ⟨range, hanswer, hverify, -⟩ := verifyRange_answerLeaves (show 14 ≤ 15 by decide)
    hpieces hhash rfl hfile hread (by rw [length_blockHashes_sample]; decide)
    (by rw [length_blockHashes_sample]; decide) hallowed (by decide) hproof
  rw [hheight] at hverify
  exact ⟨source, _, readPiece, range, rfl, hanswer, hverify⟩

end BitTorrent.V2
