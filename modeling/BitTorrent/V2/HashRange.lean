import BitTorrent.V2.FileTree

/-!
# Ranges of hashes, and their proofs

The hash requests of `v2.rs`: `hash_range` answers one from a layer of a file's tree, with the
uncles that lead from the range to the root, and `verify_range` checks an answer against the root.
-/

namespace BitTorrent.V2

open List HashTree

def pieceLayer (pieceLength : ℕ) : ℕ := trailingZeros 64 (pieceLength / block)

def fileHeight (length pieceLength : ℕ) : ℕ :=
  pieceLayer pieceLength +
    trailingZeros 64 ((length + pieceLength - 1) / pieceLength).nextPowerOfTwo

structure HashRange where
  hashes : List Hash32
  uncles : List Hash32
deriving DecidableEq

/-- The proof layers of which uncles are sent: those from `below` on that
are under the root. -/
def uncleLayers (below proofLayers layerNumber height : ℕ) : List ℕ :=
  (List.range' below (proofLayers + 1 - below)).takeWhile fun j => layerNumber + j < height

/-- `1u64 << n`, where the shift is taken by 64. -/
def shiftOne (n : ℕ) : ℕ := 2 ^ (n % 64)

/-- What `hash_range` and `verify_range` both refuse. -/
def badRange (layerNumber height index length : ℕ) : Prop :=
  height ≤ layerNumber ∨ length < 2 ∨ ¬ length.isPowerOfTwo ∨ index &&& (length - 1) ≠ 0 ∨
    shiftOne (height - layerNumber) < index + length

instance (layerNumber height index length : ℕ) :
    Decidable (badRange layerNumber height index length) :=
  inferInstanceAs (Decidable (_ ∨ _))

section

variable [Digests]

/-- The loop of `upper_layers`: a layer and those above it. Each turn
halves the layer, so its length is fuel enough. -/
def layersUp : ℕ → List Hash32 → List (List Hash32)
  | 0, level => [level]
  | fuel + 1, level => if 1 < level.length then level :: layersUp fuel (pairUp level) else [level]

def upperLayers (layer : List Hash32) (layerNumber height : ℕ) : List (List Hash32) :=
  let width := shiftOne (height - layerNumber)
  layersUp width (resize layer width (zeroSubtree layerNumber))

/-- `hash_range`. Where it is answered the layers and the hashes in them
are there to be taken, so no default is. -/
def hashRange (layer : List Hash32) (layerNumber height index length proofLayers : ℕ) :
    Option HashRange :=
  if badRange layerNumber height index length then none
  else if shiftOne (height - layerNumber) < layer.length then none
  else
    let layers := upperLayers layer layerNumber height
    let hashes := slice (layers.headD []) index length
    let below := trailingZeros 32 length
    let uncles := (uncleLayers below proofLayers layerNumber height).map fun j =>
      (layers.getD j []).getD ((index >>> j) ^^^ 1) zeroHash
    some ⟨hashes, uncles⟩

/-- `verify_range`. The number of hashes is taken as a `u32`. -/
def verifyRange (root : Hash32) (layerNumber height index : ℕ) (hashes uncles : List Hash32)
    (proofLayers : ℕ) : Bool :=
  let length := hashes.length % 2 ^ 32
  if badRange layerNumber height index length then false
  else
    let below := trailingZeros 32 length
    if uncles.length ≠ (uncleLayers below proofLayers layerNumber height).length then false
    else
      let node := HashTree.climb parent (merkleRoot hashes length zeroHash) (index >>> below) uncles
      layerNumber + below + uncles.length == height && node == root

end

def maxHashesPerRequest : ℕ := 512

structure SourceFile where
  length : ℕ
  firstPiece : UInt32
  layer : List Hash32
deriving DecidableEq

/-- `HashSource`: the files by root, the latest first where two have the
same. -/
structure HashSource where
  pieceLength : ℕ
  files : List (Hash32 × SourceFile)
deriving DecidableEq

namespace HashSource

/-- The loop of `HashSource::new`, from the number of the next piece on. -/
def sources (layers : Layers) (pieceLength : ℕ) (found : List (Hash32 × SourceFile)) :
    UInt32 → List V2File → List (Hash32 × SourceFile)
  | _, [] => found
  | nextPiece, file :: files =>
    match file.root with
    | none => sources layers pieceLength found nextPiece files
    | some root =>
      let pieces := UInt32.ofNat ((file.length + pieceLength - 1) / pieceLength)
      let layer := if pieceLength < file.length then layers.lookup root else some []
      match layer with
      | none => sources layers pieceLength found (nextPiece + pieces) files
      | some layer => sources layers pieceLength ((root, ⟨file.length, nextPiece, layer⟩) :: found)
          (nextPiece + pieces) files

def new (files : List V2File) (layers : Layers) (pieceLength : ℕ) : Option HashSource :=
  let found := sources layers pieceLength [] 0 files
  if found = [] then none else some ⟨pieceLength, found⟩

def answer [Digests] (source : HashSource) (root : Hash32)
    (baseLayer index length proofLayers : ℕ) : Option HashRange := do
  let file ← source.files.lookup root
  -- a file of one piece has no layer of pieces
  if file.layer = [] then none
  else
    let height := fileHeight file.length source.pieceLength
    let piecesAt := pieceLayer source.pieceLength
    if baseLayer < piecesAt ∨ maxHashesPerRequest < length ∨ height ≤ baseLayer then none
    else if baseLayer = piecesAt then
      hashRange file.layer baseLayer height index length proofLayers
    else
      let above := (upperLayers file.layer piecesAt height).getD (baseLayer - piecesAt) []
      hashRange above baseLayer height index length proofLayers

end HashSource

theorem takeWhile_range' (a n m : ℕ) :
    (range' a n).takeWhile (fun j => decide (j < m)) = range' a (min n (m - a)) := by
  induction n generalizing a with
  | zero => simp
  | succ n ih =>
    rw [range'_succ, takeWhile_cons]
    split
    · rename_i h
      rw [decide_eq_true_iff] at h
      rw [ih, ← range'_succ]
      congr 1
      omega
    · rename_i h
      rw [decide_eq_true_iff] at h
      rw [show min (n + 1) (m - a) = 0 by omega]
      rfl

theorem uncleLayers_eq (below proofLayers layerNumber height : ℕ) :
    uncleLayers below proofLayers layerNumber height =
      range' below (min (proofLayers + 1) (height - layerNumber) - below) := by
  have hp : (fun j => decide (layerNumber + j < height)) =
      fun j => decide (j < height - layerNumber) := by
    funext j
    exact decide_eq_decide.2 (by omega)
  rw [uncleLayers, hp, takeWhile_range']
  congr 1
  omega

theorem shiftOne_le (n : ℕ) : shiftOne n ≤ 2 ^ n :=
  Nat.pow_le_pow_right Nat.zero_lt_two (Nat.mod_le n 64)

theorem shiftOne_of_lt {n : ℕ} (h : n < 64) : shiftOne n = 2 ^ n := by
  rw [shiftOne, Nat.mod_eq_of_lt h]

theorem exists_of_not_badRange {layerNumber height index length : ℕ}
    (h : ¬ badRange layerNumber height index length) :
    ∃ b p, 1 ≤ b ∧ length = 2 ^ b ∧ index = p * 2 ^ b ∧ layerNumber + b ≤ height ∧
      p < 2 ^ (height - (layerNumber + b)) := by
  unfold badRange at h
  push Not at h
  obtain ⟨hlt, htwo, ⟨b, rfl⟩, hindex, hfits⟩ := h
  rw [Nat.and_two_pow_sub_one_eq_mod] at hindex
  have hb : 1 ≤ b := by
    by_contra hb
    rw [show b = 0 by omega] at htwo
    omega
  have hwithin := hfits.trans (shiftOne_le _)
  have hbh : b ≤ height - layerNumber :=
    (Nat.pow_le_pow_iff_right Nat.one_lt_two).1 ((Nat.le_add_left _ _).trans hwithin)
  refine ⟨b, index / 2 ^ b, hb, rfl, (Nat.div_mul_cancel (Nat.dvd_of_mod_eq_zero hindex)).symm,
    by omega, ?_⟩
  rw [Nat.div_lt_iff_lt_mul (Nat.pow_pos Nat.zero_lt_two), ← pow_add,
    show height - (layerNumber + b) + b = height - layerNumber by omega]
  have := Nat.pow_pos (n := b) Nat.zero_lt_two
  omega

theorem not_badRange {layerNumber height b p : ℕ} (hb : 1 ≤ b) (hbh : layerNumber + b ≤ height)
    (hp : p < 2 ^ (height - (layerNumber + b))) (hsmall : height - layerNumber < 64) :
    ¬ badRange layerNumber height (p * 2 ^ b) (2 ^ b) := by
  unfold badRange
  push Not
  refine ⟨by omega, ?_, ⟨b, rfl⟩, ?_, ?_⟩
  · exact Nat.pow_le_pow_right Nat.zero_lt_two hb
  · rw [Nat.and_two_pow_sub_one_eq_mod, Nat.mul_mod_left]
  · rw [shiftOne_of_lt hsmall, ← Nat.succ_mul,
      show height - layerNumber = height - (layerNumber + b) + b by omega, pow_add]
    exact Nat.mul_le_mul_right _ hp

section

variable [Digests] {f : ℕ → Hash32} {layerNumber height b p proofLayers : ℕ}

theorem layersUp_map_range (g : ℕ → Hash32) (d fuel : ℕ) (hfuel : d ≤ fuel) :
    layersUp fuel ((range (2 ^ d)).map g) = (range (d + 1)).map fun j =>
        (range (2 ^ (d - j))).map (node parent g j) := by
  induction d generalizing g fuel with
  | zero =>
    cases fuel with
    | zero | succ => rfl
  | succ d ih =>
    obtain ⟨fuel, rfl⟩ : ∃ n, fuel = n + 1 := ⟨fuel - 1, by omega⟩
    have hlen : 1 < ((range (2 ^ (d + 1))).map g).length := by
      rw [length_map, length_range]
      exact Nat.one_lt_two_pow (by omega)
    rw [layersUp, if_pos hlen, pairUp_eq_levelUp, pow_succ', levelUp_map_range,
      ih _ _ (by omega), range_succ_eq_map (n := d + 1), map_cons, map_map,
      Nat.sub_zero, pow_succ']
    congr 1
    refine map_congr_left fun j _ => ?_
    rw [Function.comp_apply, Nat.succ_eq_add_one, Nat.add_sub_add_right]
    refine map_congr_left fun i _ => ?_
    rw [node_node, Nat.add_comm]

/-- **A layer that is one of a tree**: with its padding it has the tree's
nodes of that layer. -/
def IsLayer (f : ℕ → Hash32) (layerNumber : ℕ) (layer : List Hash32) : Prop :=
  ∀ i, layer.getD i (zeroSubtree layerNumber) = HashTree.node parent f layerNumber i

variable {layer : List Hash32}

theorem upperLayers_eq (hlayer : IsLayer f layerNumber layer) (hsmall : height - layerNumber < 64) :
    upperLayers layer layerNumber height = (range (height - layerNumber + 1)).map fun j =>
      (range (2 ^ (height - layerNumber - j))).map (node parent f (layerNumber + j)) := by
  rw [upperLayers, shiftOne_of_lt hsmall, resize_eq_map_range, funext hlayer,
    layersUp_map_range _ _ _ Nat.lt_two_pow_self.le]
  refine map_congr_left fun j _ => map_congr_left fun i _ => ?_
  rw [node_node]

/-- The nodes of a range of a layer. -/
def rangeNodes (f : ℕ → Hash32) (layerNumber index n : ℕ) : List Hash32 :=
  (List.range n).map fun i => HashTree.node parent f layerNumber (index + i)

/-- The uncles of a node: the siblings on the way up. -/
def nodeUncles (f : ℕ → Hash32) (layerNumber position n : ℕ) : List Hash32 :=
  (List.range n).map fun j =>
    HashTree.node parent f (layerNumber + j) (sibling (position / 2 ^ j))

theorem getD_upperLayers (hlayer : IsLayer f layerNumber layer)
    (hsmall : height - layerNumber < 64) {j i : ℕ} (hj : j ≤ height - layerNumber)
    (hi : i < 2 ^ (height - layerNumber - j)) (d : Hash32) :
    ((upperLayers layer layerNumber height).getD j []).getD i d =
      node parent f (layerNumber + j) i := by
  rw [upperLayers_eq hlayer hsmall, getD_map_range_of_lt _ (Nat.lt_succ_of_le hj),
    getD_map_range_of_lt _ hi]

theorem hashRange_eq (hlayer : IsLayer f layerNumber layer)
    (hlen : layer.length ≤ 2 ^ (height - layerNumber)) (hb : 1 ≤ b) (hb' : b < 32)
    (hbh : layerNumber + b ≤ height) (hp : p < 2 ^ (height - (layerNumber + b)))
    (hsmall : height - layerNumber < 64) (hproof : height - layerNumber ≤ proofLayers + 1) :
    hashRange layer layerNumber height (p * 2 ^ b) (2 ^ b) proofLayers =
      some ⟨rangeNodes f layerNumber (p * 2 ^ b) (2 ^ b),
        nodeUncles f (layerNumber + b) p (height - (layerNumber + b))⟩ := by
  have hwithin : p * 2 ^ b + 2 ^ b ≤ 2 ^ (height - layerNumber) := by
    rw [show height - layerNumber = height - (layerNumber + b) + b by omega, pow_add,
      ← Nat.succ_mul]
    exact Nat.mul_le_mul_right _ hp
  have hhashes : slice ((upperLayers layer layerNumber height).headD []) (p * 2 ^ b) (2 ^ b) =
      rangeNodes f layerNumber (p * 2 ^ b) (2 ^ b) := by
    rw [upperLayers_eq hlayer hsmall, range_succ_eq_map, map_cons, headD_cons,
      Nat.sub_zero, Nat.add_zero, slice_map_range _ hwithin]
    rfl
  have huncle : ∀ j < height - (layerNumber + b),
      ((upperLayers layer layerNumber height).getD (b + j) []).getD
        (((p * 2 ^ b) >>> (b + j)) ^^^ 1) zeroHash =
          node parent f (layerNumber + b + j) (sibling (p / 2 ^ j)) := by
    intro j hj
    obtain ⟨k, hk⟩ : ∃ k, height - (layerNumber + b) = j + (k + 1) :=
      ⟨height - (layerNumber + b) - j - 1, by omega⟩
    have hpos : p / 2 ^ j < 2 ^ (k + 1) := by
      rw [hk, pow_add] at hp
      exact Nat.div_lt_of_lt_mul hp
    rw [xor_one_eq_sibling, Nat.shiftRight_eq_div_pow, pow_add,
      Nat.mul_comm p, Nat.mul_div_mul_left _ _ (Nat.pow_pos Nat.zero_lt_two),
      getD_upperLayers hlayer hsmall (by omega), Nat.add_assoc]
    rw [show height - layerNumber - (b + j) = k + 1 by omega]
    exact sibling_lt hpos
  rw [hashRange, if_neg (not_badRange hb hbh hp hsmall), if_neg (by
    rw [shiftOne_of_lt hsmall]; exact not_lt.2 hlen)]
  dsimp only
  rw [hhashes, trailingZeros_two_pow hb', uncleLayers_eq, range'_eq_map_range, map_map,
    show min (proofLayers + 1) (height - layerNumber) - b = height - (layerNumber + b) by omega]
  congr 2
  refine map_congr_left fun j hj => ?_
  rw [Function.comp_apply, huncle j (mem_range.1 hj)]

variable {hashes uncles : List Hash32}

theorem verifyRange_eq_true_iff {root : Hash32} (hb' : b < 32) (hlen : hashes.length = 2 ^ b)
    (hgood : ¬ badRange layerNumber height (p * 2 ^ b) (2 ^ b)) :
    verifyRange root layerNumber height (p * 2 ^ b) hashes uncles proofLayers = true ↔
      uncles.length = min (proofLayers + 1) (height - layerNumber) - b ∧
        layerNumber + b + uncles.length = height ∧ HashTree.climb parent
            (HashTree.node parent (fun i => hashes.getD i zeroHash) b 0) p uncles = root := by
  have hpow : 2 ^ b < 2 ^ 32 := Nat.pow_lt_pow_right Nat.one_lt_two hb'
  rw [verifyRange, hlen, Nat.mod_eq_of_lt hpow]
  dsimp only
  rw [if_neg hgood, trailingZeros_two_pow hb', uncleLayers_eq, length_range',
    merkleRoot_eq_node, Nat.shiftRight_eq_div_pow,
    Nat.mul_div_cancel _ (Nat.pow_pos Nat.zero_lt_two)]
  split
  · rename_i hcount
    simp only [Bool.false_eq_true, false_iff, not_and]
    exact fun h => absurd h hcount
  · rename_i hcount
    simp only [Bool.and_eq_true, beq_iff_eq, not_not.1 hcount, true_and]

theorem verifyRange_nodes (hb : 1 ≤ b) (hb' : b < 32) (hbh : layerNumber + b ≤ height)
    (hp : p < 2 ^ (height - (layerNumber + b))) (hsmall : height - layerNumber < 64)
    (hproof : height - layerNumber ≤ proofLayers + 1) :
    verifyRange (node parent f height 0) layerNumber height (p * 2 ^ b)
      (rangeNodes f layerNumber (p * 2 ^ b) (2 ^ b))
      (nodeUncles f (layerNumber + b) p (height - (layerNumber + b))) proofLayers = true := by
  have hnode : node parent
      (fun i => (rangeNodes f layerNumber (p * 2 ^ b) (2 ^ b)).getD i zeroHash) b 0 =
        node parent f (layerNumber + b) p := by
    rw [← node_node, ← Nat.add_zero p, ← node_shift, Nat.add_zero]
    refine node_congr fun i _ hi => ?_
    exact getD_map_range_of_lt _ (by simpa using hi) _
  have hclimb : HashTree.climb parent (HashTree.node parent f (layerNumber + b) p) p
      (nodeUncles f (layerNumber + b) p (height - (layerNumber + b))) =
        node parent f (layerNumber + b + (height - (layerNumber + b)))
          (p / 2 ^ (height - (layerNumber + b))) := climb_siblings f _ _ _
  rw [verifyRange_eq_true_iff hb' (by simp [rangeNodes]) (not_badRange hb hbh hp hsmall), hnode]
  refine ⟨by simp [nodeUncles]; omega, by simp [nodeUncles]; omega, ?_⟩
  rw [hclimb, Nat.div_eq_of_lt hp, Nat.add_sub_cancel' hbh]

/-- **The pairs that `verify_range` hashes**: those of the tree over the
hashes, and those on the way up through the uncles. -/
def VerifyPair (hashes uncles : List Hash32) (index : ℕ) (q : Hash32 × Hash32) : Prop :=
  HashTree.TreePair parent (fun i => hashes.getD i zeroHash) hashes.length.log2 q ∨
    q ∈ climbPairs parent
      (HashTree.node parent (fun i => hashes.getD i zeroHash) hashes.length.log2 0)
      (index / hashes.length) uncles

theorem eq_rangeNodes_of_verifyRange {index : ℕ} (hlen : hashes.length < 2 ^ 32)
    (hfree : HashTree.NoCollision parent (VerifyPair hashes uncles index)
      (HashTree.TreePair parent f height))
    (h : verifyRange (node parent f height 0) layerNumber height index hashes uncles
      proofLayers = true) :
    hashes = rangeNodes f layerNumber index hashes.length ∧
      index + hashes.length ≤ 2 ^ (height - layerNumber) := by
  have hgood : ¬ badRange layerNumber height index hashes.length := by
    intro hbad
    rw [verifyRange, Nat.mod_eq_of_lt hlen] at h
    dsimp only at h
    rw [if_pos hbad] at h
    cases h
  obtain ⟨b, p, hb, hlen', rfl, hbh, hp⟩ := exists_of_not_badRange hgood
  rw [hlen'] at hlen hgood
  have hb' : b < 32 := (Nat.pow_lt_pow_iff_right Nat.one_lt_two).1 hlen
  obtain ⟨-, hcount, hclimb⟩ := (verifyRange_eq_true_iff hb' hlen' hgood).1 h
  have huncles : height - (layerNumber + b) = uncles.length := by omega
  unfold VerifyPair at hfree
  rw [hlen', Nat.log2_two_pow, Nat.mul_div_cancel _ (Nat.pow_pos Nat.zero_lt_two)] at hfree
  rw [huncles] at hp
  -- the climb began at a node, and the tree over the hashes is the part below it
  have hnode := eq_node_of_climb hcount hp (hfree.mono fun q hq => .inr hq) hclimb
  have hleaf : ∀ i < 2 ^ b, hashes.getD i zeroHash =
      node parent f layerNumber (p * 2 ^ b + i) := fun i hi =>
    leaves_eq_of_node_eq hbh (by rwa [huncles]) (hfree.mono fun q hq => .inl hq)
      hnode hi
  refine ⟨ext_getElem (by simp [rangeNodes]) fun i hi _ => ?_, ?_⟩
  · have := hleaf i (by rwa [← hlen'])
    rw [getD_eq_getElem?_getD, getElem?_eq_getElem hi, Option.getD_some] at this
    simpa [rangeNodes] using this
  · rw [hlen', ← Nat.succ_mul, show height - layerNumber = uncles.length + b by omega, pow_add]
    exact Nat.mul_le_mul_right _ hp

omit [Digests] in
theorem pieceLayer_mul_block {j : ℕ} (hj : j < 64) : pieceLayer (2 ^ j * block) = j := by
  rw [pieceLayer, Nat.mul_div_cancel _ block_pos, trailingZeros_two_pow hj]

omit [Digests] in
theorem fileHeight_mul_block {length j : ℕ} (hj : j < 64)
    (hfew : (length + 2 ^ j * block - 1) / (2 ^ j * block) ≤ 2 ^ 31) :
    fileHeight length (2 ^ j * block) =
      j + Nat.clog 2 ((length + 2 ^ j * block - 1) / (2 ^ j * block)) := by
  have hclog : Nat.clog 2 ((length + 2 ^ j * block - 1) / (2 ^ j * block)) ≤ 31 :=
    (Nat.clog_le_iff_le_pow Nat.one_lt_two).2 hfew
  rw [fileHeight, pieceLayer_mul_block hj, nextPowerOfTwo_eq, trailingZeros_two_pow (by omega)]

theorem isLayer_fileLayer (content : List UInt8) (j : ℕ) :
    IsLayer (leavesOf content) j (fileLayer content j) := getD_fileLayer content j

end

end BitTorrent.V2
