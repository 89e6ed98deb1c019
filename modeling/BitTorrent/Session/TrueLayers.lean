import BitTorrent.Session.Layers

/-!
# Layers from any peer

What a peer sends is not trusted: whatever it is, a layer that
`fetch_from_peer` returns is the file's own, as long as pairing does not
collide between what was checked and the file's tree.
-/

namespace BitTorrent

open V2 List

section

variable [Digests] {j d b : ℕ} {peer : LayerPeer} {root : Hash32} {content : List UInt8}

/-- **Nothing that a peer sends collides** with the tree of a file when it
is checked. -/
def LayerPeer.CollisionFree (peer : LayerPeer) (content : List UInt8) (height : ℕ) : Prop :=
  ∀ sent request hashes, .ok (.hashes request hashes) ∈ peer.sends sent →
    HashTree.NoCollision parent
      (VerifyPair (hashes.take request.length.toNat) (hashes.drop request.length.toNat)
        request.index.toNat)
      (HashTree.TreePair parent (leavesOf content) height)

/-- What is unread was sent. -/
def Talk.Heard (talk : Talk) (peer : LayerPeer) : Prop :=
  ∀ r ∈ talk.unread, ∃ sent, r ∈ peer.sends sent

omit [Digests] in
theorem mem_of_awaitHashes {request : HashRequest} {rs rest : List Reading}
    {hashes : List Hash32} (h : awaitHashes request rs = .ok (hashes, rest)) :
    .ok (.hashes request hashes) ∈ rs ∧ ∀ r ∈ rest, r ∈ rs := by
  induction rs using awaitHashes.induct request with
  | case1 | case2 => cases h
  | case3 hashes' rs =>
    rw [awaitHashes, if_pos rfl] at h
    cases h
    exact ⟨mem_cons_self, fun r hr => mem_cons_of_mem _ hr⟩
  | case4 answered hashes' rs hne ih | case6 rejected rs hne ih =>
    rw [awaitHashes, if_neg hne] at h
    exact ⟨mem_cons_of_mem _ (ih h).1, fun r hr => mem_cons_of_mem _ ((ih h).2 r hr)⟩
  | case5 rs =>
    rw [awaitHashes, if_pos rfl] at h
    cases h
  | case7 m rs hhashes hreject ih =>
    rw [awaitHashes] at h
    · exact ⟨mem_cons_of_mem _ (ih h).1, fun r hr => mem_cons_of_mem _ ((ih h).2 r hr)⟩
    · exact hhashes
    · exact hreject

variable {talk : Talk} {range : List Hash32 × Talk}

theorem exists_answer_of_fetchLayerRange {atLayer height perRequest proofLayers index : ℕ}
    (hheard : talk.Heard peer)
    (h : fetchLayerRange peer root atLayer height perRequest proofLayers index talk = .ok range) :
    ∃ sent hashes, .ok (.hashes (rangeRequest root atLayer index perRequest proofLayers) hashes) ∈
        peer.sends sent ∧
      perRequest ≤ hashes.length ∧ range.1 = hashes.take perRequest ∧
      verifyRange root atLayer height index (hashes.take perRequest) (hashes.drop perRequest)
        proofLayers = true ∧ range.2.Heard peer := by
  unfold fetchLayerRange at h
  rw [check_eq_ok_iff, check_eq_ok_iff, bind_eq_ok_iff] at h
  obtain ⟨-, -, answer, hawait, h⟩ := h
  rw [check_eq_ok_iff] at h
  obtain ⟨hgood, h⟩ := h
  cases h
  push Not at hgood
  obtain ⟨hlong, hverify⟩ := hgood
  rw [ne_eq, Bool.not_eq_true', Bool.not_eq_false] at hverify
  have hsent : ∀ r ∈ talk.unread ++ peer.sends (talk.sent ++ [rangeRequest root atLayer index
      perRequest proofLayers]), ∃ sent, r ∈ peer.sends sent := by
    intro r hr
    rcases mem_append.1 hr with hr | hr
    · exact hheard r hr
    · exact ⟨_, hr⟩
  obtain ⟨hmem, hrest⟩ := mem_of_awaitHashes hawait
  obtain ⟨sent, hmem⟩ := hsent _ hmem
  exact ⟨sent, answer.1, hmem, hlong, rfl, hverify, fun r hr => hsent r (hrest r hr)⟩

variable {layer : List Hash32 × Talk}

section

variable (hfree : peer.CollisionFree content (j + d))

include hfree

section

variable (hc : Fetchable j d b content.length)

include hc

theorem fetchLayerRange_sound (hroot : root = fileRoot content) {p : ℕ} (hp : p < 2 ^ (d - b))
    (hheard : talk.Heard peer)
    (h : fetchLayerRange peer root j (j + d) (2 ^ b) (d - 1) (p * 2 ^ b) talk = .ok range) :
    range.1 = rangeNodes (leavesOf content) j (p * 2 ^ b) (2 ^ b) := by
  obtain ⟨sent, hashes, hmem, hlong, hrange, hverify, -⟩ :=
    exists_answer_of_fetchLayerRange hheard h
  obtain ⟨-, hindex, hlength, -⟩ := hc.toNat_eq hp
  have hfree := hfree sent _ _ hmem
  simp only [rangeRequest, hindex, hlength] at hfree
  have htake : (hashes.take (2 ^ b)).length = 2 ^ b := length_take_of_le hlong
  have hsmall : 2 ^ b < 2 ^ 32 := by
    rw [← hlength]
    exact UInt32.toNat_lt _
  rw [hroot, hc.root_eq] at hverify
  have hsound := (eq_rangeNodes_of_verifyRange (by rwa [htake]) hfree hverify).1
  rwa [htake, ← hrange] at hsound

theorem fetchLayerRanges_sound (hroot : root = fileRoot content) {ps : List ℕ}
    (hps : ∀ p ∈ ps, p < 2 ^ (d - b)) (hheard : talk.Heard peer)
    (h : fetchLayerRanges peer root j (j + d) (2 ^ b) (d - 1) (ps.map (· * 2 ^ b)) talk =
      .ok layer) :
    layer.1 = (ps.map fun p => rangeNodes (leavesOf content) j (p * 2 ^ b) (2 ^ b)).flatten := by
  induction ps generalizing talk layer with
  | nil =>
    cases h
    rfl
  | cons p ps ih =>
    rw [forall_mem_cons] at hps
    rw [map_cons, fetchLayerRanges, bind_eq_ok_iff] at h
    obtain ⟨first, hfirst, h⟩ := h
    rw [bind_eq_ok_iff] at h
    obtain ⟨others, hothers, h⟩ := h
    cases h
    obtain ⟨-, -, -, -, -, -, hheard'⟩ := exists_answer_of_fetchLayerRange hheard hfirst
    rw [fetchLayerRange_sound hfree hc hroot hps.1 hheard hfirst, ih hps.2 hheard' hothers,
      map_cons, flatten_cons]

theorem fetchLayer_sound (hroot : root = fileRoot content) (hheard : talk.Heard peer)
    (h : fetchLayer peer (2 ^ j * block) root content.length talk = .ok layer) :
    layer.1 = fileLayer content j := by
  rw [hc.fetchLayer_eq, bind_eq_ok_iff] at h
  obtain ⟨gathered, hranges, h⟩ := h
  cases h
  rw [fetchLayerRanges_sound hfree hc hroot (fun p hp => mem_range.1 hp) hheard hranges,
    flatten_rangeNodes, hc.take_whole]

end

end

theorem heard_of_fetchLayerRanges {atLayer height perRequest proofLayers : ℕ} {indices : List ℕ}
    (hheard : talk.Heard peer)
    (h : fetchLayerRanges peer root atLayer height perRequest proofLayers indices talk =
      .ok layer) :
    layer.2.Heard peer := by
  induction indices generalizing talk layer with
  | nil =>
    cases h
    exact hheard
  | cons index indices ih =>
    rw [fetchLayerRanges, bind_eq_ok_iff] at h
    obtain ⟨first, hfirst, h⟩ := h
    rw [bind_eq_ok_iff] at h
    obtain ⟨others, hothers, h⟩ := h
    cases h
    obtain ⟨-, -, -, -, -, -, hheard'⟩ := exists_answer_of_fetchLayerRange hheard hfirst
    have hheard₂ := ih hheard' hothers
    exact hheard₂

theorem of_fetchLayer {pieceLength length : ℕ} (hheard : talk.Heard peer)
    (h : fetchLayer peer pieceLength root length talk = .ok layer) :
    (length + pieceLength - 1) / pieceLength ≤ maxPiecesPerFile ∧ layer.2.Heard peer := by
  unfold fetchLayer at h
  rw [check_eq_ok_iff, bind_eq_ok_iff] at h
  obtain ⟨hfew, gathered, hranges, h⟩ := h
  cases h
  have hheard' := heard_of_fetchLayerRanges hheard hranges
  exact ⟨not_lt.1 hfew, hheard'⟩

variable {missing : List (Hash32 × ℕ)} {e : Option FetchError} {layer : List Hash32}

theorem exists_fetchLayer_of_lookup {pieceLength : ℕ} {got got' : Layers}
    (h : fetchFiles peer pieceLength missing got talk = (got', e)) (hheard : talk.Heard peer)
    (hlookup : got'.lookup root = some layer) :
    got.lookup root = some layer ∨ ∃ length talk talk', (root, length) ∈ missing ∧
      talk.Heard peer ∧ fetchLayer peer pieceLength root length talk = .ok (layer, talk') := by
  induction missing generalizing got talk with
  | nil =>
    cases h
    exact .inl hlookup
  | cons file missing ih =>
    rw [fetchFiles] at h
    cases hlayer : fetchLayer peer pieceLength file.1 file.2 talk with
    | error e =>
      rw [hlayer] at h
      cases h
      exact .inl hlookup
    | ok fetched =>
      rw [hlayer] at h
      rcases ih h (of_fetchLayer hheard hlayer).2 with
        hbefore | ⟨length, talk₁, talk₂, hmem, hrest⟩
      · rw [lookup_insertLayer] at hbefore
        split at hbefore
        · rename_i hroot
          cases hbefore
          rw [hroot]
          exact .inr ⟨file.2, talk, fetched.2, mem_cons_self, hheard, hlayer⟩
        · exact .inl hbefore
      · exact .inr ⟨length, talk₁, talk₂, mem_cons_of_mem _ hmem, hrest⟩

theorem eq_fileLayer_of_fetchFromPeer {t : TorrentFile} (hj : j < 64)
    (hlen : t.pieceLength = 2 ^ j * block) {got : Layers}
    (h : fetchFromPeer peer t missing = (got, e))
    (hlookup : got.lookup root = some layer)
    (hsame : ∀ file ∈ missing, file.1 = root → file.2 = content.length)
    (hlong : 2 ^ j * block < content.length) (hroot : root = fileRoot content)
    (hfree : peer.CollisionFree content (fileHeight content.length (2 ^ j * block))) :
    layer = fileLayer content j := by
  unfold fetchFromPeer at h
  split at h
  · cases h
    cases hlookup
  · rw [hlen] at h
    have hheard : Talk.Heard ⟨[], peer.sends []⟩ peer := fun r hr => ⟨[], hr⟩
    obtain hbefore | ⟨length, talk, talk', hmem, hheard, hlayer⟩ :=
      exists_fetchLayer_of_lookup h hheard hlookup
    · cases hbefore
    · obtain rfl : length = content.length := hsame _ hmem rfl
      have hc : Fetchable j _ _ content.length :=
        ⟨hj, hlong, (of_fetchLayer hheard hlayer).1, rfl, rfl⟩
      rw [hc.height_eq] at hfree
      exact fetchLayer_sound hfree hc hroot hheard hlayer

/-- **No other hash is accepted.** Of any complete tree, at any layer and
index: hashes that `verify_range` accepts against the root are the nodes
that the tree has there, as long as pairing does not collide between what
is checked and the tree. So whatever a peer sends, and however the
connection ends, a layer that `fetch_from_peer` returns for a root is the
one `hash_file` computes of the file with that root and length. -/
theorem verifyRange_sound :
    (∀ (f : ℕ → Hash32) (height layerNumber index : ℕ) (hashes uncles : List Hash32)
      (proofLayers : ℕ), hashes.length < 2 ^ 32 →
      HashTree.NoCollision parent (VerifyPair hashes uncles index)
        (HashTree.TreePair parent f height) →
      verifyRange (HashTree.node parent f height 0) layerNumber height index hashes uncles
        proofLayers = true →
      index + hashes.length ≤ 2 ^ (height - layerNumber) ∧ ∀ i (hi : i < hashes.length),
        hashes[i] = HashTree.node parent f layerNumber (index + i)) ∧
      ∀ (k : ℕ) (peer : LayerPeer) (t : TorrentFile) (missing : List (Hash32 × ℕ)) (got : Layers)
        (e : Option FetchError), 14 ≤ k → k < 63 → t.pieceLength = 2 ^ k →
        fetchFromPeer peer t missing = (got, e) →
        ∀ root layer, got.lookup root = some layer → ∀ (content : List UInt8) (hashes : FileHashes),
          (∀ file ∈ missing, file.1 = root → file.2 = content.length) →
          2 ^ k < content.length → hashFile content content.length (2 ^ k) = some hashes →
          hashes.root = some root →
          peer.CollisionFree content (fileHeight content.length (2 ^ k)) →
          layer = hashes.layer := by
  refine ⟨fun f height layerNumber index hashes uncles proofLayers hlen hfree h => ?_, ?_⟩
  · obtain ⟨hnodes, hwithin⟩ := eq_rangeNodes_of_verifyRange hlen hfree h
    refine ⟨hwithin, fun i hi => ?_⟩
    have hget := congrArg (fun l : List Hash32 => l[i]?) hnodes
    simpa [rangeNodes, hi] using hget
  · intro k peer t missing got e hk hk' hlen h root layer hlookup content hashes hsame hlong hhash
      hroot hfree
    have hne : content ≠ [] := ne_nil_of_length_pos (by omega)
    rw [hashFile_pow hne hk, if_neg (not_le.2 hlong)] at hhash
    cases hhash
    rw [two_pow_eq_mul_block hk] at hlen hlong hfree
    exact eq_fileLayer_of_fetchFromPeer (by omega) hlen h hlookup hsame hlong
      (Option.some.inj hroot).symm hfree

end

/-- A peer that sends one message, after the first request, and is then
stopped. -/
def oneMessage (m : Message) : LayerPeer where
  connects := true
  stops n := decide (1 ≤ n)
  writes _ := true
  sends sent := if sent.length = 1 then [.ok m] else []

theorem collisionFree_oneMessage [Digests] {content : List UInt8} (root : Hash32)
    (hlen : (fileLayer content 0).length = 2) :
    (oneMessage (.hashes (rangeRequest root 0 0 2 0) (fileLayer content 0))).CollisionFree
      content 1 := by
  intro sent request hashes hmem p q hp hq _
  have hm : request = rangeRequest root 0 0 2 0 ∧ hashes = fileLayer content 0 := by
    unfold oneMessage at hmem
    dsimp only at hmem
    split at hmem
    · simpa using hmem
    · cases hmem
  rw [hm.1, hm.2] at hp
  have htake : (fileLayer content 0).take 2 = fileLayer content 0 := take_of_length_le hlen.le
  have hdrop : (fileLayer content 0).drop 2 = [] := drop_of_length_le hlen.le
  rcases hp with hp | hp
  · -- both trees have the two leaves of the file
    rw [show (rangeRequest root 0 0 2 0).length.toNat = 2 from rfl, htake, hlen] at hp
    have hleaf : ∀ i, (fileLayer content 0).getD i zeroHash = leavesOf content i :=
      getD_fileLayer content 0
    rw [hp.eq_leaves, hq.eq_leaves, hleaf, hleaf]
  · rw [show (rangeRequest root 0 0 2 0).length.toNat = 2 from rfl, htake, hdrop] at hp
    cases hp

/-- The hash of a block of sevens. -/
def sevens : Hash32 := ⟨1 :: List.replicate 31 7, rfl⟩

theorem verifyRange_sound_sample :
    let _ := leadingBytes
    (∀ i (hi : i < [zeroHash, zeroHash].length), [zeroHash, zeroHash][i] =
      HashTree.node parent (fun _ => zeroHash) 0 (0 + i)) ∧
      ∃ hashes root got, hashFile (List.replicate 16385 7) 16385 (2 ^ 14) = some hashes ∧
        hashes.root = some root ∧
        fetchFromPeer (oneMessage (.hashes (rangeRequest root 0 0 2 0) hashes.layer))
          (layerless 16385 root) [(root, 16385)] = (got, none) ∧
        ∀ layer, got.lookup root = some layer → layer = hashes.layer := by
  let _ := leadingBytes
  constructor
  · refine (verifyRange_sound.1 (fun _ => zeroHash) 1 0 0 [zeroHash, zeroHash] [] 0 (by decide)
      (fun p q hp hq _ => ?_) (by decide +kernel)).2
    rcases hp with hp | hp
    · rw [hq.eq_leaves]
      exact HashTree.TreePair.eq_leaves hp
    · cases hp
  · let content := List.replicate 16385 (7 : UInt8)
    have hlength : content.length = 16385 := length_replicate
    have hne : content ≠ [] := ne_nil_of_length_pos (by omega)
    have hhash := hashFile_pow hne (show 14 ≤ 14 by decide)
    rw [if_neg (by omega), hlength] at hhash
    have hgot : fetchFromPeer (oneMessage (.hashes (rangeRequest (fileRoot content) 0 0 2 0)
        (fileLayer content 0))) (layerless 16385 (fileRoot content))
          [(fileRoot content, 16385)] = ([(fileRoot content, fileLayer content 0)], none) := by
      decide +kernel
    refine ⟨_, _, _, hhash, rfl, hgot, fun layer hlookup => ?_⟩
    refine verifyRange_sound.2 14 _ _ _ _ _ (by decide) (by decide) rfl hgot _ layer hlookup content
      _ (by simp [hlength]) (by omega) (by rw [hlength]; exact hhash) rfl ?_
    have hheight : fileHeight content.length (2 ^ 14) = 1 := by
      rw [hlength]
      decide +kernel
    rw [hheight]
    exact collisionFree_oneMessage _ (by decide +kernel)

theorem verifyRange_overlong [Digests] (left right junk : Hash32) :
    verifyRange (parent left right) 0 1 0 (left :: right :: replicate (2 ^ 32) junk) [] 0 =
      true := by
  have hlen : (left :: right :: replicate (2 ^ 32) junk).length % 2 ^ 32 = 2 := by
    rw [length_cons, length_cons, length_replicate, Nat.add_assoc, Nat.add_mod_left]
    rfl
  have hroot : merkleRoot (left :: right :: replicate (2 ^ 32) junk) 2 zeroHash =
      parent left right := merkleRoot_eq_node _ 1 _
  have hgood : ¬ badRange 0 1 0 2 := by decide
  have hbelow : trailingZeros 32 2 = 1 := by decide
  have huncles : uncleLayers 1 0 0 1 = [] := by decide
  simp only [verifyRange, hlen, if_neg hgood, hbelow, huncles, hroot, HashTree.climb]
  simp

/-- Where a root is listed with two lengths, the layer that is returned
for it may be another layer of the tree: the two hashes below the root of
a file of four blocks are fetched as the layer of a file of two. And a
list of more hashes than a `u32` counts is taken for a shorter one: all
that follows the first two is accepted unseen. -/
theorem verifyRange_unsound :
    let _ := leadingBytes
    (∃ junk : Hash32, (∀ l i, HashTree.node parent (fun _ => zeroHash) l i ≠ junk) ∧
      verifyRange (HashTree.node parent (fun _ => zeroHash) 1 0) 0 1 0
        (zeroHash :: zeroHash :: List.replicate (2 ^ 32) junk) [] 0 = true) ∧
      ∃ hashes root layer, hashFile (List.replicate 65536 7) 65536 (2 ^ 14) = some hashes ∧
        hashes.root = some root ∧
        fetchFromPeer (oneMessage (.hashes (rangeRequest root 0 0 2 0) layer))
          (layerless 65536 root) [(root, 32768), (root, 65536)] =
            ([(root, layer)], some .stopped) ∧
        layer ≠ hashes.layer := by
  let _ := leadingBytes
  constructor
  · refine ⟨List.Vector.replicate 32 2, fun l i h => ?_, verifyRange_overlong _ _ _⟩
    -- a leaf begins with a zero, and every other node with a one
    have hhead := congrArg (fun v : Hash32 => v.toList.head?) h
    cases l with
    | zero =>
      have hfirst : some (0 : UInt8) = some 2 := hhead
      exact absurd hfirst (by decide)
    | succ l =>
      have hfirst : some (1 : UInt8) = some 2 := hhead
      exact absurd hfirst (by decide)
  · let content := List.replicate 65536 (7 : UInt8)
    have hlength : content.length = 65536 := length_replicate
    have hne : content ≠ [] := ne_nil_of_length_pos (by omega)
    have hhash := hashFile_pow hne (show 14 ≤ 14 by decide)
    rw [if_neg (by omega), hlength] at hhash
    have hblocks : blockHashes content = replicate 4 sevens := by
      simp only [blockHashes, chunks, slice, hlength, content, drop_replicate, take_replicate,
        -reduceReplicate]
      decide +kernel
    have hleaves : leavesOf content = fun i => (replicate 4 sevens).getD i zeroHash := by
      rw [← hblocks]
      rfl
    rw [fileRoot, fileLayer, hblocks, hlength, hleaves] at hhash
    exact ⟨_, _, replicate 2 (parent sevens sevens), hhash, rfl, by decide +kernel,
      by decide +kernel⟩

end BitTorrent
