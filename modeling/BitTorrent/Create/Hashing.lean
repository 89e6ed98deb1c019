import BitTorrent.Common.BlockBuffer
import BitTorrent.Create.Torrent
import BitTorrent.Peer.Message

/-!
# Pieces hashed over reads

The loop of `hash_pieces`: whatever way the files are cut into reads, and wherever the reads cross
the ends of pieces and files, what comes out are the hashes of the pieces of the files taken back
to back.
-/

namespace BitTorrent

open List

/-- What reading a file gave. -/
def DiskFile.content (f : DiskFile) : List UInt8 := f.bytes.toOption.getD []

/-- **A file that could be read**, and was as long as it was measured. -/
structure DiskFile.Whole (f : DiskFile) : Prop where
  read : f.bytes = .ok f.content
  length_eq : f.content.length = f.length

theorem chunks_eq_wholeBlocks {α : Type*} {n : ℕ} (hn : 0 < n) (l : List α) :
    V2.chunks n l = wholeBlocks n l ++ if blockRest n l = [] then [] else [blockRest n l] := by
  have hlen := length_blockRest n l
  have hsum : l.length / n * n + l.length % n = l.length := Nat.div_add_mod' l.length n
  have hmod := Nat.mod_lt l.length hn
  have hrest : slice l (l.length / n * n) n = blockRest n l := by
    rw [slice, take_of_length_le]
    · rfl
    · rw [length_drop]
      omega
  split
  · rename_i hnil
    rw [hnil, length_nil] at hlen
    have hcount : (l.length + n - 1) / n = l.length / n := by
      refine Nat.le_antisymm ((ceil_le_iff hn).2 (by omega)) ?_
      exact Nat.div_le_div_right (by omega)
    rw [V2.chunks, hcount, append_nil]
    rfl
  · rename_i hne
    have hpos : 0 < l.length % n := by
      rw [← hlen]
      exact length_pos_of_ne_nil hne
    have hcount : (l.length + n - 1) / n = l.length / n + 1 := by
      refine Nat.le_antisymm ((ceil_le_iff hn).2 ?_) ((lt_ceil_iff hn).2 (by omega))
      rw [Nat.succ_mul]
      omega
    rw [V2.chunks, hcount, range_succ, map_append, map_singleton, hrest]
    rfl

namespace Create

theorem flatten_readsOf {fuel : ℕ} {cuts : List ℕ} {rest : List UInt8}
    (hfuel : rest.length ≤ fuel) : (readsOf fuel cuts rest).flatten = rest := by
  induction fuel generalizing cuts rest with
  | zero =>
    rw [length_eq_zero_iff.1 (Nat.le_zero.1 hfuel)]
    rfl
  | succ fuel ih =>
    rw [readsOf]
    split
    · rename_i hnil
      rw [hnil]
      rfl
    · rename_i hne
      dsimp only
      rw [flatten_cons, ih, take_append_drop]
      have hpos := length_pos_of_ne_nil hne
      rw [length_drop]
      unfold readChunk
      omega

section

variable [Digests] {pieceLength : ℕ} {content chunk : List UInt8} {s s' : Hashing} {entry : Entry}

/-- **What the loop holds** after some bytes: the hashes of their whole
pieces, and the bytes after the last of these. -/
structure Hashing.Of (pieceLength : ℕ) (content : List UInt8) (s : Hashing) : Prop where
  pieces_eq : s.pieces =
    ((wholeBlocks pieceLength content).map fun piece => (Digests.sha1 piece).toList).flatten
  hasher_eq : s.hasher = blockRest pieceLength content
  inPiece_eq : s.inPiece = s.hasher.length

section

variable (hpos : 0 < pieceLength)

include hpos

theorem Hashing.Of.nil : Hashing.Of pieceLength [] ⟨[], [], 0⟩ := by
  refine ⟨?_, ?_, rfl⟩
  · rw [wholeBlocks_of_lt (by simpa using hpos)]
    rfl
  · rw [blockRest_of_lt (by simpa using hpos)]

theorem Hashing.Of.feed {fuel : ℕ} (h : s.Of pieceLength content) (hfuel : chunk.length ≤ fuel) :
    (s.feed pieceLength fuel chunk).Of pieceLength (content ++ chunk) := by
  induction fuel generalizing content chunk s with
  | zero =>
    rw [length_eq_zero_iff.1 (Nat.le_zero.1 hfuel), append_nil]
    exact h
  | succ fuel ih =>
    rw [Hashing.feed]
    split
    · rename_i hnil
      rw [hnil, append_nil]
      exact h
    · rename_i hne
      dsimp only
      set take := min (pieceLength - s.inPiece) chunk.length with htake
      have hlt : s.inPiece < pieceLength := by
        rw [h.inPiece_eq, h.hasher_eq]
        exact length_blockRest_lt hpos content
      have hchunk := length_pos_of_ne_nil hne
      -- the part that goes into this piece, and the rest of the chunk after it
      have hsplit : content ++ chunk = (content ++ chunk.take take) ++ chunk.drop take := by
        rw [append_assoc, take_append_drop]
      have hlen : (s.hasher ++ chunk.take take).length = s.inPiece + take := by
        rw [length_append, length_take, h.inPiece_eq]
        omega
      obtain ⟨hblocks, hrest⟩ := wholeBlocks_append hpos content (chunk.take take)
      rw [← h.hasher_eq] at hblocks hrest
      rw [hsplit]
      refine ih ?_ (by rw [length_drop]; omega)
      split
      · rename_i hfull
        obtain ⟨hone, hnone⟩ := wholeBlocks_of_length hpos (hlen.trans hfull)
        refine ⟨?_, by rw [hrest, hnone], rfl⟩
        rw [hblocks, hone, map_append, flatten_append, ← h.pieces_eq]
        simp
      · rename_i hpart
        have hshort : (s.hasher ++ chunk.take take).length < pieceLength := by omega
        refine ⟨?_, by rw [hrest, blockRest_of_lt hshort], hlen.symm⟩
        rw [hblocks, wholeBlocks_of_lt hshort, append_nil, h.pieces_eq]

theorem Hashing.Of.hashReads {reads : List (List UInt8)}
    {readFromFile : ℕ} (h : s.Of pieceLength content)
    (hok : hashReads pieceLength entry reads readFromFile s = .ok s') :
    readFromFile + reads.flatten.length = entry.length ∧
      s'.Of pieceLength (content ++ reads.flatten) := by
  induction reads generalizing readFromFile s content with
  | nil =>
    rw [hashReads, check_eq_ok_iff] at hok
    obtain ⟨hlen, hok⟩ := hok
    cases hok
    exact ⟨not_not.1 hlen, by rwa [flatten_nil, append_nil]⟩
  | cons chunk reads ih =>
    rw [hashReads, check_eq_ok_iff] at hok
    obtain ⟨hlen, hof⟩ := ih (h.feed hpos le_rfl) hok.2
    rw [append_assoc] at hof
    rw [flatten_cons, length_append]
    exact ⟨by omega, hof⟩

theorem Hashing.Of.hashEntry (h : s.Of pieceLength content)
    (hok : hashEntry pieceLength s entry = .ok s') :
    entry.file.Whole ∧ s'.Of pieceLength (content ++ entry.file.content) := by
  unfold Create.hashEntry at hok
  split at hok
  · cases hok
  · rename_i bytes hbytes
    obtain ⟨hlen, hof⟩ := h.hashReads hpos hok
    rw [flatten_readsOf le_rfl] at hlen hof
    have hcontent : entry.file.content = bytes := by
      rw [DiskFile.content, hbytes]
      rfl
    rw [hcontent]
    refine ⟨⟨by rw [hcontent, hbytes], ?_⟩, hof⟩
    rw [hcontent, ← Nat.zero_add bytes.length]
    exact hlen

end

/-- The bytes of the files, back to back. -/
def contentOf (entries : List Entry) : List UInt8 :=
  (entries.map fun e => e.file.content).flatten

theorem Hashing.Of.foldlM (hpos : 0 < pieceLength) : ∀ (entries : List Entry) {s : Hashing}
    {content : List UInt8}, s.Of pieceLength content →
    entries.foldlM (Create.hashEntry pieceLength) s = .ok s' →
      (∀ e ∈ entries, e.file.Whole) ∧ s'.Of pieceLength (content ++ contentOf entries)
  | [], s, content, h, hok => by
    cases hok
    refine ⟨by simp, ?_⟩
    rw [contentOf, map_nil, flatten_nil, append_nil]
    exact h
  | e :: entries, s, content, h, hok => by
    rw [foldlM_cons, bind_eq_ok_iff] at hok
    obtain ⟨mid, hmid, hok⟩ := hok
    obtain ⟨hwhole, hof⟩ := h.hashEntry hpos hmid
    obtain ⟨hwholes, hlast⟩ := Hashing.Of.foldlM hpos entries hof hok
    rw [append_assoc] at hlast
    exact ⟨forall_mem_cons.2 ⟨hwhole, hwholes⟩, hlast⟩

theorem hashPieces_spec (hpos : 0 < pieceLength) {entries : List Entry} {pieces : List UInt8}
    (hok : hashPieces entries pieceLength = .ok pieces) :
    (∀ e ∈ entries, e.file.Whole) ∧
      V2.asChunks 20 pieces = (V2.chunks pieceLength (contentOf entries)).map Digests.sha1 ∧
      pieces.length % 20 = 0 := by
  rw [hashPieces, bind_eq_ok_iff] at hok
  obtain ⟨s, hs, hok⟩ := hok
  obtain ⟨hwhole, hof⟩ := Hashing.Of.foldlM hpos entries (.nil hpos) hs
  rw [nil_append] at hof
  have hpieces : pieces = (((V2.chunks pieceLength (contentOf entries)).map Digests.sha1).map
      List.Vector.toList).flatten := by
    rw [chunks_eq_wholeBlocks hpos, map_append, map_append, flatten_append, map_map]
    cases hok
    have hhasher : 0 < s.inPiece ↔ blockRest pieceLength (contentOf entries) ≠ [] := by
      rw [hof.inPiece_eq, hof.hasher_eq, length_pos_iff]
    split
    · rename_i hin
      rw [if_neg (hhasher.1 hin), hof.pieces_eq, hof.hasher_eq]
      simp [Function.comp_def]
    · rename_i hin
      rw [if_pos (not_not.1 fun hne => hin (hhasher.2 hne)), hof.pieces_eq]
      simp [Function.comp_def]
  refine ⟨hwhole, by rw [hpieces, asChunks_flatten (by decide)], ?_⟩
  rw [hpieces, length_flatten_vectors, Nat.mul_mod_left]

end

end Create

end BitTorrent
