import BitTorrent.Torrent.Tiling
import BitTorrent.V2.HashRange

/-!
# Piece layers from peers

`session/layers.rs`: a v2 torrent from a magnet link has the roots of its files and no piece
layers, and asks peers for them, range by range, with hash requests.
-/

namespace BitTorrent

open V2 List Option

/-- Why a peer was given up: the texts of `fetch_from_peer`. -/
inductive FetchError
  /-- `connecting: {}` -/
  | connecting
  /-- `a file of {} pieces is too large to fetch the layer of` -/
  | tooLarge (pieces : ℕ)
  /-- `stopped` -/
  | stopped
  /-- `sending a hash request: {}` -/
  | sending
  /-- `the peer would not send hashes` -/
  | refused
  /-- `waiting for hashes: {}` -/
  | waiting (error : WireError)
  /-- `the hashes the peer sent do not lead to the file's root` -/
  | doNotLead
deriving DecidableEq

/-- What one read of the connection gives. -/
abbrev Reading := Except WireError Message

/-- **A peer**: whether the connection comes about, whether `stop` is set
and whether a write goes through by the time that so many requests were
sent, and what reads of it give more once given requests were sent. -/
structure LayerPeer where
  connects : Bool
  stops : ℕ → Bool
  writes : ℕ → Bool
  sends : List HashRequest → List Reading

/-- A connection: the requests sent on it, and what is still unread. -/
structure Talk where
  sent : List HashRequest
  unread : List Reading

def maxPiecesPerFile : ℕ := 2 ^ 22

/-- The loop that waits for the answer to a request: other messages are
passed over. Where nothing more comes the read times out. -/
def awaitHashes (request : HashRequest) :
    List Reading → Except FetchError (List Hash32 × List Reading)
  | [] => .error (.waiting (.io .timedOut))
  | .error e :: _ => .error (.waiting e)
  | .ok (.hashes answered hashes) :: unread =>
    if answered = request then .ok (hashes, unread) else awaitHashes request unread
  | .ok (.hashReject rejected) :: unread =>
    if rejected = request then .error .refused else awaitHashes request unread
  | .ok _ :: unread => awaitHashes request unread

/-- The request for a range. -/
def rangeRequest (root : Hash32) (atLayer index perRequest proofLayers : ℕ) : HashRequest :=
  ⟨root, .ofNat atLayer, .ofNat index, .ofNat perRequest, .ofNat proofLayers⟩

section

variable [Digests] (peer : LayerPeer) (root : Hash32) (atLayer height perRequest proofLayers : ℕ)

/-- One turn of the loop over the ranges of a layer. -/
def fetchLayerRange (index : ℕ) (talk : Talk) : Except FetchError (List Hash32 × Talk) :=
  if peer.stops talk.sent.length then .error .stopped
  else if !peer.writes talk.sent.length then .error .sending
  else do
    let request := rangeRequest root atLayer index perRequest proofLayers
    let sent := talk.sent ++ [request]
    let answer ← awaitHashes request (talk.unread ++ peer.sends sent)
    if answer.1.length < perRequest ∨
        !verifyRange root atLayer height index (answer.1.take perRequest)
          (answer.1.drop perRequest) proofLayers then .error .doNotLead
    else return (answer.1.take perRequest, ⟨sent, answer.2⟩)

/-- The loop over the ranges of a layer. -/
def fetchLayerRanges : List ℕ → Talk → Except FetchError (List Hash32 × Talk)
  | [], talk => .ok ([], talk)
  | index :: indices, talk => do
    let first ← fetchLayerRange peer root atLayer height perRequest proofLayers index talk
    let others ← fetchLayerRanges indices first.2
    return (first.1 ++ others.1, others.2)

end

/-- `(0..padded).step_by(perRequest)`. -/
def stepBy (padded perRequest : ℕ) : List ℕ :=
  (List.range ((padded + perRequest - 1) / perRequest)).map (· * perRequest)

section

variable [Digests] (peer : LayerPeer)

/-- One turn of the loop over the files: the layer of one. -/
def fetchLayer (pieceLength : ℕ) (root : Hash32) (length : ℕ) (talk : Talk) :
    Except FetchError (List Hash32 × Talk) :=
  let atLayer := pieceLayer pieceLength
  let pieces := (length + pieceLength - 1) / pieceLength
  let height := fileHeight length pieceLength
  if maxPiecesPerFile < pieces then .error (.tooLarge pieces)
  else do
    let padded := 2 ^ (height - atLayer)
    let perRequest := min padded maxHashesPerRequest
    let proofLayers := height - atLayer - 1
    let layer ← fetchLayerRanges peer root atLayer height perRequest proofLayers
      (stepBy padded perRequest) talk
    return (layer.1.take pieces, layer.2)

/-- The loop over the files. What was gathered stays when it ends early. -/
def fetchFiles (pieceLength : ℕ) :
    List (Hash32 × ℕ) → Layers → Talk → Layers × Option FetchError
  | [], got, _ => (got, none)
  | (root, length) :: missing, got, talk =>
    match fetchLayer peer pieceLength root length talk with
    | .error e => (got, some e)
    | .ok layer => fetchFiles pieceLength missing (insertLayer got (root, layer.1)) layer.2

def fetchFromPeer (torrent : TorrentFile) (missing : List (Hash32 × ℕ)) :
    Layers × Option FetchError :=
  if !peer.connects then ([], some .connecting)
  else fetchFiles peer torrent.pieceLength missing [] ⟨[], peer.sends []⟩

end

def TorrentFile.missingLayers (t : TorrentFile) : List (Hash32 × ℕ) :=
  match t.v2 with
  | none => []
  | some md => (md.files.filter fun f => t.pieceLength < f.length).filterMap fun f =>
    (f.root.filter fun root => (md.layers.lookup root).isNone).map fun root => (root, f.length)

/-- The answer to a hash request in `serving.rs`: the hashes with the
uncles after them, or a refusal. What is not answered from the piece
layers is worked out from the leaves, where it is for them. -/
def V2.HashSource.reply [Digests] (source : HashSource) (leaves : HashRequest → Option HashRange)
    (r : HashRequest) : Message :=
  let answer := (source.answer r.root r.baseLayer.toNat r.index.toNat r.length.toNat
    r.proofLayers.toNat).or (if r.baseLayer = 0 then leaves r else none)
  match answer with
  | some range => .hashes r (range.hashes ++ range.uncles)
  | none => .hashReject r

section

variable {j d b length : ℕ}

theorem stepBy_pow (hb : b ≤ d) :
    stepBy (2 ^ d) (2 ^ b) = (range (2 ^ (d - b))).map (· * 2 ^ b) := by
  have hpos : 0 < 2 ^ b := Nat.pow_pos Nat.zero_lt_two
  have hceil : (2 ^ d + 2 ^ b - 1) / 2 ^ b = 2 ^ (d - b) := by
    obtain ⟨c, rfl⟩ : ∃ c, d = b + c := ⟨d - b, by omega⟩
    rw [Nat.add_sub_cancel_left, pow_add, Nat.add_sub_assoc hpos,
      Nat.mul_add_div hpos, Nat.div_eq_of_lt (by omega), Nat.add_zero]
  rw [stepBy, hceil]

/-- **A file whose layer can be fetched**: it is longer than a piece of
`2 ^ j` blocks and has no more pieces than are asked for. `d` is the
number of layers above its pieces, and `2 ^ b` hashes are asked for at a
time. -/
structure Fetchable (j d b length : ℕ) : Prop where
  shift : j < 64
  long : 2 ^ j * block < length
  few : (length + 2 ^ j * block - 1) / (2 ^ j * block) ≤ maxPiecesPerFile
  above : d = Nat.clog 2 ((length + 2 ^ j * block - 1) / (2 ^ j * block))
  width : b = min d 9

namespace Fetchable

variable (h : Fetchable j d b length)

include h

theorem one_le : 1 ≤ d := by
  have htwo : 1 < (length + 2 ^ j * block - 1) / (2 ^ j * block) := by
    rw [lt_ceil_iff (pieceLength_pos j), Nat.one_mul]
    exact h.long
  rw [h.above]
  exact Nat.clog_pos Nat.one_lt_two htwo

theorem le : d ≤ 22 := by
  rw [h.above]
  exact Nat.clog_le_of_le_pow h.few

theorem height_eq : fileHeight length (2 ^ j * block) = j + d := by
  rw [fileHeight_mul_block h.shift (h.few.trans (by decide)), ← h.above]

theorem pieces_le : (length + 2 ^ j * block - 1) / (2 ^ j * block) ≤ 2 ^ d := by
  rw [h.above]
  exact Nat.le_pow_clog Nat.one_lt_two _

theorem width_le : b ≤ d := h.width ▸ Nat.min_le_left d 9

theorem perRequest_eq : min (2 ^ d) maxHashesPerRequest = 2 ^ b := by
  rw [show maxHashesPerRequest = 2 ^ 9 from rfl, h.width]
  rcases Nat.le_total d 9 with hle | hle
  · rw [Nat.min_eq_left hle, Nat.min_eq_left (Nat.pow_le_pow_right Nat.zero_lt_two hle)]
  · rw [Nat.min_eq_right hle, Nat.min_eq_right (Nat.pow_le_pow_right Nat.zero_lt_two hle)]

theorem toNat_eq {p : ℕ} (hp : p < 2 ^ (d - b)) :
    (UInt32.ofNat j).toNat = j ∧ (UInt32.ofNat (p * 2 ^ b)).toNat = p * 2 ^ b ∧
      (UInt32.ofNat (2 ^ b)).toNat = 2 ^ b ∧ (UInt32.ofNat (d - 1)).toNat = d - 1 := by
  have hle := h.le
  have hwidth := h.width
  have hshift := h.shift
  have hindex : p * 2 ^ b < 2 ^ 22 := by
    calc p * 2 ^ b < 2 ^ (d - b) * 2 ^ b :=
          Nat.mul_lt_mul_of_pos_right hp (Nat.pow_pos Nat.zero_lt_two)
      _ = 2 ^ d := by rw [← pow_add, Nat.sub_add_cancel h.width_le]
      _ ≤ 2 ^ 22 := Nat.pow_le_pow_right Nat.zero_lt_two hle
  have hper : 2 ^ b ≤ 2 ^ 9 := Nat.pow_le_pow_right Nat.zero_lt_two (by omega)
  have hnat : ∀ n < 2 ^ 22, (UInt32.ofNat n).toNat = n := fun n hn =>
    UInt32.toNat_ofNat_of_lt (show n < 2 ^ 32 by omega)
  exact ⟨hnat _ (by omega), hnat _ hindex, hnat _ (by omega), hnat _ (by omega)⟩

end Fetchable

/-- **What a peer says besides answers**: messages that are none. -/
def Noise (r : Reading) : Prop :=
  ∃ m, r = .ok m ∧ ∀ request hashes, m ≠ .hashes request hashes ∧ m ≠ .hashReject request

theorem awaitHashes_noise (request : HashRequest) {before : List Reading}
    (hbefore : ∀ r ∈ before, Noise r) (rest : List Reading) :
    awaitHashes request (before ++ rest) = awaitHashes request rest := by
  induction before with
  | nil => rfl
  | cons r before ih =>
    rw [forall_mem_cons] at hbefore
    obtain ⟨⟨m, rfl, hm⟩, hbefore⟩ := hbefore
    rw [← ih hbefore, cons_append]
    cases m with
    | hashes answered hashes => exact absurd rfl (hm answered hashes).1
    | hashReject rejected => exact absurd rfl (hm rejected []).2
    | _ => rfl

variable {root : Hash32} {t : TorrentFile}

theorem mem_missingLayers {md : V2Meta} (hv2 : t.v2 = some md) :
    (root, length) ∈ t.missingLayers ↔ ∃ f ∈ md.files, t.pieceLength < f.length ∧
      f.root = some root ∧ md.layers.lookup root = none ∧ f.length = length := by
  simp only [TorrentFile.missingLayers, hv2, mem_filterMap, mem_filter,
    decide_eq_true_eq, map_eq_some_iff, filter_eq_some_iff, isNone_iff_eq_none,
    Prod.mk.injEq]
  constructor
  · rintro ⟨f, ⟨hf, hlong⟩, root', ⟨hroot, hnone⟩, rfl, rfl⟩
    exact ⟨f, hf, hlong, hroot, hnone, rfl⟩
  · rintro ⟨f, hf, hlong, hroot, hnone, rfl⟩
    exact ⟨f, ⟨hf, hlong⟩, root, ⟨hroot, hnone⟩, rfl, rfl⟩

theorem exists_planPieces {files : List V2File} {layers : Layers} {pieceLength : ℕ}
    (h : ∀ f ∈ files, pieceLength < f.length → ∀ root, f.root = some root →
      ∃ layer, layers.lookup root = some layer) :
    ∃ pieces, planPieces files layers pieceLength = some pieces := by
  have heach : ∀ e ∈ files.zipIdx, planFile layers pieceLength e.2 e.1 =
      some ((planFile layers pieceLength e.2 e.1).getD []) := by
    intro e he
    have hf := fst_mem_of_mem_zipIdx he
    unfold planFile
    cases hroot : e.1.root with
    | none => rfl
    | some root =>
      dsimp only
      split
      · rfl
      · rename_i hlong
        obtain ⟨layer, hlayer⟩ := h e.1 hf (not_le.1 hlong) root hroot
        rw [hlayer]
        rfl
  exact ⟨_, by rw [planPieces, mapM_eq_some_map heach]; rfl⟩

theorem exists_lookup_foldl_insertLayer (layers base : Layers)
    (h : (∃ layer, layers.lookup root = some layer) ∨ ∃ layer, base.lookup root = some layer) :
    ∃ layer, (layers.foldl insertLayer base).lookup root = some layer := by
  induction layers generalizing base with
  | nil => simpa using h
  | cons e layers ih =>
    rw [foldl_cons]
    refine ih _ ?_
    rw [lookup_insertLayer, lookup_cons] at *
    by_cases hroot : root = e.1
    · exact .inr ⟨e.2, if_pos hroot⟩
    · rw [beq_false_of_ne hroot] at h
      rwa [if_neg hroot]

variable [Digests] (f : ℕ → Hash32)

theorem rangeNodes_append (l index m n : ℕ) :
    rangeNodes f l index m ++ rangeNodes f l (index + m) n = rangeNodes f l index (m + n) := by
  simp only [rangeNodes, range_add, map_append, List.map_map]
  congr 1
  refine map_congr_left fun i _ => ?_
  rw [Function.comp_apply, Nat.add_assoc]

theorem flatten_rangeNodes (l n m : ℕ) :
    ((range m).map fun p => rangeNodes f l (p * n) n).flatten = rangeNodes f l 0 (m * n) := by
  induction m with
  | zero => simp [rangeNodes]
  | succ m ih =>
    have happend := rangeNodes_append f l 0 (m * n) n
    rw [Nat.zero_add] at happend
    rw [range_succ, map_append, flatten_append, ih, Nat.succ_mul, ← happend]
    simp

variable {content : List UInt8}

theorem Fetchable.root_eq (h : Fetchable j d b content.length) :
    fileRoot content = HashTree.node parent (leavesOf content) (j + d) 0 := by
  rw [fileRoot, ← clog_fileLayer h.long, length_fileLayer, ← h.above]

theorem Fetchable.take_whole (h : Fetchable j d b content.length) :
    (rangeNodes (leavesOf content) j 0 (2 ^ (d - b) * 2 ^ b)).take
      ((content.length + 2 ^ j * block - 1) / (2 ^ j * block)) = fileLayer content j := by
  rw [← pow_add, Nat.sub_add_cancel h.width_le, rangeNodes, ← map_take, take_range,
    Nat.min_eq_left h.pieces_le]
  simp only [Nat.zero_add]
  rfl

theorem Fetchable.fetchLayer_eq (h : Fetchable j d b length) (peer : LayerPeer) (root : Hash32)
    (talk : Talk) :
    fetchLayer peer (2 ^ j * block) root length talk = (do
      let layer ← fetchLayerRanges peer root j (j + d) (2 ^ b) (d - 1)
        ((range (2 ^ (d - b))).map (· * 2 ^ b)) talk
      return (layer.1.take ((length + 2 ^ j * block - 1) / (2 ^ j * block)), layer.2)) := by
  simp only [fetchLayer, h.height_eq, pieceLayer_mul_block h.shift, if_neg (not_lt.2 h.few),
    Nat.add_sub_cancel_left, h.perRequest_eq, stepBy_pow h.width_le]

variable {peer : LayerPeer}

theorem fetchLayerRange_of_await
    {atLayer height perRequest proofLayers index : ℕ} {talk : Talk} {hashes uncles : List Hash32}
    {rest : List Reading} (hstops : peer.stops talk.sent.length = false)
    (hwrites : peer.writes talk.sent.length = true)
    (hawait : awaitHashes (rangeRequest root atLayer index perRequest proofLayers) (talk.unread ++
      peer.sends (talk.sent ++ [rangeRequest root atLayer index perRequest proofLayers])) =
        .ok (hashes ++ uncles, rest)) (hlength : hashes.length = perRequest)
    (hverify : verifyRange root atLayer height index hashes uncles proofLayers = true) :
    fetchLayerRange peer root atLayer height perRequest proofLayers index talk = .ok (hashes,
      ⟨talk.sent ++ [rangeRequest root atLayer index perRequest proofLayers], rest⟩) := by
  simp only [fetchLayerRange, hstops, hwrites, hawait, Bool.false_eq_true, if_false, Bool.not_true,
    Except.bind, bind, take_left' hlength, drop_left' hlength, hverify,
    length_append, hlength, or_false]
  rw [if_neg (by omega)]
  rfl

/-- **An honest peer**: the connection comes about and holds, nobody stops
it, and each request is answered, with other messages around the answer. -/
structure LayerPeer.Honest (peer : LayerPeer) (reply : HashRequest → Message) : Prop where
  connects : peer.connects = true
  stops : ∀ n, peer.stops n = false
  writes : ∀ n, peer.writes n = true
  greeting : ∀ r ∈ peer.sends [], Noise r
  answers : ∀ sent request, ∃ before after, (∀ r ∈ before, Noise r) ∧ (∀ r ∈ after, Noise r) ∧
    peer.sends (sent ++ [request]) = before ++ .ok (reply request) :: after

/-- The source has the layer that `hash_file` computed of a file. -/
def V2.HashSource.Holds (source : HashSource) (root : Hash32) (content : List UInt8) : Prop :=
  ∃ firstPiece layer,
    hashFile content content.length source.pieceLength = some ⟨some root, layer⟩ ∧
      source.files.lookup root = some ⟨content.length, firstPiece, layer⟩

variable {source : HashSource}

theorem V2.HashSource.Holds.lookup
    (h : source.Holds root content) (hlen : source.pieceLength = 2 ^ j * block)
    (hlong : 2 ^ j * block < content.length) :
    root = fileRoot content ∧ ∃ firstPiece, source.files.lookup root =
      some ⟨content.length, firstPiece, fileLayer content j⟩ := by
  obtain ⟨firstPiece, layer, hhash, hlookup⟩ := h
  have hne : content ≠ [] := ne_nil_of_length_pos (by omega)
  rw [hlen, hashFile_eq hne, if_neg (not_le.2 hlong)] at hhash
  obtain ⟨rfl, rfl⟩ : fileRoot content = root ∧ fileLayer content j = layer := by
    simpa using hhash
  exact ⟨rfl, firstPiece, hlookup⟩

section

variable {p : ℕ} {leaves : HashRequest → Option HashRange} {talk : Talk}
  (hc : Fetchable j d b content.length)
  (h : source.Holds root content)
  (hlen : source.pieceLength = 2 ^ j * block)

include hc h hlen

theorem answer_range (hp : p < 2 ^ (d - b)) : source.answer root j (p * 2 ^ b) (2 ^ b) (d - 1) =
      some ⟨rangeNodes (leavesOf content) j (p * 2 ^ b) (2 ^ b),
        nodeUncles (leavesOf content) (j + b) p (d - b)⟩ := by
  have hone := hc.one_le
  have hle := hc.le
  have hwidth := hc.width
  have hlong := hc.long
  obtain ⟨-, firstPiece, hlookup⟩ := h.lookup hlen hlong
  have hpieces : (fileLayer content j).length ≤ 2 ^ (j + d - j) := by
    rw [length_fileLayer, Nat.add_sub_cancel_left]
    exact hc.pieces_le
  have hnonempty : fileLayer content j ≠ [] := by
    refine ne_nil_of_length_pos ?_
    rw [length_fileLayer, lt_ceil_iff (pieceLength_pos j)]
    omega
  have hper : ¬ maxHashesPerRequest < 2 ^ b :=
    not_lt.2 (Nat.pow_le_pow_right Nat.zero_lt_two (show b ≤ 9 by omega))
  simp only [HashSource.answer, hlookup, hlen, hc.height_eq, pieceLayer_mul_block hc.shift,
    bind_eq_bind, bind_some, if_neg hnonempty]
  rw [if_neg (by omega), if_pos trivial, hashRange_eq (isLayer_fileLayer content j) hpieces
      (by omega) (by omega) (by omega) (by rwa [Nat.add_sub_add_left]) (by omega) (by omega),
    Nat.add_sub_add_left]

omit h hlen in
theorem verifyRange_answer (hp : p < 2 ^ (d - b)) :
    verifyRange (fileRoot content) j (j + d) (p * 2 ^ b)
      (rangeNodes (leavesOf content) j (p * 2 ^ b) (2 ^ b))
      (nodeUncles (leavesOf content) (j + b) p (d - b)) (d - 1) = true := by
  have hone := hc.one_le
  have hle := hc.le
  have hwidth := hc.width
  have hsub : j + d - (j + b) = d - b := Nat.add_sub_add_left j d b
  rw [hc.root_eq, ← hsub]
  exact verifyRange_nodes (by omega) (by omega) (by omega) (by rwa [hsub]) (by omega) (by omega)

theorem reply_range (hp : p < 2 ^ (d - b)) :
    source.reply leaves (rangeRequest root j (p * 2 ^ b) (2 ^ b) (d - 1)) =
      .hashes (rangeRequest root j (p * 2 ^ b) (2 ^ b) (d - 1))
        (rangeNodes (leavesOf content) j (p * 2 ^ b) (2 ^ b) ++
          nodeUncles (leavesOf content) (j + b) p (d - b)) := by
  obtain ⟨hlayer, hindex, hlength, hproof⟩ := hc.toNat_eq hp
  simp only [HashSource.reply, rangeRequest, hlayer, hindex, hlength, hproof,
    answer_range hc h hlen hp, some_or]

section

variable (hpeer : peer.Honest (source.reply leaves))

include hpeer

theorem fetchLayerRange_honest (hp : p < 2 ^ (d - b)) (hnoise : ∀ r ∈ talk.unread, Noise r) :
    ∃ talk', fetchLayerRange peer root j (j + d) (2 ^ b) (d - 1) (p * 2 ^ b) talk =
        .ok (rangeNodes (leavesOf content) j (p * 2 ^ b) (2 ^ b), talk') ∧
      ∀ r ∈ talk'.unread, Noise r := by
  have hverify := verifyRange_answer hc hp
  rw [← (h.lookup hlen hc.long).1] at hverify
  obtain ⟨before, after, hbefore, hafter, hsends⟩ :=
    hpeer.answers talk.sent (rangeRequest root j (p * 2 ^ b) (2 ^ b) (d - 1))
  rw [reply_range hc h hlen hp] at hsends
  refine ⟨⟨talk.sent ++ [rangeRequest root j (p * 2 ^ b) (2 ^ b) (d - 1)], after⟩, ?_, hafter⟩
  refine fetchLayerRange_of_await (hpeer.stops _) (hpeer.writes _) ?_ (by simp [rangeNodes]) hverify
  rw [hsends, awaitHashes_noise _ hnoise, awaitHashes_noise _ hbefore, awaitHashes, if_pos rfl]

theorem fetchLayerRanges_honest {ps : List ℕ}
    (hps : ∀ p ∈ ps, p < 2 ^ (d - b)) (hnoise : ∀ r ∈ talk.unread, Noise r) :
    ∃ talk', fetchLayerRanges peer root j (j + d) (2 ^ b) (d - 1) (ps.map (· * 2 ^ b)) talk =
        .ok ((ps.map fun p => rangeNodes (leavesOf content) j (p * 2 ^ b) (2 ^ b)).flatten, talk') ∧
      ∀ r ∈ talk'.unread, Noise r := by
  induction ps generalizing talk with
  | nil => exact ⟨talk, rfl, hnoise⟩
  | cons p ps ih =>
    rw [forall_mem_cons] at hps
    obtain ⟨talk₁, hfirst, hnoise₁⟩ := fetchLayerRange_honest hc h hlen hpeer hps.1 hnoise
    obtain ⟨talk₂, hothers, hnoise₂⟩ := ih hps.2 hnoise₁
    refine ⟨talk₂, ?_, hnoise₂⟩
    rw [map_cons, fetchLayerRanges, hfirst]
    simp only [Except.bind, bind, hothers]
    rfl

theorem fetchLayer_honest (hnoise : ∀ r ∈ talk.unread, Noise r) :
    ∃ talk', fetchLayer peer (2 ^ j * block) root content.length talk =
        .ok (fileLayer content j, talk') ∧ ∀ r ∈ talk'.unread, Noise r := by
  obtain ⟨talk', hranges, hnoise'⟩ :=
    fetchLayerRanges_honest hc h hlen hpeer (fun p hp => mem_range.1 hp) hnoise
  refine ⟨talk', ?_, hnoise'⟩
  rw [hc.fetchLayer_eq, hranges, flatten_rangeNodes]
  exact congrArg (fun layer => Except.ok (layer, talk')) hc.take_whole

end

end

/-- The source has the layers of all that is missing. -/
def HoldsAll (source : HashSource) (j : ℕ) (missing : List (Hash32 × ℕ)) : Prop :=
  ∀ file ∈ missing, ∃ content d b, content.length = file.2 ∧ source.Holds file.1 content ∧
    Fetchable j d b content.length

theorem fetchFiles_honest {leaves : HashRequest → Option HashRange}
    (hpeer : peer.Honest (source.reply leaves))
    (hlen : source.pieceLength = 2 ^ j * block) {missing : List (Hash32 × ℕ)}
    (hmissing : HoldsAll source j missing) (got : Layers) {talk : Talk}
    (hnoise : ∀ r ∈ talk.unread, Noise r) :
    ∃ got', fetchFiles peer (2 ^ j * block) missing got talk = (got', none) ∧
      ∀ root, got'.lookup root = if root ∈ missing.map Prod.fst
        then (source.files.lookup root).map SourceFile.layer else got.lookup root := by
  induction missing generalizing got talk with
  | nil => exact ⟨got, rfl, fun root => by simp⟩
  | cons file missing ih =>
    obtain ⟨⟨content, d, b, hlength, hholds, hc⟩, hmissing⟩ := forall_mem_cons.1 hmissing
    obtain ⟨talk', hlayer, hnoise'⟩ := fetchLayer_honest hc hholds hlen hpeer hnoise
    obtain ⟨got', hfiles, hgot⟩ :=
      ih hmissing (insertLayer got (file.1, fileLayer content j)) hnoise'
    refine ⟨got', ?_, fun root => ?_⟩
    · rw [hlength] at hlayer
      rw [fetchFiles, hlayer]
      exact hfiles
    · -- the layer is the source's, whether it is fetched here or again later
      obtain ⟨-, firstPiece, hlookup⟩ := hholds.lookup hlen hc.long
      rw [hgot, lookup_insertLayer, map_cons]
      by_cases hin : root ∈ missing.map Prod.fst
      · rw [if_pos hin, if_pos (mem_cons_of_mem _ hin)]
      · rw [if_neg hin]
        by_cases hroot : root = file.1
        · rw [if_pos hroot, hroot, if_pos mem_cons_self, hlookup, map_some]
        · rw [if_neg hroot, if_neg (by simp only [mem_cons, not_or]; exact ⟨hroot, hin⟩)]

theorem exists_installLayers {md : V2Meta} (hv2 : t.v2 = some md)
    (hj : j + 14 < 63) (hlen : t.pieceLength = 2 ^ j * block)
    (hsource : source.pieceLength = 2 ^ j * block) (hmissing : HoldsAll source j t.missingLayers)
    {got : Layers} (hgot : ∀ root, got.lookup root = if root ∈ t.missingLayers.map Prod.fst
      then (source.files.lookup root).map SourceFile.layer else none) :
    ∃ t', t.installLayers got = .ok t' := by
  have hpow : 2 ^ (j + 14) = 2 ^ j * block := pow_add 2 j 14
  have hlt : 2 ^ j * block < 2 ^ 63 := hpow ▸ Nat.pow_lt_pow_right Nat.one_lt_two hj
  -- a file with no layer so far has its own now, and one that has a layer gets none
  have hown : ∀ f ∈ md.files, 2 ^ j * block < f.length → ∀ root, f.root = some root →
      md.layers.lookup root = none → ∃ content, content.length = f.length ∧
        root = fileRoot content ∧ got.lookup root = some (fileLayer content j) := by
    intro f hf hlong root hroot hnone
    have hmem : (root, f.length) ∈ t.missingLayers :=
      (mem_missingLayers hv2).2 ⟨f, hf, by rwa [hlen], hroot, hnone, rfl⟩
    obtain ⟨content, d, b, hlength, hholds, hc⟩ := hmissing _ hmem
    obtain ⟨hroot', firstPiece, hlookup⟩ := hholds.lookup hsource hc.long
    refine ⟨content, hlength, hroot', ?_⟩
    rw [hgot, if_pos (mem_map_of_mem hmem), hlookup, map_some]
  have hnot : ∀ root layer, md.layers.lookup root = some layer → got.lookup root = none := by
    intro root layer hsome
    rw [hgot, if_neg]
    rintro hmem
    obtain ⟨file, hfile, rfl⟩ := List.mem_map.1 hmem
    obtain ⟨f, -, -, -, hnone, -⟩ := (mem_missingLayers hv2).1 hfile
    rw [hnone] at hsome
    cases hsome
  have hfits : ∀ f ∈ md.files, 2 ^ j * block < f.length →
      layerFits got (2 ^ j * block) f = true := by
    intro f hf hlong
    cases hroot : f.root with
    | none => rw [layerFits, hroot]
    | some root =>
      cases hbefore : md.layers.lookup root with
      | some layer => simp only [layerFits, hroot, hnot root layer hbefore]
      | none =>
        obtain ⟨content, hlength, rfl, hlookup⟩ := hown f hf hlong root hroot hbefore
        have hfile : f = ⟨f.path, content.length, some (fileRoot content)⟩ := by
          rw [hlength, ← hroot]
        rw [hfile]
        exact layerFits_fileLayer (hlength ▸ hlong) hlookup f.path
  have hvalid : validateLayers md.files got (.ofNat (2 ^ j * block)) = .ok () := by
    rw [validateLayers, ← hpow, validPieceLength_pow (by omega) hj, hpow, toNat_toInt_ofNat hlt,
      if_neg (by decide), if_pos]
    refine List.all_eq_true.2 fun f hf => ?_
    obtain ⟨hmem, hlong⟩ := mem_filter.1 hf
    exact hfits f hmem (of_decide_eq_true hlong)
  obtain ⟨pieces, hplan⟩ : ∃ pieces,
      planPieces md.files (got.foldl insertLayer md.layers) (2 ^ j * block) = some pieces := by
    refine exists_planPieces fun f hf hlong root hroot => exists_lookup_foldl_insertLayer _ _ ?_
    cases hbefore : md.layers.lookup root with
    | some layer => exact .inr ⟨layer, rfl⟩
    | none =>
      obtain ⟨content, -, -, hlookup⟩ := hown f hf hlong root hroot hbefore
      exact .inl ⟨_, hlookup⟩
  rw [TorrentFile.installLayers, hv2]
  simp only [hlen, hvalid, hplan]
  exact ⟨_, rfl⟩

/-- **A layer comes over whole.** For every power of two of at least 16
KiB as the piece length, and files longer than a piece whose layers, as
`hash_file` computes them, a source has: every request that
`fetch_from_peer` makes is answered by the source, and the answer passes
`verify_range`; from an honest peer with that source the layers that are
gathered are those that `hash_file` computes; and `install_layers`
accepts them, if they are all that the torrent lacks. Of a file of more
than `2 ^ 22` pieces nothing is asked for. -/
theorem fetchFromPeer_complete {k : ℕ} (hk : 14 ≤ k) (hk' : k < 63) {source : HashSource}
    (hsource : source.pieceLength = 2 ^ k) {leaves : HashRequest → Option HashRange}
    {peer : LayerPeer} (hpeer : peer.Honest (source.reply leaves)) {t : TorrentFile}
    (hlen : t.pieceLength = 2 ^ k) {missing : List (Hash32 × ℕ)}
    (hmissing : ∀ file ∈ missing, ∃ content : List UInt8, content.length = file.2 ∧
      2 ^ k < content.length ∧ (content.length + 2 ^ k - 1) / 2 ^ k ≤ maxPiecesPerFile ∧
        source.Holds file.1 content) :
    (∀ file ∈ missing, ∀ atLayer height perRequest, atLayer = pieceLayer (2 ^ k) →
      height = fileHeight file.2 (2 ^ k) →
      perRequest = min (2 ^ (height - atLayer)) maxHashesPerRequest →
      ∀ index ∈ stepBy (2 ^ (height - atLayer)) perRequest, ∃ range,
        source.answer file.1 atLayer index perRequest (height - atLayer - 1) = some range ∧
        range.hashes.length = perRequest ∧
        verifyRange file.1 atLayer height index range.hashes range.uncles
          (height - atLayer - 1) = true) ∧
      ∃ got, fetchFromPeer peer t missing = (got, none) ∧
        (∀ file ∈ missing, ∀ content : List UInt8, content.length = file.2 →
          source.Holds file.1 content → got.lookup file.1 =
            (hashFile content content.length (2 ^ k)).map FileHashes.layer) ∧
        (missing = t.missingLayers → t.v2 ≠ none → ∃ t', t.installLayers got = .ok t') := by
  rw [two_pow_eq_mul_block hk] at hsource hlen hmissing ⊢
  have hfetch : ∀ {content : List UInt8}, 2 ^ (k - 14) * block < content.length →
      (content.length + 2 ^ (k - 14) * block - 1) / (2 ^ (k - 14) * block) ≤ maxPiecesPerFile →
      Fetchable (k - 14) _ _ content.length :=
    fun hlong hfew => ⟨by omega, hlong, hfew, rfl, rfl⟩
  have hholds : HoldsAll source (k - 14) missing := by
    intro file hfile
    obtain ⟨content, hlength, hlong, hfew, hholds⟩ := hmissing file hfile
    exact ⟨content, _, _, hlength, hholds, hfetch hlong hfew⟩
  refine ⟨fun file hfile atLayer height perRequest hat hheight hper index hindex => ?_, ?_⟩
  · obtain ⟨content, hlength, hlong, hfew, hholds⟩ := hmissing file hfile
    have hc := hfetch hlong hfew
    rw [← hlength, hc.height_eq] at hheight
    rw [pieceLayer_mul_block hc.shift] at hat
    rw [hat, hheight, Nat.add_sub_cancel_left] at hindex hper ⊢
    rw [hc.perRequest_eq] at hper
    rw [hper, stepBy_pow hc.width_le] at hindex
    obtain ⟨p, hp, rfl⟩ := List.mem_map.1 hindex
    rw [mem_range] at hp
    have hroot := (hholds.lookup hsource hlong).1
    rw [hroot] at hholds ⊢
    rw [hper]
    exact ⟨_, answer_range hc hholds hsource hp, by simp [rangeNodes], verifyRange_answer hc hp⟩
  · have hgreeting : ∀ r ∈ (⟨[], peer.sends []⟩ : Talk).unread, Noise r := hpeer.greeting
    obtain ⟨got, hgot, hlookup⟩ := fetchFiles_honest hpeer hsource hholds [] hgreeting
    refine ⟨got, ?_, fun file hfile content hlength hholds => ?_, fun hall hv2 => ?_⟩
    · rw [fetchFromPeer, hpeer.connects, hlen]
      exact hgot
    · obtain ⟨firstPiece, layer, hhash, hsourceLookup⟩ := hholds
      rw [hsource] at hhash
      rw [hlookup, if_pos (List.mem_map_of_mem hfile), hsourceLookup, hhash]
      rfl
    · obtain ⟨md, hmd⟩ := ne_none_iff_exists'.1 hv2
      rw [hall] at hholds hlookup
      exact exists_installLayers hmd (by omega) hlen hsource hholds hlookup

end

/-- A peer that says nothing but its answers. -/
def answeringPeer (reply : HashRequest → Message) : LayerPeer where
  connects := true
  stops _ := false
  writes _ := true
  sends sent := (sent.getLast?.map fun request => Except.ok (reply request)).toList

theorem answeringPeer_honest (reply : HashRequest → Message) :
    (answeringPeer reply).Honest reply where
  connects := rfl
  stops _ := rfl
  writes _ := rfl
  greeting := by simp [answeringPeer]
  answers sent request := ⟨[], [], by simp, by simp, by simp [answeringPeer]⟩

/-- A torrent of one file, of which it has no layer. -/
def layerless (length : ℕ) (root : Hash32) : TorrentFile where
  announce := none
  announceList := []
  info := .dict []
  infoHash := .replicate 20 0
  pieceLength := 2 ^ 14
  pieces := []
  name := []
  files := [([], length)]
  padding := [false]
  multiFile := false
  urlList := []
  priv := false
  v2 := some ⟨[⟨[], length, some root⟩], [], zeroHash⟩
  v2Pieces := []

/-- A source of that file. -/
def sourceOf (length : ℕ) (hashes : FileHashes) : HashSource :=
  ⟨2 ^ 14, hashes.root.toList.map fun root => (root, ⟨length, 0, hashes.layer⟩)⟩

theorem fetchFromPeer_complete_sample :
    let _ := leadingBytes
    ∃ hashes root, hashFile (List.replicate 16385 7) 16385 (2 ^ 14) = some hashes ∧
      hashes.root = some root ∧
      ∃ got, fetchFromPeer (answeringPeer ((sourceOf 16385 hashes).reply fun _ => none))
          (layerless 16385 root) [(root, 16385)] = (got, none) ∧
        got.lookup root = some hashes.layer ∧
        ∃ t', (layerless 16385 root).installLayers got = .ok t' := by
  let _ := leadingBytes
  have hlength : (List.replicate 16385 (7 : UInt8)).length = 16385 := length_replicate
  generalize List.replicate 16385 (7 : UInt8) = content at hlength ⊢
  have hne : content ≠ [] := ne_nil_of_length_pos (by omega)
  have hhash := hashFile_pow hne (show 14 ≤ 14 by decide)
  rw [hlength] at hhash
  refine ⟨_, _, hhash, rfl, ?_⟩
  generalize (if 16385 ≤ 2 ^ 14 then [] else fileLayer content (14 - 14)) = layer at hhash ⊢
  have hholds : (sourceOf 16385 ⟨some (fileRoot content), layer⟩).Holds
      (fileRoot content) content := ⟨0, layer, by rw [hlength]; exact hhash, by
    simp [sourceOf, hlength]⟩
  have hmissing : ∀ file ∈ [(fileRoot content, 16385)], ∃ bytes : List UInt8,
      bytes.length = file.2 ∧ 2 ^ 14 < bytes.length ∧
        (bytes.length + 2 ^ 14 - 1) / 2 ^ 14 ≤ maxPiecesPerFile ∧
          (sourceOf 16385 ⟨some (fileRoot content), layer⟩).Holds file.1 bytes :=
    forall_mem_singleton.2 ⟨content, hlength, by rw [hlength]; decide,
      by rw [hlength]; decide, hholds⟩
  obtain ⟨-, got, hgot, hlayer, hinstall⟩ := fetchFromPeer_complete (show 14 ≤ 14 by decide)
    (by decide) rfl
    (answeringPeer_honest ((sourceOf 16385 ⟨some (fileRoot content), layer⟩).reply fun _ => none))
    (show (layerless 16385 (fileRoot content)).pieceLength = 2 ^ 14 from rfl) hmissing
  refine ⟨got, hgot, ?_, hinstall rfl (by simp [layerless])⟩
  have hown := hlayer _ mem_cons_self content hlength hholds
  rwa [hlength, hhash] at hown

theorem fetchFromPeer_tooLarge :
    let _ := leadingBytes
    ∃ hashes root, hashFile (List.replicate ((2 ^ 22 + 1) * 2 ^ 14) 7)
        ((2 ^ 22 + 1) * 2 ^ 14) (2 ^ 14) = some hashes ∧ hashes.root = some root ∧
      fetchFromPeer
        (answeringPeer ((sourceOf ((2 ^ 22 + 1) * 2 ^ 14) hashes).reply fun _ => none))
        (layerless ((2 ^ 22 + 1) * 2 ^ 14) root) [(root, (2 ^ 22 + 1) * 2 ^ 14)] =
          ([], some (.tooLarge (2 ^ 22 + 1))) := by
  let _ := leadingBytes
  have hlength : (List.replicate ((2 ^ 22 + 1) * 2 ^ 14) (7 : UInt8)).length =
      (2 ^ 22 + 1) * 2 ^ 14 := length_replicate
  have hne : List.replicate ((2 ^ 22 + 1) * 2 ^ 14) (7 : UInt8) ≠ [] :=
    ne_nil_of_length_pos (by rw [hlength]; decide)
  have hhash := hashFile_pow hne (show 14 ≤ 14 by decide)
  rw [hlength] at hhash
  refine ⟨_, _, hhash, rfl, ?_⟩
  have hpieces : ((2 ^ 22 + 1) * 2 ^ 14 + 2 ^ 14 - 1) / 2 ^ 14 = 2 ^ 22 + 1 := by decide
  have hmany : maxPiecesPerFile < 2 ^ 22 + 1 := Nat.lt_succ_self _
  simp only [fetchFromPeer, answeringPeer, layerless, fetchFiles, fetchLayer, hpieces,
    if_pos hmany, Bool.not_true, Bool.false_eq_true, if_false]

end BitTorrent
