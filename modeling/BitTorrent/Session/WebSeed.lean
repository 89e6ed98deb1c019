import BitTorrent.Torrent.Pieces

/-!
# Web seeds

`webseed.rs`: where a web seed has each file of a torrent, the ranges to ask it for, and what is
made of its answers.
-/

namespace BitTorrent

open List

structure FileTarget where
  url : List UInt8
  start : ℕ
  stop : ℕ
  padding : Bool
deriving DecidableEq

/-- A byte that stands for itself in a URL. -/
def isUnreserved (b : UInt8) : Bool :=
  (65 ≤ b && b ≤ 90) || (97 ≤ b && b ≤ 122) || (48 ≤ b && b ≤ 57) || [45, 95, 46, 126].contains b

/-- An upper-case hexadecimal digit. -/
def hexDigit (n : UInt8) : UInt8 := if n < 10 then 48 + n else 55 + n

def encodeSegment (seg : List UInt8) : List UInt8 :=
  seg.flatMap fun b => if isUnreserved b then [b] else [37, hexDigit (b / 16), hexDigit (b % 16)]

/-- The URL of a file. -/
def fileUrl (baseUrl name : List UInt8) (parts : List Name) (multi : Bool) : List UInt8 :=
  if multi then
    baseUrl ++ (if baseUrl.getLast? = some 47 then [] else [47]) ++ encodeSegment name ++
      parts.flatMap fun seg => 47 :: encodeSegment seg
  else if baseUrl.getLast? = some 47 then baseUrl ++ encodeSegment name
  else baseUrl

/-- The loop of `build_targets`, from the cursor on. -/
def layTargets (baseUrl name : List UInt8) (multi : Bool) :
    ℕ → List (List Name × ℕ) → List FileTarget
  | _, [] => []
  | cursor, (parts, length) :: files =>
    ⟨fileUrl baseUrl name parts multi, cursor, cursor + length, false⟩ ::
      layTargets baseUrl name multi (cursor + length) files

def buildTargets (baseUrl name : List UInt8) (files : List (List Name × ℕ)) (multi : Bool) :
    List FileTarget :=
  layTargets baseUrl name multi 0 files

/-- The targets of padding files are marked, as the spans are. -/
def markPadding : List FileTarget → List FileSpan → List FileTarget
  | target :: targets, span :: spans =>
    { target with padding := span.padding } :: markPadding targets spans
  | targets, _ => targets

/-- What to ask for: a URL, an offset in the file and a length. -/
abbrev RangeRequest := List UInt8 × ℕ × ℕ

/-- The part of a file that lies between `ps` and `pe`, if there is one. -/
def targetRequest (ps pe : ℕ) (t : FileTarget) : Option RangeRequest :=
  let segStart := max ps t.start
  let segEnd := min pe t.stop
  if segEnd ≤ segStart then none
  else some (if t.padding then [] else t.url, segStart - t.start, segEnd - segStart)

def pieceRequests (targets : List FileTarget) (pieceIndex : UInt32) (pieceLength totalLength : ℕ) :
    List RangeRequest :=
  let ps := pieceIndex.toNat * pieceLength
  let pe := min (ps + pieceLength) totalLength
  let first := partitionPoint (fun t => decide (t.stop ≤ ps)) targets
  ((targets.drop first).takeWhile fun t => decide (t.start < pe)).filterMap (targetRequest ps pe)

def v2PieceRequests (targets : List FileTarget) (pieces : List V2.V2Piece) (pieceIndex : UInt32) :
    List RangeRequest :=
  match pieces[pieceIndex.toNat]? with
  | none => []
  | some piece =>
    match targets[piece.file]? with
    | some target => [(target.url, piece.offset, piece.length.toNat)]
    | none => []

/-- An answer of a mirror: the status and the body. -/
structure Reply where
  status : ℕ
  body : List UInt8

/-- **A mirror**: what it answers to a request, if it answers. -/
abbrev Mirror := RangeRequest → Option Reply

/-- What `fetch_piece` takes of an answer. -/
def takeReply (targets : List FileTarget) (req : RangeRequest) (reply : Reply) :
    Option (List UInt8) :=
  let (url, offset, len) := req
  let buf := reply.body.take len
  if reply.status = 206 then if buf.length ≠ len then none else some buf
  else if reply.status = 200 then
    -- the whole file was sent, which will do if it was the whole file we asked for
    let wholeFile := offset = 0 ∧
      len = ((targets.find? fun t => t.url == url).map fun t => t.stop - t.start).getD len
    if ¬ wholeFile then none else if buf.length ≠ len then none else some buf
  else none

/-- One turn of `fetch_piece`: there is nothing to ask a mirror for where
there is padding. -/
def fetchRange (mirror : Mirror) (targets : List FileTarget) (req : RangeRequest) :
    Option (List UInt8) :=
  if req.1 = [] then some (List.replicate req.2.2 0)
  else (mirror req).bind (takeReply targets req)

def fetchPiece (mirror : Mirror) (targets : List FileTarget) :
    List RangeRequest → Option (List UInt8)
  | [] => some []
  | req :: reqs => do
    let chunk ← fetchRange mirror targets req
    let rest ← fetchPiece mirror targets reqs
    return chunk ++ rest

/-- **What `run_web_worker` fetches for a piece** of a torrent. -/
def webFetch (t : TorrentFile) (spans : List FileSpan) (baseUrl : List UInt8) (mirror : Mirror)
    (pieceIndex : UInt32) : Option (List UInt8) :=
  let targets := markPadding (buildTargets baseUrl t.name t.files t.multiFile) spans
  fetchPiece mirror targets
    (if t.isV2Only then v2PieceRequests targets t.v2Pieces pieceIndex
    else pieceRequests targets pieceIndex t.pieceLength t.totalLength)

variable {targets : List FileTarget}

theorem length_takeReply {req : RangeRequest} {reply : Reply}
    {buf : List UInt8} (h : takeReply targets req reply = some buf) : buf.length = req.2.2 := by
  unfold takeReply at h
  dsimp only at h
  split at h
  · split at h
    · cases h
    · rename_i hlen
      cases h
      exact not_not.1 hlen
  · split at h
    · split at h
      · cases h
      · split at h
        · cases h
        · rename_i hlen
          cases h
          exact not_not.1 hlen
    · cases h

variable {data : List UInt8} {mirror : Mirror}

theorem length_fetchPiece {reqs : List RangeRequest}
    (h : fetchPiece mirror targets reqs = some data) :
    data.length = (reqs.map fun r => r.2.2).sum := by
  induction reqs generalizing data with
  | nil =>
    cases h
    rfl
  | cons req reqs ih =>
    simp only [fetchPiece, Option.bind_eq_bind, Option.bind_eq_some_iff, Option.pure_def,
      Option.some.injEq] at h
    obtain ⟨chunk, hchunk, rest, hrest, rfl⟩ := h
    have hlen : chunk.length = req.2.2 := by
      unfold fetchRange at hchunk
      split at hchunk
      · cases hchunk
        exact length_replicate
      · obtain ⟨reply, -, hreply⟩ := Option.bind_eq_some_iff.1 hchunk
        exact length_takeReply hreply
    rw [length_append, hlen, ih hrest, map_cons, sum_cons]

/-- How much of a range a file takes up. -/
def overlap (ps pe : ℕ) (t : FileTarget) : ℕ := min pe t.stop - max ps t.start

theorem sum_targetRequest (ps pe : ℕ) (targets : List FileTarget) :
    ((targets.filterMap (targetRequest ps pe)).map fun r => r.2.2).sum =
      (targets.map (overlap ps pe)).sum := by
  induction targets with
  | nil => rfl
  | cons t targets ih =>
    rw [filterMap_cons, map_cons, sum_cons, ← ih]
    unfold targetRequest overlap
    dsimp only
    split
    · rename_i h
      split at h
      · omega
      · cases h
    · rename_i r h
      split at h
      · cases h
      · cases h
        rfl

variable (baseUrl name : List UInt8) {ps pe : ℕ} (multi : Bool)

theorem sum_overlap_layTargets
    (hps : ps ≤ pe) (files : List (List Name × ℕ)) : ∀ cursor,
      ((layTargets baseUrl name multi cursor files).map (overlap ps pe)).sum =
        min pe (cursor + (files.map Prod.snd).sum) - max ps cursor := by
  induction files with
  | nil =>
    intro cursor
    simp only [layTargets, map_nil, sum_nil]
    omega
  | cons f files ih =>
    intro cursor
    simp only [layTargets, map_cons, sum_cons, ih, overlap]
    omega

theorem sum_drop_takeWhile {α : Type} {p : α → Bool} {f : α → ℕ} (h : ∀ x, p x = true → f x = 0)
    (l : List α) : ((l.drop (l.takeWhile p).length).map f).sum = (l.map f).sum := by
  induction l with
  | nil => rfl
  | cons x l ih =>
    cases hp : p x with
    | true =>
      rw [takeWhile_cons_of_pos hp, length_cons, drop_succ_cons, ih, map_cons,
        sum_cons, h x hp, Nat.zero_add]
    | false => rw [takeWhile_cons_of_neg (by simp [hp]), length_nil, drop_zero]

theorem sum_takeWhile_start (h : (targets.map FileTarget.start).Pairwise (· ≤ ·)) :
    ((targets.takeWhile fun t => decide (t.start < pe)).map (overlap ps pe)).sum =
      (targets.map (overlap ps pe)).sum := by
  induction targets with
  | nil => rfl
  | cons t targets ih =>
    rw [map_cons, pairwise_cons] at h
    by_cases ht : t.start < pe
    · rw [takeWhile_cons_of_pos (by simpa using ht), map_cons, sum_cons, ih h.2,
        map_cons, sum_cons]
    · rw [takeWhile_cons_of_neg (by simpa using ht), map_nil, sum_nil, eq_comm,
        List.sum_eq_zero_iff_forall_eq_nat]
      intro n hn
      obtain ⟨t', ht', rfl⟩ := mem_map.1 hn
      have hle : t.start ≤ t'.start := by
        rcases mem_cons.1 ht' with rfl | ht'
        · exact le_rfl
        · exact h.1 _ (mem_map_of_mem ht')
      unfold overlap
      omega

variable (files : List (List Name × ℕ))

theorem start_layTargets :
    ∀ cursor, ((layTargets baseUrl name multi cursor files).map FileTarget.start).Pairwise (· ≤ ·) ∧
      ∀ n ∈ (layTargets baseUrl name multi cursor files).map FileTarget.start, cursor ≤ n := by
  induction files with
  | nil => exact fun cursor => ⟨List.Pairwise.nil, by simp [layTargets]⟩
  | cons f files ih =>
    intro cursor
    obtain ⟨hpair, hle⟩ := ih (cursor + f.2)
    simp only [layTargets, map_cons]
    refine ⟨pairwise_cons.2 ⟨fun n hn => ?_, hpair⟩, ?_⟩
    · have := hle n hn
      omega
    · intro n hn
      rcases mem_cons.1 hn with rfl | hn
      · exact le_rfl
      · have := hle n hn
        omega

theorem length_layTargets :
    ∀ cursor, (layTargets baseUrl name multi cursor files).length = files.length := by
  induction files with
  | nil => exact fun _ => rfl
  | cons f files ih =>
    intro cursor
    rw [layTargets, length_cons, ih, length_cons]

theorem map_markPadding {α : Type} {f : FileTarget → α}
    (hf : ∀ t padding, f { t with padding := padding } = f t) (targets : List FileTarget)
    (spans : List FileSpan) : (markPadding targets spans).map f = targets.map f := by
  induction targets generalizing spans with
  | nil => rfl
  | cons t targets ih =>
    cases spans with
    | nil => rfl
    | cons s spans => rw [markPadding, map_cons, map_cons, ih, hf]

theorem length_webFetch {t : TorrentFile} (hs : t.Sized) {spans : List FileSpan}
    {baseUrl : List UInt8} {index : UInt32} (hi : index.toNat < t.pieces.length)
    (h : webFetch t spans baseUrl mirror index = some data) :
    data.length = t.pieceLen index.toNat := by
  unfold webFetch at h
  dsimp only at h
  rw [length_fetchPiece h]
  cases hv2 : t.isV2Only with
  | true =>
    obtain ⟨hcount, hspec⟩ := hs.v2 hv2
    have hi' : index.toNat < t.v2Pieces.length := hcount ▸ hi
    have hfile := (hspec _ (getElem_mem hi')).1
    -- there is a target for the file, as there is one for each
    have hlen : ∀ targets : List FileTarget, targets.length = t.files.length →
        ((v2PieceRequests targets t.v2Pieces index).map fun r => r.2.2).sum =
          (t.v2Pieces[index.toNat]).length.toNat := by
      intro targets htargets
      rw [v2PieceRequests, getElem?_eq_getElem hi']
      dsimp only
      rw [getElem?_eq_getElem (by omega)]
      simp
    rw [if_pos rfl, hlen]
    · unfold TorrentFile.pieceLen
      rw [if_pos (ne_nil_of_length_pos (by omega)), getElem?_eq_getElem hi']
      rfl
    · have hmap := congrArg length (map_markPadding (f := fun _ => ())
        (fun _ _ => rfl) (buildTargets baseUrl t.name t.files t.multiFile) spans)
      rw [length_map, length_map] at hmap
      rw [hmap]
      exact length_layTargets baseUrl t.name t.multiFile t.files 0
  | false =>
    obtain ⟨hlt, hpiece⟩ := hs.pieceLen_v1 hv2 hi
    rw [if_neg (by simp), pieceRequests]
    set ps := index.toNat * t.pieceLength
    set pe := min (ps + t.pieceLength) t.totalLength
    have hpe : ps ≤ pe := by omega
    set targets := markPadding (buildTargets baseUrl t.name t.files t.multiFile) spans
    have hstart : (targets.map FileTarget.start).Pairwise (· ≤ ·) := by
      rw [map_markPadding fun _ _ => rfl]
      exact (start_layTargets baseUrl t.name t.multiFile t.files 0).1
    rw [sum_targetRequest, sum_takeWhile_start, partitionPoint, sum_drop_takeWhile,
      map_markPadding fun _ _ => rfl, buildTargets, sum_overlap_layTargets _ _ _ hpe, hpiece]
    · have : (t.files.map Prod.snd).sum = t.totalLength := rfl
      omega
    · intro t' ht'
      have : t'.stop ≤ ps := by simpa using ht'
      unfold overlap
      omega
    · exact hstart.sublist ((drop_sublist _ _).map _)

end BitTorrent
