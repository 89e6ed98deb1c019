import BitTorrent.Piece.Assembly
import BitTorrent.Session.Download
import BitTorrent.Torrent.Paths

/-!
# What the have-map says is on disk

A piece is checked in memory, written over many steps that others come in between, marked, sent
and only then entered in the have-map.
-/

namespace BitTorrent

open List PieceAssembler

/-- **Zeros on padding**: bytes at an offset of the torrent, where they
lie in padding. -/
def ZeroPadded (spans : List FileSpan) (off : ℕ) (data : List UInt8) : Prop :=
  ∀ i < data.length, padded spans (off + i) = true → data[i]? = some 0

/-- **No collision**: no two different contents were checked against one
hash with success. -/
def NoCollision (es : List SessionEvent) : Prop :=
  ∀ e ∈ es, ∀ e' ∈ es, ∀ i d d', e.verified = some (i, d) → e'.verified = some (i, d') → d = d'

theorem NoCollision.exists_content {es : List SessionEvent} (h : NoCollision es) :
    ∃ content : UInt32 → List UInt8, ∀ e ∈ es, ∀ i d, e.verified = some (i, d) → d = content i := by
  classical
  refine ⟨fun i => if hd : ∃ d, ∃ e ∈ es, e.verified = some (i, d) then hd.choose else [], ?_⟩
  intro e he i d hv
  have hex : ∃ d, ∃ e ∈ es, e.verified = some (i, d) := ⟨d, e, he, hv⟩
  dsimp only
  rw [dif_pos hex]
  obtain ⟨e', he', hv'⟩ := hex.choose_spec
  exact h e he e' he' i d _ hv hv'

variable {spans : List FileSpan} {fs fs' : FileSystem} {off n : ℕ}

theorem ZeroPadded.drop_take {done remaining : List UInt8}
    (h : ZeroPadded spans off (done ++ remaining)) (k : ℕ) :
    ZeroPadded spans (off + done.length) (remaining.take k) := by
  intro p hp hpad
  rw [length_take] at hp
  have := h (done.length + p) (by rw [length_append]; omega) (by rwa [← Nat.add_assoc])
  rwa [getElem?_append_right (by omega), Nat.add_sub_cancel_left,
    ← getElem?_take_of_lt (show p < k by omega)] at this

variable {chunk : List UInt8}

theorem shows_of_writeChunk (h : Laid spans) (hd : DistinctPaths spans)
    (hne : chunk ≠ []) (hzero : ZeroPadded spans off chunk)
    (hw : writeChunk spans off chunk fs = (fs', .ok n)) :
    0 < n ∧ n ≤ chunk.length ∧ Shows spans fs' off (chunk.take n) ∧
      ∀ g b, g < off ∨ off + n ≤ g → view spans fs g = some b → view spans fs' g = some b := by
  rcases writeChunk_spec h hne hw with ⟨e, he, -⟩ | ⟨m, hm, hpos, hle, hkept, hwrote⟩
  · cases he
  obtain rfl : n = m := by simpa using hm
  refine ⟨hpos, hle, fun i hi => ?_, fun g b hg hv => hkept.view_eq h hd hg hv⟩
  cases hpad : padded spans (off + i) with
  | false => exact hwrote i hi hpad
  | true =>
    have hin : i < n ∧ i < chunk.length := by simpa using hi
    obtain ⟨s, hs, hp⟩ := Option.any_eq_true _ _ |>.1 hpad
    rw [getElem?_take, if_pos hin.1, hzero i hin.2 hpad]
    simp [view, hs, hp]

theorem view_of_writeChunk_error (h : Laid spans) {e : IoError}
    (hne : chunk ≠ []) (hw : writeChunk spans off chunk fs = (fs', .error e)) (g : ℕ) :
    view spans fs' g = view spans fs g := by
  rcases writeChunk_spec h hne hw with ⟨e, -, hsame⟩ | ⟨m, hm, -⟩
  · unfold view byteAt
    simp only [hsame]
  · cases hm

theorem piece_ranges (len : ℕ) {i j g : ℕ} (hij : i ≠ j) (hi : i * len ≤ g)
    (hi' : g < i * len + len) :
    g < j * len ∨ j * len + len ≤ g := by
  rcases Nat.lt_or_gt_of_ne hij with h | h
  all_goals
    have := Nat.mul_le_mul_right len h
    rw [Nat.succ_mul] at this
    omega

theorem Shows.of_piece_write (h : Laid spans) (hd : DistinctPaths spans) {i j len k : ℕ}
    {done remaining bytes : List UInt8} (hlen : (done ++ remaining).length ≤ len)
    (hzero : ZeroPadded spans (j * len) (done ++ remaining)) (hne : remaining.take k ≠ [])
    (hw : writeChunk spans (j * len + done.length) (remaining.take k) fs = (fs', .ok n))
    (hbytes : bytes.length ≤ len) (hsame : i = j → bytes <+: done ++ remaining)
    (hshow : Shows spans fs (i * len) bytes) : Shows spans fs' (i * len) bytes := by
  obtain ⟨-, hn, hnew, hold⟩ := shows_of_writeChunk h hd hne (hzero.drop_take k) hw
  rw [length_take] at hn
  rw [length_append] at hlen
  intro p hp
  have hview := hshow p hp
  rw [getElem?_eq_getElem hp] at hview ⊢
  by_cases hin : j * len + done.length ≤ i * len + p ∧ i * len + p < j * len + done.length + n
  · -- within what is written, so of the same piece
    obtain rfl : i = j := by
      by_contra hij
      rcases piece_ranges len hij (Nat.le_add_right _ p) (by omega) with h' | h' <;> omega
    obtain ⟨rest, hrest⟩ := hsame rfl
    have := hnew (p - done.length) (by simp only [length_take]; omega)
    rw [show i * len + done.length + (p - done.length) = i * len + p by omega] at this
    rw [this, getElem?_take_of_lt (by omega), getElem?_take_of_lt (by omega),
      ← getElem?_append_right (by omega), ← hrest, getElem?_append_left hp,
      getElem?_eq_getElem hp]
  · exact hold _ _ (by omega) hview

section

variable [Digests] (t : TorrentFile) (spans : List FileSpan) (pieces : List PieceWork)
  (content : UInt32 → List UInt8)

/-- **A piece is on disk**: the flat array shows bytes that match its
hash, and if the piece is one to be fetched, they are its content. -/
def OnDisk (fs : FileSystem) (i : UInt32) : Prop :=
  i.toNat < t.pieces.length ∧ ∃ bytes, Shows spans fs (i.toNat * t.pieceLength) bytes ∧
    bytes.length = t.pieceLen i.toNat ∧
    t.pieceMatches i.toNat bytes = true ∧ (i ∈ pieces.map PieceWork.index → bytes = content i)

/-- **The content of a piece is as it should be.** -/
structure Checked (i : UInt32) : Prop where
  length : (content i).length = t.pieceLen i.toNat
  hash : t.pieceMatches i.toNat (content i) = true
  zeros : ZeroPadded spans (i.toNat * t.pieceLength) (content i)

/-- What holds of a piece in hand. While it is written, a front part of
its content is on disk. -/
def Job.Ok (fs : FileSystem) : Job → Prop
  | .taken work => work ∈ pieces
  | .assembling a => a.Valid ∧ a.work ∈ pieces
  | .writing work offset remaining =>
    work ∈ pieces ∧ Checked t spans content work.index ∧
      ∃ done, content work.index = done ++ remaining ∧
        offset = work.index.toNat * t.pieceLength + done.length ∧
        Shows spans fs (work.index.toNat * t.pieceLength) done
  | .marked index => OnDisk t spans pieces content fs index

/-- **The invariant.** -/
structure Session.Inv (s : Session) : Prop where
  pool : s.pool.Inv pieces
  jobs : ∀ j job, s.jobs j = some job → job.Ok t spans pieces content s.fs
  results : ∀ i ∈ s.results, OnDisk t spans pieces content s.fs i
  haves : ∀ i, s.haveMap.get i = true → OnDisk t spans pieces content s.fs i

end

/-- **What a run rests on**: the sizes of the torrent, and a table that
names no file twice. -/
structure Setting (t : TorrentFile) (spans : List FileSpan) (pieces : List PieceWork) : Prop where
  sized : t.Sized
  count : t.pieces.length ≤ 2 ^ 32
  laid : Laid spans
  distinct : DistinctPaths spans
  work : ∀ w ∈ pieces, w ∈ t.buildWorkQueue

/-- **A disk keeps what is on another**: bytes of a piece that are not to
be fetched, and a front part of the content of one that is. -/
def Keeps (t : TorrentFile) (spans : List FileSpan) (pieces : List PieceWork)
    (content : UInt32 → List UInt8) (fs fs' : FileSystem) : Prop :=
  ∀ (i : UInt32) bytes, bytes.length ≤ t.pieceLength →
    (i ∈ pieces.map PieceWork.index → bytes <+: content i) →
    Shows spans fs (i.toNat * t.pieceLength) bytes →
    Shows spans fs' (i.toNat * t.pieceLength) bytes

section

variable {t : TorrentFile} {pieces : List PieceWork} {content : UInt32 → List UInt8}

theorem keeps_of_view (hv : ∀ g, view spans fs' g = view spans fs g) :
    Keeps t spans pieces content fs fs' := by
  intro i bytes _ _ hshow p hp
  rw [hv, hshow p hp]

variable [Digests] {w : PieceWork}

theorem Setting.pieceLen_le (hset : Setting t spans pieces) (hw : w ∈ pieces) :
    t.pieceLen w.index.toNat ≤ t.pieceLength :=
  hset.sized.pieceLen_le (hset.sized.work hset.count (hset.work w hw)).1

variable {s s' : Session} {e : SessionEvent}

theorem Session.Inv.setJob (h : s.Inv t spans pieces content) {j : ℕ} {job : Option Job}
    (hjob : ∀ b, job = some b → b.Ok t spans pieces content s.fs) :
    (s.setJob j job).Inv t spans pieces content := by
  refine ⟨h.pool, fun j' b hb => ?_, h.results, h.haves⟩
  by_cases hj : j' = j
  · subst hj
    simp only [Session.setJob, Function.update_self] at hb
    exact hjob b hb
  · simp only [Session.setJob, Function.update_of_ne hj] at hb
    exact h.jobs j' b hb

theorem Session.Inv.setPool (h : s.Inv t spans pieces content) {c : QueueCall ℕ} {pool : Workers ℕ}
    (hcall : (workers ℕ).step s.pool c pool) : { s with pool := pool }.Inv t spans pieces content :=
  ⟨Workers.inv_step h.pool hcall, h.jobs, h.results, h.haves⟩

section

variable (hset : Setting t spans pieces)

include hset

variable {remaining : List UInt8}

theorem keeps_of_writes {k : ℕ}
    (hok : (Job.writing w off remaining).Ok t spans pieces content fs) (hne : remaining.take k ≠ [])
    (hw : writeChunk spans off (remaining.take k) fs = (fs', .ok n)) :
    Keeps t spans pieces content fs fs' := by
  obtain ⟨hmem, hcheck, done, hcontent, rfl, -⟩ := hok
  have hlen : (done ++ remaining).length ≤ t.pieceLength := by
    rw [← hcontent, hcheck.length]
    exact hset.pieceLen_le hmem
  have hzero : ZeroPadded spans (w.index.toNat * t.pieceLength) (done ++ remaining) :=
    hcontent ▸ hcheck.zeros
  intro i bytes hbytes hfront
  refine Shows.of_piece_write hset.laid hset.distinct hlen hzero hne hw hbytes ?_
  intro hij
  obtain rfl : i = w.index := UInt32.toNat_inj.1 hij
  exact hcontent ▸ hfront (mem_map_of_mem hmem)

theorem ok_of_writes {k : ℕ}
    (hok : (Job.writing w off remaining).Ok t spans pieces content fs) (hne : remaining.take k ≠ [])
    (hw : writeChunk spans off (remaining.take k) fs = (fs', .ok n)) :
    (Job.writing w (off + n) (remaining.drop n)).Ok t spans pieces content fs' := by
  have hkeeps := keeps_of_writes hset hok hne hw
  obtain ⟨hmem, hcheck, done, hcontent, rfl, hshow⟩ := hok
  have hzero := hcheck.zeros
  rw [hcontent] at hzero
  obtain ⟨-, hn, hnew, -⟩ := shows_of_writeChunk hset.laid hset.distinct hne (hzero.drop_take k) hw
  have hn' : n ≤ remaining.length ∧ n ≤ k := by
    rw [length_take] at hn
    omega
  refine ⟨hmem, hcheck, done ++ remaining.take n, ?_, ?_, ?_⟩
  · rw [append_assoc, take_append_drop, hcontent]
  · rw [length_append, length_take, Nat.min_eq_left hn'.1, Nat.add_assoc]
  · rw [shows_append]
    refine ⟨hkeeps w.index done ?_ ?_ hshow, ?_⟩
    · have hle := hset.pieceLen_le hmem
      rw [← hcheck.length, hcontent, length_append] at hle
      omega
    · exact fun _ => ⟨remaining, hcontent.symm⟩
    · rwa [take_take, Nat.min_eq_left hn'.2] at hnew

variable {i : UInt32}

theorem OnDisk.keep (hkeep : Keeps t spans pieces content fs fs')
    (h : OnDisk t spans pieces content fs i) : OnDisk t spans pieces content fs' i := by
  obtain ⟨hi, bytes, hshow, hlen, hhash, hcontent⟩ := h
  refine ⟨hi, bytes, hkeep i bytes ?_ ?_ hshow, hlen, hhash, hcontent⟩
  · rw [hlen]
    exact hset.sized.pieceLen_le hi
  · intro hmem
    rw [hcontent hmem]

theorem Job.Ok.keep (hkeep : Keeps t spans pieces content fs fs') {job : Job}
    (h : job.Ok t spans pieces content fs) : job.Ok t spans pieces content fs' := by
  cases job with
  | taken | assembling => exact h
  | marked index => exact OnDisk.keep hset hkeep h
  | writing work offset remaining =>
    obtain ⟨hmem, hcheck, done, hcontent, hoff, hshow⟩ := h
    refine ⟨hmem, hcheck, done, hcontent, hoff, hkeep _ done ?_ ?_ hshow⟩
    · have hle := hset.pieceLen_le hmem
      rw [← hcheck.length, hcontent, length_append] at hle
      omega
    · exact fun _ => ⟨remaining, hcontent.symm⟩

theorem onDisk_of_written (hok : (Job.writing w off []).Ok t spans pieces content fs) :
    OnDisk t spans pieces content fs w.index := by
  obtain ⟨hmem, hcheck, done, hcontent, -, hshow⟩ := hok
  rw [append_nil] at hcontent
  subst hcontent
  exact ⟨(hset.sized.work hset.count (hset.work w hmem)).1, _, hshow, hcheck.length, hcheck.hash,
    fun _ => rfl⟩

theorem Session.Inv.setFs (h : s.Inv t spans pieces content)
    (hkeep : Keeps t spans pieces content s.fs fs') :
    { s with fs := fs' }.Inv t spans pieces content :=
  ⟨h.pool, fun j job hj => (h.jobs j job hj).keep hset hkeep,
    fun i hi => (h.results i hi).keep hset hkeep, fun i hi => (h.haves i hi).keep hset hkeep⟩

theorem ok_of_verified (hw : w ∈ pieces)
    {data : List UInt8} (hlen : data.length = t.pieceLen w.index.toNat)
    (hmatch : w.matches data = true) (hdata : data = content w.index)
    (hzero : ZeroPadded spans (w.index.toNat * t.pieceLength) data) :
    (Job.writing w (w.index.toNat * t.pieceLength) data).Ok t spans pieces content fs := by
  subst hdata
  refine ⟨hw, ⟨hlen, ?_, hzero⟩, [], rfl, rfl, fun i hi => absurd hi (by simp)⟩
  rw [← (hset.sized.work hset.count (hset.work w hw)).2.2]
  exact hmatch

theorem Session.Inv.step (h : s.Inv t spans pieces content) (hstep : Session.Step t spans s e s')
    (hgood : ∀ i d, e.verified = some (i, d) →
      d = content i ∧ ZeroPadded spans (i.toNat * t.pieceLength) d) :
    s'.Inv t spans pieces content := by
  cases hstep with
  | @takes pool j c work hj hcall hout =>
    refine (h.setPool hcall).setJob ?_
    rintro _ ⟨⟩
    exact (Workers.handedOut_spec h.pool hcall (j, work) (by simp [hout])).1
  | calls hcall => exact h.setPool hcall
  | opens hj hcall =>
    refine (h.setPool hcall).setJob ?_
    rintro _ ⟨⟩
    refine ⟨valid_openFrom _ _, ?_⟩
    rw [openFrom_work]
    exact h.jobs _ _ hj
  | assembles hj hop =>
    refine h.setJob ?_
    rintro _ ⟨⟩
    obtain ⟨hvalid, hmem⟩ := h.jobs _ _ hj
    obtain ⟨hvalid', hwork⟩ := valid_step hvalid hop
    exact ⟨hvalid', hwork ▸ hmem⟩
  | restarts hj =>
    refine h.setJob ?_
    rintro _ ⟨⟩
    exact ⟨valid_new _, (h.jobs _ _ hj).2⟩
  | @finishes _ a data hj hfinish =>
    refine h.setJob ?_
    rintro _ ⟨⟩
    obtain ⟨hvalid, hmem⟩ := h.jobs _ _ hj
    obtain ⟨hbuf, hmatch⟩ := finish_spec hfinish
    refine ok_of_verified hset hmem ?_ hmatch (hgood _ _ rfl).1 (hgood _ _ rfl).2
    rw [hbuf, hvalid.buf_length]
    exact (hset.sized.work hset.count (hset.work _ hmem)).2.1
  | fetches hj hfetch hmatch =>
    refine h.setJob ?_
    rintro _ ⟨⟩
    have hmem : _ ∈ pieces := h.jobs _ _ hj
    exact ok_of_verified hset hmem
      (length_webFetch hset.sized (hset.sized.work hset.count (hset.work _ hmem)).1 hfetch)
      hmatch (hgood _ _ rfl).1 (hgood _ _ rfl).2
  | writes hj hne hw =>
    have hok := h.jobs _ _ hj
    refine (h.setFs hset (keeps_of_writes hset hok hne hw)).setJob ?_
    rintro _ ⟨⟩
    exact ok_of_writes hset hok hne hw
  | fails hj hne hw =>
    exact (h.setFs hset (keeps_of_view (view_of_writeChunk_error hset.laid hne hw))).setJob
      fun _ hb => nomatch hb
  | stops => exact h.setJob fun _ hb => nomatch hb
  | @marks _ _ work _ first hj hcall =>
    refine (h.setPool hcall).setJob ?_
    intro b hb
    cases first with
    | false => cases hb
    | true =>
      cases hb
      exact onDisk_of_written hset (h.jobs _ _ hj)
  | @sends j index hj =>
    have hsent : { s with results := s.results ++ [index] }.Inv t spans pieces content :=
      ⟨h.pool, h.jobs, forall_mem_append.2 ⟨h.results, forall_mem_singleton.2 (h.jobs _ _ hj)⟩,
        h.haves⟩
    exact hsent.setJob fun _ hb => nomatch hb
  | @absorbs index rest hres =>
    refine ⟨h.pool, h.jobs, fun i hi => h.results i (by simp [hres, hi]), fun i hi => ?_⟩
    rcases HaveMap.get_set hi with rfl | hi
    · exact h.results i (by simp [hres])
    · exact h.haves i hi

end

theorem pieceIsOnDisk_spec (h : Laid spans) (hi : pieceIsOnDisk spans t fs i = true) :
    i.toNat < t.pieces.length ∧ ∃ bytes, Shows spans fs (i.toNat * t.pieceLength) bytes ∧
      bytes.length = t.pieceLen i.toNat ∧ t.pieceMatches i.toNat bytes = true := by
  unfold pieceIsOnDisk at hi
  split at hi
  · cases hi
  · rename_i hlt
    split at hi
    · rename_i bytes hread
      obtain ⟨hlen, hshow⟩ := (readPieceBytes_eq_ok_iff h).1 hread
      exact ⟨not_le.1 hlt, bytes, hshow, hlen, hi⟩
    · cases hi

theorem pieceIsOnDisk_of_mem {o : RunOptions}
    (hi : i ∈ confirmedResumed t spans o fs) : pieceIsOnDisk spans t fs i = true := by
  unfold confirmedResumed at hi
  split at hi <;> exact (mem_filter.1 hi).2

omit [Digests] in
theorem nodup_buildWorkQueue (hcount : t.pieces.length ≤ 2 ^ 32) :
    (t.buildWorkQueue.map PieceWork.index).Nodup := by
  have hmap : t.buildWorkQueue.map PieceWork.index = (range t.pieces.length).map UInt32.ofNat := by
    rw [TorrentFile.buildWorkQueue, map_map, range_eq_range', ← zipIdx_map_snd 0, map_map]
    rfl
  rw [hmap]
  refine List.Nodup.map_on ?_ nodup_range
  intro a ha b hb hab
  rw [mem_range] at ha hb
  have := congrArg UInt32.toNat hab
  rwa [UInt32.toNat_ofNat', UInt32.toNat_ofNat', Nat.mod_eq_of_lt (by omega),
    Nat.mod_eq_of_lt (by omega)] at this

theorem inv_prepare (o : RunOptions)
    (hset : Setting t spans (outstanding t o (confirmedResumed t spans o fs))) :
    (prepare t spans o fs).Inv t spans (outstanding t o (confirmedResumed t spans o fs))
      content := by
  refine ⟨Workers.inv_start ?_ _ _ _, by simp [prepare], by simp [prepare], fun i hi => ?_⟩
  · exact (nodup_buildWorkQueue hset.count).sublist (filter_sublist.map _)
  · have hmem : i ∈ confirmedResumed t spans o fs := by
      rcases HaveMap.mem_of_get_foldl hi with h | h
      · exact h
      · rw [HaveMap.get_new] at h
        cases h
    obtain ⟨hlt, bytes, hshow, hlen, hhash⟩ :=
      pieceIsOnDisk_spec hset.laid (pieceIsOnDisk_of_mem hmem)
    refine ⟨hlt, bytes, hshow, hlen, hhash, fun hpiece => ?_⟩
    -- what was confirmed is not fetched
    obtain ⟨w, hw, rfl⟩ := mem_map.1 hpiece
    have := (mem_filter.1 hw).2
    simp [hmem] at this

end

/-- The digests under which one content hashes to zeros, and no other. -/
@[reducible] def Digests.only (content : List UInt8) : Digests :=
  ⟨fun data => if data = content then .replicate 20 0 else .replicate 20 1,
    fun _ => .replicate 32 0⟩

/-- A torrent file of one piece: a byte of a file `a`, and one of padding. -/
def onePadded : List UInt8 :=
  ascii "d4:infod5:filesld6:lengthi1e4:pathl1:aeed4:attr1:p6:lengthi1e4:pathl1:peee" ++
    ascii "4:name1:n12:piece lengthi2e6:pieces20:" ++ List.replicate 20 0 ++ ascii "ee"

theorem run_onePadded (zero : Bool) : ∃ (x : UInt8) (data : Slice) (t : TorrentFile),
    let _ := Digests.only [5, x]
    x = (if zero then 0 else 7) ∧ parseTorrentFile data = .ok t ∧
    t.pieces = [.replicate 20 0] ∧ t.v2Pieces = [] ∧
    t.fileSpans [] = [⟨[[97]], 0, 1, false⟩, ⟨[[112]], 1, 2, true⟩] ∧
    t.pieceLength = 2 ∧ t.pieceLen 0 = 2 ∧
    ∃ es s, (session t (t.fileSpans [])).Run (prepare t (t.fileSpans [])
        ⟨fun _ => true, false, [], .sequential, ∅⟩ fun _ => none) es s ∧
      s.fs = (writeChunk (t.fileSpans []) 0 [5, x] fun _ => none).1 ∧
      s.haveMap.get 0 = true ∧
      ∀ e ∈ es, ∀ i d, e.verified = some (i, d) → i = 0 ∧ d = [5, x] := by
  obtain ⟨x, hx⟩ : ∃ x : UInt8, x = if zero then 0 else 7 := ⟨_, rfl⟩
  let _ := Digests.only [5, x]
  let data : Slice := ⟨onePadded, by decide +kernel⟩
  let w : PieceWork := ⟨0, .replicate 20 0, 2, none⟩
  have hok : ∃ t ∈ (parseTorrentFile data).toOption, t.pieces = [.replicate 20 0] ∧
      t.v2Pieces = [] ∧ t.fileSpans [] = [⟨[[97]], 0, 1, false⟩, ⟨[[112]], 1, 2, true⟩] ∧
      t.pieceLength = 2 ∧ t.pieceLen 0 = 2 ∧ t.buildWorkQueue = [w] := by
    subst hx
    cases zero with
    | true | false => decide +kernel
  obtain ⟨t, hparse, hpieces, hv2, hspans, hlen, hpiece, hwork⟩ := exists_ok hok
  refine ⟨x, data, t, hx, hparse, hpieces, hv2, hspans, hlen, hpiece, ?_⟩
  let m : PieceMessage := ⟨0, [5, x], by simp [maxMessageLen]⟩
  have hrecord : (new w).step (.record m) = some ⟨w, [5, x], [true], 0, []⟩ := by
    simp [step, recordBlock, new, isComplete, blockLen, copyInto,
      setReceived, PieceWork.numBlocks, blockSize, splice, w, m]
  have hfinish : finish ⟨w, [5, x], [true], 0, []⟩ = .ok [5, x] := by
    have hsha : Digests.sha1 [5, x] = w.hash := if_pos rfl
    simp only [finish, isComplete, PieceWork.matches, hsha]
    simp [w]
  have hstart : prepare t (t.fileSpans []) ⟨fun _ => true, false, [], .sequential, ∅⟩
      (fun _ => none) = ⟨fun _ => none, ⟨.new [w] 1 .sequential ∅, []⟩, fun _ => none, [],
        .new 1⟩ := by
    simp [prepare, outstanding, hwork, confirmedResumed, loadAndVerify, hpieces, Workers.start]
  rw [hstart, hspans]
  let spans : List FileSpan := [⟨[[97]], 0, 1, false⟩, ⟨[[112]], 1, 2, true⟩]
  let q := ((WorkQueue.new [w] 1 .sequential ∅).takeFor fun _ => true).2
  let fs := (writeChunk spans 0 [5, x] fun _ => none).1
  -- the piece is taken, comes in one block, is written to the file and to padding, and sent on
  have hfetched := (((LTS.Run.nil (L := session t spans)
    (s := ⟨fun _ => none, ⟨.new [w] 1 .sequential ∅, []⟩, fun _ => none, [], .new 1⟩)).snoc
    (@Session.Step.takes _ _ _ _ ⟨q, [(0, w)]⟩ 0 (.takeFor 0 (fun _ => true) (.piece w)) w
      rfl ⟨rfl, rfl, by simp⟩ rfl)).snoc
    (@Session.Step.opens _ _ _ _ ⟨q, [(0, w)]⟩ 0 w none rfl ⟨rfl, rfl, by simp⟩)).snoc
    (.assembles (j := 0) rfl hrecord) |>.snoc (.finishes (j := 0) rfl hfinish)
  have hwritten := (hfetched.snoc (.writes (j := 0) (k := 2) (n := 1) rfl (by simp)
    (show _ = (fs, _) by rw [hlen]; rfl))).snoc
    (.writes (j := 0) (k := 1) (n := 1) rfl (by simp) (show _ = (fs, _) by rw [hlen]; rfl))
  refine ⟨_, _, ((hwritten.snoc (@Session.Step.marks _ _ _ _ ⟨(q.markDone 0).2, [(0, w)]⟩ 0 w _ true
    rfl ⟨rfl, rfl, by simp⟩)).snoc (.sends (j := 0) rfl)).snoc (.absorbs rfl), rfl, rfl, ?_⟩
  simp [SessionEvent.verified, w]

/-- **What the have-map offers reads back as what the torrent says.** For
every accepted torrent whose files are apart, every directory, and every
run of resuming and of peer and web-seed workers in which what is checked
has zeros on padding and no two contents for one hash turn up: every
piece in the have-map reads back from the files as bytes that match its
hash, and every block of it as a range of those. -/
theorem have_reads_back [Digests] (t : TorrentFile) (hacc : t.Accepted)
    (hcount : t.pieces.length ≤ 2 ^ 32) (base : Path)
    (hapart : (diskPaths (t.fileSpans base)).Pairwise Apart) (o : RunOptions) (fs : FileSystem)
    (es : List SessionEvent) (s : Session)
    (hrun : (session t (t.fileSpans base)).Run (prepare t (t.fileSpans base) o fs) es s)
    (hcollide : NoCollision es)
    (hzero : ∀ e ∈ es, ∀ i d, e.verified = some (i, d) →
      ZeroPadded (t.fileSpans base) (i.toNat * t.pieceLength) d) :
    ∀ i : UInt32, s.haveMap.get i = true → ∃ bytes,
      readAtGlobalOffset (t.fileSpans base) (i.toNat * t.pieceLength) (t.pieceLen i.toNat) s.fs =
        some (.ok bytes) ∧
      t.pieceMatches i.toNat bytes = true ∧
      ∀ begin len, begin + len ≤ t.pieceLen i.toNat →
        readBlock (t.fileSpans base) i t.pieceLength begin len s.fs =
          some (.ok (slice bytes begin len)) := by
  have hset : Setting t (t.fileSpans base)
      (outstanding t o (confirmedResumed t (t.fileSpans base) o fs)) :=
    ⟨hacc.sized, hcount, (t.isTable_fileSpans base).laid, distinctPaths_of_apart hapart,
      fun w hw => (mem_filter.1 hw).1⟩
  obtain ⟨content, hcontent⟩ := hcollide.exists_content
  have hinv : s.Inv t (t.fileSpans base) _ content :=
    hrun.invariant_of_labels (fun _ _ _ hgood hinv hstep => hinv.step hset hstep hgood)
      (fun e he i d hv => ⟨hcontent e he i d hv, hzero e he i d hv⟩) (inv_prepare o hset)
  intro i hi
  obtain ⟨hlt, bytes, hshow, hlen, hhash, -⟩ := hinv.haves i hi
  refine ⟨bytes, (readAtGlobalOffset_eq_ok_iff hset.laid).2 ⟨hlen, hshow⟩, hhash, ?_⟩
  intro begin len hle
  refine (readAtGlobalOffset_eq_ok_iff hset.laid).2 ⟨?_, hshow.slice begin len (by omega)⟩
  rw [length_slice]
  omega

/-- `have_reads_back` for a torrent with padding and a peer that sends its
piece, zeros on padding included. -/
theorem have_reads_back_sample :
    let _ := Digests.only [5, 0]
    ∃ (t : TorrentFile) (es : List SessionEvent) (s : Session), t.Accepted ∧
      (session t (t.fileSpans [])).Run (prepare t (t.fileSpans [])
        ⟨fun _ => true, false, [], .sequential, ∅⟩ fun _ => none) es s ∧
      s.haveMap.get 0 = true ∧
      ∃ bytes, readAtGlobalOffset (t.fileSpans []) 0 2 s.fs = some (.ok bytes) ∧
        t.pieceMatches 0 bytes = true := by
  let _ := Digests.only [5, 0]
  obtain ⟨x, data, t, rfl, hparse, hpieces, -, hspans, hlen, hpiece, es, s, hrun, -, hget, hver⟩ :=
    run_onePadded true
  have hacc : t.Accepted := .parsed hparse
  have hzero : ∀ e ∈ es, ∀ i d, e.verified = some (i, d) →
      ZeroPadded (t.fileSpans []) (i.toNat * t.pieceLength) d := by
    intro e he i d hv
    obtain ⟨rfl, rfl⟩ := hver e he i d hv
    rw [hspans, hlen]
    unfold ZeroPadded
    decide
  have hcollide : NoCollision es := by
    intro e he e' he' i d d' hv hv'
    rw [(hver e he i d hv).2, (hver e' he' i d' hv').2]
  have hapart : (diskPaths (t.fileSpans [])).Pairwise Apart := by
    rw [hspans]
    decide
  obtain ⟨bytes, hread, hmatch, -⟩ := have_reads_back t hacc (by rw [hpieces]; decide) [] hapart _ _
    es s hrun hcollide hzero 0 hget
  refine ⟨t, es, s, hacc, hrun, hget, bytes, ?_, hmatch⟩
  rw [← hread, hlen]
  exact congrArg (readAtGlobalOffset _ 0 · s.fs) hpiece.symm

/-- **A piece with other bytes on padding** is checked, written without
them, entered in the have-map, and does not read back. -/
theorem have_differs_on_padding :
    let _ := Digests.only [5, 7]
    ∃ (t : TorrentFile) (es : List SessionEvent) (s : Session), t.Accepted ∧
      (diskPaths (t.fileSpans [])).Pairwise Apart ∧
      (session t (t.fileSpans [])).Run (prepare t (t.fileSpans [])
        ⟨fun _ => true, false, [], .sequential, ∅⟩ fun _ => none) es s ∧
      NoCollision es ∧ s.haveMap.get 0 = true ∧
      readAtGlobalOffset (t.fileSpans []) 0 2 s.fs = some (.ok [5, 0]) ∧
        t.pieceMatches 0 [5, 0] = false := by
  let _ := Digests.only [5, 7]
  obtain ⟨x, data, t, rfl, hparse, hpieces, hv2, hspans, -, -, es, s, hrun, hfs, hget, hver⟩ :=
    run_onePadded false
  have hcollide : NoCollision es := by
    intro e he e' he' i d d' hv hv'
    rw [(hver e he i d hv).2, (hver e' he' i d' hv').2]
  refine ⟨t, es, s, .parsed hparse, ?_, hrun, hcollide, hget, ?_, ?_⟩
  · rw [hspans]
    decide
  · rw [hfs, hspans]
    rfl
  · simp [TorrentFile.pieceMatches, hv2, hpieces]
    decide

end BitTorrent
