import BitTorrent.Common.Run
import BitTorrent.Disk.Flat
import Mathlib.Data.List.Nodup

/-!
# What is written is read back

The readers return a range of the flat array and agree with each other,
the writer overwrites a range of it and touches no byte of a file outside
that range, and so, after any pieces have been written in any order, a
range reads back as the bytes that were written there last.
-/

namespace BitTorrent

open List Option

variable {spans : List FileSpan} {fs fs' : FileSystem} {g off n len : ℕ} {s : FileSpan}

theorem shows_split {acc res : List UInt8} {m : ℕ} (hn : n ≤ m) :
    (∃ out, res = acc ++ out ∧ out.length = m ∧ Shows spans fs off out) ↔
      ∃ c out, c.length = n ∧ Shows spans fs off c ∧ res = (acc ++ c) ++ out ∧
        out.length = m - n ∧ Shows spans fs (off + n) out := by
  constructor
  · rintro ⟨out, rfl, hlen, hshow⟩
    rw [← take_append_drop n out, shows_append] at hshow
    have htake : (out.take n).length = n := by
      rw [length_take]
      omega
    rw [htake] at hshow
    refine ⟨out.take n, out.drop n, htake, hshow.1, ?_, ?_, hshow.2⟩
    · rw [append_assoc, take_append_drop]
    · rw [length_drop, hlen]
  · rintro ⟨c, out, rfl, hc, rfl, hlen, hout⟩
    refine ⟨c ++ out, by rw [append_assoc], ?_, (shows_append c out).2 ⟨hc, hout⟩⟩
    rw [length_append]
    omega

section

variable (h : Laid spans)

include h

theorem readLoop_spec (fs : FileSystem) (fuel : ℕ) : ∀ off m acc, m ≤ fuel →
    ∃ r, readLoop spans fs fuel off m acc = some r ∧
      ∀ res, r = .ok res ↔ ∃ out, res = acc ++ out ∧ out.length = m ∧ Shows spans fs off out := by
  induction fuel with
  | zero =>
    intro off m acc hm
    obtain rfl : m = 0 := by omega
    refine ⟨.ok acc, by simp [readLoop], fun res => ?_⟩
    simp [Shows, eq_comm]
  | succ fuel ih =>
    intro off m acc hm
    unfold readLoop
    by_cases hm0 : m = 0
    · subst hm0
      refine ⟨.ok acc, by simp, fun res => ?_⟩
      simp [Shows, eq_comm]
    rw [if_neg hm0]
    cases hs : spanAt spans off with
    | none =>
      refine ⟨_, rfl, fun res => ?_⟩
      simp only [reduceCtorEq, false_iff]
      rintro ⟨out, -, hlen, hshow⟩
      have := hshow 0 (by omega)
      rw [Nat.add_zero, view, hs, getElem?_eq_getElem (by omega)] at this
      cases this
    | some s =>
      obtain ⟨hstart, hstop⟩ := h.lt_stop hs
      dsimp only
      set n := min m (s.stop - off) with hn
      have hpos : 0 < n := by omega
      cases hp : s.padding with
      | true =>
        obtain ⟨r, hr, hspec⟩ := ih (off + n) (m - n) (acc ++ replicate n 0) (by omega)
        refine ⟨r, by simpa using hr, fun res => ?_⟩
        rw [hspec, shows_split (show n ≤ m by omega)]
        have hzero : ∀ c : List UInt8, c.length = n →
            (Shows spans fs off c ↔ c = replicate n 0) := by
          intro c hc
          rw [h.shows_padding hs hp (by omega), hc]
        constructor
        · rintro ⟨out, rfl, hlen, hout⟩
          exact ⟨_, out, length_replicate, (hzero _ length_replicate).2 rfl, rfl, hlen, hout⟩
        · rintro ⟨c, out, hc, hshow, rfl, hlen, hout⟩
          rw [(hzero c hc).1 hshow]
          exact ⟨out, rfl, hlen, hout⟩
      | false =>
        have hfile : ∀ c, fs.readExact s.path (off - s.start) n = .ok c ↔
            c.length = n ∧ Shows spans fs off c := fun c => h.shows_file hs hp (by omega) hpos
        simp only [Bool.false_eq_true, ↓reduceIte]
        cases hread : fs.readExact s.path (off - s.start) n with
        | error e =>
          refine ⟨_, rfl, fun res => ?_⟩
          rw [shows_split (show n ≤ m by omega)]
          simp only [reduceCtorEq, false_iff]
          rintro ⟨c, out, hc, hshow, -⟩
          rw [(hfile c).2 ⟨hc, hshow⟩] at hread
          cases hread
        | ok c =>
          obtain ⟨hc, hshow⟩ := (hfile c).1 hread
          obtain ⟨r, hr, hspec⟩ := ih (off + n) (m - n) (acc ++ c) (by omega)
          refine ⟨r, hr, fun res => ?_⟩
          rw [hspec, shows_split (show n ≤ m by omega)]
          constructor
          · rintro ⟨out, rfl, hlen, hout⟩
            exact ⟨c, out, hc, hshow, rfl, hlen, hout⟩
          · rintro ⟨c', out, hc', hshow', rfl, hlen, hout⟩
            rw [hshow'.unique hshow (by omega)]
            exact ⟨out, rfl, hlen, hout⟩

theorem fillLoop_agrees (fs : FileSystem) (fuel : ℕ) : ∀ off m acc,
    (fillLoop spans fs fuel off acc.length (acc ++ replicate m 0)).map Except.toOption =
      (readLoop spans fs fuel off m acc).map Except.toOption := by
  induction fuel with
  | zero =>
    intro off m acc
    unfold fillLoop readLoop
    by_cases hm : m = 0
    · simp [hm]
    · rw [if_neg (by simp; omega), if_neg hm]
  | succ fuel ih =>
    intro off m acc
    unfold fillLoop readLoop
    by_cases hm : m = 0
    · simp [hm]
    rw [if_neg (by simp; omega), if_neg hm]
    cases hs : spanAt spans off with
    | none => rfl
    | some s =>
      obtain ⟨hstart, hstop⟩ := h.lt_stop hs
      have hlen : (acc ++ replicate m (0 : UInt8)).length - acc.length = m := by simp
      simp only [hlen]
      generalize hn : min m (s.stop - off) = n
      have hle : n ≤ m := by omega
      cases hp : s.padding with
      | true =>
        have := ih (off + n) (m - n) (acc ++ replicate n 0)
        rw [append_assoc, replicate_append_replicate, Nat.add_sub_cancel' hle,
          length_append, length_replicate] at this
        simpa using this
      | false =>
        simp only [Bool.false_eq_true, ↓reduceIte]
        cases hread : fs.readExact s.path (off - s.start) n with
        | error e => rfl
        | ok c =>
          have hc : c.length = n := ((h.shows_file hs hp (by omega) (by omega)).1 hread).1
          have hbuf : splice (acc ++ replicate m 0) acc.length c =
              (acc ++ c) ++ replicate (m - n) 0 := by
            simp [splice, hc]
          have := ih (off + n) (m - n) (acc ++ c)
          rw [length_append, hc] at this
          simpa [hbuf] using this

variable {out : List UInt8}

theorem readAtGlobalOffset_eq_ok_iff : readAtGlobalOffset spans off len fs = some (.ok out) ↔
      out.length = len ∧ Shows spans fs off out := by
  obtain ⟨r, hr, hspec⟩ := readLoop_spec h fs len off len [] le_rfl
  rw [readAtGlobalOffset, hr, some_inj, hspec]
  simp

theorem readPieceBytes_agrees (fs : FileSystem) (index : UInt32) (stride len : ℕ) :
    ∃ r r', readAtGlobalOffset spans (index.toNat * stride) len fs = some r ∧
      readPieceBytes spans index stride len fs = some r' ∧ r.toOption = r'.toOption := by
  obtain ⟨r, hr, -⟩ := readLoop_spec h fs len (index.toNat * stride) len [] le_rfl
  have hagree := fillLoop_agrees h fs len (index.toNat * stride) len []
  rw [hr] at hagree
  obtain ⟨r', hr', hopt⟩ := map_eq_some_iff.1 hagree
  exact ⟨r, r', hr, hr', hopt.symm⟩

theorem readPieceBytes_eq_ok_iff {index : UInt32} {stride : ℕ} :
    readPieceBytes spans index stride len fs = some (.ok out) ↔
      out.length = len ∧ Shows spans fs (index.toNat * stride) out := by
  obtain ⟨r, r', hr, hr', hopt⟩ := readPieceBytes_agrees h fs index stride len
  rw [← readAtGlobalOffset_eq_ok_iff h, hr, hr', some_inj, some_inj]
  cases r <;> cases r' <;> simp_all [Except.toOption]

end

/-- **The table names no file twice**: padding has no file. -/
def DistinctPaths (spans : List FileSpan) : Prop :=
  ((spans.filter fun s => !s.padding).map FileSpan.path).Nodup

theorem DistinctPaths.eq_of_path_eq (hd : DistinctPaths spans) {t : FileSpan} (hs : s ∈ spans)
    (ht : t ∈ spans) (hps : s.padding = false) (hpt : t.padding = false) (h : s.path = t.path) :
    s = t :=
  inj_on_of_nodup_map hd (mem_filter.2 ⟨hs, by simp [hps]⟩)
    (mem_filter.2 ⟨ht, by simp [hpt]⟩) h

/-- A byte of a file is in a range of the torrent. -/
def Covered (spans : List FileSpan) (off len : ℕ) (path : Path) (i : ℕ) : Prop :=
  ∃ s ∈ spans, s.padding = false ∧ s.path = path ∧ s.Holds (s.start + i) ∧
    off ≤ s.start + i ∧ s.start + i < off + len

/-- **No byte of a file changes outside a range** of the torrent. A file
that is written past its end gets zeros up to there. -/
def Kept (spans : List FileSpan) (off len : ℕ) (fs fs' : FileSystem) : Prop :=
  ∀ p i, ¬ Covered spans off len p i →
    byteAt fs' p i = byteAt fs p i ∨ (byteAt fs p i = none ∧ byteAt fs' p i = some 0)

theorem kept_of_bytesOf_eq (h : ∀ p, fs'.bytesOf p = fs.bytesOf p) : Kept spans off len fs fs' :=
  fun p i _ => .inl (by rw [byteAt, byteAt, h p])

theorem Kept.append {fs₁ : FileSystem} {m : ℕ} (h₁ : Kept spans off n fs fs₁)
    (h₂ : Kept spans (off + n) m fs₁ fs') : Kept spans off (n + m) fs fs' := by
  intro p i hc
  have hc₁ : ¬ Covered spans off n p i := by
    rintro ⟨s, hs, hp, hpath, hi, hlo, hhi⟩
    exact hc ⟨s, hs, hp, hpath, hi, hlo, by omega⟩
  have hc₂ : ¬ Covered spans (off + n) m p i := by
    rintro ⟨s, hs, hp, hpath, hi, hlo, hhi⟩
    exact hc ⟨s, hs, hp, hpath, hi, by omega, by omega⟩
  rcases h₁ p i hc₁ with h₁ | ⟨hnone, hzero⟩
  · rcases h₂ p i hc₂ with h₂ | ⟨h₂, h₃⟩
    · exact .inl (h₂.trans h₁)
    · exact .inr ⟨h₁ ▸ h₂, h₃⟩
  · -- a byte that has become a zero stays one
    rcases h₂ p i hc₂ with h₂ | ⟨h₂, -⟩
    · exact .inr ⟨hnone, h₂.trans hzero⟩
    · rw [hzero] at h₂
      cases h₂

theorem Kept.view_eq (hk : Kept spans off len fs fs') (h : Laid spans) (hd : DistinctPaths spans)
    (hg : g < off ∨ off + len ≤ g) {b : UInt8} (hv : view spans fs g = some b) :
    view spans fs' g = some b := by
  unfold view at hv ⊢
  cases hs : spanAt spans g with
  | none =>
    rw [hs] at hv
    cases hv
  | some s =>
    obtain ⟨hmem, hstart, hstop⟩ := h.spanAt_eq_some_iff.1 hs
    rw [hs, bind_some] at hv
    rw [bind_some]
    cases hp : s.padding with
    | true => simpa [hp] using hv
    | false =>
      simp only [hp, Bool.false_eq_true, ↓reduceIte] at hv ⊢
      have hc : ¬ Covered spans off len s.path (g - s.start) := by
        rintro ⟨t, ht, htp, hpath, -, hlo, hhi⟩
        obtain rfl := hd.eq_of_path_eq ht hmem htp hp hpath
        omega
      rcases hk _ _ hc with heq | ⟨hnone, -⟩
      · rw [heq, hv]
      · rw [hnone] at hv
        cases hv

theorem writeChunk_cases (spans : List FileSpan) (off : ℕ) (data : List UInt8) (fs : FileSystem) :
    (∃ e, (writeChunk spans off data fs).2 = .error e ∧
      ∀ p, (writeChunk spans off data fs).1.bytesOf p = fs.bytesOf p) ∨
    ∃ s, spanAt spans off = some s ∧
      (writeChunk spans off data fs).2 = .ok (min data.length (s.stop - off)) ∧
      ((s.padding = true ∧ (writeChunk spans off data fs).1 = fs) ∨
        (s.padding = false ∧ ∀ p, (writeChunk spans off data fs).1.bytesOf p =
          if p = s.path then some (writeAt ((fs.bytesOf p).getD []) (off - s.start)
            (data.take (min data.length (s.stop - off)))) else fs.bytesOf p)) := by
  unfold writeChunk
  cases hs : spanAt spans off with
  | none => exact .inl ⟨_, rfl, fun _ => rfl⟩
  | some s =>
    dsimp only
    cases hp : s.padding with
    | true => exact .inr ⟨s, rfl, rfl, .inl ⟨hp, rfl⟩⟩
    | false =>
      simp only [Bool.false_eq_true, ↓reduceIte]
      cases hdir : makeParent fs s.path with
      | error e => exact .inl ⟨e, rfl, fun _ => rfl⟩
      | ok fs₁ =>
        have hfs₁ : ∀ p, fs₁.bytesOf p = fs.bytesOf p := by
          intro p
          unfold makeParent at hdir
          split at hdir
          · exact FileSystem.bytesOf_createDirAll hdir
          · cases hdir
            rfl
        dsimp only
        cases hopen : fs₁.openWrite s.path with
        | error e => exact .inl ⟨e, rfl, hfs₁⟩
        | ok fs₂ =>
          refine .inr ⟨s, rfl, rfl, .inr ⟨hp, fun p => ?_⟩⟩
          have hfs₂ := fun p => FileSystem.bytesOf_openWrite (p := p) hopen
          have hself : fs₂.bytesOf s.path = some ((fs.bytesOf s.path).getD []) := by
            rw [hfs₂, if_pos rfl, hfs₁]
          rw [FileSystem.bytesOf_writeAll hself]
          by_cases hpath : p = s.path
          · rw [if_pos hpath, if_pos hpath, hpath]
          · rw [if_neg hpath, if_neg hpath, hfs₂, if_neg hpath, hfs₁]

/-- A range that is not padding shows `data`. -/
def Wrote (spans : List FileSpan) (fs : FileSystem) (off : ℕ) (data : List UInt8) : Prop :=
  ∀ i < data.length, padded spans (off + i) = false → view spans fs (off + i) = data[i]?

theorem writeChunk_spec (h : Laid spans) {data : List UInt8} (hdata : data ≠ [])
    {r : Except IoError ℕ}
    (hw : writeChunk spans off data fs = (fs', r)) :
    (∃ e, r = .error e ∧ ∀ p, fs'.bytesOf p = fs.bytesOf p) ∨
    ∃ n, r = .ok n ∧ 0 < n ∧ n ≤ data.length ∧ Kept spans off n fs fs' ∧
      Wrote spans fs' off (data.take n) := by
  have hcases := writeChunk_cases spans off data fs
  rw [hw] at hcases
  have hpos := length_pos_iff.2 hdata
  rcases hcases with herr | ⟨s, hs, hr, hcase⟩
  · exact .inl herr
  obtain ⟨hstart, hstop⟩ := h.lt_stop hs
  set n := min data.length (s.stop - off) with hn
  have htake : (data.take n).length = n := by
    rw [length_take]
    omega
  refine .inr ⟨n, hr, by omega, by omega, ?_⟩
  rcases hcase with ⟨hp, rfl⟩ | ⟨hp, hbytes⟩
  · refine ⟨kept_of_bytesOf_eq fun _ => rfl, fun i hi hpad => ?_⟩
    rw [htake] at hi
    simp [padded, h.spanAt_chunk hs (show i < s.stop - off by omega), hp] at hpad
  · have hmem := (h.spanAt_eq_some_iff.1 hs).1
    have hbyte : ∀ i, byteAt fs' s.path i =
        (writeAt ((fs.bytesOf s.path).getD []) (off - s.start) (data.take n))[i]? := by
      intro i
      rw [byteAt, hbytes, if_pos rfl, bind_some]
    constructor
    · intro p i hc
      by_cases hpath : p = s.path
      · subst hpath
        have hout : i < off - s.start ∨ off - s.start + n ≤ i := by
          by_contra hin
          push Not at hin
          exact hc ⟨s, hmem, hp, rfl, ⟨by omega, by omega⟩, by omega, by omega⟩
        rw [hbyte, getElem?_writeAt, htake]
        cases hold : fs.bytesOf s.path with
        | none =>
          rw [byteAt, hold]
          rcases hout with hout | hout
          · rw [if_pos hout, getD_none, if_neg (by simp)]
            exact .inr ⟨rfl, rfl⟩
          · rw [if_neg (by omega), if_neg (by omega)]
            exact .inl (by simp)
        | some bytes =>
          rw [byteAt, hold, bind_some, getD_some]
          rcases hout with hout | hout
          · rw [if_pos hout]
            split
            · exact .inl rfl
            · exact .inr ⟨getElem?_eq_none (by omega), rfl⟩
          · rw [if_neg (by omega), if_neg (by omega)]
            exact .inl rfl
      · exact .inl (by rw [byteAt, byteAt, hbytes, if_neg hpath])
    · intro i hi _
      rw [htake] at hi
      simp only [view, h.spanAt_chunk hs (show i < s.stop - off by omega), bind_some, hp,
        Bool.false_eq_true, ↓reduceIte]
      rw [hbyte, getElem?_writeAt, htake, if_neg (by omega), if_pos (by omega)]
      congr 1
      omega

theorem writeLoop_spec (h : Laid spans) (hd : DistinctPaths spans) (fuel : ℕ) :
    ∀ off data fs, data.length ≤ fuel → ∃ fs' r, writeLoop spans fuel off data fs = some (fs', r) ∧
        Kept spans off data.length fs fs' ∧ (r = .ok () → Wrote spans fs' off data) := by
  induction fuel with
  | zero =>
    intro off data fs hlen
    obtain rfl : data = [] := length_eq_zero_iff.1 (by omega)
    exact ⟨fs, .ok (), by simp [writeLoop], kept_of_bytesOf_eq fun _ => rfl,
      fun _ i hi => absurd hi (by simp)⟩
  | succ fuel ih =>
    intro off data fs hlen
    unfold writeLoop
    by_cases hdata : data = []
    · subst hdata
      exact ⟨fs, .ok (), by simp, kept_of_bytesOf_eq fun _ => rfl,
        fun _ i hi => absurd hi (by simp)⟩
    rw [if_neg hdata]
    cases hw : writeChunk spans off data fs with
    | mk fs₁ r₁ =>
      rcases writeChunk_spec h hdata hw with ⟨e, rfl, hsame⟩ | ⟨n, rfl, hpos, hle, hk, hwrote⟩
      · exact ⟨fs₁, .error e, rfl, kept_of_bytesOf_eq hsame, by simp⟩
      · obtain ⟨fs₂, r, hloop, hk₂, hw₂⟩ := ih (off + n) (data.drop n) fs₁ (by simp; omega)
        rw [length_drop] at hk₂
        refine ⟨fs₂, r, hloop, ?_, ?_⟩
        · have := hk.append hk₂
          rwa [Nat.add_sub_cancel' hle] at this
        · intro hr i hi hpad
          rcases Nat.lt_or_ge i n with hin | hin
          · -- an earlier chunk is out of the range of what follows
            have hi' : i < (data.take n).length := by simp; omega
            have hshow := hwrote i hi' hpad
            rw [getElem?_take, if_pos hin, getElem?_eq_getElem hi] at hshow
            rw [getElem?_eq_getElem hi]
            exact hk₂.view_eq h hd (.inl (by omega)) hshow
          · have := hw₂ hr (i - n) (by rw [length_drop]; omega)
            rw [show off + n + (i - n) = off + i by omega, getElem?_drop,
              Nat.add_sub_cancel' hin] at this
            exact this hpad

/-- A table that one of the two functions built. -/
def IsTable (spans : List FileSpan) : Prop :=
  (∃ base files padding, spans = buildFileSpansPadded base files padding) ∨
    ∃ base files pieceLength, spans = buildFileSpansAligned base files pieceLength

theorem IsTable.laid (h : IsTable spans) : Laid spans := by
  rcases h with ⟨base, files, padding, rfl⟩ | ⟨base, files, pieceLength, rfl⟩
  · exact laid_padded base files padding
  · exact laid_aligned base files pieceLength

/-- Pieces that are written one after another, each with success. -/
def pieceWrites (spans : List FileSpan) (pieceLength : ℕ) :
    LTS FileSystem (UInt32 × List UInt8) where
  step fs e fs' := writePiece spans e.1 pieceLength e.2 fs = some (fs', .ok ())

/-- **The byte last written** at an offset of the torrent. -/
def lastWritten (pieceLength : ℕ) (es : List (UInt32 × List UInt8)) (g : ℕ) : Option UInt8 :=
  es.foldl (fun last e =>
    if e.1.toNat * pieceLength ≤ g ∧ g < e.1.toNat * pieceLength + e.2.length then
      e.2[g - e.1.toNat * pieceLength]?
    else last) none

theorem view_of_lastWritten (h : Laid spans) (hd : DistinctPaths spans) {pieceLength : ℕ}
    {es : List (UInt32 × List UInt8)} (hrun : (pieceWrites spans pieceLength).Run fs es fs') :
    ∀ g b, padded spans g = false → lastWritten pieceLength es g = some b →
      view spans fs' g = some b := by
  refine hrun.history (I := fun es fs' => ∀ g b, padded spans g = false →
    lastWritten pieceLength es g = some b → view spans fs' g = some b) ?_ (by simp [lastWritten])
  intro es fs e fs' ih hstep g b hpad hlast
  obtain ⟨fs₁, r, hw, hk, hwrote⟩ :=
    writeLoop_spec h hd e.2.length (e.1.toNat * pieceLength) e.2 fs le_rfl
  obtain ⟨rfl, rfl⟩ : fs₁ = fs' ∧ r = .ok () := by
    have heq : some (fs₁, r) = some (fs', .ok ()) := hw.symm.trans hstep
    simpa using heq
  rw [lastWritten, foldl_append, foldl_cons, foldl_nil] at hlast
  split at hlast
  · rename_i hin
    have := hwrote rfl (g - e.1.toNat * pieceLength) (by omega)
    rw [Nat.add_sub_cancel' hin.1] at this
    rw [this hpad, hlast]
  · rename_i hin
    exact hk.view_eq h hd (by omega) (ih g b hpad hlast)

/-- **The disk is one flat byte array.** For every table of files, laid
end to end with padding or aligned, that names no file twice, and every
run of pieces written: a later read of a range of bytes that were written
or are padding returns the bytes written last, and zeros on padding, by
either reader; the two readers agree on every range; and a write changes
no byte of any file outside its range. Every loop ends. -/
theorem disk_is_flat (spans : List FileSpan) (htable : IsTable spans)
    (hd : DistinctPaths spans) :
    (∀ pieceLength fs es fs', (pieceWrites spans pieceLength).Run fs es fs' →
      (∀ off len, (∀ g, off ≤ g → g < off + len →
          padded spans g = true ∨ (lastWritten pieceLength es g).isSome = true) →
        ∃ bytes, readAtGlobalOffset spans off len fs' = some (.ok bytes) ∧
          bytes.length = len ∧
          (∀ i < len, bytes[i]? = if padded spans (off + i) then some 0
            else lastWritten pieceLength es (off + i)) ∧
          ∀ (index : UInt32) stride, index.toNat * stride = off →
            readPieceBytes spans index stride len fs' = some (.ok bytes))) ∧
    (∀ fs (index : UInt32) stride len, ∃ r r',
      readAtGlobalOffset spans (index.toNat * stride) len fs = some r ∧
      readPieceBytes spans index stride len fs = some r' ∧ r.toOption = r'.toOption) ∧
    ∀ fs (index : UInt32) pieceLength data, ∃ fs' r,
      writePiece spans index pieceLength data fs = some (fs', r) ∧
      Kept spans (index.toNat * pieceLength) data.length fs fs' := by
  have h := htable.laid
  refine ⟨?_, ?_, ?_⟩
  · intro pieceLength fs es fs' hrun off len hrange
    have hwritten := view_of_lastWritten h hd hrun
    -- the expected bytes, and that the flat array shows them
    let want : ℕ → UInt8 := fun i =>
      if padded spans (off + i) then 0 else (lastWritten pieceLength es (off + i)).getD 0
    let bytes := (List.range len).map want
    have hlen : bytes.length = len := by simp [bytes]
    have hbytes : ∀ i < len, bytes[i]? = if padded spans (off + i) then some 0
        else lastWritten pieceLength es (off + i) := by
      intro i hi
      simp only [bytes, getElem?_map, getElem?_range hi, map_some, want]
      split
      · rfl
      · rename_i hpad
        obtain ⟨b, hb⟩ := isSome_iff_exists.1
          ((hrange (off + i) (by omega) (by omega)).resolve_left hpad)
        rw [hb, getD_some]
    have hshow : Shows spans fs' off bytes := by
      intro i hi
      rw [hlen] at hi
      rw [hbytes i hi]
      split
      · rename_i hpad
        obtain ⟨s, hs, hp⟩ := Option.any_eq_true _ _ |>.1 hpad
        simp [view, hs, hp]
      · rename_i hpad
        obtain ⟨b, hb⟩ := isSome_iff_exists.1
          ((hrange (off + i) (by omega) (by omega)).resolve_left hpad)
        rw [hb, hwritten (off + i) b (by simpa using hpad) hb]
    refine ⟨bytes, (readAtGlobalOffset_eq_ok_iff h).2 ⟨hlen, hshow⟩, hlen, hbytes, ?_⟩
    rintro index stride rfl
    exact (readPieceBytes_eq_ok_iff h).2 ⟨hlen, hshow⟩
  · exact fun fs index stride len => readPieceBytes_agrees h fs index stride len
  · intro fs index pieceLength data
    obtain ⟨fs', r, hw, hk, -⟩ :=
      writeLoop_spec h hd data.length (index.toNat * pieceLength) data fs le_rfl
    exact ⟨fs', r, hw, hk⟩

/-- `disk_is_flat` for a file, padding, an empty file and another file,
with the second piece written before the first. -/
theorem disk_is_flat_sample :
    ∃ spans, IsTable spans ∧ DistinctPaths spans ∧
      ∃ fs', (pieceWrites spans 4).Run (fun _ => none) [(1, [0, 5, 6, 7]), (0, [1, 2, 3, 0])] fs' ∧
        ∃ bytes, readAtGlobalOffset spans 1 6 fs' = some (.ok bytes) ∧ bytes[3]? = some 0 := by
  let spans := buildFileSpansPadded [] [([[97]], 3), ([[112]], 2), ([[98]], 0), ([[99]], 4)]
    [false, true]
  have htable : IsTable spans := Or.inl ⟨_, _, _, rfl⟩
  have hd : DistinctPaths spans := by
    unfold DistinctPaths
    decide
  let fs₁ := (writeChunk spans 5 [5, 6, 7] fun _ => none).1
  let fs₂ := (writeChunk spans 0 [1, 2, 3, 0] fs₁).1
  have h₁ : (pieceWrites spans 4).step (fun _ => none) (1, [0, 5, 6, 7]) fs₁ := rfl
  have h₂ : (pieceWrites spans 4).step fs₁ (0, [1, 2, 3, 0]) fs₂ := rfl
  have hrun := (LTS.Run.nil.snoc h₁).snoc h₂
  obtain ⟨bytes, hread, -, hbytes, -⟩ :=
    (disk_is_flat spans htable hd).1 4 _ _ _ hrun 1 6 (by decide)
  refine ⟨spans, htable, hd, fs₂, hrun, bytes, hread, ?_⟩
  rw [hbytes 3 (by decide)]
  decide

end BitTorrent
