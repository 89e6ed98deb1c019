import BitTorrent.Disk.FileWriter

/-!
# One flat byte array

Over a table whose spans lie one after another, a byte of the torrent is in at most one of them,
and the files hold a flat array of bytes, some of them not there yet (`view`).
-/

namespace BitTorrent

open List Option

variable {spans : List FileSpan} {fs fs' : FileSystem} {g off n : ℕ} {s : FileSpan}

/-- **Spans one after another.** -/
structure Laid (spans : List FileSpan) : Prop where
  ordered : spans.Pairwise fun a b => a.stop ≤ b.start
  start_le : ∀ s ∈ spans, s.start ≤ s.stop

/-- A byte of the torrent lies in a span. -/
def FileSpan.Holds (s : FileSpan) (g : ℕ) : Prop := s.start ≤ g ∧ g < s.stop

variable (base : Path)

theorem laid_layFiles (padding : ℕ → Bool) {next : ℕ → ℕ} (hnext : ∀ n, n ≤ next n)
    (files : List (List Name × ℕ)) : ∀ index cursor,
      Laid (layFiles base padding next index cursor files) ∧
      ∀ s ∈ layFiles base padding next index cursor files, cursor ≤ s.start := by
  induction files with
  | nil => exact fun _ _ => ⟨⟨List.Pairwise.nil, by simp [layFiles]⟩, by simp [layFiles]⟩
  | cons f files ih =>
    intro index cursor
    obtain ⟨hlaid, hle⟩ := ih (index + 1) (next (cursor + f.2))
    have hcur := hnext (cursor + f.2)
    simp only [layFiles]
    refine ⟨⟨pairwise_cons.2 ⟨fun b hb => ?_, hlaid.ordered⟩, ?_⟩, ?_⟩
    · exact hcur.trans (hle b hb)
    · intro s hs
      rcases mem_cons.1 hs with rfl | hs
      · exact Nat.le_add_right _ _
      · exact hlaid.start_le s hs
    · intro s hs
      rcases mem_cons.1 hs with rfl | hs
      · exact le_rfl
      · have := hle s hs
        omega

variable (files : List (List Name × ℕ))

theorem laid_padded (padding : List Bool) :
    Laid (buildFileSpansPadded base files padding) :=
  (laid_layFiles base _ (fun _ => le_rfl) files 0 0).1

theorem le_nextMultipleOf {m : ℕ} (hm : 0 < m) (n : ℕ) : n ≤ nextMultipleOf n m := by
  have h := Nat.div_add_mod (n + m - 1) m
  have hlt := Nat.mod_lt (n + m - 1) hm
  rw [nextMultipleOf, mul_comm]
  omega

theorem laid_aligned (pieceLength : ℕ) :
    Laid (buildFileSpansAligned base files pieceLength) :=
  (laid_layFiles base _ (le_nextMultipleOf (by omega)) files 0 0).1

theorem spanAt_cons (s : FileSpan) (spans : List FileSpan) (g : ℕ) : spanAt (s :: spans) g =
      if s.stop ≤ g then spanAt spans g else if s.start ≤ g then some s else none := by
  unfold spanAt partitionPoint
  split
  · rename_i h
    rw [takeWhile_cons_of_pos (by simpa using h), length_cons, getElem?_cons_succ]
  · rename_i h
    rw [takeWhile_cons_of_neg (by simpa using h), length_nil, getElem?_cons_zero]
    simp [Option.filter]

theorem Laid.spanAt_eq_some_iff (h : Laid spans) :
    spanAt spans g = some s ↔ s ∈ spans ∧ s.Holds g := by
  obtain ⟨hord, -⟩ := h
  induction spans with
  | nil => simp [spanAt]
  | cons a spans ih =>
    obtain ⟨ha, hord⟩ := pairwise_cons.1 hord
    rw [spanAt_cons, mem_cons]
    split
    · rename_i hstop
      rw [ih hord]
      constructor
      · exact fun hs => ⟨.inr hs.1, hs.2⟩
      · rintro ⟨rfl | hs, hg⟩
        · have := hg.2
          omega
        · exact ⟨hs, hg⟩
    · rename_i hstop
      -- a later span starts past the end of this one
      have hlater : ∀ b ∈ spans, ¬ b.Holds g := by
        intro b hb hg
        have h₁ := ha b hb
        have h₂ := hg.1
        omega
      constructor
      · intro hs
        split at hs
        · cases hs
          exact ⟨.inl rfl, by assumption, by omega⟩
        · cases hs
      · rintro ⟨rfl | hs, hg⟩
        · rw [if_pos hg.1]
        · exact absurd hg (hlater s hs)

theorem Laid.spanAt_chunk (h : Laid spans) (hs : spanAt spans off = some s) {i : ℕ}
    (hi : i < s.stop - off) : spanAt spans (off + i) = some s := by
  obtain ⟨hmem, hstart, hstop⟩ := h.spanAt_eq_some_iff.1 hs
  exact h.spanAt_eq_some_iff.2 ⟨hmem, by omega, by omega⟩

theorem Laid.lt_stop (h : Laid spans) (hs : spanAt spans off = some s) :
    s.start ≤ off ∧ off < s.stop :=
  (h.spanAt_eq_some_iff.1 hs).2

/-- A byte of the torrent that is padding. -/
def padded (spans : List FileSpan) (g : ℕ) : Bool := (spanAt spans g).any (·.padding)

/-- A byte of a file, if there is one. -/
def byteAt (fs : FileSystem) (path : Path) (i : ℕ) : Option UInt8 :=
  (fs.bytesOf path).bind fun bytes => bytes[i]?

/-- **The flat array**: padding is zeros, and another byte is what its
file has for it. -/
def view (spans : List FileSpan) (fs : FileSystem) (g : ℕ) : Option UInt8 :=
  (spanAt spans g).bind fun s => if s.padding then some 0 else byteAt fs s.path (g - s.start)

/-- A range of the flat array is `out`. -/
def Shows (spans : List FileSpan) (fs : FileSystem) (off : ℕ) (out : List UInt8) : Prop :=
  ∀ i < out.length, view spans fs (off + i) = out[i]?

theorem shows_append (xs ys : List UInt8) : Shows spans fs off (xs ++ ys) ↔
      Shows spans fs off xs ∧ Shows spans fs (off + xs.length) ys := by
  constructor
  · intro h
    constructor
    · intro i hi
      rw [h i (by simp only [length_append]; omega), getElem?_append_left hi]
    · intro i hi
      have := h (xs.length + i) (by simp only [length_append]; omega)
      rw [Nat.add_assoc, this, getElem?_append_right (by omega), Nat.add_sub_cancel_left]
  · rintro ⟨h₁, h₂⟩ i hi
    rcases Nat.lt_or_ge i xs.length with hx | hx
    · rw [h₁ i hx, getElem?_append_left hx]
    · simp only [length_append] at hi
      rw [getElem?_append_right hx, ← h₂ (i - xs.length) (by omega)]
      congr 1
      omega

theorem Shows.unique {xs ys : List UInt8} (hx : Shows spans fs off xs) (hy : Shows spans fs off ys)
    (hlen : xs.length = ys.length) : xs = ys := by
  apply ext_getElem?
  intro i
  rcases Nat.lt_or_ge i xs.length with hi | hi
  · rw [← hx i hi, ← hy i (by omega)]
  · rw [getElem?_eq_none hi, getElem?_eq_none (by omega)]

theorem Shows.slice {bytes : List UInt8} (h : Shows spans fs off bytes) (begin len : ℕ)
    (hle : begin + len ≤ bytes.length) : Shows spans fs (off + begin) (slice bytes begin len) := by
  intro i hi
  rw [length_slice] at hi
  rw [getElem?_slice, if_pos (by omega), Nat.add_assoc, h (begin + i) (by omega)]

variable {out : List UInt8}

theorem Laid.shows_padding (h : Laid spans) (hs : spanAt spans off = some s)
    (hp : s.padding = true) (hn : out.length ≤ s.stop - off) :
    Shows spans fs off out ↔ out = replicate out.length 0 := by
  have hview : ∀ i < out.length, view spans fs (off + i) = some 0 := by
    intro i hi
    simp [view, h.spanAt_chunk hs (show i < s.stop - off by omega), hp]
  constructor
  · intro hshow
    apply ext_getElem?
    intro i
    rw [getElem?_replicate]
    split
    · rename_i hi
      rw [← hshow i hi, hview i hi]
    · rename_i hi
      rw [getElem?_eq_none (by omega)]
  · intro heq i hi
    rw [hview i hi, heq, getElem?_replicate, if_pos hi]

theorem Laid.shows_file (h : Laid spans) (hs : spanAt spans off = some s)
    (hp : s.padding = false) (hn : n ≤ s.stop - off) (hpos : 0 < n) :
    fs.readExact s.path (off - s.start) n = .ok out ↔ out.length = n ∧ Shows spans fs off out := by
  obtain ⟨hstart, hstop⟩ := h.lt_stop hs
  have hview : ∀ i < n, view spans fs (off + i) = byteAt fs s.path (off - s.start + i) := by
    intro i hi
    simp only [view, h.spanAt_chunk hs (show i < s.stop - off by omega), bind_some, hp,
      Bool.false_eq_true, ↓reduceIte]
    congr 1
    omega
  rw [FileSystem.readExact_eq_ok_iff]
  constructor
  · rintro ⟨bytes, hbytes, hle, rfl⟩
    have hlen : (slice bytes (off - s.start) n).length = n := by
      rw [length_slice]
      omega
    refine ⟨hlen, fun i hi => ?_⟩
    rw [hlen] at hi
    rw [hview i hi, byteAt, hbytes, bind_some, getElem?_slice, if_pos hi]
  · rintro ⟨rfl, hshow⟩
    have hbyte : ∀ i < out.length, byteAt fs s.path (off - s.start + i) = out[i]? :=
      fun i hi => by rw [← hview i hi, hshow i hi]
    -- the first byte is there, so the file is; the last one is, so it is long enough
    cases hbytes : fs.bytesOf s.path with
    | none =>
      have := hbyte 0 hpos
      rw [byteAt, hbytes, getElem?_eq_getElem hpos] at this
      cases this
    | some bytes =>
      have hbyte' : ∀ i < out.length, bytes[off - s.start + i]? = out[i]? := by
        intro i hi
        rw [← hbyte i hi, byteAt, hbytes, bind_some]
      refine ⟨bytes, rfl, ?_, ?_⟩
      · have hlast := hbyte' (out.length - 1) (by omega)
        rw [getElem?_eq_getElem (show out.length - 1 < out.length by omega)] at hlast
        have := (List.getElem?_eq_some_iff.1 hlast).1
        omega
      · apply ext_getElem?
        intro i
        rw [getElem?_slice]
        split
        · rename_i hi
          exact (hbyte' i hi).symm
        · rename_i hi
          exact getElem?_eq_none (by omega)

end BitTorrent
