import BitTorrent.Piece.Assembler

/-!
# What the operations of an assembler do

An assembler is *valid* when its buffer and its flags have the lengths its piece gives them and
its cursor and refused blocks lie within them.
-/

namespace BitTorrent

open List Option

namespace PieceWork

variable {work : PieceWork} {k : ℕ}

/-- The length of block `k`: `blockSize`, or what is left for it. -/
def blockLen (work : PieceWork) (k : ℕ) : ℕ := min (work.length.toNat - k * blockSize) blockSize

/-- **A message that is taken in**: it lies within the piece and has the
length of the block its offset falls in. -/
def Fits (work : PieceWork) (m : PieceMessage) : Prop :=
  m.begin.toNat + m.block.length ≤ work.length.toNat ∧
    m.block.length = work.blockLen (m.begin.toNat / blockSize)

/-- **A message that is a block**: it has the offset and the length of
block `k` of the piece. -/
def IsBlock (work : PieceWork) (k : ℕ) (m : PieceMessage) : Prop :=
  k < work.numBlocks ∧ m.begin.toNat = k * blockSize ∧ m.block.length = work.blockLen k

theorem lt_numBlocks_iff : k < work.numBlocks ↔ k * blockSize < work.length.toNat := by
  simp only [numBlocks, blockSize]
  omega

theorem blockLen_le : work.blockLen k ≤ blockSize := Nat.min_le_right _ _

theorem mul_blockSize_div : k * blockSize / blockSize = k := Nat.mul_div_cancel k (by decide)

variable {m : PieceMessage}

theorem IsBlock.fits (h : work.IsBlock k m) : work.Fits m := by
  obtain ⟨hk, hbegin, hlen⟩ := h
  have := lt_numBlocks_iff.1 hk
  refine ⟨?_, by rw [hbegin, mul_blockSize_div, hlen]⟩
  rw [hbegin, hlen, blockLen]
  omega

end PieceWork

namespace PieceAssembler

variable {a a' : PieceAssembler}

/-- **A valid assembler**: its parts fit its piece. -/
structure Valid (a : PieceAssembler) : Prop where
  buf_length : a.buf.length = a.work.length.toNat
  received_length : a.received.length = a.work.numBlocks
  cursor_le : a.nextUnrequestedBlock ≤ a.received.length
  refused_lt : ∀ b ∈ a.refused, b < a.nextUnrequestedBlock

variable (work : PieceWork)

@[simp] theorem new_work : (new work).work = work := rfl

theorem valid_new : (new work).Valid where
  buf_length := by simp [new]
  received_length := by simp [new]
  cursor_le := by simp [new]
  refused_lt := by simp [new]

variable (part : PartialPiece)

@[simp] theorem resume_work : (resume work part).work = work := by
  simp only [resume]
  split <;> rfl

theorem valid_resume : (resume work part).Valid := by
  have hnew := valid_new work
  simp only [resume]
  split
  · rename_i hfit
    exact ⟨hfit.1.trans hnew.buf_length, hfit.2.trans hnew.received_length, Nat.zero_le _,
      hnew.refused_lt⟩
  · exact hnew

variable (part : Option PartialPiece)

@[simp] theorem openFrom_work : (openFrom work part).work = work := by
  cases part <;> simp [openFrom]

theorem valid_openFrom : (openFrom work part).Valid := by
  cases part with
  | none => exact valid_new work
  | some part => exact valid_resume work part

theorem blockLen_eq {k : ℕ} (h : k * blockSize ≤ a.work.length.toNat) :
    a.blockLen k = some (a.work.blockLen k) := by
  rw [blockLen, if_pos h, PieceWork.blockLen]

section

variable (ha : a.Valid)

include ha

theorem request_isSome {k : ℕ} (hk : k < a.received.length) : (a.request k).isSome := by
  have hlen := ha.received_length
  have hoff : k * blockSize < a.work.length.toNat := PieceWork.lt_numBlocks_iff.1 (by omega)
  simp [request, blockLen_eq hoff.le]

theorem takeRefused_isSome (stack : List ℕ) : ∀ room, (∀ b ∈ stack, b < a.received.length) →
      ∃ out rest, a.takeRefused room stack = some (out, rest) ∧ ∀ b ∈ rest, b ∈ stack := by
  induction stack with
  | nil =>
    intro room _
    cases room <;> exact ⟨_, _, rfl, fun _ h => h⟩
  | cons blockIdx stack ih =>
    intro room hstack
    cases room with
    | zero => exact ⟨_, _, rfl, fun _ h => h⟩
    | succ room =>
      have hidx : blockIdx < a.received.length := hstack blockIdx (by simp)
      have hrest : ∀ b ∈ stack, b < a.received.length := fun b hb => hstack b (by simp [hb])
      rw [takeRefused, getElem?_eq_getElem hidx]
      simp only [bind_eq_bind, bind_some]
      split
      · obtain ⟨out, rest, heq, hsub⟩ := ih (room + 1) hrest
        exact ⟨out, rest, heq, fun b hb => by simp [hsub b hb]⟩
      · obtain ⟨req, hreq⟩ := isSome_iff_exists.1 (request_isSome ha hidx)
        obtain ⟨out, rest, heq, hsub⟩ := ih room hrest
        rw [hreq, heq]
        exact ⟨req :: out, rest, rfl, fun b hb => by simp [hsub b hb]⟩

theorem takeFresh_isSome (left : ℕ) : ∀ next room, next + left ≤ a.received.length →
      ∃ out cursor, a.takeFresh left next room = some (out, cursor) ∧
        next ≤ cursor ∧ cursor ≤ a.received.length := by
  induction left with
  | zero => exact fun next room h => ⟨_, _, rfl, le_rfl, by omega⟩
  | succ left ih =>
    intro next room h
    cases room with
    | zero => exact ⟨_, _, rfl, le_rfl, by omega⟩
    | succ room =>
      have hidx : next < a.received.length := by omega
      rw [takeFresh, getElem?_eq_getElem hidx]
      simp only [bind_eq_bind, bind_some]
      split
      · obtain ⟨out, cursor, heq, h₁, h₂⟩ := ih (next + 1) (room + 1) (by omega)
        exact ⟨out, cursor, heq, by omega, h₂⟩
      · obtain ⟨req, hreq⟩ := isSome_iff_exists.1 (request_isSome ha hidx)
        obtain ⟨out, cursor, heq, h₁, h₂⟩ := ih (next + 1) room (by omega)
        rw [hreq, heq]
        exact ⟨req :: out, cursor, rfl, by omega, h₂⟩

theorem nextRequests_spec (maxNew : ℕ) :
    ∃ out a', a.nextRequests maxNew = some (out, a') ∧ a'.Valid ∧ a'.work = a.work ∧
      a'.buf = a.buf ∧ a'.received = a.received := by
  obtain ⟨again, stack, hagain, hsub⟩ := takeRefused_isSome ha a.refused maxNew
    fun b hb => lt_of_lt_of_le (ha.refused_lt b hb) ha.cursor_le
  obtain ⟨fresh, cursor, hfresh, hle, hcur⟩ := takeFresh_isSome ha
    (a.received.length - a.nextUnrequestedBlock) a.nextUnrequestedBlock (maxNew - again.length)
    (by have := ha.cursor_le; omega)
  refine ⟨again ++ fresh, { a with refused := stack, nextUnrequestedBlock := cursor }, ?_, ?_,
    rfl, rfl, rfl⟩
  · simp [nextRequests, hagain, numBlocks, hfresh]
  · exact ⟨ha.buf_length, ha.received_length, hcur,
      fun b hb => lt_of_lt_of_le (ha.refused_lt b (hsub b hb)) hle⟩

theorem refuseRequest_spec (begin : UInt32) :
    ∃ a', a.refuseRequest begin = some a' ∧ a'.Valid ∧ a'.work = a.work ∧
      a'.buf = a.buf ∧ a'.received = a.received := by
  unfold refuseRequest
  dsimp only
  split
  · rename_i hasked
    have hidx : begin.toNat / blockSize < a.received.length := lt_of_lt_of_le hasked.1 ha.cursor_le
    rw [getElem?_eq_getElem hidx]
    simp only [bind_eq_bind, bind_some]
    split
    · refine ⟨_, rfl, ⟨ha.buf_length, ha.received_length, ha.cursor_le, ?_⟩, rfl, rfl, rfl⟩
      intro b hb
      rcases mem_cons.1 hb with rfl | hb
      · exact hasked.1
      · exact ha.refused_lt b hb
    · exact ⟨a, rfl, ha, rfl, rfl, rfl⟩
  · exact ⟨a, rfl, ha, rfl, rfl, rfl⟩

end

/-- **The message that runs past the flags**: an empty block at the very
end of a piece that is a whole number of blocks. -/
def Overruns (a : PieceAssembler) (m : PieceMessage) : Prop :=
  a.isComplete = false ∧ m.begin = a.work.length ∧ m.block = [] ∧
    blockSize ∣ a.work.length.toNat

instance (a : PieceAssembler) (m : PieceMessage) : Decidable (a.Overruns m) := instDecidableAnd

/-- The assembler after a block has been taken in. -/
def record (a : PieceAssembler) (m : PieceMessage) : PieceAssembler :=
  { a with
    buf := splice a.buf m.begin.toNat m.block
    received := a.received.set (m.begin.toNat / blockSize) true }

theorem block_length_lt (m : PieceMessage) : m.block.length < 2 ^ 32 := by
  have := m.block_le
  simp only [maxMessageLen] at this
  omega

theorem fits_past_end_iff {work : PieceWork} :
    (work.Fits m ∧ ¬ m.begin.toNat / blockSize < work.numBlocks) ↔
      m.begin = work.length ∧ m.block = [] ∧ blockSize ∣ work.length.toNat := by
  rw [PieceWork.lt_numBlocks_iff]
  simp only [PieceWork.Fits, PieceWork.blockLen, blockSize, ← length_eq_zero_iff,
    ← UInt32.toNat_inj]
  omega

section

variable (ha : a.Valid)

include ha

theorem recordBlock_of_incomplete (hc : a.isComplete = false) (m : PieceMessage) :
    (¬ a.work.Fits m ∧ ∃ e, a.recordBlock m.begin m.block = some (.error e, a)) ∨
    (a.work.Fits m ∧ m.begin.toNat / blockSize < a.work.numBlocks ∧
      a.recordBlock m.begin m.block = some (.ok (), a.record m)) ∨
    (a.Overruns m ∧ a.recordBlock m.begin m.block = none) := by
  have hlt := block_length_lt m
  have hbuf := ha.buf_length
  have hrec := ha.received_length
  have hlen := a.work.length.toNat_lt
  unfold recordBlock
  dsimp only
  rw [hc, if_neg (by simp), Nat.mod_eq_of_lt hlt]
  by_cases hin : m.begin.toNat + m.block.length ≤ a.work.length.toNat
  · rw [if_neg (by omega), if_neg (by omega)]
    have hle : m.begin.toNat / blockSize * blockSize ≤ a.work.length.toNat := by
      have := Nat.div_mul_le_self m.begin.toNat blockSize
      omega
    rw [blockLen_eq hle]
    simp only [bind_eq_bind, bind_some]
    by_cases hsize : m.block.length = a.work.blockLen (m.begin.toNat / blockSize)
    · have hfits : a.work.Fits m := ⟨hin, hsize⟩
      rw [if_neg (by simpa using hsize), copyInto, if_pos ⟨rfl, by omega⟩]
      by_cases hidx : m.begin.toNat / blockSize < a.work.numBlocks
      · refine .inr (.inl ⟨hfits, hidx, ?_⟩)
        rw [setReceived, if_pos (by omega)]
        rfl
      · refine .inr (.inr ⟨⟨hc, fits_past_end_iff.1 ⟨hfits, hidx⟩⟩, ?_⟩)
        rw [setReceived, if_neg (by omega)]
        rfl
    · rw [if_pos (by simpa using hsize)]
      exact .inl ⟨fun h => hsize h.2, _, rfl⟩
  · refine .inl ⟨fun h => hin h.1,
      .blockOutOfRange m.begin.toNat m.block.length a.work.length.toNat, ?_⟩
    split
    · rfl
    · rw [if_pos (by omega)]

theorem recordBlock_cases {r : Except AssemblerError Unit}
    (h : a.recordBlock m.begin m.block = some (r, a')) :
    (a' = a ∧ r ≠ .ok ()) ∨
    (a' = a.record m ∧ r = .ok () ∧ a.isComplete = false ∧ a.work.Fits m ∧
      m.begin.toNat / blockSize < a.work.numBlocks) := by
  cases hc : a.isComplete with
  | true =>
    rw [recordBlock, if_pos hc] at h
    simp only [some.injEq, Prod.mk.injEq] at h
    exact .inl ⟨h.2.symm, by rw [← h.1]; simp⟩
  | false =>
    rcases recordBlock_of_incomplete ha hc m with ⟨-, e, heq⟩ | ⟨hfits, hidx, heq⟩ | ⟨-, heq⟩
    · rw [heq] at h
      simp only [some.injEq, Prod.mk.injEq] at h
      exact .inl ⟨h.2.symm, by rw [← h.1]; simp⟩
    · rw [heq] at h
      simp only [some.injEq, Prod.mk.injEq] at h
      exact .inr ⟨h.2.symm, h.1.symm, rfl, hfits, hidx⟩
    · rw [heq] at h
      cases h

theorem recordBlock_eq_none_iff (m : PieceMessage) :
    a.recordBlock m.begin m.block = none ↔ a.Overruns m := by
  cases hc : a.isComplete with
  | true =>
    rw [recordBlock, if_pos hc]
    simp [Overruns, hc]
  | false =>
    rcases recordBlock_of_incomplete ha hc m with ⟨hfits, e, heq⟩ | ⟨hfits, hidx, heq⟩ | ⟨ho, heq⟩
    · rw [heq]
      simp only [reduceCtorEq, false_iff]
      exact fun ho => hfits (fits_past_end_iff.2 ho.2).1
    · rw [heq]
      simp only [reduceCtorEq, false_iff]
      exact fun ho => (fits_past_end_iff.2 ho.2).2 hidx
    · exact ⟨fun _ => ho, fun _ => heq⟩

theorem valid_record (hfits : a.work.Fits m) : (a.record m).Valid where
  buf_length := by
    have := ha.buf_length
    have := hfits.1
    rw [record, length_splice (by omega)]
    exact ha.buf_length
  received_length := by simpa [record] using ha.received_length
  cursor_le := by simpa [record] using ha.cursor_le
  refused_lt := ha.refused_lt

theorem handOff_eq : (openFrom a.work a.intoPartial).received = a.received ∧
      (true ∈ a.received → (openFrom a.work a.intoPartial).buf = a.buf) := by
  have hbuf := ha.buf_length
  have hrec := ha.received_length
  unfold intoPartial
  dsimp only
  split
  · rename_i hheld
    simp only [openFrom, resume]
    rw [if_pos]
    · exact ⟨rfl, fun _ => rfl⟩
    · simp [new, hbuf, hrec]
  · rename_i hheld
    have hnone : true ∉ a.received := by
      simpa [PartialPiece.blocksHeld, count_eq_zero] using hheld
    refine ⟨?_, fun h => absurd h hnone⟩
    simp only [openFrom, new, ← hrec]
    symm
    rw [eq_replicate_iff]
    refine ⟨rfl, fun b hb => ?_⟩
    cases b with
    | false => rfl
    | true => exact absurd hb hnone

variable {op : AssemblerOp}

theorem step_cases (h : a.step op = some a') :
    (∃ m, op = .record m ∧ a' = a.record m ∧ a.isComplete = false ∧ a.work.Fits m ∧
      m.begin.toNat / blockSize < a.work.numBlocks) ∨
    (a'.Valid ∧ a'.work = a.work ∧ a'.received = a.received ∧
      (true ∈ a.received → a'.buf = a.buf) ∧ ∀ m, op = .record m → a' = a) := by
  cases op with
  | record m =>
    obtain ⟨⟨r, b⟩, hrec, rfl⟩ := map_eq_some_iff.1 h
    rcases recordBlock_cases ha hrec with ⟨rfl, -⟩ | ⟨rfl, -, hc, hfits, hidx⟩
    · exact .inr ⟨ha, rfl, rfl, fun _ => rfl, fun _ _ => rfl⟩
    · exact .inl ⟨m, rfl, rfl, hc, hfits, hidx⟩
  | nextRequests maxNew =>
    obtain ⟨out, b, heq, hb, hw, hbuf, hrec⟩ := nextRequests_spec ha maxNew
    simp only [step, heq, map_some, some.injEq] at h
    subst h
    exact .inr ⟨hb, hw, hrec, fun _ => hbuf, by simp⟩
  | refuse begin =>
    obtain ⟨b, heq, hb, hw, hbuf, hrec⟩ := refuseRequest_spec ha begin
    simp only [step, heq, some.injEq] at h
    subst h
    exact .inr ⟨hb, hw, hrec, fun _ => hbuf, by simp⟩
  | forget =>
    simp only [step, some.injEq] at h
    subst h
    exact .inr ⟨⟨ha.buf_length, ha.received_length, Nat.zero_le _, by simp [forgetRequests]⟩,
      rfl, rfl, fun _ => rfl, by simp⟩
  | handOff =>
    simp only [step, some.injEq] at h
    subst h
    obtain ⟨hrec, hbuf⟩ := handOff_eq ha
    exact .inr ⟨valid_openFrom _ _, openFrom_work _ _, hrec, hbuf, by simp⟩

theorem valid_step (h : a.step op = some a') : a'.Valid ∧ a'.work = a.work := by
  rcases step_cases ha h with ⟨m, -, rfl, -, hfits, -⟩ | ⟨hv, hw, -⟩
  · exact ⟨valid_record ha hfits, rfl⟩
  · exact ⟨hv, hw⟩

theorem valid_run {ops : List AssemblerOp} (h : a.run ops = some a') :
    a'.Valid ∧ a'.work = a.work := by
  induction ops generalizing a with
  | nil =>
    cases h
    exact ⟨ha, rfl⟩
  | cons op ops ih =>
    obtain ⟨b, hb, hrun⟩ := bind_eq_some_iff.1 h
    obtain ⟨hbv, hbw⟩ := valid_step ha hb
    obtain ⟨hv, hw⟩ := ih hbv hrun
    exact ⟨hv, hw.trans hbw⟩

theorem step_eq_none_iff (op : AssemblerOp) :
    a.step op = none ↔ ∃ m, op = .record m ∧ a.Overruns m := by
  cases op with
  | record m => simp [step, recordBlock_eq_none_iff ha]
  | nextRequests maxNew =>
    obtain ⟨out, b, heq, -⟩ := nextRequests_spec ha maxNew
    simp [step, heq]
  | refuse begin =>
    obtain ⟨b, heq, -⟩ := refuseRequest_spec ha begin
    simp [step, heq]
  | forget | handOff => simp [step]

end

end PieceAssembler

end BitTorrent
