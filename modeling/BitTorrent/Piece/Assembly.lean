import BitTorrent.Piece.Record

/-!
# What an assembler has put together

Results about whole runs of an assembler, from an empty one through any number of messages,
requests, refusals, chokes and hand-offs.
-/

namespace BitTorrent.PieceAssembler

open List Option PieceWork

variable {a a' : PieceAssembler} {work : PieceWork} {ops : List AssemblerOp}

/-- Block `k` counts as received. -/
def Has (a : PieceAssembler) (k : ℕ) : Prop := a.received[k]? = some true

instance (a : PieceAssembler) (k : ℕ) : Decidable (a.Has k) := inferInstanceAs (Decidable (_ = _))

theorem run_append (a : PieceAssembler) (ops ops' : List AssemblerOp) :
    a.run (ops ++ ops') = (a.run ops).bind fun b => b.run ops' := by
  induction ops generalizing a with
  | nil => rfl
  | cons op ops ih =>
    simp only [cons_append, run, bind_assoc, ih]

theorem run_snoc (a : PieceAssembler) (ops : List AssemblerOp) (op : AssemblerOp) :
    a.run (ops ++ [op]) = (a.run ops).bind fun b => b.step op := by
  rw [run_append]
  simp [run]

theorem isComplete_new (h : 0 < work.numBlocks) : (new work).isComplete = false := by
  obtain ⟨n, hn⟩ := Nat.exists_eq_succ_of_ne_zero h.ne'
  simp [isComplete, new, hn, replicate_succ]

/-- **When a run panics.** From any assembler that is opened, through any
operations: it goes through exactly when no message, at the moment it is
taken in, runs past the flags. -/
theorem run_isSome_iff (work : PieceWork) (part : Option PartialPiece) (ops : List AssemblerOp) :
    ((openFrom work part).run ops).isSome ↔
      ∀ pre m post a, ops = pre ++ .record m :: post →
        (openFrom work part).run pre = some a → ¬ a.Overruns m := by
  have hopen := valid_openFrom work part
  constructor
  · rintro hsome pre m post a rfl hpre ho
    have hnone := (step_eq_none_iff (valid_run hopen hpre).1 (.record m)).2 ⟨m, rfl, ho⟩
    rw [run_append, hpre, bind_some, run, hnone] at hsome
    simp at hsome
  · -- on the length of the run, from its end
    induction ops using List.reverseRecOn with
    | nil => exact fun _ => rfl
    | append_singleton ops op ih =>
      intro h
      have hops := ih fun pre m post a heq => h pre m (post ++ [op]) a (by simp [heq])
      obtain ⟨b, hb⟩ := isSome_iff_exists.1 hops
      rw [run_snoc, hb, bind_some, isSome_iff_ne_none, Ne,
        step_eq_none_iff (valid_run hopen hb).1]
      rintro ⟨m, rfl, ho⟩
      exact h ops m [] b rfl hb ho

/-- **The empty block at the end of a piece.** A piece of one block, and
one message with no bytes at the offset where the piece ends: recording
it panics. -/
theorem record_empty_block_at_end :
    (openFrom (.sample 16384) none).run [.record ⟨16384, [], by decide⟩] = none := by
  have ho : (openFrom (.sample 16384) none).Overruns ⟨16384, [], by decide⟩ :=
    ⟨isComplete_new (by decide), rfl, rfl, by decide⟩
  rw [run, (step_eq_none_iff (valid_openFrom _ _) _).2 ⟨_, rfl, ho⟩, bind_none]

/-- **What the flags and the buffer say of the operations so far**: a
block of the piece that was recorded has its flag set, and a block whose
flag is set is in the buffer as some message carried it. -/
structure Assembled (work : PieceWork) (ops : List AssemblerOp) (a : PieceAssembler) : Prop where
  valid : a.Valid
  work_eq : a.work = work
  has_of_record : ∀ m k, .record m ∈ ops → work.IsBlock k m → a.Has k
  record_of_has : ∀ k, a.Has k → ∃ m, .record m ∈ ops ∧ work.IsBlock k m ∧
    slice a.buf (k * blockSize) (work.blockLen k) = m.block

theorem assembled_new (work : PieceWork) : Assembled work [] (new work) where
  valid := valid_new work
  work_eq := rfl
  has_of_record := by simp
  record_of_has := by
    intro k hk
    simp only [Has, new, getElem?_replicate] at hk
    split at hk <;> simp at hk

theorem isComplete_iff (ha : a.Valid) : a.isComplete = true ↔ ∀ k < a.work.numBlocks, a.Has k := by
  rw [isComplete, List.all_eq_true, ← ha.received_length]
  constructor
  · intro h k hk
    rw [Has, getElem?_eq_getElem hk]
    exact congrArg some (h _ (getElem_mem hk))
  · intro h b hb
    obtain ⟨k, hk, rfl⟩ := getElem_of_mem hb
    exact (List.getElem?_eq_some_iff.1 (h k hk)).2

variable {m : PieceMessage}

theorem has_record_iff (ha : a.Valid) {k j : ℕ} (h : a.work.IsBlock k m) :
    (a.record m).Has j ↔ j = k ∨ a.Has j := by
  have hk : k < a.received.length := by
    rw [ha.received_length]
    exact h.1
  simp only [Has, record, h.2.1, mul_blockSize_div, getElem?_set]
  by_cases hj : k = j
  · subst hj
    simp [hk]
  · simp [hj, Ne.symm hj]

theorem slice_record_self (ha : a.Valid) {k : ℕ} (h : a.work.IsBlock k m) :
    slice (a.record m).buf (k * blockSize) (a.work.blockLen k) = m.block := by
  have hfits := h.fits.1
  have hbuf := ha.buf_length
  rw [record, ← h.2.2, ← h.2.1, slice_splice_self (by omega)]

theorem slice_record_of_ne (ha : a.Valid) {k j : ℕ} (h : a.work.IsBlock k m) (hj : j ≠ k) :
    slice (a.record m).buf (j * blockSize) (a.work.blockLen j) =
      slice a.buf (j * blockSize) (a.work.blockLen j) := by
  have hfits := h.fits.1
  have hbuf := ha.buf_length
  refine slice_splice_of_disjoint (by omega) ?_
  have h₁ : a.work.blockLen j ≤ blockSize := blockLen_le
  have h₂ : m.block.length ≤ blockSize := h.2.2 ▸ blockLen_le
  rw [h.2.1]
  simp only [blockSize] at *
  omega

theorem Assembled.step (h : Assembled work ops a) {op : AssemblerOp}
    (hop : ∀ m, op = .record m → work.Fits m → ∃ k, work.IsBlock k m)
    (hstep : a.step op = some a') : Assembled work (ops ++ [op]) a' := by
  have ha := h.valid
  obtain rfl := h.work_eq
  rcases step_cases ha hstep with ⟨m, rfl, rfl, -, hfits, -⟩ | ⟨hv, hw, hrec, hbuf, hsame⟩
  · obtain ⟨k, hk⟩ := hop m rfl hfits
    refine ⟨valid_record ha hfits, rfl, ?_, ?_⟩
    · intro m' j hm' hj
      rw [has_record_iff ha hk]
      rcases mem_append.1 hm' with hm' | hm'
      · exact .inr (h.has_of_record m' j hm' hj)
      · obtain rfl : m' = m := by simpa using hm'
        -- the two numbers of one offset are one
        have := hj.2.1.symm.trans hk.2.1
        exact .inl (Nat.eq_of_mul_eq_mul_right (by decide) this)
    · intro j hj
      by_cases hjk : j = k
      · subst hjk
        exact ⟨m, by simp, hk, slice_record_self ha hk⟩
      · obtain ⟨m', hm', hblock, heq⟩ :=
          h.record_of_has j (((has_record_iff ha hk).1 hj).resolve_left hjk)
        exact ⟨m', by simp [hm'], hblock, by rw [slice_record_of_ne ha hk hjk, heq]⟩
  · refine ⟨hv, hw, ?_, ?_⟩
    · intro m j hm hj
      rw [Has, hrec]
      rcases mem_append.1 hm with hm | hm
      · exact h.has_of_record m j hm hj
      · -- a block that is not taken in finds the piece complete
        obtain rfl : AssemblerOp.record m = op := by simpa using hm
        obtain rfl := hsame m rfl
        cases hc : a'.isComplete with
        | true => exact (isComplete_iff ha).1 hc j hj.1
        | false =>
          rcases recordBlock_of_incomplete ha hc m with ⟨hno, -⟩ | ⟨-, -, heq⟩ | ⟨ho, -⟩
          · exact absurd hj.fits hno
          · simp only [step, heq, map_some, some.injEq] at hstep
            have := (has_record_iff ha hj (j := j)).2 (.inl rfl)
            rwa [hstep] at this
          · refine absurd ?_ (fits_past_end_iff.2 ho.2).2
            rw [hj.2.1, mul_blockSize_div]
            exact hj.1
    · intro j hj
      have hj' : a.Has j := by rwa [Has, ← hrec]
      obtain ⟨m, hm, hblock, heq⟩ := h.record_of_has j hj'
      exact ⟨m, by simp [hm], hblock, by rw [hbuf (mem_of_getElem? hj'), heq]⟩

theorem assembled_run (work : PieceWork) (ops : List AssemblerOp)
    (hops : ∀ m, .record m ∈ ops → work.Fits m → ∃ k, work.IsBlock k m) :
    ∃ a, (new work).run ops = some a ∧ Assembled work ops a := by
  induction ops using reverseRecOn with
  | nil => exact ⟨_, rfl, assembled_new work⟩
  | append_singleton ops op ih =>
    obtain ⟨a, hrun, ha⟩ := ih fun m hm => hops m (by simp [hm])
    have hop : ∀ m, op = .record m → work.Fits m → ∃ k, work.IsBlock k m :=
      fun m hm => hops m (by simp [hm])
    have hsome : a.step op ≠ none := by
      rw [Ne, step_eq_none_iff ha.valid]
      rintro ⟨m, rfl, ho⟩
      have hpast := fits_past_end_iff.2 ho.2
      rw [ha.work_eq] at hpast
      obtain ⟨k, hk⟩ := hop m rfl hpast.1
      exact hpast.2 (by rw [hk.2.1, mul_blockSize_div]; exact hk.1)
    obtain ⟨a', ha'⟩ := ne_none_iff_exists'.1 hsome
    exact ⟨a', by rw [run_snoc, hrun, bind_some, ha'], ha.step hop ha'⟩

/-- **What counts as received is what a message carried.** In every run
whose messages, where they fit the piece, are blocks of it: a block that
counts as received is in the buffer as one message with its offset and
its length carried it, and a message that is not a block of the piece
changes nothing. -/
theorem received_is_message (work : PieceWork) (ops : List AssemblerOp)
    (hops : ∀ m, .record m ∈ ops → work.Fits m → ∃ k, work.IsBlock k m) :
    ∃ a, (new work).run ops = some a ∧
      (∀ k, a.Has k → ∃ m, .record m ∈ ops ∧ m.begin.toNat = k * blockSize ∧
        m.block.length = work.blockLen k ∧
        slice a.buf (k * blockSize) (work.blockLen k) = m.block) ∧
      ∀ m, (work.Fits m → ∃ k, work.IsBlock k m) → (∀ k, ¬ work.IsBlock k m) →
        a.step (.record m) = some a := by
  obtain ⟨a, hrun, ha⟩ := assembled_run work ops hops
  refine ⟨a, hrun, ?_, ?_⟩
  · intro k hk
    obtain ⟨m, hm, hblock, heq⟩ := ha.record_of_has k hk
    exact ⟨m, hm, hblock.2.1, hblock.2.2, heq⟩
  · intro m hfits hno
    have hnofit : ¬ work.Fits m := by
      intro h
      obtain ⟨k, hk⟩ := hfits h
      exact hno k hk
    rw [← ha.work_eq] at hnofit
    cases hc : a.isComplete with
    | true => simp [PieceAssembler.step, recordBlock, hc]
    | false =>
      rcases recordBlock_of_incomplete ha.valid hc m with ⟨-, e, heq⟩ | ⟨hf, -⟩ | ⟨ho, -⟩
      · simp [PieceAssembler.step, heq]
      · exact absurd hf hnofit
      · exact absurd (fits_past_end_iff.2 ho.2).1 hnofit

/-- `received_is_message` for a block taken in twice, with a choke in
between and a message that does not fit. -/
theorem received_is_message_sample :
    ∃ a, (new (.sample 3)).run [.record ⟨0, [1, 2, 3], by decide⟩, .forget,
        .record ⟨0, [1, 2, 3], by decide⟩, .record ⟨1, [9], by decide⟩] = some a ∧
      ∀ k, a.Has k → slice a.buf (k * blockSize) ((PieceWork.sample 3).blockLen k) = [1, 2, 3] := by
  obtain ⟨a, hrun, hhas, -⟩ := received_is_message (.sample 3)
    [.record ⟨0, [1, 2, 3], by decide⟩, .forget, .record ⟨0, [1, 2, 3], by decide⟩,
      .record ⟨1, [9], by decide⟩] (by
    intro m hm hfits
    simp only [mem_cons, AssemblerOp.record.injEq, reduceCtorEq, not_mem_nil, or_false,
      false_or] at hm
    rcases hm with rfl | rfl | rfl
    · exact ⟨0, by decide, by decide, by decide⟩
    · exact ⟨0, by decide, by decide, by decide⟩
    · exact absurd hfits.2 (by decide))
  refine ⟨a, hrun, fun k hk => ?_⟩
  obtain ⟨m, hm, hbegin, hlen, heq⟩ := hhas k hk
  simp only [mem_cons, AssemblerOp.record.injEq, reduceCtorEq, not_mem_nil, or_false,
    false_or] at hm
  rcases hm with rfl | rfl | rfl
  · exact heq
  · exact heq
  · simp only [UInt32.toNat_one, blockSize] at hbegin
    omega

/-- **An offset that is not a multiple of the block size.** A piece of
two blocks, and one message of a block's length at offset one: block 0
counts as received, and no message had its offset. -/
theorem unaligned_counts_as_received :
    ∃ m a, (new (.sample 32768)).run [.record m] = some a ∧ a.Has 0 ∧
      m.begin.toNat ≠ 0 * blockSize := by
  have hv := valid_new (.sample 32768)
  have hc : (new (.sample 32768)).isComplete = false := isComplete_new (by decide)
  let m : PieceMessage := ⟨1, List.replicate 16384 0, by rw [length_replicate]; decide⟩
  have hfits : (PieceWork.sample 32768).Fits m := by
    constructor
    all_goals
      simp only [m, length_replicate]
      decide
  refine ⟨m, (new (.sample 32768)).record m, ?_, ?_, by decide⟩
  · rcases recordBlock_of_incomplete hv hc m with ⟨hno, -⟩ | ⟨-, -, heq⟩ | ⟨ho, -⟩
    · exact absurd hfits hno
    · simp [run, PieceAssembler.step, heq]
    · exact absurd ho.2.1 (by decide)
  · have hb : (PieceWork.sample 32768).numBlocks = 2 := by decide
    have hi : m.begin.toNat / blockSize = 0 := by decide
    simp [Has, record, new, hb, hi]

theorem finish_spec [Digests] {d : List UInt8} (h : a.finish = .ok d) :
    d = a.buf ∧ a.work.matches d = true := by
  unfold finish at h
  split at h
  · cases h
  · split at h
    · cases h
    · rename_i hm
      cases h
      exact ⟨rfl, by simpa using hm⟩

theorem buf_eq_of_blocks (ha : a.Valid) {content : List UInt8}
    (hlen : content.length = a.work.length.toNat)
    (h : ∀ k < a.work.numBlocks, slice a.buf (k * blockSize) (a.work.blockLen k) =
      slice content (k * blockSize) (a.work.blockLen k)) : a.buf = content := by
  have hbuf := ha.buf_length
  refine eq_of_slice_eq (by omega) fun i hi => ?_
  have hk : i / blockSize < a.work.numBlocks := by
    rw [PieceWork.lt_numBlocks_iff]
    have := Nat.div_mul_le_self i blockSize
    omega
  refine ⟨_, _, Nat.div_mul_le_self i blockSize, ?_, h _ hk⟩
  simp only [PieceWork.blockLen, blockSize]
  omega

/-- **A piece put together from the blocks of one content.** Its blocks
are recorded in any order and any number of times, with requests,
refusals, chokes and hand-offs in between. The piece is complete exactly
when every block has been recorded, and `finish` then returns the content
if it matches the hash; and what `finish` returns always matches. -/
theorem finish_of_blocks_recorded [Digests] (work : PieceWork) (content : List UInt8)
    (hlen : content.length = work.length.toNat) (ops : List AssemblerOp)
    (hops : ∀ m, .record m ∈ ops → ∃ k < work.numBlocks, m.begin.toNat = k * blockSize ∧
      m.block = slice content (k * blockSize) blockSize) :
    ∃ a, (new work).run ops = some a ∧
      (a.isComplete = true ↔
        ∀ k < work.numBlocks, ∃ m, .record m ∈ ops ∧ m.begin.toNat = k * blockSize) ∧
      (a.isComplete = true →
        a.finish = if work.matches content then .ok content else .error .hashMismatch) ∧
      ∀ (b : PieceAssembler) (d : List UInt8), b.finish = .ok d → b.work.matches d = true := by
  have hblock : ∀ m k, .record m ∈ ops → k < work.numBlocks → m.begin.toNat = k * blockSize →
      work.IsBlock k m ∧ m.block = slice content (k * blockSize) (work.blockLen k) := by
    intro m k hm hk hbegin
    obtain ⟨j, -, hj, hdata⟩ := hops m hm
    obtain rfl : j = k := Nat.eq_of_mul_eq_mul_right (by decide) (hj.symm.trans hbegin)
    have hl : m.block.length = work.blockLen j := by
      rw [hdata, length_slice, hlen, PieceWork.blockLen, min_comm]
    refine ⟨⟨hk, hbegin, hl⟩, ?_⟩
    rw [← hl, hdata]
    simp [slice]
  have hfit : ∀ m, .record m ∈ ops → work.Fits m → ∃ k, work.IsBlock k m := by
    intro m hm _
    obtain ⟨k, hk, hbegin, -⟩ := hops m hm
    exact ⟨k, (hblock m k hm hk hbegin).1⟩
  obtain ⟨a, hrun, ha⟩ := assembled_run work ops hfit
  obtain rfl := ha.work_eq
  refine ⟨a, hrun, ?_, ?_, fun b d h => (finish_spec h).2⟩
  · rw [isComplete_iff ha.valid]
    constructor
    · intro h k hk
      obtain ⟨m, hm, hb, -⟩ := ha.record_of_has k (h k hk)
      exact ⟨m, hm, hb.2.1⟩
    · intro h k hk
      obtain ⟨m, hm, hbegin⟩ := h k hk
      exact ha.has_of_record m k hm (hblock m k hm hk hbegin).1
  · intro hc
    have hbuf : a.buf = content := by
      refine buf_eq_of_blocks ha.valid hlen fun k hk => ?_
      obtain ⟨m, hm, hb, heq⟩ := ha.record_of_has k ((isComplete_iff ha.valid).1 hc k hk)
      rw [heq, (hblock m k hm hk hb.2.1).2]
    simp only [finish, hc, hbuf, Bool.not_true, Bool.false_eq_true, ↓reduceIte]
    cases a.work.matches content <;> rfl

/-- The two blocks of a piece of 16385 bytes. -/
def firstBlock : PieceMessage := ⟨0, replicate blockSize 1, by rw [length_replicate]; decide⟩

def lastBlock : PieceMessage := ⟨16384, [2], by decide⟩

/-- The blocks come in the other order, with a hand-off in between, under a
digest that sends everything to zeros. -/
theorem finish_of_blocks_recorded_sample :
    let _ := Digests.zero
    ∃ a, (new (.sample 16385)).run
        [.nextRequests 5, .record lastBlock, .handOff, .record firstBlock] = some a ∧
      a.isComplete = true ∧ a.finish = .ok (replicate blockSize 1 ++ [2]) := by
  let _ := Digests.zero
  obtain ⟨a, hrun, hcomplete, hfinish, -⟩ := finish_of_blocks_recorded (.sample 16385)
    (replicate blockSize 1 ++ [2]) (by rw [length_append, length_replicate]; rfl)
    [.nextRequests 5, .record lastBlock, .handOff, .record firstBlock] (by
      intro m hm
      obtain rfl | rfl : m = lastBlock ∨ m = firstBlock := by simpa using hm
      · exact ⟨1, by decide, rfl, by
          rw [slice, one_mul, drop_left' (length_replicate ..)]
          rfl⟩
      · exact ⟨0, by decide, rfl, by
          rw [slice, zero_mul, drop_zero, take_left' (length_replicate ..)]
          rfl⟩)
  have hc : a.isComplete = true := by
    refine hcomplete.2 fun k hk => ?_
    have hcount : (PieceWork.sample 16385).numBlocks = 2 := by decide
    obtain rfl | rfl : k = 0 ∨ k = 1 := by omega
    · exact ⟨firstBlock, by simp, rfl⟩
    · exact ⟨lastBlock, by simp, rfl⟩
  exact ⟨a, hrun, hc, (hfinish hc).trans (if_pos rfl)⟩

end BitTorrent.PieceAssembler
