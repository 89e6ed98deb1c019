import BitTorrent.Serving.Connection

/-!
# What the messages about pieces say

Which pieces a message tells a peer of, and what a `PeerState` makes of a
sequence of such messages: `bitfield_to_bytes` and `bytes_to_bitfield` are
inverse to each other, up to the bits that fill the last byte.
-/

namespace BitTorrent.Serving

open List Option PeerState

theorem bit_iff_testBit (byte : UInt8) {k : ℕ} (hk : k < 8) :
    ((byte >>> .ofNat k) &&& 1 == 1) = byte.toNat.testBit k := by
  rw [Nat.testBit_eq_decide_div_mod_eq, Bool.eq_iff_iff, beq_iff_eq, decide_eq_true_iff,
    ← UInt8.toNat_inj, UInt8.toNat_and, UInt8.toNat_shiftRight, UInt8.toNat_ofNat', UInt8.toNat_one,
    Nat.and_one_is_mod, Nat.shiftRight_eq_div_pow, Nat.mod_eq_of_lt (by omega : k < 2 ^ 8),
    Nat.mod_eq_of_lt hk]

theorem testBit_or_shiftLeft (byte : UInt8) {j : ℕ} (hj : j < 8) (k : ℕ) :
    (byte ||| ((1 : UInt8) <<< .ofNat j)).toNat.testBit k =
      (byte.toNat.testBit k || decide (j = k)) := by
  have hshift : ((1 : UInt8) <<< UInt8.ofNat j).toNat = 2 ^ j := by
    rw [UInt8.toNat_shiftLeft, UInt8.toNat_ofNat', UInt8.toNat_one,
      Nat.mod_eq_of_lt (by omega : j < 2 ^ 8), Nat.mod_eq_of_lt hj, Nat.one_shiftLeft]
    exact Nat.mod_eq_of_lt (Nat.pow_lt_pow_right (by decide) hj)
  rw [UInt8.toNat_or, hshift, Nat.testBit_or, Nat.testBit_two_pow]

/-- A piece in a bitfield. -/
def bitAt (bytes : List UInt8) (i : ℕ) : Bool := (bytes.getD (i / 8) 0).toNat.testBit (7 - i % 8)

variable {n : ℕ}

theorem getD_flatMap {α : Type} {f : UInt8 → List α} (hn : 0 < n)
    (hf : ∀ b, (f b).length = n) (default : α) (bytes : List UInt8) (i : ℕ) :
    (bytes.flatMap f).getD i default =
      ((bytes[i / n]?).map fun b => (f b).getD (i % n) default).getD default := by
  induction bytes generalizing i with
  | nil => simp
  | cons b bytes ih =>
    rw [flatMap_cons, getD_eq_getElem?_getD]
    by_cases hi : i < n
    · rw [getElem?_append_left (by rw [hf]; exact hi), Nat.div_eq_of_lt hi,
        Nat.mod_eq_of_lt hi]
      simp
    · have hle : n ≤ i := Nat.not_lt.1 hi
      rw [getElem?_append_right (by rw [hf]; exact hle), hf, ← getD_eq_getElem?_getD, ih,
        Nat.div_eq_sub_div hn hle, Nat.mod_eq_sub_mod hle, getElem?_cons_succ]

variable (bytes : List UInt8)

theorem getD_bytesToBitfield (i : ℕ) :
    (bytesToBitfield bytes).getD i false = bitAt bytes i := by
  have hlt : i % 8 < 8 := Nat.mod_lt _ (by decide)
  rw [bytesToBitfield, getD_flatMap (by decide : 0 < 8) (fun b => by simp), bitAt,
    getD_eq_getElem?_getD]
  cases hbyte : bytes[i / 8]? with
  | none => simp
  | some byte =>
    have hbit : (range 8).reverse[i % 8]? = some (7 - i % 8) := by
      rw [getElem?_reverse (by simpa using hlt), length_range, getElem?_range]
      omega
    simp only [map_some, getD_some]
    rw [getD_eq_getElem?_getD, getElem?_map, hbit, map_some, getD_some,
      bit_iff_testBit _ (by omega)]

theorem bitAt_modify {i : ℕ} (hi : i / 8 < bytes.length) (j : ℕ) :
    bitAt (bytes.modify (i / 8) (· ||| ((1 : UInt8) <<< .ofNat (7 - i % 8)))) j =
      (bitAt bytes j || decide (i = j)) := by
  unfold bitAt
  rw [getD_eq_getElem?_getD, getD_eq_getElem?_getD, getElem?_modify]
  by_cases hbyte : i / 8 = j / 8
  · rw [← hbyte, getElem?_eq_getElem hi]
    simp only [if_true, Option.map_eq_map, map_some, getD_some]
    rw [testBit_or_shiftLeft _ (by omega)]
    congr 1
    rw [decide_eq_decide]
    omega
  · have hne : i ≠ j := fun h => hbyte (by rw [h])
    simp [hbyte, hne]

theorem bitAt_bitfieldToBytes (pieces : List Bool) (j : ℕ) :
    bitAt (bitfieldToBytes pieces) j = pieces.getD j false := by
  -- over the pieces that are written already
  have hloop : ∀ done rest : List Bool, ∀ out : List UInt8, (done ++ rest).length ≤ 8 * out.length →
      (∀ j, bitAt out j = done.getD j false) →
      ∀ j, bitAt ((rest.zipIdx done.length).foldl (fun out x =>
        if x.1 then out.modify (x.2 / 8) (· ||| ((1 : UInt8) <<< .ofNat (7 - x.2 % 8))) else out)
        out) j = (done ++ rest).getD j false := by
    intro done rest
    induction rest generalizing done with
    | nil =>
      intro out _ hout j
      rw [append_nil]
      exact hout j
    | cons has rest ih =>
      intro out hlen hout j
      rw [zipIdx_cons, foldl_cons]
      have hdone : (done ++ [has]).length = done.length + 1 := by simp
      rw [← hdone, show done ++ has :: rest = (done ++ [has]) ++ rest by simp]
      rw [length_append, length_cons] at hlen
      refine ih (done ++ [has]) _ ?_ ?_ j
      · rw [length_append, hdone]
        split
        · rw [length_modify]
          omega
        · omega
      · intro j
        have hsnoc : (done ++ [has]).getD j false =
            (done.getD j false || (has && decide (done.length = j))) := by
          simp only [getD_eq_getElem?_getD]
          rcases Nat.lt_trichotomy j done.length with hlt | rfl | hgt
          · rw [getElem?_append_left hlt]
            simp [Nat.ne_of_gt hlt]
          · simp
          · rw [getElem?_eq_none (by simp; omega), getElem?_eq_none (by omega)]
            simp [Nat.ne_of_lt hgt]
        rw [hsnoc]
        cases has with
        | false => simpa using hout j
        | true =>
          rw [if_pos rfl, bitAt_modify out (by omega), hout j, Bool.true_and]
  have hzero : ∀ j, bitAt (replicate ((pieces.length + 7) / 8) 0) j =
      ([] : List Bool).getD j false := by
    intro j
    unfold bitAt
    rw [getD_eq_getElem?_getD, getElem?_replicate]
    split <;> simp
  have hwritten := hloop [] pieces (replicate ((pieces.length + 7) / 8) 0) (by
    rw [length_replicate, nil_append]
    omega) hzero j
  exact hwritten

/-- **The pieces that a message tells of**, in a torrent of so many. -/
def tells (n i : ℕ) : Message → Bool
  | .bitfield bits => bitAt bits i && decide (i < n)
  | .haveAll => decide (i < n)
  | .haveOne pieceIndex => decide (pieceIndex.toNat = i)
  | _ => false

theorem tells_firstMessage (fast : Bool) (advertised : List Bool) (i : ℕ) :
    tells advertised.length i (firstMessage fast advertised) = advertised.getD i false := by
  have hbitfield : tells advertised.length i (.bitfield (bitfieldToBytes advertised)) =
      advertised.getD i false := by
    rw [tells, bitAt_bitfieldToBytes, getD_eq_getElem?_getD]
    by_cases hi : i < advertised.length
    · simp [hi]
    · simp [getElem?_eq_none (Nat.not_lt.1 hi)]
  unfold firstMessage
  split
  · exact hbitfield
  · split
    · rename_i hall
      obtain ⟨hall, -⟩ := Bool.and_eq_true_iff.1 hall
      rw [List.all_eq_true] at hall
      rw [tells, getD_eq_getElem?_getD]
      by_cases hi : i < advertised.length
      · rw [getElem?_eq_getElem hi, getD_some]
        simpa [hi] using hall _ (getElem_mem hi)
      · simp [hi]
    · split
      · rename_i hnone
        rw [List.all_eq_true] at hnone
        change false = _
        rw [getD_eq_getElem?_getD]
        by_cases hi : i < advertised.length
        · rw [getElem?_eq_getElem hi, getD_some]
          simpa using (hnone _ (getElem_mem hi)).symm
        · simp [getElem?_eq_none (Nat.not_lt.1 hi)]
      · exact hbitfield

/-- A message that may follow the first: it does not say everything anew,
and is about a piece of the torrent. -/
def Follows (n : ℕ) : Message → Prop
  | .bitfield _ => False
  | .haveAll => False
  | .haveNone => False
  | .haveOne pieceIndex => pieceIndex.toNat < n
  | _ => True

/-- **What a connection is sent**: nothing, or the pieces there are and then
messages that may follow. -/
def Opened (n : ℕ) (sent : List Message) : Prop :=
  sent = [] ∨ ∃ fast advertised rest, sent = firstMessage fast advertised :: rest ∧
    advertised.length = n ∧ ∀ m ∈ rest, Follows n m

/-- A `PeerState` that is fed with messages. -/
def hearAll (p : PeerState) (ms : List Message) : PeerState :=
  ms.foldl (fun p m => (p.applyMessage m).2) p

theorem pieceLimit_applyMessage (p : PeerState) (m : Message) :
    (p.applyMessage m).2.pieceLimit = p.pieceLimit := by
  cases m with
  | haveOne pieceIndex =>
    rw [applyMessage_haveOne]
    split <;> rfl
  | allowedFast pieceIndex =>
    rw [applyMessage_allowedFast]
    split <;> rfl
  | _ => rfl

theorem getD_set_append {held : List Bool} {k j i : ℕ} (hj : j < held.length + k) :
    ((held ++ replicate k false).set j true).getD i false =
      (held.getD i false || decide (j = i)) := by
  have hpadded : (held ++ replicate k false).getD i false = held.getD i false := by
    simp only [getD_eq_getElem?_getD]
    by_cases hi : i < held.length
    · rw [getElem?_append_left hi]
    · rw [getElem?_append_right (Nat.not_lt.1 hi), getElem?_eq_none (Nat.not_lt.1 hi),
        getElem?_replicate]
      split <;> rfl
  rw [← hpadded, getD_eq_getElem?_getD, getD_eq_getElem?_getD, getElem?_set]
  by_cases hji : j = i
  · subst hji
    simp [hj]
  · simp [hji]

theorem getD_applyMessage {m : Message} (hm : Follows n m) (p : PeerState) (i : ℕ) :
    (p.applyMessage m).2.peerHasPieces.getD i false =
      (p.peerHasPieces.getD i false || (tells n i m && decide (i < p.pieceLimit))) := by
  cases m with
  | haveOne pieceIndex =>
    rw [applyMessage_haveOne, tells]
    split
    · rename_i hlimit
      by_cases hi : pieceIndex.toNat = i
      · simp [hi ▸ hlimit]
      · simp [hi]
    · rename_i hlimit
      dsimp only [ensureCapacity]
      rw [getD_set_append (by omega)]
      by_cases hi : pieceIndex.toNat = i
      · simp [hi, hi ▸ Nat.not_le.1 hlimit]
      · simp [hi]
  | allowedFast pieceIndex =>
    rw [applyMessage_allowedFast, show tells n i (.allowedFast pieceIndex) = false from rfl]
    split <;> simp
  | bitfield | haveAll | haveNone => exact hm.elim
  | _ => exact (Bool.or_false _).symm

theorem getD_hearAll {ms : List Message} (hms : ∀ m ∈ ms, Follows n m) (p : PeerState)
    (i : ℕ) : (hearAll p ms).peerHasPieces.getD i false =
      (p.peerHasPieces.getD i false || (ms.any (tells n i) && decide (i < p.pieceLimit))) := by
  induction ms generalizing p with
  | nil => simp [hearAll]
  | cons m ms ih =>
    rw [forall_mem_cons] at hms
    change (hearAll (p.applyMessage m).2 ms).peerHasPieces.getD i false = _
    rw [ih hms.2, getD_applyMessage hms.1, pieceLimit_applyMessage, any_cons, Bool.or_assoc,
      ← Bool.and_or_distrib_right]

theorem getD_take (l : List Bool) (k i : ℕ) :
    (l.take k).getD i false = (l.getD i false && decide (i < k)) := by
  simp only [getD_eq_getElem?_getD, getElem?_take]
  split
  all_goals
    rename_i hi
    simp [hi]

theorem getD_firstMessage (fast : Bool) (advertised : List Bool) (i : ℕ) :
    (((forTorrent advertised.length).applyMessage
      (firstMessage fast advertised)).2.peerHasPieces).getD i false =
      (advertised.getD i false && decide (i < min advertised.length maxTrackedPieces)) := by
  have htold := tells_firstMessage fast advertised i
  have hkind : (∃ bits, firstMessage fast advertised = .bitfield bits) ∨
      firstMessage fast advertised = .haveAll ∨ firstMessage fast advertised = .haveNone := by
    unfold firstMessage
    split
    · exact .inl ⟨_, rfl⟩
    · split
      · exact .inr (.inl rfl)
      · split
        · exact .inr (.inr rfl)
        · exact .inl ⟨_, rfl⟩
  rcases hkind with ⟨bits, hm⟩ | hm | hm
  · rw [hm] at htold ⊢
    rw [← htold, tells]
    change ((bytesToBitfield bits).take (min advertised.length maxTrackedPieces)).getD i false = _
    rw [getD_take, getD_bytesToBitfield, Bool.and_assoc]
    congr 1
    rw [Bool.eq_iff_iff, Bool.and_eq_true, decide_eq_true_iff, decide_eq_true_iff, lt_min_iff]
    exact ⟨fun h => ⟨h.1, h⟩, fun h => h.2⟩
  · rw [hm] at htold ⊢
    rw [← htold, tells]
    change (replicate (min advertised.length maxTrackedPieces) true).getD i false = _
    rw [getD_eq_getElem?_getD, getElem?_replicate]
    split
    · rename_i hi
      simp [hi, (lt_min_iff.1 hi).1]
    · rename_i hi
      simp [hi]
  · rw [hm] at htold ⊢
    rw [← htold]
    rfl

theorem hasPiece_hearAll {sent : List Message} (h : Opened n sent) (i : ℕ) :
    (hearAll (forTorrent n) sent).peerHasPieces.getD i false =
      (sent.any (tells n i) && decide (i < min n maxTrackedPieces)) := by
  rcases h with rfl | ⟨fast, advertised, rest, rfl, rfl, hrest⟩
  · rfl
  · change (hearAll ((forTorrent advertised.length).applyMessage
      (firstMessage fast advertised)).2 rest).peerHasPieces.getD i false = _
    rw [getD_hearAll hrest, getD_firstMessage, pieceLimit_applyMessage, any_cons,
      tells_firstMessage, Bool.and_or_distrib_right]
    rfl

end BitTorrent.Serving
