import BitTorrent.Utp.Connection

/-!
# Selective acknowledgements

The mask that `selective_ack` builds names only packets that are held: what `process_ack` reads
back out of it are keys of the map it was built from.
-/

namespace BitTorrent.Utp.Connection

open List

/-- Bit `bit` of a mask. -/
def HasBit (mask : List UInt8) (bit : ℕ) : Prop :=
  (mask.getD (bit / 8) 0 &&& (1 <<< UInt8.ofNat (bit % 8))) ≠ 0

variable {b : ℕ}

theorem or_bit_and_bit (x : UInt8) {a : ℕ} (ha : a < 8) (hb : b < 8) (hne : a ≠ b) :
    (x ||| (1 <<< UInt8.ofNat a)) &&& (1 <<< UInt8.ofNat b) = x &&& (1 <<< UInt8.ofNat b) := by
  have hall : ∀ a b : Fin 8, a ≠ b →
      ((1 : UInt8) <<< UInt8.ofNat a) &&& (1 <<< UInt8.ofNat b) = 0 := by decide
  have hzero := congrArg UInt8.toBitVec (hall ⟨a, ha⟩ ⟨b, hb⟩ (by simpa using hne))
  apply UInt8.eq_of_toBitVec_eq
  simp only [UInt8.toBitVec_and, UInt8.toBitVec_or] at hzero ⊢
  rw [BitVec.and_or_distrib_right, hzero]
  exact BitVec.or_zero

variable {mask : List UInt8} {bit : ℕ}

theorem hasBit_of_setBit (h : HasBit (setBit mask bit) b) : b = bit ∨ HasBit mask b := by
  by_cases heq : b = bit
  · exact .inl heq
  · refine .inr fun hzero => h ?_
    rw [setBit, getD_eq_getElem?_getD, getElem?_modify]
    rw [getD_eq_getElem?_getD] at hzero
    by_cases hbyte : bit / 8 = b / 8
    · -- the same byte, so another bit of it
      rcases hx : mask[b / 8]? with _ | x
      · simp
      · rw [hx] at hzero
        have := or_bit_and_bit x (Nat.mod_lt bit (by omega)) (Nat.mod_lt b (by omega)) (by omega)
        simpa [hbyte, this] using hzero
    · simpa [hbyte] using hzero

variable {bits : List ℕ}

theorem hasBit_of_setBits (h : HasBit (bits.foldl setBit mask) b) : b ∈ bits ∨ HasBit mask b := by
  induction bits generalizing mask with
  | nil => exact .inr h
  | cons bit bits ih =>
    rcases ih h with hmem | hbit
    · exact .inl (mem_cons_of_mem _ hmem)
    · rcases hasBit_of_setBit hbit with rfl | hbit
      · exact .inl mem_cons_self
      · exact .inr hbit

theorem not_hasBit_replicate (n b : ℕ) : ¬ HasBit (replicate n 0) b := by
  rw [HasBit, getD_eq_getElem?_getD, getElem?_replicate]
  split <;> simp

variable {ack : UInt16} {seq : UInt16}

theorem exists_hasBit_of_mem_sackedNumbers
    (h : seq ∈ sackedNumbers ack mask) : ∃ b, HasBit mask b ∧ seq = ack + 2 + .ofNat b := by
  simp only [sackedNumbers, mem_flatMap, mem_filterMap, mem_range] at h
  obtain ⟨⟨byte, i⟩, hbyte, bit, hbit, hseq⟩ := h
  rw [mem_zipIdx_iff_getElem?] at hbyte
  split at hseq
  · contradiction
  · rename_i hset
    refine ⟨i * 8 + bit, ?_, (Option.some_inj.1 hseq).symm⟩
    rw [HasBit, show (i * 8 + bit) / 8 = i by omega, show (i * 8 + bit) % 8 = bit by omega,
      getD_eq_getElem?_getD, hbyte]
    exact hset

variable {keys : List UInt16}

theorem mem_of_mem_sackedNumbers (hkeys : ∀ key ∈ keys, 2 ≤ (key - ack).toNat)
    (h : seq ∈ sackedNumbers ack (sackMask ack keys)) : seq ∈ keys := by
  obtain ⟨b, hbit, rfl⟩ := exists_hasBit_of_mem_sackedNumbers h
  rw [sackMask] at hbit
  split at hbit
  · exact absurd hbit (by simp [HasBit])
  · have hmem := (hasBit_of_setBits hbit).resolve_right (not_hasBit_replicate _ _)
    simp only [map_map, mem_map, Function.comp_apply] at hmem
    obtain ⟨key, hkey, rfl⟩ := hmem
    have htwo := hkeys key hkey
    suffices hsame : ack + 2 + .ofNat ((key - ack).toNat - 2) = key by rwa [hsame]
    apply UInt16.toNat_inj.1
    have := ack.toNat_lt
    have := key.toNat_lt
    simp only [UInt16.toNat_sub] at htwo
    simp only [UInt16.toNat_add, UInt16.toNat_sub, UInt16.toNat_ofNat']
    change ((ack.toNat + 2) % 65536 + _) % 65536 = _
    omega

theorem length_setBits (bits : List ℕ) (mask : List UInt8) :
    (bits.foldl setBit mask).length = mask.length := by
  induction bits generalizing mask with
  | nil => rfl
  | cons bit bits ih => rw [foldl_cons, ih, setBit, length_modify]

theorem length_sackMask_le (ack : UInt16) (keys : List UInt16) :
    (sackMask ack keys).length ≤ maxSackBytes := by
  rw [sackMask]
  split
  · simp
  · rw [length_setBits, length_replicate]
    exact min_le_right _ _

theorem or_bit_and_self (x : UInt8) {a : ℕ} (ha : a < 8) :
    (x ||| (1 <<< UInt8.ofNat a)) &&& (1 <<< UInt8.ofNat a) ≠ 0 := by
  have hall : ∀ a : Fin 8, ((1 : UInt8) <<< UInt8.ofNat a) ≠ 0 := by decide
  have hself : (x ||| (1 <<< UInt8.ofNat a)) &&& (1 <<< UInt8.ofNat a) = 1 <<< UInt8.ofNat a := by
    apply UInt8.eq_of_toBitVec_eq
    simp only [UInt8.toBitVec_and, UInt8.toBitVec_or]
    rw [BitVec.and_or_distrib_right, BitVec.and_self]
    ext i hi
    simp only [BitVec.getElem_or, BitVec.getElem_and]
    cases (UInt8.toBitVec (1 <<< UInt8.ofNat a))[i] <;> simp
  rw [hself]
  exact hall ⟨a, ha⟩

theorem hasBit_setBit_self (h : bit / 8 < mask.length) : HasBit (setBit mask bit) bit := by
  have hbyte := or_bit_and_self mask[bit / 8] (Nat.mod_lt bit (by omega : 8 > 0))
  rw [HasBit, setBit, getD_eq_getElem?_getD, getElem?_modify, getElem?_eq_getElem h]
  simpa using hbyte

theorem hasBit_setBit_of_hasBit (h : HasBit mask b) : HasBit (setBit mask bit) b := by
  rcases eq_or_ne b bit with rfl | hne
  · refine hasBit_setBit_self ?_
    by_contra hge
    rw [HasBit, getD_eq_getElem?_getD, getElem?_eq_none (by omega)] at h
    simp at h
  · rw [HasBit, setBit, getD_eq_getElem?_getD, getElem?_modify]
    rw [HasBit, getD_eq_getElem?_getD] at h
    by_cases hbyte : bit / 8 = b / 8
    · rcases hx : mask[b / 8]? with _ | x
      · simp [hx] at h
      · have hother := or_bit_and_bit x (Nat.mod_lt bit (by omega)) (Nat.mod_lt b (by omega))
          (by omega)
        rw [hx] at h
        simpa [hbyte, hother] using h
    · simpa [hbyte] using h

theorem hasBit_setBits
    (h : HasBit mask b ∨ b ∈ bits ∧ b / 8 < mask.length) : HasBit (bits.foldl setBit mask) b := by
  induction bits generalizing mask with
  | nil => simpa using h
  | cons bit bits ih =>
    refine ih ?_
    rcases h with h | ⟨hmem, hlt⟩
    · exact .inl (hasBit_setBit_of_hasBit h)
    · rcases mem_cons.1 hmem with rfl | hmem
      · exact .inl (hasBit_setBit_self hlt)
      · rw [setBit, length_modify]
        exact .inr ⟨hmem, hlt⟩

theorem lt_length_sackMask {key : UInt16}
    (hkeys : ∀ key ∈ keys, (key - ack).toNat ≤ 64) (hkey : key ∈ keys) :
    ((key - ack).toNat - 2) / 8 < (sackMask ack keys).length := by
  have hmem : (key - ack).toNat ∈ keys.map fun seq => (seq - ack).toNat := mem_map_of_mem hkey
  rw [sackMask]
  split
  · rename_i hnone
    rw [max?_eq_none_iff] at hnone
    rw [hnone] at hmem
    cases hmem
  · rename_i span hspan
    have hle := (max?_eq_some_iff.1 hspan).2 _ hmem
    obtain ⟨last, hlast, heq⟩ := mem_map.1 (max?_eq_some_iff.1 hspan).1
    have hspan64 := hkeys last hlast
    rw [length_setBits, length_replicate, maxSackBytes]
    omega

theorem hasBit_sackMask_iff
    (hkeys : ∀ key ∈ keys, 2 ≤ (key - ack).toNat ∧ (key - ack).toNat ≤ 64) (i : UInt16) :
    HasBit (sackMask ack keys) i.toNat ↔ ack + 2 + i ∈ keys := by
  have hplace : ∀ key, 2 ≤ (key - ack).toNat → ((key - ack).toNat - 2 = i.toNat ↔
      ack + 2 + i = key) := by
    intro key htwo
    rw [← UInt16.toNat_inj]
    have := ack.toNat_lt
    have := key.toNat_lt
    have := i.toNat_lt
    simp only [UInt16.toNat_sub] at htwo ⊢
    simp only [UInt16.toNat_add]
    change _ ↔ ((ack.toNat + 2) % 65536 + _) % 65536 = _
    omega
  constructor
  · intro hbit
    rw [sackMask] at hbit
    split at hbit
    · exact absurd hbit (by simp [HasBit])
    · have hmem := (hasBit_of_setBits hbit).resolve_right (not_hasBit_replicate _ _)
      simp only [map_map, mem_map, Function.comp_apply] at hmem
      obtain ⟨key, hkey, heq⟩ := hmem
      rwa [(hplace key (hkeys key hkey).1).1 heq]
  · intro hmem
    have hlt := lt_length_sackMask (fun key hkey => (hkeys key hkey).2) hmem
    have hbit := (hplace _ (hkeys _ hmem).1).2 rfl
    rw [hbit] at hlt
    rw [sackMask] at hlt ⊢
    split at hlt
    · simp at hlt
    · rw [length_setBits] at hlt
      refine hasBit_setBits (.inr ⟨?_, hlt⟩)
      simp only [map_map, mem_map, Function.comp_apply]
      exact ⟨_, hmem, hbit⟩

end BitTorrent.Utp.Connection
