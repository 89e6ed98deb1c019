import BitTorrent.Common.BigEndian
import BitTorrent.Common.BlockBuffer
import Mathlib.Data.List.Induction
import Mathlib.Data.Nat.Bitwise

/-!
# SHA-256

`sha256.rs`: the compression function, and the hash fed with one slice of the message after
another.
-/

namespace BitTorrent

open List

/-- `K`. -/
def roundConstants : List UInt32 :=
  [0x428a2f98, 0x71374491, 0xb5c0fbcf, 0xe9b5dba5, 0x3956c25b, 0x59f111f1, 0x923f82a4,
    0xab1c5ed5, 0xd807aa98, 0x12835b01, 0x243185be, 0x550c7dc3, 0x72be5d74, 0x80deb1fe,
    0x9bdc06a7, 0xc19bf174, 0xe49b69c1, 0xefbe4786, 0x0fc19dc6, 0x240ca1cc, 0x2de92c6f,
    0x4a7484aa, 0x5cb0a9dc, 0x76f988da, 0x983e5152, 0xa831c66d, 0xb00327c8, 0xbf597fc7,
    0xc6e00bf3, 0xd5a79147, 0x06ca6351, 0x14292967, 0x27b70a85, 0x2e1b2138, 0x4d2c6dfc,
    0x53380d13, 0x650a7354, 0x766a0abb, 0x81c2c92e, 0x92722c85, 0xa2bfe8a1, 0xa81a664b,
    0xc24b8b70, 0xc76c51a3, 0xd192e819, 0xd6990624, 0xf40e3585, 0x106aa070, 0x19a4c116,
    0x1e376c08, 0x2748774c, 0x34b0bcb5, 0x391c0cb3, 0x4ed8aa4a, 0x5b9cca4f, 0x682e6ff3,
    0x748f82ee, 0x78a5636f, 0x84c87814, 0x8cc70208, 0x90befffa, 0xa4506ceb, 0xbef9a3f7,
    0xc67178f2]

/-- The eight words of a state. -/
structure HashWords where
  a : UInt32
  b : UInt32
  c : UInt32
  d : UInt32
  e : UInt32
  f : UInt32
  g : UInt32
  h : UInt32
deriving DecidableEq

namespace HashWords

def initial : HashWords :=
  ⟨0x6a09e667, 0xbb67ae85, 0x3c6ef372, 0xa54ff53a, 0x510e527f, 0x9b05688c, 0x1f83d9ab, 0x5be0cd19⟩

/-- `u32::rotate_right`, by less than a word. -/
def rotateRight (x n : UInt32) : UInt32 :=
  x >>> n ||| x <<< (32 - n)

/-- One word more of the schedule of `compress`. -/
def scheduleOne (w : List UInt32) (i : ℕ) : List UInt32 :=
  let w15 := w.getD (i - 15) 0
  let w2 := w.getD (i - 2) 0
  let s0 := rotateRight w15 7 ^^^ rotateRight w15 18 ^^^ w15 >>> 3
  let s1 := rotateRight w2 17 ^^^ rotateRight w2 19 ^^^ w2 >>> 10
  w.set i (w.getD (i - 16) 0 + s0 + w.getD (i - 7) 0 + s1)

/-- The schedule of `compress`: the words of the block, and then those made
of them. -/
def schedule (block : List UInt8) : List UInt32 :=
  let words := (List.range 16).map fun i => be32 block (4 * i)
  (List.range' 16 48).foldl scheduleOne (words ++ List.replicate 48 0)

/-- One round of `compress`. -/
def round (w : List UInt32) (s : HashWords) (i : ℕ) : HashWords :=
  let s1 := rotateRight s.e 6 ^^^ rotateRight s.e 11 ^^^ rotateRight s.e 25
  let ch := (s.e &&& s.f) ^^^ (~~~s.e &&& s.g)
  let t1 := s.h + s1 + ch + roundConstants.getD i 0 + w.getD i 0
  let s0 := rotateRight s.a 2 ^^^ rotateRight s.a 13 ^^^ rotateRight s.a 22
  let maj := (s.a &&& s.b) ^^^ (s.a &&& s.c) ^^^ (s.b &&& s.c)
  let t2 := s0 + maj
  ⟨t1 + t2, s.a, s.b, s.c, s.d + t1, s.e, s.f, s.g⟩

def compress (s : HashWords) (block : List UInt8) : HashWords :=
  let t := (List.range 64).foldl (round (schedule block)) s
  ⟨s.a + t.a, s.b + t.b, s.c + t.c, s.d + t.d, s.e + t.e, s.f + t.f, s.g + t.g, s.h + t.h⟩

/-- The digest that a state stands for. -/
def digest (s : HashWords) : List UInt8 :=
  [s.a, s.b, s.c, s.d, s.e, s.f, s.g, s.h].flatMap be32Bytes

end HashWords

/-- `u64::to_be_bytes`. -/
def be64Bytes (n : UInt64) : List UInt8 :=
  (List.range 8).map fun i => .ofNat (n.toNat / 256 ^ (7 - i))

/-- `Sha256`. The bytes of the buffer past those that count are what was
there before. -/
structure Sha256 where
  state : HashWords
  buffer : List UInt8
  buffered : ℕ
  length : UInt64
  length_buffer : buffer.length = 64
  buffered_lt : buffered < 64

namespace Sha256

open HashWords

def new : Sha256 where
  state := initial
  buffer := List.replicate 64 0
  buffered := 0
  length := 0
  length_buffer := rfl
  buffered_lt := by decide

/-- The end of `Sha256::update`, when nothing is buffered: the whole blocks
are compressed and the rest is buffered. -/
def updateBlocks (state : HashWords) (buffer : List UInt8) (length : UInt64)
    (hbuffer : buffer.length = 64) (data : List UInt8) : Sha256 where
  state := (wholeBlocks 64 data).foldl compress state
  buffer := splice buffer 0 (blockRest 64 data)
  buffered := (blockRest 64 data).length
  length := length
  length_buffer := by
    have hlt := length_blockRest_lt (n := 64) (by decide) data
    rw [length_splice (by omega), hbuffer]
  buffered_lt := length_blockRest_lt (by decide) data

/-- How much of the data `Sha256::update` puts into the buffer. -/
def room (s : Sha256) (data : List UInt8) : ℕ :=
  min (64 - s.buffered) data.length

/-- The buffer with as much of the data as fits. -/
def fill (s : Sha256) (data : List UInt8) : List UInt8 :=
  splice s.buffer s.buffered (data.take (s.room data))

theorem length_fill (s : Sha256) (data : List UInt8) : (s.fill data).length = 64 := by
  have hlt := s.buffered_lt
  have hlen := s.length_buffer
  rw [fill, length_splice, hlen]
  rw [length_take, room, hlen]
  omega

def update (s : Sha256) (data : List UInt8) : Sha256 :=
  let length := s.length + .ofNat data.length
  if 0 < s.buffered then
    if h : s.buffered + s.room data < 64 then
      { s with
        buffer := s.fill data
        buffered := s.buffered + s.room data
        length
        length_buffer := s.length_fill data
        buffered_lt := h }
    else
      updateBlocks (compress s.state (s.fill data)) (s.fill data) length (s.length_fill data)
        (data.drop (s.room data))
  else updateBlocks s.state s.buffer length s.length_buffer data

/-- What `Sha256::finalize` puts after the message. -/
def tail (s : Sha256) : List UInt8 :=
  0x80 :: (List.replicate ((119 - s.buffered) % 64) 0 ++ be64Bytes (s.length * 8))

/-- The hash as `Sha256::finalize` reads the digest from it. -/
def finish (s : Sha256) : Sha256 :=
  { s.update s.tail with length := s.length }

def finalize (s : Sha256) : List UInt8 :=
  s.finish.state.digest

end Sha256

def sha256 (data : List UInt8) : List UInt8 :=
  (Sha256.new.update data).finalize

/-- The bits of bytes, the most significant of each first. -/
def bitsOf (bytes : List UInt8) : List Bool :=
  bytes.flatMap fun byte => (List.range 8).map fun i => byte.toNat.testBit (7 - i)

/-- A length in sixty-four bits, the most significant first. -/
def lengthField (n : ℕ) : List Bool :=
  (List.range 64).map fun i => n.testBit (63 - i)

/-- How many zeros go between the one that follows `n` bits and the length
of them. -/
def zeroBits (n : ℕ) : ℕ :=
  (959 - n % 512) % 512

theorem zeroBits_isLeast (n : ℕ) :
    (n + 1 + zeroBits n) % 512 = 448 ∧ ∀ k, (n + 1 + k) % 512 = 448 → zeroBits n ≤ k := by
  unfold zeroBits
  refine ⟨by omega, fun k hk => by omega⟩

/-- **A message as it is padded**: a one, zeros, and the length. -/
def padBits (bits : List Bool) : List Bool :=
  bits ++ true :: (List.replicate (zeroBits bits.length) false ++ lengthField bits.length)

@[simp] theorem bitsOf_append (xs ys : List UInt8) : bitsOf (xs ++ ys) = bitsOf xs ++ bitsOf ys :=
  flatMap_append

theorem length_bitsOf (bytes : List UInt8) : (bitsOf bytes).length = 8 * bytes.length := by
  induction bytes with
  | nil => rfl
  | cons byte bytes ih =>
    rw [show byte :: bytes = [byte] ++ bytes from rfl, bitsOf_append, length_append, ih,
      length_append, Nat.mul_add]
    rfl

theorem bitsOf_zeros (k : ℕ) : bitsOf (replicate k (0 : UInt8)) = replicate (8 * k) false := by
  induction k with
  | zero => rfl
  | succ k ih =>
    rw [replicate_succ', bitsOf_append, ih, Nat.mul_succ, replicate_add]
    rfl

theorem bitsOf_be64Bytes (n : UInt64) : bitsOf (be64Bytes n) = lengthField n.toNat := by
  -- bit `j` of byte `i` is bit `8 i + j` of the number
  have hplaces : range 64 = (range 8).flatMap fun i => (range 8).map (8 * i + ·) := by
    decide
  rw [bitsOf, be64Bytes, lengthField, hplaces, flatMap_map, map_flatMap]
  refine flatMap_congr fun i hi => ?_
  rw [map_map]
  refine map_congr_left fun j hj => ?_
  have hi := mem_range.1 hi
  have hj := mem_range.1 hj
  have hbyte : (UInt8.ofNat (n.toNat / 256 ^ (7 - i))).toNat =
      n.toNat / 2 ^ (8 * (7 - i)) % 2 ^ 8 := by
    rw [UInt8.toNat_ofNat', Nat.pow_mul]
  rw [hbyte, Nat.testBit_mod_two_pow, Nat.testBit_div_two_pow]
  simp only [Function.comp_apply, show 7 - j < 8 by omega, decide_true, Bool.true_and]
  congr 1
  omega

theorem lengthField_mod (n : ℕ) : lengthField (n % 2 ^ 64) = lengthField n := by
  refine map_congr_left fun i hi => ?_
  rw [Nat.testBit_mod_two_pow, decide_eq_true (by omega : 63 - i < 64), Bool.true_and]

namespace Sha256

open HashWords

variable {s : Sha256} {message data : List UInt8}

/-- **A hash that was fed with a message**: its whole blocks are compressed,
and the rest of it waits. -/
structure Absorbed (message : List UInt8) (s : Sha256) : Prop where
  state : s.state = (wholeBlocks 64 message).foldl compress initial
  buffer : s.buffer.take s.buffered = blockRest 64 message
  length : s.length = .ofNat message.length

theorem Absorbed.buffered (h : s.Absorbed message) : s.buffered = message.length % 64 := by
  have hlen := congrArg List.length h.buffer
  have hlt := s.buffered_lt
  rwa [length_take, s.length_buffer, length_blockRest, Nat.min_eq_left hlt.le] at hlen

theorem absorbed_updateBlocks {state : HashWords} {buffer : List UInt8} {length : UInt64}
    (hbuffer : buffer.length = 64) {before : List UInt8}
    (hstate : state = (wholeBlocks 64 before).foldl compress initial)
    (hrest : blockRest 64 before = []) (hlength : length = .ofNat (before ++ data).length) :
    (updateBlocks state buffer length hbuffer data).Absorbed (before ++ data) := by
  obtain ⟨hblocks, hleft⟩ := wholeBlocks_append (n := 64) (by decide) before data
  rw [hrest, nil_append] at hblocks hleft
  refine ⟨?_, ?_, hlength⟩
  · rw [hblocks, foldl_append, ← hstate]
    rfl
  · rw [hleft]
    show (splice buffer 0 (blockRest 64 data)).take (blockRest 64 data).length = _
    rw [splice, take_zero, nil_append, take_left]

theorem Absorbed.update (h : s.Absorbed message) (data : List UInt8) :
    (s.update data).Absorbed (message ++ data) := by
  have hlt := s.buffered_lt
  have hbuffer := s.length_buffer
  have hlength : s.length + .ofNat data.length = UInt64.ofNat (message ++ data).length := by
    rw [h.length, length_append, UInt64.ofNat_add]
  obtain ⟨hblocks, hleft⟩ := wholeBlocks_append (n := 64) (by decide) message data
  have hrest : (blockRest 64 message).length = s.buffered := by
    rw [length_blockRest, h.buffered]
  unfold Sha256.update
  split
  · have hfill : s.fill data = blockRest 64 message ++ data.take (s.room data) ++
        s.buffer.drop (s.buffered + (data.take (s.room data)).length) := by
      rw [fill, splice, h.buffer]
    split
    · -- it all fits in the buffer
      rename_i hroom
      have htake : data.take (s.room data) = data := by
        refine take_of_length_le ?_
        unfold room at hroom ⊢
        omega
      have hshort : (blockRest 64 message ++ data).length < 64 := by
        rw [length_append, hrest]
        unfold room at hroom
        omega
      rw [wholeBlocks_of_lt hshort, append_nil] at hblocks
      rw [blockRest_of_lt hshort] at hleft
      refine ⟨by rw [hblocks]; exact h.state, ?_, hlength⟩
      have hsum : s.buffered + s.room data = (blockRest 64 message ++ data).length := by
        rw [length_append, hrest]
        unfold room at hroom ⊢
        omega
      rw [hleft]
      show (s.fill data).take (s.buffered + s.room data) = _
      rw [hfill, htake, hsum, take_left]
    · -- the buffer is a block
      rename_i hroom
      have hfull : s.room data = 64 - s.buffered := by
        unfold room at hroom ⊢
        omega
      have htaken : (data.take (s.room data)).length = 64 - s.buffered := by
        rw [length_take]
        unfold room at hroom ⊢
        omega
      have hblock : s.fill data = blockRest 64 message ++ data.take (s.room data) := by
        rw [hfill, htaken, drop_eq_nil_of_le (by omega), append_nil]
      obtain ⟨hfirst, hnone⟩ := wholeBlocks_append (n := 64) (by decide) message
        (data.take (s.room data))
      obtain ⟨hone, hempty⟩ := wholeBlocks_of_length (by decide) (s.length_fill data)
      rw [← hblock, hone] at hfirst
      rw [← hblock, hempty] at hnone
      have hparts : message ++ data =
          message ++ data.take (s.room data) ++ data.drop (s.room data) := by
        rw [append_assoc, take_append_drop]
      rw [hparts] at hlength ⊢
      refine absorbed_updateBlocks (s.length_fill data) ?_ hnone hlength
      rw [hfirst, foldl_append, ← h.state]
      rfl
  · rename_i hzero
    refine absorbed_updateBlocks s.length_buffer h.state ?_ hlength
    exact eq_nil_of_length_eq_zero (by omega)

theorem absorbed_foldl_update (updates : List (List UInt8)) :
    (updates.foldl update new).Absorbed updates.flatten := by
  induction updates using reverseRecOn with
  | nil => exact ⟨rfl, rfl, rfl⟩
  | append_singleton updates data ih =>
    rw [foldl_append, flatten_append, flatten_singleton]
    exact ih.update data

theorem Absorbed.bitsOf_tail (h : s.Absorbed message) :
    bitsOf (message ++ s.tail) = padBits (bitsOf message) := by
  have hzeros : zeroBits (8 * message.length) = 7 + 8 * ((119 - s.buffered) % 64) := by
    rw [h.buffered, zeroBits]
    omega
  have hlength : (s.length * 8).toNat = 8 * message.length % 2 ^ 64 := by
    rw [h.length, UInt64.toNat_mul, UInt64.toNat_ofNat']
    change message.length % 2 ^ 64 * 8 % 2 ^ 64 = _
    omega
  have hone : bitsOf [0x80] = true :: replicate 7 false := by decide
  rw [padBits, length_bitsOf, hzeros, tail, ← singleton_append, bitsOf_append, bitsOf_append,
    bitsOf_append, hone, bitsOf_zeros, bitsOf_be64Bytes, hlength, lengthField_mod,
    replicate_add]
  simp

theorem Absorbed.length_tail (h : s.Absorbed message) : (message ++ s.tail).length % 64 = 0 := by
  rw [tail, length_append, length_cons, length_append, length_replicate,
    h.buffered, be64Bytes, length_map, length_range]
  omega

/-- **However a message is cut up, the hash is the compression function
folded over its blocks as FIPS 180-4 pads it**, and nothing waits in the
buffer at the end. -/
theorem finalize_foldl_update (updates : List (List UInt8)) :
    ∃ blocks : List (List UInt8), (∀ block ∈ blocks, block.length = 64) ∧
      bitsOf blocks.flatten = padBits (bitsOf updates.flatten) ∧
      (updates.foldl Sha256.update new).finalize = (blocks.foldl compress initial).digest ∧
      (updates.foldl Sha256.update new).finish.buffered = 0 := by
  have hall := absorbed_foldl_update updates
  have hend := hall.update (updates.foldl Sha256.update new).tail
  have hrest : blockRest 64 (updates.flatten ++ (updates.foldl Sha256.update new).tail) = [] := by
    refine eq_nil_of_length_eq_zero ?_
    rw [length_blockRest]
    exact hall.length_tail
  have hwhole := flatten_wholeBlocks_append_blockRest 64
    (updates.flatten ++ (updates.foldl Sha256.update new).tail)
  rw [hrest, append_nil] at hwhole
  refine ⟨wholeBlocks 64 (updates.flatten ++ (updates.foldl Sha256.update new).tail),
    fun b hb => length_of_mem_wholeBlocks hb, ?_, ?_, ?_⟩
  · rw [hwhole]
    exact hall.bitsOf_tail
  · exact congrArg digest hend.state
  · exact hend.buffered.trans hall.length_tail

example : sha256 [97, 98, 99] =
    [0xba, 0x78, 0x16, 0xbf, 0x8f, 0x01, 0xcf, 0xea, 0x41, 0x41, 0x40, 0xde, 0x5d, 0xae, 0x22, 0x23,
      0xb0, 0x03, 0x61, 0xa3, 0x96, 0x17, 0x7a, 0x9c, 0xb4, 0x10, 0xff, 0x61, 0xf2, 0x00, 0x15,
      0xad] := by
  decide +kernel

end Sha256

end BitTorrent
