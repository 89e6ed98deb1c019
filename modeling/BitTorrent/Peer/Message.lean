import BitTorrent.Common.BigEndian
import BitTorrent.Common.Fallible
import BitTorrent.V2.Metadata

/-!
# The messages between peers

`peer/message.rs`: messages after the handshake, each a length, an id and a payload.
-/

namespace BitTorrent

open List

structure HashRequest where
  root : Hash32
  baseLayer : UInt32
  index : UInt32
  length : UInt32
  proofLayers : UInt32
deriving DecidableEq

inductive Message
  | keepAlive
  | choke
  | unchoke
  | interested
  | notInterested
  | haveOne (pieceIndex : UInt32)
  | bitfield (bits : List UInt8)
  | request (index start length : UInt32)
  | piece (index start : UInt32) (block : List UInt8)
  | cancel (index start length : UInt32)
  | port (port : UInt16)
  | suggest (pieceIndex : UInt32)
  | haveAll
  | haveNone
  | rejectRequest (index start length : UInt32)
  | allowedFast (pieceIndex : UInt32)
  | extended (id : UInt8) (payload : List UInt8)
  | hashRequest (request : HashRequest)
  | hashes (request : HashRequest) (hashes : List Hash32)
  | hashReject (request : HashRequest)
deriving DecidableEq

/-- The kinds of `io::Error` that a read ends with. `WouldBlock` and
`TimedOut` are one here: nobody tells them apart. -/
inductive ReadError
  | timedOut
  | unexpectedEof
deriving DecidableEq

inductive WireError
  | io (error : ReadError)
  | messageTooLarge (length : ℕ)
  | unknownMessageId (id : UInt8)
  | truncated (expected got : ℕ)
deriving DecidableEq

def maxMessageLen : ℕ := 2 ^ 20

def HashRequest.write (r : HashRequest) : List UInt8 :=
  r.root.toList ++ be32Bytes r.baseLayer ++ be32Bytes r.index ++ be32Bytes r.length ++
    be32Bytes r.proofLayers

namespace Message

def id : Message → Option UInt8
  | keepAlive => none
  | choke => some 0
  | unchoke => some 1
  | interested => some 2
  | notInterested => some 3
  | haveOne _ => some 4
  | bitfield _ => some 5
  | request .. => some 6
  | piece .. => some 7
  | cancel .. => some 8
  | port _ => some 9
  | suggest _ => some 13
  | haveAll => some 14
  | haveNone => some 15
  | rejectRequest .. => some 16
  | allowedFast _ => some 17
  | extended .. => some 20
  | hashRequest _ => some 21
  | hashes .. => some 22
  | hashReject _ => some 23

/-- The payload that `to_bytes` writes. -/
def payload : Message → List UInt8
  | haveOne i | suggest i | allowedFast i => be32Bytes i
  | bitfield bits => bits
  | request i start len | cancel i start len | rejectRequest i start len =>
    be32Bytes i ++ be32Bytes start ++ be32Bytes len
  | piece i start block => be32Bytes i ++ be32Bytes start ++ block
  | port n => be16Bytes n
  | extended ext bytes => ext :: bytes
  | hashRequest r | hashReject r => r.write
  | hashes r hs => r.write ++ (hs.map List.Vector.toList).flatten
  | keepAlive | choke | unchoke | interested | notInterested | haveAll | haveNone => []

def toBytes (m : Message) : List UInt8 :=
  match m.id with
  | none => be32Bytes 0
  | some id => be32Bytes (1 + .ofNat m.payload.length) ++ id :: m.payload

end Message

/-- `read_u32` of a payload. -/
def readU32 (payload : List UInt8) (offset : ℕ) : Except WireError UInt32 :=
  if offset + 4 ≤ payload.length then .ok (be32 payload offset)
  else .error (.truncated (offset + 4) payload.length)

def hashRequestLen : ℕ := 32 + 4 * 4

def HashRequest.read (payload : List UInt8) : Except WireError HashRequest :=
  if h : payload.length < hashRequestLen then
    .error (.truncated hashRequestLen payload.length)
  else do
    let root : Hash32 := ⟨payload.take 32, by
      rw [length_take]; unfold hashRequestLen at h; omega⟩
    let baseLayer ← readU32 payload 32
    let index ← readU32 payload 36
    let length ← readU32 payload 40
    let proofLayers ← readU32 payload 44
    return ⟨root, baseLayer, index, length, proofLayers⟩

namespace Message

/-- The three numbers of a request, a cancellation and a refusal. -/
def readThree (make : UInt32 → UInt32 → UInt32 → Message) (payload : List UInt8) :
    Except WireError Message := do
  let index ← readU32 payload 0
  let start ← readU32 payload 4
  let length ← readU32 payload 8
  return make index start length

/-- What a message of an id and a payload is. -/
def ofBody (id : UInt8) (payload : List UInt8) : Except WireError Message :=
  match id with
  | 0 => .ok choke
  | 1 => .ok unchoke
  | 2 => .ok interested
  | 3 => .ok notInterested
  | 4 => do return haveOne (← readU32 payload 0)
  | 5 => .ok (bitfield payload)
  | 6 => readThree request payload
  | 7 =>
    if payload.length < 8 then .error (.truncated 8 payload.length)
    else do
      let index ← readU32 payload 0
      let start ← readU32 payload 4
      return piece index start (payload.drop 8)
  | 8 => readThree cancel payload
  | 9 =>
    if payload.length < 2 then .error (.truncated 2 payload.length)
    else .ok (port (be16 payload 0))
  | 13 => do return suggest (← readU32 payload 0)
  | 14 => .ok haveAll
  | 15 => .ok haveNone
  | 16 => readThree rejectRequest payload
  | 17 => do return allowedFast (← readU32 payload 0)
  | 20 =>
    match payload with
    | [] => .error (.truncated 1 0)
    | ext :: bytes => .ok (extended ext bytes)
  | 21 => do return hashRequest (← HashRequest.read payload)
  | 22 => do
    let r ← HashRequest.read payload
    let rest := payload.drop hashRequestLen
    if rest.length % 32 ≠ 0 then
      .error (.truncated (hashRequestLen + (rest.length + 31) / 32 * 32) payload.length)
    else return hashes r (V2.asChunks 32 rest)
  | 23 => do return hashReject (← HashRequest.read payload)
  | other => .error (.unknownMessageId other)

end Message

/-- What a read of a stream finds next: a byte, or nothing for as long as
the read waits. -/
inductive Arrival
  | byte (b : UInt8)
  | timeout
deriving DecidableEq

/-- A stream, to its end. -/
abbrev Wire := List Arrival

/-- `read_exact`: so many bytes, or the error that came first. The bytes
that it had by then are gone from the stream. -/
def readExact : ℕ → Wire → Except ReadError (List UInt8) × Wire
  | 0, wire => (.ok [], wire)
  | _ + 1, [] => (.error .unexpectedEof, [])
  | _ + 1, .timeout :: wire => (.error .timedOut, wire)
  | n + 1, .byte b :: wire => ((readExact n wire).1.map (b :: ·), (readExact n wire).2)

def Message.readFrom (wire : Wire) : Except WireError Message × Wire :=
  match readExact 4 wire with
  | (.error e, wire) => (.error (.io e), wire)
  | (.ok lenBuf, wire) =>
    let len := (be32 lenBuf 0).toNat
    if len = 0 then (.ok keepAlive, wire)
    else if maxMessageLen < len then (.error (.messageTooLarge len), wire)
    else
      match readExact len wire with
      | (.error e, wire) => (.error (.io e), wire)
      -- there is at least the byte of the id
      | (.ok [], wire) => (.error (.io .unexpectedEof), wire)
      | (.ok (id :: payload), wire) => (Message.ofBody id payload, wire)

theorem readU32_of_eq_append {payload : List UInt8} {offset : ℕ} {n : UInt32}
    (before rest : List UInt8) (hpayload : payload = before ++ be32Bytes n ++ rest)
    (hoffset : before.length = offset) : readU32 payload offset = .ok n := by
  subst hpayload hoffset
  rw [readU32, if_pos (by simp [be32Bytes]), be32_append]

variable (r : HashRequest)

theorem length_write : r.write.length = hashRequestLen := by
  simp [HashRequest.write, be32Bytes, hashRequestLen]

theorem read_write (rest : List UInt8) :
    HashRequest.read (r.write ++ rest) = .ok r := by
  have hlen : ¬ (r.write ++ rest).length < hashRequestLen := by
    rw [length_append, length_write]
    omega
  have hroot : (r.write ++ rest).take 32 = r.root.toList := by
    simp only [HashRequest.write, append_assoc]
    exact take_left' r.root.toList_length
  have hlayer : readU32 (r.write ++ rest) 32 = .ok r.baseLayer := readU32_of_eq_append r.root.toList
      (be32Bytes r.index ++ be32Bytes r.length ++ be32Bytes r.proofLayers ++ rest)
      (by simp [HashRequest.write]) (by simp)
  have hindex : readU32 (r.write ++ rest) 36 = .ok r.index :=
    readU32_of_eq_append (r.root.toList ++ be32Bytes r.baseLayer)
      (be32Bytes r.length ++ be32Bytes r.proofLayers ++ rest)
      (by simp [HashRequest.write]) (by simp [be32Bytes])
  have hlength : readU32 (r.write ++ rest) 40 = .ok r.length :=
    readU32_of_eq_append (r.root.toList ++ be32Bytes r.baseLayer ++ be32Bytes r.index)
      (be32Bytes r.proofLayers ++ rest) (by simp [HashRequest.write]) (by simp [be32Bytes])
  have hproof : readU32 (r.write ++ rest) 44 = .ok r.proofLayers := readU32_of_eq_append
      (r.root.toList ++ be32Bytes r.baseLayer ++ be32Bytes r.index ++ be32Bytes r.length)
      rest (by simp [HashRequest.write]) (by simp [be32Bytes])
  rw [HashRequest.read, dif_neg hlen]
  simp only [hlayer, hindex, hlength, hproof, hroot]
  rfl

theorem readThree_bytes (make : UInt32 → UInt32 → UInt32 → Message) (i start len : UInt32) :
    Message.readThree make (be32Bytes i ++ be32Bytes start ++ be32Bytes len) =
      .ok (make i start len) := by
  have hi : readU32 (be32Bytes i ++ be32Bytes start ++ be32Bytes len) 0 = .ok i :=
    readU32_of_eq_append [] (be32Bytes start ++ be32Bytes len) (by simp) rfl
  have hstart : readU32 (be32Bytes i ++ be32Bytes start ++ be32Bytes len) 4 = .ok start :=
    readU32_of_eq_append (be32Bytes i) (be32Bytes len) rfl rfl
  have hlen : readU32 (be32Bytes i ++ be32Bytes start ++ be32Bytes len) 8 = .ok len :=
    readU32_of_eq_append (be32Bytes i ++ be32Bytes start) [] (by simp) rfl
  rw [Message.readThree, hi, hstart, hlen]
  rfl

variable {n : ℕ}

theorem asChunks_append (hn : 0 < n) (v : List.Vector UInt8 n) (rest : List UInt8) :
    V2.asChunks n (v.toList ++ rest) = v :: V2.asChunks n rest := by
  have hlen : (v.toList ++ rest).length / n = rest.length / n + 1 := by
    rw [length_append, v.toList_length, Nat.add_comm, Nat.add_div_right _ hn]
  rw [V2.asChunks, hlen, range_succ_eq_map, map_cons, map_map]
  congr 1
  · refine List.Vector.ext fun j => ?_
    rw [List.Vector.get_ofFn, Nat.zero_mul, Nat.zero_add, getD_eq_getElem?_getD,
      getElem?_append_left (by rw [v.toList_length]; exact j.2),
      getElem?_eq_getElem (by rw [v.toList_length]; exact j.2), Option.getD_some,
      List.Vector.get_eq_get_toList]
    rfl
  · refine map_congr_left fun i _ => congrArg _ (funext fun j => ?_)
    rw [Nat.succ_mul, getD_eq_getElem?_getD, getElem?_append_right (by
      rw [v.toList_length]; omega), getD_eq_getElem?_getD, v.toList_length]
    congr 2
    omega

theorem asChunks_flatten (hn : 0 < n) (vs : List (List.Vector UInt8 n)) :
    V2.asChunks n (vs.map List.Vector.toList).flatten = vs := by
  induction vs with
  | nil =>
    rw [map_nil, flatten_nil, V2.asChunks, length_nil, Nat.zero_div]
    rfl
  | cons v vs ih => rw [map_cons, flatten_cons, asChunks_append hn, ih]

theorem length_flatten_vectors (vs : List (List.Vector UInt8 n)) :
    (vs.map List.Vector.toList).flatten.length = vs.length * n := by
  induction vs with
  | nil => simp
  | cons v vs ih => simp [ih, Nat.succ_mul, Nat.add_comm]

theorem ofBody_payload (m : Message) {id : UInt8} (hid : m.id = some id) :
    Message.ofBody id m.payload = .ok m := by
  have hone : ∀ i : UInt32, readU32 (be32Bytes i) 0 = .ok i := fun i =>
    readU32_of_eq_append [] [] (by simp) rfl
  cases m with
  | keepAlive => cases hid
  | choke | unchoke | interested | notInterested | haveAll | haveNone =>
    cases hid
    rfl
  | bitfield bits | extended ext bytes =>
    cases hid
    rfl
  | haveOne i | suggest i | allowedFast i =>
    cases hid
    simp only [Message.ofBody, Message.payload, hone]
    rfl
  | request i start len | cancel i start len | rejectRequest i start len =>
    cases hid
    exact readThree_bytes _ i start len
  | piece i start block =>
    cases hid
    have hi : readU32 (be32Bytes i ++ be32Bytes start ++ block) 0 = .ok i :=
      readU32_of_eq_append [] (be32Bytes start ++ block) (by simp) rfl
    have hstart : readU32 (be32Bytes i ++ be32Bytes start ++ block) 4 = .ok start :=
      readU32_of_eq_append (be32Bytes i) block rfl rfl
    have hlen : ¬ (be32Bytes i ++ be32Bytes start ++ block).length < 8 := by simp [be32Bytes]
    simp only [Message.ofBody, Message.payload, if_neg hlen, hi, hstart]
    rfl
  | port n =>
    cases hid
    have hport : be16 (be16Bytes n) 0 = n := be16_ofNat_bytes n
    simp only [Message.ofBody, Message.payload, hport]
    rfl
  | hashRequest r | hashReject r =>
    cases hid
    have hread := read_write r []
    rw [append_nil] at hread
    simp only [Message.ofBody, Message.payload, hread]
    rfl
  | hashes r hs =>
    cases hid
    have hdrop : (r.write ++ (hs.map List.Vector.toList).flatten).drop hashRequestLen =
        (hs.map List.Vector.toList).flatten := drop_left' (length_write r)
    have hwhole : ¬ (hs.map List.Vector.toList).flatten.length % 32 ≠ 0 := by
      rw [length_flatten_vectors, Nat.mul_mod_left]
      simp
    simp only [Message.ofBody, Message.payload, read_write, hdrop, if_neg hwhole,
      asChunks_flatten (show 0 < 32 by decide)]
    rfl

theorem readExact_bytes (bytes : List UInt8) (rest : Wire) :
    readExact bytes.length (bytes.map .byte ++ rest) = (.ok bytes, rest) := by
  induction bytes with
  | nil => rfl
  | cons b bytes ih =>
    rw [length_cons, map_cons, cons_append, readExact, ih]
    rfl

/-- A message whose bytes `read_from` lets through. -/
def Message.Fits (m : Message) : Prop := m.payload.length < maxMessageLen

theorem toBytes_frame {m : Message} (hfits : m.Fits) : ∃ (n : UInt32) (body : List UInt8),
    m.toBytes = be32Bytes n ++ body ∧ n.toNat = body.length ∧ body.length ≤ maxMessageLen := by
  unfold Message.Fits at hfits
  cases hid : m.id with
  | none => exact ⟨0, [], by rw [Message.toBytes, hid]; rfl, rfl, Nat.zero_le _⟩
  | some id =>
    refine ⟨1 + .ofNat m.payload.length, id :: m.payload, by rw [Message.toBytes, hid], ?_, hfits⟩
    unfold maxMessageLen at hfits
    have hone : (1 : UInt32).toNat = 1 := rfl
    have hpayload : (UInt32.ofNat m.payload.length).toNat = m.payload.length :=
      UInt32.toNat_ofNat_of_lt (show m.payload.length < 2 ^ 32 by omega)
    rw [UInt32.toNat_add, hpayload, hone, length_cons]
    omega

theorem readFrom_length {n : UInt32} (hpos : n.toNat ≠ 0) (hmax : n.toNat ≤ maxMessageLen)
    (wire : Wire) :
    Message.readFrom ((be32Bytes n).map .byte ++ wire) = match readExact n.toNat wire with
      | (.error e, wire) => (.error (.io e), wire)
      | (.ok [], wire) => (.error (.io .unexpectedEof), wire)
      | (.ok (id :: payload), wire) => (Message.ofBody id payload, wire) := by
  have hread := readExact_bytes (be32Bytes n) wire
  have hfour : (be32Bytes n).length = 4 := rfl
  have hword : be32 (be32Bytes n) 0 = n := be32_ofNat_bytes n
  rw [hfour] at hread
  rw [Message.readFrom, hread]
  dsimp only
  rw [hword, if_neg hpos, if_neg (Nat.not_lt.2 hmax)]

theorem readFrom_toBytes {m : Message} (hfits : m.Fits) (rest : Wire) :
    Message.readFrom (m.toBytes.map .byte ++ rest) = (.ok m, rest) := by
  cases hid : m.id with
  | none =>
    have hm : m = .keepAlive := by
      cases m <;> first | rfl | cases hid
    subst hm
    rfl
  | some id =>
    obtain ⟨n, body, hbytes, hn, hmax⟩ := toBytes_frame hfits
    have hbody : body = id :: m.payload := by
      rw [Message.toBytes, hid] at hbytes
      exact (append_inj hbytes rfl).2.symm
    have hpos : n.toNat ≠ 0 := by rw [hn, hbody]; exact Nat.succ_ne_zero _
    rw [hbytes, map_append, append_assoc, readFrom_length hpos (hn.trans_le hmax), hn,
      readExact_bytes, hbody]
    dsimp only
    rw [ofBody_payload m hid]

/-- `read_from`, so many times over; the first error ends it. -/
def Message.readMany : ℕ → Wire → Except WireError (List Message) × Wire
  | 0, wire => (.ok [], wire)
  | n + 1, wire =>
    match Message.readFrom wire with
    | (.error e, wire) => (.error e, wire)
    | (.ok m, wire) => ((readMany n wire).1.map (m :: ·), (readMany n wire).2)

theorem readMany_append (ms : List Message) (hfits : ∀ m ∈ ms, m.Fits) (n : ℕ) (rest : Wire) :
    Message.readMany (ms.length + n) ((ms.flatMap Message.toBytes).map .byte ++ rest) =
      ((Message.readMany n rest).1.map (ms ++ ·), (Message.readMany n rest).2) := by
  induction ms with
  | nil =>
    rw [length_nil, Nat.zero_add, flatMap_nil, map_nil, nil_append]
    rcases Message.readMany n rest with ⟨e | read, left⟩ <;> rfl
  | cons m ms ih =>
    rw [forall_mem_cons] at hfits
    have hbytes : ((m :: ms).flatMap Message.toBytes).map Arrival.byte ++ rest =
        m.toBytes.map .byte ++ ((ms.flatMap Message.toBytes).map .byte ++ rest) := by
      rw [flatMap_cons, map_append, append_assoc]
    have hlen : (m :: ms).length + n = ms.length + n + 1 := by
      rw [length_cons]
      omega
    rw [hbytes, hlen, Message.readMany, readFrom_toBytes hfits.1]
    dsimp only
    rw [ih hfits.2]
    cases (Message.readMany n rest).1 <;> rfl

/-- **A stream of messages is self-delimiting.** Read from the bytes of any
messages one after another, `read_from` gives these messages, each as it
was and in their order, and no byte is left; a read more finds the end. -/
theorem readMany_toBytes (ms : List Message) (hfits : ∀ m ∈ ms, m.Fits) :
    Message.readMany ms.length ((ms.flatMap Message.toBytes).map .byte) = (.ok ms, []) ∧
      Message.readMany (ms.length + 1) ((ms.flatMap Message.toBytes).map .byte) =
        (.error (.io .unexpectedEof), []) := by
  have hread := readMany_append ms hfits 0 []
  have hend := readMany_append ms hfits 1 []
  rw [append_nil] at hread hend
  refine ⟨hread.trans ?_, hend⟩
  simp [Message.readMany, Except.map]

theorem readMany_toBytes_sample :
    (∀ m ∈ [.keepAlive, .piece 1 0 [7, 8], .extended 3 [], .port 80], Message.Fits m) ∧
    Message.readMany 4 (([.keepAlive, .piece 1 0 [7, 8], .extended 3 [], .port 80].flatMap
      Message.toBytes).map .byte) =
        (.ok [.keepAlive, .piece 1 0 [7, 8], .extended 3 [], .port 80], []) := by
  have hfits : ∀ m ∈ [.keepAlive, .piece 1 0 [7, 8], .extended 3 [], .port 80],
      Message.Fits m := by
    simp [Message.Fits, Message.payload, maxMessageLen, be32Bytes, be16Bytes]
  exact ⟨hfits, (readMany_toBytes _ hfits).1⟩

end BitTorrent
