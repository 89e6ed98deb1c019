import BitTorrent.Common.BigEndian

/-!
# The uTP packet format

`utp/packet.rs`: a header of twenty bytes, then a chain of extensions, then the payload.
-/

namespace BitTorrent.Utp

open List

def headerLen : ℕ := 20

def version : UInt8 := 1

def extSelectiveAck : UInt8 := 1

def maxSackBytes : ℕ := 8

inductive PacketType
  /-- Payload. -/
  | data
  /-- The sender is done sending; `seq_nr` is the last packet. -/
  | fin
  /-- An acknowledgement, with no payload and no number of its own. -/
  | state
  /-- Abort. -/
  | reset
  /-- Open a connection. -/
  | syn
deriving DecidableEq, Repr

namespace PacketType

def code : PacketType → UInt8
  | data => 0
  | fin => 1
  | state => 2
  | reset => 3
  | syn => 4

def fromCode (code : UInt8) : Option PacketType :=
  if code = 0 then some data
  else if code = 1 then some fin
  else if code = 2 then some state
  else if code = 3 then some reset
  else if code = 4 then some syn
  else none

end PacketType

structure Packet where
  kind : PacketType
  connectionId : UInt16
  /-- The sender's clock, in microseconds. -/
  timestamp : UInt32
  /-- How long the last packet took, by the sender's measure. -/
  timestampDiff : UInt32
  /-- Bytes of receive buffer the sender has free. -/
  wndSize : UInt32
  seqNr : UInt16
  ackNr : UInt16
  /-- Bit `i` says whether `ack_nr + 2 + i` has arrived. -/
  sack : List UInt8
  payload : List UInt8
deriving DecidableEq, Repr

inductive PacketError
  | tooShort
  | notUtp
  | badExtension
deriving DecidableEq, Repr

namespace Packet

/-- The mask as it is written: no more of it than is used. -/
def sackWritten (p : Packet) : List UInt8 :=
  p.sack.take maxSackBytes

/-- The twenty bytes of the header. -/
def header (p : Packet) : List UInt8 :=
  [p.kind.code <<< 4 ||| version, if p.sackWritten.isEmpty then 0 else extSelectiveAck] ++
    be16Bytes p.connectionId ++ be32Bytes p.timestamp ++ be32Bytes p.timestampDiff ++
    be32Bytes p.wndSize ++ be16Bytes p.seqNr ++ be16Bytes p.ackNr

def encode (p : Packet) : List UInt8 :=
  p.header ++
    (if p.sackWritten.isEmpty then []
      else 0 :: .ofNat p.sackWritten.length :: p.sackWritten) ++
    p.payload

/-- The loop of `Packet::decode` over the chain of extensions: `next`
names the one that `rest` begins with. The selective acknowledgement and
what follows the chain come back. -/
def readExtensions : ℕ → UInt8 → List UInt8 → List UInt8 →
    Except PacketError (List UInt8 × List UInt8)
  -- an extension takes two bytes at least, so there are never this many rounds
  | 0, _, _, _ => .error .badExtension
  | fuel + 1, next, sack, rest =>
    if next = 0 then .ok (sack, rest)
    else
      match rest with
      | following :: len :: more =>
        if more.length < len.toNat then .error .badExtension
        else
          let body := more.take len.toNat
          let sack :=
            if next = extSelectiveAck ∧ sack.isEmpty then body.take maxSackBytes else sack
          readExtensions fuel following sack (more.drop len.toNat)
      | _ => .error .badExtension

def decode (datagram : List UInt8) : Except PacketError Packet := do
  if datagram.length < headerLen then .error .tooShort
  else if datagram.getD 0 0 &&& 0x0F ≠ version then .error .notUtp
  else
    match PacketType.fromCode (datagram.getD 0 0 >>> 4) with
    | none => .error .notUtp
    | some kind =>
      let (sack, payload) ←
        readExtensions datagram.length (datagram.getD 1 0) [] (datagram.drop headerLen)
      .ok
        { kind
          connectionId := be16 datagram 2
          timestamp := be32 datagram 4
          timestampDiff := be32 datagram 8
          wndSize := be32 datagram 12
          seqNr := be16 datagram 16
          ackNr := be16 datagram 18
          sack
          payload }

variable (kind : PacketType)

theorem header_byte_version :
    (kind.code <<< 4 ||| version) &&& 0x0F = version := by
  cases kind <;> decide

theorem header_byte_kind :
    PacketType.fromCode ((kind.code <<< 4 ||| version) >>> 4) = some kind := by
  cases kind <;> decide

/-- An extension other than the selective acknowledgement. -/
structure Extension where
  kind : UInt8
  body : List UInt8
  kind_ne : kind ≠ 0 ∧ kind ≠ extSelectiveAck
  body_le : body.length ≤ 255

/-- The kind a chain is announced by: of its first extension, or zero. -/
def firstKind : List (UInt8 × List UInt8) → UInt8
  | [] => 0
  | ext :: _ => ext.1

/-- A chain as it is written: each extension names the kind of the next. -/
def chain : List (UInt8 × List UInt8) → List UInt8
  | [] => []
  | ext :: exts => firstKind exts :: .ofNat ext.2.length :: (ext.2 ++ chain exts)

/-- The chain of a packet with extensions put before and after its
selective acknowledgement. -/
def chained (before after : List Extension) (p : Packet) : List (UInt8 × List UInt8) :=
  before.map (fun e => (e.kind, e.body)) ++
    (if p.sackWritten.isEmpty then [] else [(extSelectiveAck, p.sackWritten)]) ++
    after.map fun e => (e.kind, e.body)

/-- The encoding with these extensions inserted. -/
def encodeWith (before after : List Extension) (p : Packet) : List UInt8 :=
  p.header.set 1 (firstKind (p.chained before after)) ++ chain (p.chained before after) ++
    p.payload

variable (p : Packet)

theorem encodeWith_nil : p.encodeWith [] [] = p.encode := by
  by_cases hsack : p.sackWritten = [] <;>
    simp [encodeWith, chained, encode, header, hsack, firstKind, chain]

theorem mem_chained {before after : List Extension} {p : Packet} {ext : UInt8 × List UInt8}
    (h : ext ∈ p.chained before after) : ext.1 ≠ 0 ∧ ext.2.length ≤ 255 := by
  have hext : ∀ {exts : List Extension}, ext ∈ exts.map (fun e => (e.kind, e.body)) →
      ext.1 ≠ 0 ∧ ext.2.length ≤ 255 := by
    intro exts hmem
    obtain ⟨e, -, rfl⟩ := mem_map.1 hmem
    exact ⟨e.kind_ne.1, e.body_le⟩
  rcases mem_append.1 h with h | h
  · rcases mem_append.1 h with h | h
    · exact hext h
    · split at h
      · cases h
      · obtain rfl := mem_singleton.1 h
        have hlen : p.sackWritten.length ≤ 8 := length_take_le _ _
        exact ⟨(by decide : extSelectiveAck ≠ 0), Nat.le_trans hlen (by decide)⟩
  · exact hext h

/-- What a round of the loop makes of the acknowledgement. -/
def noteSack (sack : List UInt8) (ext : UInt8 × List UInt8) : List UInt8 :=
  if ext.1 = extSelectiveAck ∧ sack.isEmpty then ext.2.take maxSackBytes else sack

theorem readExtensions_chain (payload : List UInt8) (exts : List (UInt8 × List UInt8)) :
    ∀ {fuel : ℕ} (sack : List UInt8), exts.length < fuel →
      (∀ ext ∈ exts, ext.1 ≠ 0 ∧ ext.2.length ≤ 255) →
      readExtensions fuel (firstKind exts) sack (chain exts ++ payload) =
        .ok (exts.foldl noteSack sack, payload) := by
  induction exts with
  | nil =>
    intro fuel sack hfuel _
    obtain ⟨fuel, rfl⟩ := Nat.exists_eq_add_one.2 hfuel
    simp [readExtensions, firstKind, chain]
  | cons ext exts ih =>
    intro fuel sack hfuel hexts
    obtain ⟨fuel, rfl⟩ := Nat.exists_eq_add_one.2 (Nat.zero_lt_of_lt hfuel)
    obtain ⟨hkind, hbody⟩ := hexts ext (by simp)
    have hbyte : (UInt8.ofNat ext.2.length).toNat = ext.2.length := by
      simp only [UInt8.toNat_ofNat']
      omega
    have hrest := ih (noteSack sack ext) (Nat.lt_of_succ_lt_succ hfuel)
      fun e he => hexts e (by simp [he])
    have hlen : ¬ ext.2.length + ((chain exts).length + payload.length) < ext.2.length := by omega
    simpa [readExtensions, firstKind, chain, hkind, hbyte, noteSack, hlen] using hrest

theorem foldl_noteSack (exts : List Extension) (sack : List UInt8) :
    (exts.map fun e => (e.kind, e.body)).foldl noteSack sack = sack := by
  induction exts with
  | nil => rfl
  | cons e exts ih => simp [noteSack, e.kind_ne.2, ih]

theorem length_le_chain (exts : List (UInt8 × List UInt8)) : exts.length ≤ (chain exts).length := by
  induction exts with
  | nil => exact Nat.le_refl _
  | cons ext exts ih =>
    simp only [chain, length_cons, length_append]
    omega

variable (before after : List Extension)

theorem sack_chained (p : Packet) :
    (p.chained before after).foldl noteSack [] = p.sackWritten := by
  simp only [chained, foldl_append, foldl_noteSack]
  by_cases hsack : p.sackWritten = []
  · simp [hsack]
  · have hlen : p.sackWritten.length ≤ maxSackBytes := length_take_le _ _
    simp [hsack, noteSack, take_of_length_le hlen]

theorem length_header (next : UInt8) : (p.header.set 1 next).length = headerLen := by
  simp [header, be16Bytes, be32Bytes, headerLen]

theorem fields_header_append (next : UInt8) (rest : List UInt8) :
    be16 (p.header.set 1 next ++ rest) 2 = p.connectionId ∧
      be32 (p.header.set 1 next ++ rest) 4 = p.timestamp ∧
      be32 (p.header.set 1 next ++ rest) 8 = p.timestampDiff ∧
      be32 (p.header.set 1 next ++ rest) 12 = p.wndSize ∧
      be16 (p.header.set 1 next ++ rest) 16 = p.seqNr ∧
      be16 (p.header.set 1 next ++ rest) 18 = p.ackNr :=
  ⟨be16_ofNat_bytes _, be32_ofNat_bytes _, be32_ofNat_bytes _, be32_ofNat_bytes _,
    be16_ofNat_bytes _, be16_ofNat_bytes _⟩

theorem decode_inserted (p : Packet) :
    decode (p.encodeWith before after) = .ok { p with sack := p.sackWritten } := by
  obtain ⟨next, hnext⟩ : ∃ next, firstKind (p.chained before after) = next := ⟨_, rfl⟩
  have heq : p.encodeWith before after =
      p.header.set 1 next ++ (chain (p.chained before after) ++ p.payload) := by
    rw [encodeWith, hnext, append_assoc]
  have hlen : headerLen + (p.chained before after).length ≤ (p.encodeWith before after).length := by
    have := length_le_chain (p.chained before after)
    rw [heq, length_append, length_header, length_append]
    omega
  have hexts : readExtensions (p.encodeWith before after).length next []
      ((p.encodeWith before after).drop headerLen) = .ok (p.sackWritten, p.payload) := by
    rw [heq, ← length_header p next, drop_left, ← heq, ← hnext,
      readExtensions_chain _ _ [] (by simp only [headerLen] at hlen; omega) fun _ => mem_chained,
      sack_chained]
  obtain ⟨h₁, h₂, h₃, h₄, h₅, h₆⟩ := fields_header_append p next _
  rw [← heq] at h₁ h₂ h₃ h₄ h₅ h₆
  have hzero : (p.encodeWith before after).getD 0 0 = p.kind.code <<< 4 ||| version := rfl
  have hone : (p.encodeWith before after).getD 1 0 = next := hnext
  rw [decode, if_neg (by omega), hzero, if_neg (by simp [header_byte_version]), header_byte_kind]
  simp only [hone, hexts, h₁, h₂, h₃, h₄, h₅, h₆]
  rfl

theorem decode_encode : decode p.encode = .ok { p with sack := p.sackWritten } := by
  rw [← encodeWith_nil]
  exact decode_inserted [] [] p

/-- **A packet comes back from its encoding**, and from its encoding with
any chain of other extensions around its selective acknowledgement. -/
theorem decode_of_extensions (p : Packet) (hsack : p.sack.length ≤ maxSackBytes) :
    decode p.encode = .ok p ∧ p.encodeWith [] [] = p.encode ∧
      ∀ before after : List Extension, decode (p.encodeWith before after) = .ok p := by
  have hp : { p with sack := p.sackWritten } = p := by
    rw [sackWritten, take_of_length_le hsack]
  refine ⟨?_, encodeWith_nil p, fun before after => ?_⟩
  · rw [decode_encode, hp]
  · rw [decode_inserted, hp]

theorem decode_of_extensions_sample :
    let p : Packet := ⟨.data, 7, 1, 2, 3, 4, 5, [6], [8, 9]⟩
    let ext : Extension := ⟨2, [1, 1], by decide, by decide⟩
    p.encodeWith [ext] [ext, ext] ≠ p.encode ∧
      decode (p.encodeWith [ext] [ext, ext]) = .ok p :=
  ⟨by decide +kernel, (decode_of_extensions _ (by decide)).2.2 _ _⟩

end Packet

end BitTorrent.Utp
