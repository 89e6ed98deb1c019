import BitTorrent.Queue.WorkQueue

/-!
# What is known of a peer

`PeerState` of `peer/state.rs`, as its messages change it: whether it chokes us, which pieces it
says it has, which of them it sends although it chokes us, and how many requests it takes.
-/

namespace BitTorrent

/-- `PeerState`. Our own two flags and whether the peer speaks the
extension protocol are left out: nothing here reads them. -/
structure PeerState where
  /-- The peer chokes us. -/
  peerChoking : Bool
  peerInterested : Bool
  peerHasPieces : List Bool
  /-- `reqq` of its extended handshake, if it said. -/
  peerRequestLimit : Option ℕ
  /-- Both sides speak the Fast Extension. -/
  fast : Bool
  /-- What may be requested although the peer chokes us. -/
  allowedFast : Finset UInt32
  /-- The number of pieces of the torrent. -/
  pieceLimit : ℕ
deriving DecidableEq

def maxAllowedFast : ℕ := 64

def maxTrackedPieces : ℕ := 2 ^ 24

/-- `bytes_to_bitfield`: the bits of each byte, the highest first. -/
def bytesToBitfield (bytes : List UInt8) : List Bool :=
  bytes.flatMap fun byte => (List.range 8).reverse.map fun bit => (byte >>> .ofNat bit) &&& 1 == 1

namespace PeerState

/-- `new`: choked, and nothing known. -/
def new : PeerState := ⟨true, false, [], none, false, ∅, maxTrackedPieces⟩

def forTorrent (pieceCount : ℕ) : PeerState :=
  { new with pieceLimit := min pieceCount maxTrackedPieces }

def mayRequest (s : PeerState) (piece : UInt32) : Bool :=
  !s.peerChoking || (s.fast && decide (piece ∈ s.allowedFast))

def hasAllowedPieces (s : PeerState) : Bool := s.fast && !decide (s.allowedFast = ∅)

/-- `peer_has_pieces.get(piece)`, false past the end. -/
def hasPiece (s : PeerState) (piece : UInt32) : Bool := s.peerHasPieces.getD piece.toNat false

def ensureCapacity (s : PeerState) (pieceIndex : ℕ) : List Bool :=
  s.peerHasPieces ++ List.replicate (pieceIndex + 1 - s.peerHasPieces.length) false

/-- `apply_message`: whether the message was one for this state, and the
state after. -/
def applyMessage (s : PeerState) : Message → Bool × PeerState
  | .choke => (true, { s with peerChoking := true })
  | .unchoke => (true, { s with peerChoking := false })
  | .interested => (true, { s with peerInterested := true })
  | .notInterested => (true, { s with peerInterested := false })
  | .haveOne pieceIndex =>
    if s.pieceLimit ≤ pieceIndex.toNat then (false, s)
    else
      let held := s.ensureCapacity pieceIndex.toNat
      (true, { s with peerHasPieces := held.set pieceIndex.toNat true })
  | .bitfield bits => (true, { s with peerHasPieces := (bytesToBitfield bits).take s.pieceLimit })
  | .haveAll => (true, { s with peerHasPieces := List.replicate s.pieceLimit true })
  | .haveNone => (true, { s with peerHasPieces := [] })
  | .allowedFast pieceIndex =>
    if pieceIndex.toNat < s.pieceLimit ∧ s.allowedFast.card < maxAllowedFast then
      (true, { s with allowedFast := insert pieceIndex s.allowedFast })
    else (true, s)
  | _ => (false, s)

variable (s : PeerState) (pieceIndex : UInt32)

theorem applyMessage_haveOne : s.applyMessage (.haveOne pieceIndex) =
    if s.pieceLimit ≤ pieceIndex.toNat then (false, s)
    else (true, { s with
      peerHasPieces := (s.ensureCapacity pieceIndex.toNat).set pieceIndex.toNat true }) := rfl

theorem applyMessage_allowedFast : s.applyMessage (.allowedFast pieceIndex) =
    if pieceIndex.toNat < s.pieceLimit ∧ s.allowedFast.card < maxAllowedFast then
      (true, { s with allowedFast := insert pieceIndex s.allowedFast })
    else (true, s) := rfl

end PeerState

inductive ExtensionError
  | decode (error : DecodeError)
  | notADict
  | missingMDict
deriving DecidableEq

/-- `ExtendedHandshake`, of whose fields nothing here reads the others. -/
structure ExtendedHandshake where
  /-- The id that the peer takes the messages of each extension under. -/
  m : List (List UInt8 × UInt8)
  listenPort : Option UInt16
  reqq : Option ℕ
deriving DecidableEq

namespace ExtendedHandshake

/-- `"m"`. -/
def keyM : List UInt8 := [109]

/-- `"reqq"`. -/
def keyReqq : List UInt8 := [114, 101, 113, 113]

/-- An entry of `m`: its name, and its integer `as u8`. -/
def extension (e : List UInt8 × Bencode) : Option (List UInt8 × UInt8) :=
  if Bencode.validUtf8 e.1 then e.2.asInt.map fun id => (e.1, id.toUInt64.toUInt8) else none

/-- `parse`. A `reqq` counts if it is positive, and is cut to a `u32`. -/
def parse (payload : List UInt8) : Except ExtensionError ExtendedHandshake :=
  match Bencode.decodeTopLevel false payload with
  | .error e => .error (.decode e)
  | .ok value =>
    match value.asDict with
    | none => .error .notADict
    | some dict =>
      match (dict.lookup keyM).bind Bencode.asDict with
      | none => .error .missingMDict
      | some m =>
        let port := (value.get (ascii "p")).bind Bencode.asInt
        let reqq := ((value.get keyReqq).bind Bencode.asInt).filter (0 < ·)
        .ok ⟨m.filterMap extension, port.map (·.toUInt64.toUInt16),
          reqq.map fun n => min n.toInt.toNat (2 ^ 32 - 1)⟩

end ExtendedHandshake

def ourUtPexId : UInt8 := 2

def ourUtHolepunchId : UInt8 := 3

/-- What a message changes in the queue: how many peers have each piece. -/
def WorkQueue.hear (q : WorkQueue) : Message → WorkQueue
  | .bitfield bits => q.noteBitfield (PeerState.new.applyMessage (.bitfield bits)).2.peerHasPieces
  | .haveAll =>
    q.noteBitfield ((PeerState.forTorrent q.totalPieces).applyMessage .haveAll).2.peerHasPieces
  | .haveOne pieceIndex => q.noteHave pieceIndex
  | _ => q

/-- What an extended handshake says of requests, where it can be read. -/
def PeerState.hearHandshake (s : PeerState) (payload : List UInt8) : PeerState :=
  match ExtendedHandshake.parse payload with
  | .ok handshake => { s with peerRequestLimit := handshake.reqq }
  | .error _ => s

/-- `absorb`: whether the message shows the peer to be doing something,
with the peer after. The addresses it names and the id it takes
hole-punching messages under are left out. -/
def PeerState.absorb (s : PeerState) : Message → Bool × PeerState
  | .extended id payload =>
    if id = 0 then (false, s.hearHandshake payload)
    else (id == ourUtPexId || id == ourUtHolepunchId, s)
  | m => s.applyMessage m

end BitTorrent
