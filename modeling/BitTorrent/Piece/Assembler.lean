import BitTorrent.Peer.Message

/-!
# One piece in progress

`PieceAssembler` of `piece_assembler.rs`: which 16 KiB blocks of a piece have been requested,
which have arrived, and the buffer they are copied into.
-/

namespace BitTorrent

def blockSize : ℕ := 16 * 1024

/-- `Merkle`: how a piece of a v2 torrent is checked. -/
structure Merkle where
  root : Hash32
  width : UInt32
deriving DecidableEq

/-- `PieceWork`: a piece to be fetched and what it hashes to. -/
structure PieceWork where
  index : UInt32
  hash : Hash20
  length : UInt32
  merkle : Option Merkle
deriving DecidableEq

/-- A piece of some length, hashed to zeros, to try a result out on. -/
def PieceWork.sample (length : UInt32) : PieceWork := ⟨0, .replicate 20 0, length, none⟩

/-- `PieceWork::matches`: whether `data` is this piece. -/
def PieceWork.matches [Digests] (work : PieceWork) (data : List UInt8) : Bool :=
  match work.merkle with
  | some merkle => V2.merkleMatches data merkle.width.toNat merkle.root
  | none => Digests.sha1 data == work.hash

/-- The number of blocks of a piece: its length in blocks, rounded up. -/
def PieceWork.numBlocks (work : PieceWork) : ℕ := (work.length.toNat + blockSize - 1) / blockSize

inductive AssemblerError
  | alreadyComplete
  | blockOutOfRange (begin len pieceLength : ℕ)
  | unexpectedBlockSize (begin expected got : ℕ)
  | hashMismatch
deriving DecidableEq

/-- `BlockRequest`: piece index, offset and length. -/
abbrev BlockRequest := ℕ × ℕ × ℕ

/-- `PartialPiece`: the blocks of a piece that arrived before the
connection they came over failed. -/
structure PartialPiece where
  data : List UInt8
  received : List Bool
deriving DecidableEq

namespace PartialPiece

def blocksHeld (p : PartialPiece) : ℕ := p.received.count true

/-- `size`: bytes of memory it holds on to. -/
def size (p : PartialPiece) : ℕ := p.data.length

end PartialPiece

structure PieceAssembler where
  work : PieceWork
  buf : List UInt8
  received : List Bool
  nextUnrequestedBlock : ℕ
  refused : List ℕ
deriving DecidableEq

namespace PieceAssembler

def new (work : PieceWork) : PieceAssembler where
  work := work
  buf := List.replicate work.length.toNat 0
  received := List.replicate work.numBlocks false
  nextUnrequestedBlock := 0
  refused := []

/-- `resume`: an assembler that starts from `part`, or from nothing where
`part` does not fit. -/
def resume (work : PieceWork) (part : PartialPiece) : PieceAssembler :=
  let fresh := new work
  if part.data.length = fresh.buf.length ∧ part.received.length = fresh.received.length then
    { fresh with buf := part.data, received := part.received }
  else fresh

variable (a : PieceAssembler)

/-- `into_partial`: what has arrived so far, if anything has. -/
def intoPartial : Option PartialPiece :=
  let part : PartialPiece := ⟨a.buf, a.received⟩
  if 0 < part.blocksHeld then some part else none

/-- `worker::piece::open`: the assembler for a piece, from the blocks
another connection left if there are any. -/
def openFrom (work : PieceWork) : Option PartialPiece → PieceAssembler
  | some part => resume work part
  | none => new work

def numBlocks : ℕ := a.received.length

/-- `block_len`; the subtraction underflows past the end of the piece. -/
def blockLen (blockIdx : ℕ) : Option ℕ :=
  if blockIdx * blockSize ≤ a.work.length.toNat then
    some (min (a.work.length.toNat - blockIdx * blockSize) blockSize)
  else none

/-- The request for one block. -/
def request (blockIdx : ℕ) : Option BlockRequest := do
  let len ← a.blockLen blockIdx
  return (a.work.index.toNat, blockIdx * blockSize, len)

/-- The first loop of `next_requests`: refused blocks, last refused
first, as long as there is room. -/
def takeRefused (a : PieceAssembler) : ℕ → List ℕ → Option (List BlockRequest × List ℕ)
  | 0, stack => some ([], stack)
  | _ + 1, [] => some ([], [])
  | room + 1, blockIdx :: stack => do
    if ← a.received[blockIdx]? then
      a.takeRefused (room + 1) stack
    else
      let req ← a.request blockIdx
      let (out, rest) ← a.takeRefused room stack
      return (req :: out, rest)

/-- The second loop of `next_requests`: fresh blocks from the cursor on,
`left` of them before the end of the piece. -/
def takeFresh (a : PieceAssembler) : (left next room : ℕ) → Option (List BlockRequest × ℕ)
  | 0, next, _ => some ([], next)
  | _ + 1, next, 0 => some ([], next)
  | left + 1, next, room + 1 => do
    if ← a.received[next]? then
      a.takeFresh left (next + 1) (room + 1)
    else
      let req ← a.request next
      let (out, cursor) ← a.takeFresh left (next + 1) room
      return (req :: out, cursor)

/-- `next_requests`: up to `maxNew` requests to send, with the assembler
after. -/
def nextRequests (maxNew : ℕ) :
    Option (List BlockRequest × PieceAssembler) := do
  let (again, stack) ← a.takeRefused maxNew a.refused
  let next := a.nextUnrequestedBlock
  let (fresh, cursor) ← a.takeFresh (a.numBlocks - next) next (maxNew - again.length)
  return (again ++ fresh, { a with refused := stack, nextUnrequestedBlock := cursor })

def forgetRequests : PieceAssembler :=
  { a with nextUnrequestedBlock := 0, refused := [] }

/-- `refuse_request`: the peer refused the request at `begin`. The flags
are only indexed for a block that was asked for at its boundary. -/
def refuseRequest (begin : UInt32) : Option PieceAssembler :=
  let blockIdx := begin.toNat / blockSize
  if blockIdx < a.nextUnrequestedBlock ∧ blockIdx * blockSize = begin.toNat then do
    if !(← a.received[blockIdx]?) && !a.refused.contains blockIdx then
      return { a with refused := blockIdx :: a.refused }
    else return a
  else some a

def isComplete : Bool := a.received.all id

/-- `buf[begin..end].copy_from_slice(data)`. -/
def copyInto (buf : List UInt8) (begin upto : ℕ) (data : List UInt8) : Option (List UInt8) :=
  if begin + data.length = upto ∧ upto ≤ buf.length then some (splice buf begin data) else none

/-- `received[block_idx] = true`. -/
def setReceived (received : List Bool) (blockIdx : ℕ) : Option (List Bool) :=
  if blockIdx < received.length then some (received.set blockIdx true) else none

/-- `record_block`: takes in the payload of a `Piece` message at byte
offset `begin`. The lengths are `u32`, as the source casts them. -/
def recordBlock (begin : UInt32) (data : List UInt8) :
    Option (Except AssemblerError Unit × PieceAssembler) :=
  let begin := begin.toNat
  let len := data.length % 2 ^ 32
  let length := a.work.length.toNat
  if a.isComplete then some (.error .alreadyComplete, a)
  else if 2 ^ 32 ≤ begin + len then some (.error (.blockOutOfRange begin len length), a)
  else if length < begin + len then some (.error (.blockOutOfRange begin len length), a)
  else do
    let blockIdx := begin / blockSize
    let expected ← a.blockLen blockIdx
    if len ≠ expected then
      return (.error (.unexpectedBlockSize begin expected len), a)
    else
      let buf ← copyInto a.buf begin (begin + len) data
      let received ← setReceived a.received blockIdx
      return (.ok (), { a with buf := buf, received := received })

/-- `finish`: the piece, if it is complete and matches its hash. -/
def finish [Digests] : Except AssemblerError (List UInt8) :=
  if !a.isComplete then .error .alreadyComplete
  else if !a.work.matches a.buf then .error .hashMismatch
  else .ok a.buf

end PieceAssembler

/-- **A `Piece` message as it comes off the wire.** Its block is what is
left of the body after the id byte, the index and the offset. -/
structure PieceMessage where
  begin : UInt32
  block : List UInt8
  block_le : block.length + 9 ≤ maxMessageLen
deriving DecidableEq

/-- **What a worker does with an assembler**: takes in a message, asks
for more, hears that a request was refused, forgets its requests after a
choke, or gives up and leaves its blocks for another connection. -/
inductive AssemblerOp
  | record (m : PieceMessage)
  | nextRequests (maxNew : ℕ)
  | refuse (begin : UInt32)
  | forget
  | handOff

namespace PieceAssembler

/-- One operation; `none` where it panics. A hand-off splits the
assembler into a partial piece and opens the next one from it. -/
def step (a : PieceAssembler) : AssemblerOp → Option PieceAssembler
  | .record m => (a.recordBlock m.begin m.block).map Prod.snd
  | .nextRequests maxNew => (a.nextRequests maxNew).map Prod.snd
  | .refuse begin => a.refuseRequest begin
  | .forget => some a.forgetRequests
  | .handOff => some (openFrom a.work a.intoPartial)

/-- Operations one after another, as far as none panics. -/
def run (a : PieceAssembler) : List AssemblerOp → Option PieceAssembler
  | [] => some a
  | op :: ops => (a.step op).bind fun a' => a'.run ops

end PieceAssembler

end BitTorrent
