import BitTorrent.Utp.Packet
import Mathlib.Algebra.GroupWithZero.Nat
import Mathlib.Data.List.AList
import Mathlib.Data.Rat.Defs

/-!
# One uTP connection

`utp/conn.rs` as the state machine it is: it is given packets and the time, and says which
datagrams to send.
-/

namespace BitTorrent.Utp

/-- The arithmetic of `f64`, as far as congestion control uses it. Nothing
is assumed of it: what is proved of a connection holds whatever the
window it computes. -/
class F64 (F : Type) where
  /-- A literal, or an integer converted. -/
  ofRat : ℚ → F
  add : F → F → F
  sub : F → F → F
  mul : F → F → F
  div : F → F → F
  min : F → F → F
  max : F → F → F
  lt : F → F → Bool
  le : F → F → Bool
  /-- `f64::MAX`. -/
  maxValue : F
  /-- `as usize`. -/
  toUsize : F → ℕ

def F64.clamp {F : Type} [F64 F] (x lo hi : F) : F :=
  let x := if F64.lt x lo then lo else x
  if F64.lt hi x then hi else x

def maxPacket : ℕ := 1400

def maxPayload : ℕ := maxPacket - headerLen

def sendBuffer : ℕ := 256 * 1024

def receiveBuffer : ℕ := 512 * 1024

def reorderWindow : UInt16 := 64

/-- A duration in seconds. -/
def secs (n : ℕ) : ℕ := n * 1000000000

def initialRto : ℕ := secs 1

def minRto : ℕ := 500000000

def maxRto : ℕ := secs 60

def maxTimeouts : ℕ := 5

def maxSynAttempts : ℕ := 3

def keepalive : ℕ := secs 15

def deadAfter : ℕ := secs 90

def dupAckThreshold : ℕ := 3

def targetDelayUs {F : Type} [F64 F] : F := F64.ofRat 100000

def maxGrowthPerRtt {F : Type} [F64 F] : F := F64.ofRat 3000

def minWindow {F : Type} [F64 F] : F := F64.ofRat maxPacket

def initialWindow {F : Type} [F64 F] : F := F64.mul (F64.ofRat 2) (F64.ofRat maxPacket)

def baseDelayMinutes : ℕ := 2

/-- `seq_le`: `a` is not after `b`, counting round the circle. -/
def seqLe (a b : UInt16) : Bool :=
  b - a < 0x8000

/-- `u32 as i32`. -/
def asI32 (n : UInt32) : ℤ :=
  n.toInt32.toInt

/-- `State`. -/
inductive ConnState
  /-- A connection request is out, unanswered. -/
  | connecting
  | opened
  /-- Ended, for the reason `error` gives (none: an orderly close). -/
  | ended
deriving DecidableEq, Repr

/-- `io::ErrorKind`, as far as a connection ends with one. -/
inductive ErrorKind
  | connectionRefused
  | connectionReset
  | connectionAborted
  | timedOut
deriving DecidableEq, Repr

structure Sent where
  seq : UInt16
  kind : PacketType
  payload : List UInt8
  sentAt : ℕ
  transmissions : ℕ
  /-- The peer has it (a selective ack), though earlier packets are missing. -/
  sacked : Bool
  /-- Considered lost: to be sent again as the window allows. -/
  lost : Bool
deriving DecidableEq

def Sent.inNetwork (p : Sent) : Bool :=
  !p.sacked && !p.lost

/-- A packet as it is first put in flight. -/
def Sent.first (now : ℕ) (seq : UInt16) (kind : PacketType) (payload : List UInt8) : Sent where
  seq := seq
  kind := kind
  payload := payload
  sentAt := now
  transmissions := 1
  sacked := false
  lost := false

/-- Whether a packet of this kind is one that settles an acknowledgement
we owe. -/
def PacketType.acknowledges (kind : PacketType) : Bool :=
  kind = .data ∨ kind = .fin ∨ kind = .state

/-- `Connection`. The datagrams of `outgoing` are kept as packets, and
encoded when they are taken. -/
structure Connection (F : Type) where
  epoch : ℕ
  state : ConnState
  error : Option ErrorKind
  sendId : UInt16
  recvId : UInt16
  /-- The sequence number of the next packet we send. -/
  seqNr : UInt16
  outbox : List UInt8
  inFlight : List Sent
  /-- Payload bytes in the network. -/
  curWindow : ℤ
  peerWindow : UInt32
  finPending : Bool
  finSent : Bool
  finAcked : Bool
  lastDataSent : Option ℕ
  /-- The last packet received in order. -/
  ackNr : UInt16
  inbox : List UInt8
  reorder : AList fun _ : UInt16 => List UInt8
  reorderBytes : ℤ
  /-- The sequence number of the peer's FIN, once seen. -/
  finSeq : Option UInt16
  peerClosed : Bool
  ackPending : Bool
  replyMicro : UInt32
  maxWindow : F
  ssthresh : F
  slowStart : Bool
  rtt : Option ℕ
  rttVar : ℕ
  rto : ℕ
  rtoDeadline : Option ℕ
  timeouts : ℕ
  synAttempts : ℕ
  dupAcks : ℕ
  lastAckNr : UInt16
  lastWindowCut : Option ℕ
  /-- The minute and the least delay of it, for the last few minutes. -/
  delayBase : List (ℕ × UInt32)
  lastSent : ℕ
  lastHeard : ℕ
  outgoing : List Packet

namespace Connection

variable {F : Type}

def new [F64 F] (now : ℕ) (state : ConnState) (sendId recvId seqNr : UInt16) : Connection F where
  epoch := now
  state := state
  error := none
  sendId := sendId
  recvId := recvId
  seqNr := seqNr
  outbox := []
  inFlight := []
  curWindow := 0
  peerWindow := .ofNat receiveBuffer
  finPending := false
  finSent := false
  finAcked := false
  lastDataSent := none
  ackNr := 0
  inbox := []
  reorder := ∅
  reorderBytes := 0
  finSeq := none
  peerClosed := false
  ackPending := false
  replyMicro := 0
  maxWindow := initialWindow
  ssthresh := F64.maxValue
  slowStart := true
  rtt := none
  rttVar := 0
  rto := initialRto
  rtoDeadline := none
  timeouts := 0
  synAttempts := 0
  dupAcks := 0
  lastAckNr := 0
  lastWindowCut := none
  delayBase := []
  lastSent := now
  lastHeard := now
  outgoing := []

def takeOutgoing (c : Connection F) : Connection F × List (List UInt8) :=
  ({ c with outgoing := [] }, c.outgoing.map Packet.encode)

/-- Bytes queued to send, sent or not. -/
def queued (c : Connection F) : ℕ :=
  c.outbox.length + (c.inFlight.map fun p => p.payload.length).sum

/-- `Connection::write`: the connection after, and how many bytes it took. -/
def write (data : List UInt8) (c : Connection F) : Connection F × ℕ :=
  if c.state = .ended ∨ c.finPending then (c, 0)
  else
    let take := min data.length (sendBuffer - c.queued)
    ({ c with outbox := c.outbox ++ data.take take }, take)

def writable (c : Connection F) : ℕ :=
  if c.state = .ended ∨ c.finPending then 0 else sendBuffer - c.queued

def receiveWindow (c : Connection F) : UInt32 :=
  .ofNat ((receiveBuffer : ℤ) - (c.inbox.length + c.reorderBytes)).toNat

/-- `Connection::read` into a buffer of `len` bytes: the connection after,
and the bytes. -/
def read (len : ℕ) (c : Connection F) : Connection F × List UInt8 :=
  let n := min len c.inbox.length
  let after := { c with inbox := c.inbox.drop n }
  -- the peer stopped when our window ran out: it is told when there is room
  let opens := 0 < n ∧ c.receiveWindow < .ofNat maxPacket ∧ .ofNat maxPacket ≤ after.receiveWindow
  ({ after with ackPending := after.ackPending || decide opens }, c.inbox.take n)

def isEof (c : Connection F) : Bool :=
  c.peerClosed && c.inbox.isEmpty

def close (c : Connection F) : Connection F :=
  { c with finPending := true }

def fail (error : ErrorKind) (c : Connection F) : Connection F :=
  { c with error := some error, state := .ended, rtoDeadline := none }

/-- The loop of `Connection::receive` over the packets held that now
follow on. It goes round at most once for each of them. -/
def takeHeld : ℕ → Connection F → Connection F
  | 0, c => c
  | fuel + 1, c =>
    match c.reorder.lookup (c.ackNr + 1) with
    | none => c
    | some payload =>
      takeHeld fuel
        { c with
          reorder := c.reorder.erase (c.ackNr + 1)
          reorderBytes := c.reorderBytes - payload.length
          inbox := c.inbox ++ payload
          ackNr := c.ackNr + 1 }

/-- Where `Connection::receive` puts a packet that is `ahead` of the last
one received in order. -/
def place (ahead : UInt16) (packet : Packet) (c : Connection F) : Connection F :=
  if ahead = 1 then
    takeHeld c.reorder.keys.length
      { c with inbox := c.inbox ++ packet.payload, ackNr := packet.seqNr }
  else if (c.reorder.lookup packet.seqNr).isNone then
    { c with
      reorderBytes := c.reorderBytes + packet.payload.length
      reorder := c.reorder.insert packet.seqNr packet.payload }
  else c

/-- The sender should hear how far we have got. -/
def oweAck (c : Connection F) : Connection F :=
  { c with ackPending := true }

/-- The number of a FIN is noted, over any before it. -/
def noteFin (packet : Packet) (c : Connection F) : Connection F :=
  if packet.kind = .fin then { c with finSeq := some packet.seqNr } else c

/-- The peer has closed once everything up to its FIN has come. -/
def noteClosed (c : Connection F) : Connection F :=
  if c.finSeq = some c.ackNr then { c with peerClosed := true } else c

def receive (packet : Packet) (c : Connection F) : Connection F :=
  let ahead := packet.seqNr - c.ackNr
  let c := c.oweAck
  -- one we have, or one from far off: only the ack
  if ahead = 0 ∨ reorderWindow < ahead then c
  -- no room: not acknowledged, so it is sent again
  else if c.receiveWindow.toNat < packet.payload.length then c
  else ((c.noteFin packet).place ahead packet).noteClosed

/-- Sets a bit of a mask, if the mask has it. -/
def setBit (mask : List UInt8) (bit : ℕ) : List UInt8 :=
  mask.modify (bit / 8) (· ||| (1 <<< UInt8.ofNat (bit % 8)))

/-- The mask that says which of `keys` are held: bit `i` for `ack + 2 + i`. -/
def sackMask (ack : UInt16) (keys : List UInt16) : List UInt8 :=
  let spans := keys.map fun seq => (seq - ack).toNat
  match spans.max? with
  | none => []
  | some span =>
    let bytes := max ((span - 1 + 31) / 32) 1 * 4
    (spans.map (· - 2)).foldl setBit (List.replicate (min bytes maxSackBytes) 0)

def selectiveAck (c : Connection F) : List UInt8 :=
  sackMask c.ackNr c.reorder.keys

def absDiff (a b : ℕ) : ℕ :=
  max a b - min a b

def updateRtt (sample : ℕ) (c : Connection F) : Connection F :=
  let rttVar :=
    match c.rtt with
    | none => sample / 2
    | some rtt => c.rttVar * 3 / 4 + absDiff rtt sample / 4
  let rtt :=
    match c.rtt with
    | none => sample
    | some rtt => rtt * 7 / 8 + sample / 8
  { c with rtt := some rtt, rttVar, rto := min (max (rtt + rttVar * 4) minRto) maxRto }

/-- The base delays of `Connection::update_window` with a sample counted
in. -/
def sampleDelay (minute : ℕ) (delay : UInt32) (base : List (ℕ × UInt32)) : List (ℕ × UInt32) :=
  let fresh :=
    let grown := base ++ [(minute, delay)]
    if baseDelayMinutes + 1 < grown.length then grown.tail else grown
  match base.getLast? with
  | some (m, least) =>
    if m = minute then
      if asI32 (delay - least) < 0 then base.dropLast ++ [(m, delay)] else base
    else fresh
  | none => fresh

/-- The least of the delays, by the way round that is shorter. -/
def leastDelay (delay : UInt32) : List (ℕ × UInt32) → UInt32
  | [] => delay
  | (_, first) :: rest =>
    rest.foldl (fun a b => if asI32 (a - b.2) ≤ 0 then a else b.2) first

section Window

variable [F64 F]

open F64 in
def updateWindow (now ackedBytes : ℕ) (delay : UInt32) (c : Connection F) : Connection F :=
  let minute := (now - c.epoch) / secs 1 / 60
  let delayBase := sampleDelay minute delay c.delayBase
  let base := leastDelay delay delayBase
  let queuing := F64.max (ofRat (asI32 (delay - base))) (ofRat 0 : F)
  let acked : F := ofRat ackedBytes
  -- slow start ends when the delay nears its target or the window its bound
  let stop := lt (mul targetDelayUs (ofRat (9 / 10))) queuing || le c.ssthresh c.maxWindow
  let grown :=
    if c.slowStart then
      if stop then c.maxWindow else add c.maxWindow acked
    else
      let delayFactor := div (sub targetDelayUs queuing) targetDelayUs
      let windowFactor := F64.min (div acked c.maxWindow) (ofRat 1)
      add c.maxWindow (mul (mul maxGrowthPerRtt delayFactor) windowFactor)
  -- no use having a window far beyond what is being sent
  let inUse : F := ofRat (c.curWindow + ackedBytes)
  let bound := add (mul (ofRat 2) inUse) (mul (ofRat 4) (ofRat maxPacket))
  { c with
    delayBase
    slowStart := c.slowStart && !stop
    maxWindow := clamp (F64.min grown bound) minWindow (ofRat (16 * 1024 * 1024)) }

/-- `Connection::cut_window`: a loss halves the window, at most once for
each round trip. -/
def cutWindow (now : ℕ) (c : Connection F) : Connection F :=
  let roundTrip := c.rtt.getD initialRto
  if c.lastWindowCut.any fun cut => now - cut < roundTrip then c
  else
    let window := F64.max (F64.div c.maxWindow (F64.ofRat 2)) minWindow
    { c with
      lastWindowCut := some now
      slowStart := false
      maxWindow := window
      ssthresh := window }

/-- What `Connection::process_ack` counts as it goes. -/
structure Tally where
  curWindow : ℤ
  finAcked : Bool
  ackedBytes : ℕ
  rttSample : Option ℕ

/-- The first loop of `Connection::process_ack`: packets up to the one
acknowledged leave the front. -/
def popAcked (now : ℕ) (ack : UInt16) : List Sent → Tally → List Sent × Tally
  | [], tally => ([], tally)
  | front :: rest, tally =>
    if seqLe front.seq ack then
      popAcked now ack rest
        { curWindow :=
            if front.inNetwork then tally.curWindow - front.payload.length else tally.curWindow
          finAcked := tally.finAcked || front.kind = .fin
          ackedBytes :=
            if front.sacked then tally.ackedBytes else tally.ackedBytes + front.payload.length
          rttSample :=
            if front.transmissions = 1 ∧ !front.sacked then some (now - front.sentAt)
            else tally.rttSample }
    else (front :: rest, tally)

/-- The numbers a selective acknowledgement names, lowest first. -/
def sackedNumbers (ack : UInt16) (sack : List UInt8) : List UInt16 :=
  sack.zipIdx.flatMap fun entry =>
    (List.range 8).filterMap fun bit =>
      if entry.1 &&& (1 <<< UInt8.ofNat bit) = 0 then none
      else some (ack + 2 + .ofNat (entry.2 * 8 + bit))

/-- One round of the second loop of `Connection::process_ack`: the packet
of that number, if it is in flight, is one the peer has. -/
def sackOne (now : ℕ) (found : List Sent × Tally) (seq : UInt16) : List Sent × Tally :=
  match found.1.find? fun p => p.seq == seq with
  | none => found
  | some p =>
    if p.sacked then found
    else
      (found.1.modify (found.1.findIdx fun p => p.seq == seq)
          fun p => { p with sacked := true, lost := false },
        { curWindow :=
            if p.inNetwork then found.2.curWindow - p.payload.length else found.2.curWindow
          finAcked := found.2.finAcked
          ackedBytes := found.2.ackedBytes + p.payload.length
          rttSample :=
            if p.transmissions = 1 then some (now - p.sentAt) else found.2.rttSample })

/-- What both loops of `Connection::process_ack` find. -/
def acknowledged (now : ℕ) (packet : Packet) (c : Connection F) : List Sent × Tally :=
  (sackedNumbers packet.ackNr packet.sack).foldl (sackOne now)
    (popAcked now packet.ackNr c.inFlight ⟨c.curWindow, c.finAcked, 0, none⟩)

/-- The window and the count of repeats, by what was acknowledged. -/
def creditAck (now : ℕ) (packet : Packet) (tally : Tally) (c : Connection F) : Connection F :=
  if 0 < tally.ackedBytes then
    { c with timeouts := 0, dupAcks := 0 }.updateWindow now tally.ackedBytes packet.timestampDiff
  else if packet.kind = .state ∧ packet.ackNr = c.lastAckNr ∧ !c.inFlight.isEmpty then
    { c with dupAcks := c.dupAcks + 1 }
  else c

/-- The first packet the peer does not have is presumed lost, unless it
was sent again already. -/
def loseFront (now : ℕ) (c : Connection F) : Connection F :=
  match c.inFlight.find? fun p : Sent => !p.sacked with
  | none => c
  | some front =>
    if front.transmissions = 1 ∧ !front.lost then
      { c with
        inFlight :=
          c.inFlight.modify (c.inFlight.findIdx fun p : Sent => !p.sacked)
            fun p => { p with lost := true }
        curWindow := c.curWindow - front.payload.length }.cutWindow now
    else c

/-- The last acknowledgement seen, which repeats are counted against. -/
def noteAck (ack : UInt16) (c : Connection F) : Connection F :=
  if seqLe c.lastAckNr ack then { c with lastAckNr := ack } else c

/-- The timer is for the oldest thing still unacknowledged. -/
def restartTimer (now : ℕ) (c : Connection F) : Connection F :=
  { c with rtoDeadline := if c.inFlight.isEmpty then none else some (now + c.rto) }

def processAck (now : ℕ) (packet : Packet) (c : Connection F) : Connection F :=
  -- an acknowledgement of what was never sent means nothing
  if !c.inFlight.isEmpty ∧ !seqLe packet.ackNr (c.seqNr - 1) then c
  else
    let found := c.acknowledged now packet
    let c :=
      { c with inFlight := found.1, curWindow := found.2.curWindow, finAcked := found.2.finAcked }
    let c := found.2.rttSample.elim c c.updateRtt
    let c := (c.creditAck now packet found.2).noteAck packet.ackNr
    let c :=
      if c.dupAcks = dupAckThreshold ∨ dupAckThreshold ≤ found.1.countP Sent.sacked then
        c.loseFront now
      else c
    c.restartTimer now

end Window

def micros (now : ℕ) (c : Connection F) : UInt32 :=
  .ofNat ((now - c.epoch) / 1000)

def header (now : ℕ) (kind : PacketType) (seqNr : UInt16) (c : Connection F) : Packet where
  kind := kind
  connectionId := if kind = .syn then c.recvId else c.sendId
  timestamp := c.micros now
  timestampDiff := c.replyMicro
  wndSize := c.receiveWindow
  seqNr := seqNr
  ackNr := c.ackNr
  sack := []
  payload := []

/-- The packet that `Connection::queue` puts out. -/
def packetOf (now : ℕ) (kind : PacketType) (seqNr : UInt16) (payload : List UInt8)
    (c : Connection F) : Packet :=
  { c.header now kind seqNr with
    payload
    sack := if kind = .state then c.selectiveAck else [] }

def queue (now : ℕ) (kind : PacketType) (seqNr : UInt16) (payload : List UInt8)
    (c : Connection F) : Connection F :=
  { c with
    outgoing := c.outgoing ++ [c.packetOf now kind seqNr payload]
    lastSent := now
    ackPending := c.ackPending && !kind.acknowledges }

def sendSyn (now : ℕ) (c : Connection F) : Connection F :=
  let c := { c with synAttempts := 1, inFlight := c.inFlight ++ [Sent.first now c.seqNr .syn []] }
  let c := c.queue now .syn c.seqNr []
  { c with seqNr := c.seqNr + 1, rtoDeadline := some (now + c.rto) }

def sendSynAgain (now : ℕ) (c : Connection F) : Connection F :=
  let c := { c with synAttempts := c.synAttempts + 1 }
  let c := c.queue now .syn (c.seqNr - 1) []
  { c with rtoDeadline := some (now + c.rto) }

def sendState (now : ℕ) (c : Connection F) : Connection F :=
  c.queue now .state c.seqNr []

/-- The loop of `Connection::send_pending` over the packets in flight: the
packets after it, the bytes in the network, and what is to be sent again. -/
def resendLost (now window : ℕ) : List Sent → ℤ → List Sent × ℤ × List Sent
  | [], curWindow => ([], curWindow, [])
  | p :: rest, curWindow =>
    if p.lost then
      if (window : ℤ) < curWindow + p.payload.length ∧ 0 < curWindow then (p :: rest, curWindow, [])
      else
        let p := { p with lost := false, transmissions := p.transmissions + 1, sentAt := now }
        let after := resendLost now window rest (curWindow + p.payload.length)
        (p :: after.1, after.2.1, p :: after.2.2)
    else
      let after := resendLost now window rest curWindow
      (p :: after.1, after.2.1, after.2.2)

/-- What was lost is sent again, as the window allows. -/
def sendLost (now window : ℕ) (c : Connection F) : Connection F :=
  let found := resendLost now window c.inFlight c.curWindow
  found.2.2.foldl (fun c p => c.queue now p.kind p.seq p.payload)
    { c with inFlight := found.1, curWindow := found.2.1 }

/-- The next packet of data goes out, with `n` bytes of the queue. -/
def sendData (now n : ℕ) (c : Connection F) : Connection F :=
  let payload := c.outbox.take n
  let seq := c.seqNr
  { c with
    outbox := c.outbox.drop n
    seqNr := c.seqNr + 1
    curWindow := c.curWindow + n
    inFlight := c.inFlight ++ [Sent.first now seq .data payload]
    lastDataSent := some now }.queue now .data seq payload

/-- The loop of `Connection::send_pending` over what is new. It goes round
at most once for each byte queued. -/
def sendNew (now window : ℕ) : ℕ → Connection F → Connection F
  | 0, c => c
  | fuel + 1, c =>
    if c.outbox = [] then c
    else
      let n := min c.outbox.length maxPayload
      -- a peer whose window has closed is asked again now and then
      let probe := c.curWindow = 0 ∧ c.lastDataSent.all fun sent => c.rto ≤ now - sent
      if (window : ℤ) < c.curWindow + n ∧ ¬ probe then c
      else sendNew now window fuel (c.sendData now n)

/-- The FIN goes out, once everything queued has. -/
def sendFin (now : ℕ) (c : Connection F) : Connection F :=
  if c.finPending ∧ !c.finSent ∧ c.outbox = [] then
    let seq := c.seqNr
    { c with
      seqNr := c.seqNr + 1
      finSent := true
      inFlight := c.inFlight ++ [Sent.first now seq .fin []] }.queue now .fin seq []
  else c

def finishIfDone (c : Connection F) : Connection F :=
  if c.finAcked ∧ c.peerClosed ∧ c.state = .opened then { c with state := .ended } else c

/-- `Connection::abort`: the connection ends at once, and the peer is
told. -/
def abort (now : ℕ) (c : Connection F) : Connection F :=
  (if c.state ≠ .ended then c.queue now .reset c.seqNr [] else c).fail .connectionAborted

section Clock

variable [F64 F]

variable (now : ℕ)

def sendPending (c : Connection F) : Connection F :=
  let window := min (F64.toUsize c.maxWindow) c.peerWindow.toNat
  let c := c.sendLost now window
  let c := sendNew now window c.outbox.length c
  let c := c.sendFin now
  if c.rtoDeadline.isNone ∧ !c.inFlight.isEmpty then
    { c with rtoDeadline := some (now + c.rto) }
  else c

def flush (c : Connection F) : Connection F :=
  let c := if c.state = .opened then c.sendPending now else c
  let c := if c.ackPending ∧ c.state ≠ .ended then c.sendState now else c
  c.finishIfDone

/-- Everything unacknowledged is presumed lost. -/
def loseAll (c : Connection F) : Connection F :=
  { c with
    inFlight := c.inFlight.map fun p => if p.inNetwork then { p with lost := true } else p
    curWindow :=
      c.curWindow - ((c.inFlight.filter Sent.inNetwork).map fun p => p.payload.length).sum }

def onTimeout (c : Connection F) : Connection F :=
  if c.state = .connecting then
    if maxSynAttempts ≤ c.synAttempts then c.fail .timedOut
    else
      { c with
        rto := min (c.rto * 2) maxRto
        inFlight :=
          c.inFlight.modify 0 fun syn =>
            { syn with transmissions := syn.transmissions + 1, sentAt := now } }.sendSynAgain now
  else
    let c := { c with timeouts := c.timeouts + 1 }
    if maxTimeouts < c.timeouts then c.fail .timedOut
    else
      let rto := min (c.rto * 2) maxRto
      { c.loseAll with
        ssthresh := F64.max (F64.div c.maxWindow (F64.ofRat 2)) (F64.mul (F64.ofRat 2) minWindow)
        maxWindow := minWindow
        slowStart := true
        rto
        rtoDeadline := some (now + rto) }

def onTick (c : Connection F) : Connection F :=
  if c.state = .ended then c
  else if deadAfter ≤ now - c.lastHeard then c.fail .timedOut
  else
    let c := if c.rtoDeadline.any (· ≤ now) then c.onTimeout now else c
    let c := if c.state = .opened ∧ keepalive ≤ now - c.lastSent then c.sendState now else c
    c.flush now

/-- A packet has been heard, and its time of sending noted. -/
def hear (packet : Packet) (c : Connection F) : Connection F :=
  { c with lastHeard := now, replyMicro := c.micros now - packet.timestamp }

/-- The connection is open, the answer to our request being `packet`. -/
def openBy (packet : Packet) (c : Connection F) : Connection F :=
  { c with
    state := .opened
    -- a state packet does not use up a number, so the peer's first data
    -- packet is numbered as this one is
    ackNr := packet.seqNr - 1
    peerWindow := packet.wndSize }

/-- `Connection::on_packet` while the answer to our request is awaited:
only that answer means anything. -/
def onAnswer (packet : Packet) (c : Connection F) : Connection F :=
  if packet.kind = .state then (c.openBy packet).processAck now packet else c

/-- What `Connection::on_packet` does with a packet by its kind, once its
acknowledgement is dealt with. -/
def onKind (packet : Packet) (c : Connection F) : Connection F :=
  match packet.kind with
  | .data => c.receive packet
  | .fin => c.receive packet
  -- our answer to its request was lost, and it asked again
  | .syn => c.oweAck
  | .state => c
  | .reset => c

def onPacket (packet : Packet) (c : Connection F) : Connection F :=
  if c.state = .ended then
    -- the peer may not have heard that its FIN arrived
    if c.error = none ∧ (packet.kind = .fin ∨ packet.kind = .data) then c.sendState now else c
  else
    let c := c.hear now packet
    if packet.kind = .reset then
      { c with inFlight := [], curWindow := 0 }.fail
        (if c.state = ConnState.connecting then .connectionRefused else .connectionReset)
    else if c.state = .connecting then (c.onAnswer now packet).flush now
    else
      let c := { c with peerWindow := packet.wndSize }
      ((c.processAck now packet).onKind packet).flush now

def connectFrom (recvId initialSeq : UInt16) : Connection F :=
  (new now ConnState.connecting (recvId + 1) recvId initialSeq).sendSyn now

def connect (recvId : UInt16) : Connection F :=
  connectFrom now recvId 1

def accept (syn : Packet) (initialSeq : UInt16) : Connection F :=
  let c : Connection F :=
    new now ConnState.opened syn.connectionId (syn.connectionId + 1) initialSeq
  { c with
    ackNr := syn.seqNr
    peerWindow := syn.wndSize
    replyMicro := c.micros now - syn.timestamp }.sendState now

end Clock

end Connection

end BitTorrent.Utp
