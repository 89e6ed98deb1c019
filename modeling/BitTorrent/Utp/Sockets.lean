import BitTorrent.Common.Address
import BitTorrent.Utp.Link

/-!
# Sockets that carry connections

`utp/socket.rs`: a UDP port with any number of connections, each filed under the address of its
peer and the id that the peer's packets to it carry.
-/

namespace BitTorrent.Utp

variable {F : Type}

namespace Connection

def isFinished (c : Connection F) : Bool :=
  c.state = .ended

def isFlushed (c : Connection F) : Bool :=
  c.outbox.isEmpty && c.inFlight.all fun p => p.kind ≠ .data

end Connection

def maxPending : ℕ := 32

def linger : ℕ := secs 20

abbrev Key := SocketAddr × UInt16

/-- A datagram that a socket sends: where to, and which of its connections
had it to say, if one did. -/
structure Datagram where
  dst : SocketAddr
  bytes : List UInt8
  sayer : Option ℕ
deriving DecidableEq

structure Shared.Link (F : Type) where
  remote : SocketAddr
  conn : Connection F
  /-- When the application let go of it. -/
  abandoned : Option ℕ

structure Shared (F : Type) where
  /-- The address it is bound to. -/
  addr : SocketAddr
  /-- Every link that was ever made. -/
  made : List (Shared.Link F)
  links : AList fun _ : Key => ℕ
  pending : List ℕ
  accepting : Bool
  stop : Bool
  /-- The datagrams that are not uTP, if someone asked for those. -/
  others : Option (List (List UInt8 × SocketAddr))

namespace Shared

/-- What a connection has to say is taken from it, and sent to `dst`. -/
def settle (dst : SocketAddr) (id : ℕ) (link : Link F) (s : Shared F) :
    Shared F × List Datagram :=
  ({ s with made := s.made.set id { link with conn := link.conn.takeOutgoing.1 } },
    link.conn.takeOutgoing.2.map fun bytes => ⟨dst, bytes, some id⟩)

/-- A call on a connection, after which what it has to say is sent to its
peer. -/
def onLink (id : ℕ) (call : Link F → Link F) (s : Shared F) : Shared F × List Datagram :=
  match s.made[id]? with
  | none => (s, [])
  | some link => s.settle link.remote id (call link)

/-- A new link is filed under its key, and what it has to say is sent. -/
def file (remote : SocketAddr) (conn : Connection F) (s : Shared F) :
    Shared F × List Datagram :=
  let id := s.made.length
  ({ s with
      made := s.made ++ [⟨remote, conn.takeOutgoing.1, none⟩]
      links := s.links.insert (remote, conn.recvId) id },
    conn.takeOutgoing.2.map fun bytes => ⟨remote, bytes, some id⟩)

/-- The answer to a packet of a connection we know nothing of. -/
def resetFor (random : UInt16) (packet : Packet) : Packet where
  kind := .reset
  connectionId := packet.connectionId
  timestamp := 0
  timestampDiff := 0
  wndSize := 0
  seqNr := random
  ackNr := packet.seqNr
  sack := []
  payload := []

section

variable [F64 F]

/-- `Shared::handle`, of a datagram that is a packet. -/
def handlePacket (packet : Packet) (src : SocketAddr) (now : ℕ) (random : UInt16)
    (s : Shared F) : Shared F × List Datagram :=
  -- a request is filed under the id its sender will be answered on, plus one
  match s.links.lookup (src, packet.key) with
  | some id => s.onLink id fun link => { link with conn := link.conn.onPacket now packet }
  | none =>
    match packet.kind with
    | .syn =>
      if s.accepting ∧ s.pending.length < maxPending then
        let filed := s.file src (.accept now packet random)
        ({ filed.1 with pending := s.pending ++ [s.made.length] }, filed.2)
      else (s, [])
    | .reset => (s, [])
    | _ => (s, [⟨src, (resetFor random packet).encode, none⟩])

def handle (datagram : List UInt8) (src : SocketAddr) (now : ℕ) (random : UInt16)
    (s : Shared F) : Shared F × List Datagram :=
  match Packet.decode datagram with
  | .ok packet => s.handlePacket packet src now random
  | .error .badExtension => (s, [])
  -- too short to be uTP is as much not uTP as the wrong version is
  | .error _ => ({ s with others := s.others.map (· ++ [(datagram, src)]) }, [])

end

/-- Whether `Shared::tick` forgets a link: it is over, or was let go of and
has said what it had to or taken too long. -/
def Link.isGone (now : ℕ) (link : Link F) : Bool :=
  (link.conn.isFinished && (link.abandoned.isSome || link.conn.error.isSome)) ||
    link.abandoned.any fun since =>
      decide (linger ≤ now - since) || (link.conn.isFlushed && link.conn.finAcked)

/-- The loop of `Shared::tick`: the socket after it, what is sent, and the
keys of what is over. -/
def tickAll [F64 F] (now : ℕ) : List (Key × ℕ) → Shared F → Shared F × List Datagram × List Key
  | [], s => (s, [], [])
  | entry :: rest, s =>
    let one := s.onLink entry.2 fun link => { link with conn := link.conn.onTick now }
    let after := tickAll now rest one.1
    let gone := (one.1.made[entry.2]?).any (Link.isGone now)
    (after.1, one.2 ++ after.2.1, if gone then entry.1 :: after.2.2 else after.2.2)

/-- Keys leave the table. -/
def forget (keys : List Key) (s : Shared F) : Shared F :=
  { s with links := keys.foldl (fun links key => links.erase key) s.links }

/-- What is in the table. -/
def entries (s : Shared F) : List (Key × ℕ) :=
  s.links.entries.map fun entry => (entry.1, entry.2)

def tick [F64 F] (now : ℕ) (s : Shared F) : Shared F × List Datagram :=
  let after := tickAll now s.entries s
  (after.1.forget after.2.2, after.2.1)

/-- One call on each of some links. -/
def onLinks (call : Link F → Link F) : List ℕ → Shared F → Shared F × List Datagram
  | [], s => (s, [])
  | id :: rest, s =>
    let one := s.onLink id call
    let after := onLinks call rest one.1
    (after.1, one.2 ++ after.2)

def abortAll (now : ℕ) (s : Shared F) : Shared F × List Datagram :=
  onLinks (fun link => { link with conn := link.conn.abort now }) (s.entries.map Prod.snd)
    { s with links := ∅ }

def listen (s : Shared F) : Shared F :=
  { s with accepting := true }

/-- `UtpSocket::accept`, when something is pending. -/
def accept (s : Shared F) : Shared F :=
  { s with pending := s.pending.tail }

/-- An id no other connection to this peer is using, on either of its two
ids. -/
def freeId (remote : SocketAddr) (ids : List UInt16) (s : Shared F) : Option UInt16 :=
  (ids.take 64).find? fun id =>
    (s.links.lookup (remote, id)).isNone && (s.links.lookup (remote, id + 1)).isNone

/-- `UtpSocket::connect`, to where it begins to wait for the answer. The
ids are the random ones that it tries. -/
def connect [F64 F] (remote : SocketAddr) (ids : List UInt16) (now : ℕ) (s : Shared F) :
    Shared F × List Datagram :=
  match s.freeId remote ids with
  | none => (s, [])
  | some id => s.file remote (.connect now id)

/-- `UtpSocket::connect`, when it has waited in vain for link `id`. -/
def giveUp (id : ℕ) (s : Shared F) : Shared F :=
  match s.made[id]? with
  | none => s
  | some link =>
    if link.conn.state = .opened then s else s.forget [(link.remote, link.conn.recvId)]

/-- A call on the stream of a link. -/
inductive StreamCall
  /-- `UtpStream::write`, once round its loop. -/
  | write (data : List UInt8) (now : ℕ)
  /-- `UtpStream::read`, once round its loop. -/
  | read (len : ℕ)
  /-- `UtpStream::drop`. -/
  | drop (now : ℕ)
  /-- `UtpCloser::close`. -/
  | close (now : ℕ)

/-- The link after a call on its stream. -/
def Link.call [F64 F] : StreamCall → Link F → Link F
  | .write data now, link =>
    if link.conn.error.isSome ∨ link.conn.isFinished then link
    else if (link.conn.write data).2 = 0 then link
    else { link with conn := (link.conn.write data).1.flush now }
  | .read len, link => { link with conn := (link.conn.read len).1 }
  -- what was written is still sent, then the FIN
  | .drop now, link =>
    { link with conn := link.conn.close.flush now, abandoned := some now }
  | .close now, link => { link with conn := link.conn.abort now }

/-- `UtpSocket::shutdown`: the thread ends every connection on its way out,
and the streams that were never accepted are dropped. -/
def shutdown [F64 F] (now : ℕ) (s : Shared F) : Shared F × List Datagram :=
  let ended :=
    if s.stop then (s, [])
    else
      let aborted := s.abortAll now
      ({ aborted.1 with stop := true, others := none }, aborted.2)
  let dropped := onLinks (Link.call (.drop now)) s.pending { ended.1 with pending := [] }
  (dropped.1, ended.2 ++ dropped.2)

end Shared

/-- One of two sockets. -/
inductive Side
  | near
  | far
deriving DecidableEq

/-- The other socket. -/
def Side.other : Side → Side
  | near => far
  | far => near

/-- **A datagram on the network**, with which connection of which socket
had it to say, if one did. -/
structure Transit where
  src : SocketAddr
  dst : SocketAddr
  bytes : List UInt8
  sayer : Option (Side × ℕ)
deriving DecidableEq

/-- **Two sockets, and everything that was ever sent.** -/
structure Sockets (F : Type) where
  near : Shared F
  far : Shared F
  sent : List Transit

/-- What happens at two sockets, or on the way between them. -/
inductive SocketEvent
  | connect (side : Side) (remote : SocketAddr) (ids : List UInt16) (now : ℕ)
  | giveUp (side : Side) (id : ℕ)
  | listen (side : Side)
  | accept (side : Side)
  | stream (side : Side) (id : ℕ) (call : Shared.StreamCall)
  | tick (side : Side) (now : ℕ)
  | shutdown (side : Side) (now : ℕ)
  /-- A datagram arrives, perhaps late, perhaps not for the first time. -/
  | deliver (side : Side) (t : Transit) (now : ℕ) (random : UInt16)
  /-- Anyone may send anything, under any address. -/
  | forge (src dst : SocketAddr) (bytes : List UInt8)

namespace Sockets

/-- The socket on a side. -/
def socket (n : Sockets F) : Side → Shared F
  | .near => n.near
  | .far => n.far

/-- The socket on a side changes, and sends. -/
def update (side : Side) (after : Shared F × List Datagram) (n : Sockets F) : Sockets F :=
  let sent := n.sent ++ after.2.map fun d =>
    ⟨(n.socket side).addr, d.dst, d.bytes, d.sayer.map fun id => (side, id)⟩
  match side with
  | .near => { n with near := after.1, sent }
  | .far => { n with far := after.1, sent }

/-- What an event leads to, if it may happen. A socket that has been shut
down reads nothing and keeps no time. -/
def next [F64 F] (n : Sockets F) : SocketEvent → Option (Sockets F)
  | .connect side remote ids now => some (n.update side ((n.socket side).connect remote ids now))
  | .giveUp side id => some (n.update side ((n.socket side).giveUp id, []))
  | .listen side => some (n.update side ((n.socket side).listen, []))
  | .accept side => some (n.update side ((n.socket side).accept, []))
  | .stream side id call => some (n.update side ((n.socket side).onLink id (Shared.Link.call call)))
  | .tick side now =>
    if (n.socket side).stop then none else some (n.update side ((n.socket side).tick now))
  | .shutdown side now => some (n.update side ((n.socket side).shutdown now))
  | .deliver side t now random =>
    if t ∈ n.sent ∧ t.dst = (n.socket side).addr ∧ ¬ (n.socket side).stop then
      some (n.update side ((n.socket side).handle t.bytes t.src now random))
    else none
  | .forge src dst bytes => some { n with sent := n.sent ++ [⟨src, dst, bytes, none⟩] }

/-- **Two sockets, as a system.** -/
def system (F : Type) [F64 F] : LTS (Sockets F) SocketEvent where
  step n event n' := n.next event = some n'

/-- Two sockets as they are bound. -/
def bound (near far : SocketAddr) : Sockets F where
  near := ⟨near, [], ∅, [], false, false, none⟩
  far := ⟨far, [], ∅, [], false, false, none⟩
  sent := []

end Sockets

end BitTorrent.Utp
