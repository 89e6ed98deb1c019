import BitTorrent.Common.Circle
import BitTorrent.Common.Run
import BitTorrent.Utp.Connection

/-!
# Two connections and the network between them

The initiator is what `connect` makes, at any initial number, and the acceptor what `accept` makes
of a connection request of its.
-/

namespace BitTorrent.Utp

open Circular Option

variable {F : Type}

/-- **A datagram on the network**, with the number of the packet in it and
the number that packet acknowledges, if it acknowledges any. -/
structure Wire where
  datagram : List UInt8
  seq : ℕ
  ack : Option ℕ
deriving DecidableEq

/-- **One end of a connection.** -/
structure End (F : Type) where
  conn : Connection F
  /-- The number of its first packet. -/
  first : ℕ
  /-- The number of its next packet. -/
  sent : ℕ
  /-- The number of the last packet it received in order, once it knows
  how the peer counts. -/
  acked : Option ℕ
  /-- The bytes that `write` took. -/
  written : List UInt8
  /-- The bytes that `read` gave. -/
  got : List UInt8

/-- What the owner of a connection may ask of it. -/
inductive Op
  | write (data : List UInt8)
  | flush (now : ℕ)
  | read (len : ℕ)
  | close
  | tick (now : ℕ)

/-- The number that a connection begins to count from. -/
def firstNumber (initialSeq : UInt16) : ℕ :=
  65536 + initialSeq.toNat

/-- The id a packet is filed under, as in `Shared::handle`. -/
def Packet.key (p : Packet) : UInt16 :=
  if p.kind = .syn then p.connectionId + 1 else p.connectionId

namespace End

/-- The connection after a call is `c`: what it has to say is taken from
it, and the counters go on. -/
def settle (c : Connection F) (e : End F) : End F × List Wire :=
  let sent := ahead e.sent c.seqNr
  let acked := e.acked.map fun n => ahead n c.ackNr
  ({ e with conn := c.takeOutgoing.1, sent, acked },
    c.outgoing.map fun p =>
      { datagram := p.encode
        seq := behind sent p.seqNr
        ack := acked.map fun n => behind n p.ackNr })

/-- An operation of the owner. -/
def act (e : End F) [F64 F] : Op → End F × List Wire
  | .write data =>
    let result := e.conn.write data
    { e with written := e.written ++ data.take result.2 }.settle result.1
  | .flush now => e.settle (e.conn.flush now)
  | .read len =>
    let result := e.conn.read len
    { e with got := e.got ++ result.2 }.settle result.1
  | .close => e.settle e.conn.close
  | .tick now => e.settle (e.conn.onTick now)

/-- The packet in a datagram is heard. The state packet that opens a
connection is what says how the peer counts. -/
def hear (now : ℕ) (w : Wire) (p : Packet) (e : End F) [F64 F] : End F × List Wire :=
  let learns := e.conn.state = .connecting ∧ p.kind = .state
  { e with acked := if learns then some (w.seq - 1) else e.acked }.settle (e.conn.onPacket now p)

/-- A datagram arrives at an end that is there. -/
def deliver (now : ℕ) (w : Wire) (e : End F) [F64 F] : End F × List Wire :=
  match Packet.decode w.datagram with
  | .error _ => (e, [])
  | .ok p => if p.key = e.conn.recvId then e.hear now w p else (e, [])

/-- The initiator, as `connect_from` makes it. -/
def initiator [F64 F] (now : ℕ) (recvId initialSeq : UInt16) : End F × List Wire :=
  let c := Connection.connectFrom now recvId initialSeq
  let e : End F :=
    { conn := c
      first := firstNumber initialSeq
      sent := firstNumber initialSeq
      acked := none
      written := []
      got := [] }
  e.settle c

/-- The acceptor, as `accept` makes it of the request in a datagram. -/
def acceptor [F64 F] (now : ℕ) (w : Wire) (syn : Packet) (initialSeq : UInt16) :
    End F × List Wire :=
  let c := Connection.accept now syn initialSeq
  let e : End F :=
    { conn := c
      first := firstNumber initialSeq
      sent := firstNumber initialSeq
      acked := some w.seq
      written := []
      got := [] }
  e.settle c

/-- The number of the oldest packet in flight, or of the next packet if
there is none. -/
def front (e : End F) : ℕ :=
  e.sent - e.conn.inFlight.length

/-- Packet `n` of an end is taken as acknowledged: it has left the flight,
or is marked in it as held by the peer. -/
def TakesAsAcked (e : End F) (n : ℕ) : Prop :=
  n < e.front ∨ ∃ p, e.conn.inFlight[n - e.front]? = some p ∧ p.sacked = true

/-- An end has received packet `n` of its peer's: in order, or ahead of
its turn. -/
def Received (e : End F) (n : ℕ) : Prop :=
  ∃ m, e.acked = some m ∧
    (n ≤ m ∨ n < m + halfCircle ∧ (e.conn.reorder.lookup (.ofNat n)).isSome = true)

/-- **A datagram is in time at an end**: less than half the circle late,
in the number it carries and in the number it acknowledges. -/
def InTime (e : End F) (w : Wire) : Prop :=
  (∀ n, e.acked = some n → n < w.seq + halfCircle) ∧
    ∀ n, w.ack = some n → e.front < n + halfCircle

/-- Whether a datagram is in time, checked. -/
def checkTime (e : End F) (w : Wire) : Bool :=
  e.acked.all (· < w.seq + halfCircle) && w.ack.all (e.front < · + halfCircle)

theorem inTime_of_checkTime {e : End F} {w : Wire} (h : e.checkTime w = true) : e.InTime w := by
  simp only [checkTime, Bool.and_eq_true, all_eq_true, decide_eq_true_eq] at h
  exact h

end End

/-- **The two ends and the network between them.** -/
structure Link (F : Type) where
  a : End F
  /-- The acceptor, once a request has reached it. -/
  b : Option (End F)
  /-- Every datagram the initiator has sent. -/
  toB : List Wire
  /-- Every datagram the acceptor has sent. -/
  toA : List Wire

/-- What may happen next. -/
inductive LinkEvent
  | atA (op : Op)
  | atB (op : Op)
  /-- A datagram of the initiator's arrives at the other side. If that
  makes an acceptor, it counts from `initialSeq`. -/
  | toB (now : ℕ) (w : Wire) (initialSeq : UInt16)
  /-- A datagram of the acceptor's arrives at the initiator. -/
  | toA (now : ℕ) (w : Wire)

namespace Link

/-- The initiator has changed, and put something on the network. -/
def setA (s : Link F) (result : End F × List Wire) : Link F :=
  { s with a := result.1, toB := s.toB ++ result.2 }

/-- The acceptor has changed, and put something on the network. -/
def setB (s : Link F) (result : End F × List Wire) : Link F :=
  { s with b := some result.1, toA := s.toA ++ result.2 }

/-- **A step in time**: what is delivered is in time where it arrives, and
neither end has half the circle of packets unacknowledged after it. -/
structure InTime (s : Link F) (event : LinkEvent) (t : Link F) : Prop where
  toA : ∀ now w, event = .toA now w → s.a.InTime w
  toB : ∀ now w initialSeq e, event = .toB now w initialSeq → s.b = some e → e.InTime w
  fewA : t.a.conn.inFlight.length < halfCircle
  fewB : ∀ e, t.b = some e → e.conn.inFlight.length < halfCircle

variable [F64 F]

/-- A connection has been asked for, and nothing else has happened. -/
def start (now : ℕ) (recvId initialSeq : UInt16) : Link F where
  a := (End.initiator now recvId initialSeq).1
  b := none
  toB := (End.initiator (F := F) now recvId initialSeq).2
  toA := []

/-- A datagram arrives where there is no acceptor yet. -/
def welcome (now : ℕ) (w : Wire) (initialSeq : UInt16) (s : Link F) : Link F :=
  match Packet.decode w.datagram with
  | .error _ => s
  | .ok p => if p.kind = .syn then s.setB (End.acceptor now w p initialSeq) else s

variable {s : Link F}

theorem welcome_eq {now : ℕ} {w : Wire} {initialSeq : UInt16} {p : Packet}
    (hp : Packet.decode w.datagram = .ok p) (hsyn : p.kind = .syn) :
    s.welcome now w initialSeq = s.setB (End.acceptor now w p initialSeq) := by
  simp only [welcome, hp, if_pos hsyn]

/-- **One step of the two ends and the network.** -/
inductive Step : Link F → LinkEvent → Link F → Prop
  | atA {s : Link F} (op : Op) : Step s (.atA op) (s.setA (s.a.act op))
  | atB {s : Link F} {e : End F} (op : Op) : s.b = some e → Step s (.atB op) (s.setB (e.act op))
  | welcome {s : Link F} {now : ℕ} {w : Wire} {initialSeq : UInt16} :
      w ∈ s.toB → s.b = none → Step s (.toB now w initialSeq) (s.welcome now w initialSeq)
  | toB {s : Link F} {e : End F} {now : ℕ} {w : Wire} {initialSeq : UInt16} :
      w ∈ s.toB → s.b = some e → Step s (.toB now w initialSeq) (s.setB (e.deliver now w))
  | toA {s : Link F} {now : ℕ} {w : Wire} :
      w ∈ s.toA → Step s (.toA now w) (s.setA (s.a.deliver now w))

/-- **The two ends and the network, as a system.** -/
def system (F : Type) [F64 F] : LTS (Link F) LinkEvent where
  step := Step

/-- The state that an event leads to, if it may happen. -/
def next (s : Link F) : LinkEvent → Option (Link F)
  | .atA op => some (s.setA (s.a.act op))
  | .atB op => s.b.map fun e => s.setB (e.act op)
  | .toB now w initialSeq =>
    if w ∈ s.toB then
      match s.b with
      | none => some (s.welcome now w initialSeq)
      | some e => some (s.setB (e.deliver now w))
    else none
  | .toA now w => if w ∈ s.toA then some (s.setA (s.a.deliver now w)) else none

variable {t : Link F} {event : LinkEvent}

theorem step_of_next (h : s.next event = some t) : Step s event t := by
  cases event with
  | atA op =>
    cases h
    exact .atA op
  | atB op =>
    obtain ⟨e, he, rfl⟩ := map_eq_some_iff.1 h
    exact .atB op he
  | toB now w initialSeq =>
    rw [next] at h
    split at h
    · split at h
      · cases h
        exact .welcome ‹_› ‹_›
      · cases h
        exact .toB ‹_› ‹_›
    · contradiction
  | toA now w =>
    rw [next] at h
    split at h
    · cases h
      exact .toA ‹_›
    · contradiction

omit [F64 F]

/-- Whether what is delivered is in time. -/
def checkArrival (s : Link F) : LinkEvent → Bool
  | .toA _ w => s.a.checkTime w
  | .toB _ w _ => s.b.all (·.checkTime w)
  | _ => true

/-- Whether a step is in time. -/
def checkTime (s : Link F) (event : LinkEvent) (t : Link F) : Bool :=
  s.checkArrival event && t.a.conn.inFlight.length < halfCircle &&
    t.b.all (·.conn.inFlight.length < halfCircle)

theorem inTime_of_checkTime (h : s.checkTime event t = true) : InTime s event t := by
  simp only [checkTime, Bool.and_eq_true, decide_eq_true_eq, all_eq_true] at h
  obtain ⟨⟨harrives, hfewA⟩, hfewB⟩ := h
  refine ⟨?_, ?_, hfewA, hfewB⟩
  · rintro now w rfl
    exact End.inTime_of_checkTime harrives
  · rintro now w initialSeq e rfl he
    rw [checkArrival, he] at harrives
    exact End.inTime_of_checkTime harrives

theorem run_of_play [F64 F] {plan : List (Link F → Option LinkEvent)}
    (h : LTS.play (fun s event => (s.next event).filter (s.checkTime event)) s plan = some t) :
    ∃ events, ((system F).restrict InTime).Run s events t := by
  refine LTS.run_of_play (fun s event t ht => ?_) h
  obtain ⟨hnext, htime⟩ := filter_eq_some_iff.1 ht
  exact ⟨step_of_next hnext, inTime_of_checkTime htime⟩

end Link

end BitTorrent.Utp
