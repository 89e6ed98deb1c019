import BitTorrent.Utp.SelectiveAck

/-!
# What the streams of a connection depend on

Most of a connection is timing: when to send, how much, and what to give up on.
-/

namespace BitTorrent.Utp

open List

/-- What a packet that uses up a number carries. -/
structure Item where
  kind : PacketType
  payload : List UInt8
deriving DecidableEq

/-- A packet in flight, without its timing. -/
structure Flying where
  seq : UInt16
  item : Item
  /-- The peer is known to hold it. -/
  sacked : Bool

/-- A packet in flight as the peer may meet it. -/
def Flying.numbered (x : Flying) : UInt16 × Item :=
  (x.seq, x.item)

/-- The sending half of a connection, without its timing. -/
structure Sending where
  state : ConnState
  error : Option ErrorKind
  seqNr : UInt16
  outbox : List UInt8
  flight : List Flying
  finPending : Bool
  finSent : Bool
  ackPending : Bool
  outgoing : List Packet

/-- The receiving half. -/
structure Receiving where
  ackNr : UInt16
  inbox : List UInt8
  reorder : AList fun _ : UInt16 => List UInt8
  finSeq : Option UInt16
  peerClosed : Bool

/-- **What the streams of a connection depend on.** -/
structure Streams extends Sending, Receiving

/-- What of a packet in flight is not its timing. -/
def Sent.flying (p : Sent) : Flying where
  seq := p.seq
  item := ⟨p.kind, p.payload⟩
  sacked := p.sacked

namespace Streams

/-- A packet goes out. -/
def put (p : Packet) (s : Streams) : Streams :=
  { s with
    outgoing := s.outgoing ++ [p]
    ackPending := s.ackPending && !p.kind.acknowledges }

/-- An item takes the next number and is in flight. -/
def launch (item : Item) (s : Streams) : Streams :=
  { s with seqNr := s.seqNr + 1, flight := s.flight ++ [⟨s.seqNr, item, false⟩] }

/-- What a packet's acknowledgement takes out of flight. -/
def acked (ack : UInt16) (s : Streams) : Streams :=
  if s.flight ≠ [] ∧ !seqLe ack (s.seqNr - 1) then s
  else { s with flight := s.flight.dropWhile fun x => seqLe x.seq ack }

/-- `flight'` is `flight` with some packets marked as held by the peer,
each of a number in `seqs`. -/
def Marked (seqs : List UInt16) (flight flight' : List Flying) : Prop :=
  flight'.map Flying.numbered = flight.map Flying.numbered ∧
    ∀ (j : ℕ) (x' : Flying), flight'[j]? = some x' → x'.sacked = true →
      ∃ x : Flying, flight[j]? = some x ∧ (x.sacked = true ∨ x'.seq ∈ seqs)

theorem Marked.refl (seqs : List UInt16) (flight : List Flying) : Marked seqs flight flight :=
  ⟨rfl, fun _ x hx hsacked => ⟨x, hx, .inl hsacked⟩⟩

theorem Marked.trans {seqs seqs' : List UInt16} {f₁ f₂ f₃ : List Flying}
    (h : Marked seqs f₁ f₂) (h' : Marked seqs' f₂ f₃) : Marked (seqs ++ seqs') f₁ f₃ := by
  refine ⟨h'.1.trans h.1, fun j x hx hsacked => ?_⟩
  obtain ⟨y, hy, hmarked⟩ := h'.2 j x hx hsacked
  -- the number at a place does not change
  have hseq : y.numbered = x.numbered := by
    have := congrArg (·[j]?) h'.1
    simpa [getElem?_map, hx, hy, eq_comm] using this
  rcases hmarked with hy' | hmem
  · obtain ⟨z, hz, hz'⟩ := h.2 j y hy hy'
    refine ⟨z, hz, hz'.imp_right fun hmem => mem_append_left _ ?_⟩
    rwa [← show y.seq = x.seq from congrArg Prod.fst hseq]
  · obtain ⟨z, hz⟩ : ∃ z, f₁[j]? = some z := by
      have := congrArg (·[j]?) h.1
      simp only [getElem?_map, hy, Option.map_some] at this
      obtain ⟨z, hz, -⟩ := Option.map_eq_some_iff.1 this.symm
      exact ⟨z, hz⟩
    exact ⟨z, hz, .inr (mem_append_right _ hmem)⟩

/-- **What a packet's acknowledgement does**: it takes packets out of
flight, and may mark others that it names. -/
def AckedBy (packet : Packet) (s t : Streams) : Prop :=
  ∃ flight, Marked (Connection.sackedNumbers packet.ackNr packet.sack) (s.acked packet.ackNr).flight
      flight ∧
    t = { s.acked packet.ackNr with flight := flight }

variable {s t : Streams}

theorem AckedBy.eq {packet : Packet} (h : AckedBy packet s t) :
    ∃ flight, (∀ x ∈ flight, ∃ y ∈ s.flight, y.numbered = x.numbered) ∧
      t = { s with flight := flight } := by
  obtain ⟨flight, hmarked, rfl⟩ := h
  refine ⟨flight, fun x hx => ?_, ?_⟩
  · have hmem : x.numbered ∈ (s.acked packet.ackNr).flight.map Flying.numbered := by
      rw [← hmarked.1]
      exact mem_map_of_mem hx
    obtain ⟨y, hy, heq⟩ := mem_map.1 hmem
    refine ⟨y, ?_, heq⟩
    rw [acked] at hy
    split at hy
    · exact hy
    · exact (dropWhile_sublist _).subset hy
  · rw [acked]
    split <;> rfl

theorem acked_eq_self {ack : UInt16} (h : ∀ x, s.flight.head? = some x →
      ¬ (seqLe ack (s.seqNr - 1) = true ∧ seqLe x.seq ack = true)) :
    s.acked ack = s := by
  rw [acked]
  split
  · rfl
  · rename_i hsent
    have hstays : s.flight.dropWhile (fun x => seqLe x.seq ack) = s.flight := by
      rcases hflight : s.flight with _ | ⟨x, rest⟩
      · rfl
      · have hx := h x (by rw [hflight, head?_cons])
        have hstop : ¬ seqLe x.seq ack = true := fun hx' => hx ⟨by simpa [hflight] using hsent, hx'⟩
        simp [hstop]
    rw [hstays]

/-- The packet says where it is in the stream, what it carries, and how
far the other stream has got here; a state packet also says what is held
past that. -/
structure Stamps (s : Streams) (seq : UInt16) (item : Item) (p : Packet) : Prop where
  seqNr : p.seqNr = seq
  kind : p.kind = item.kind
  payload : p.payload = item.payload
  ackNr : p.ackNr = s.ackNr
  sack : p.sack =
    if item.kind = .state then Connection.sackMask s.ackNr s.reorder.keys else []

/-- **What sending may do**, one packet at a time. -/
inductive Move : Streams → Streams → Prop
  /-- Something in flight is sent again. -/
  | again {s : Streams} {x : Flying} {p : Packet} :
      x ∈ s.flight → s.Stamps x.seq x.item p → Move s (s.put p)
  /-- Bytes of the queue are sent. -/
  | data {s : Streams} {n : ℕ} {p : Packet} :
      s.state = .opened → s.outbox ≠ [] → s.Stamps s.seqNr ⟨.data, s.outbox.take n⟩ p →
      Move s (({ s with outbox := s.outbox.drop n }.launch ⟨.data, s.outbox.take n⟩).put p)
  /-- The FIN is sent, after everything queued. -/
  | fin {s : Streams} {p : Packet} :
      s.state = .opened → s.outbox = [] → s.finPending = true → s.finSent = false →
      s.Stamps s.seqNr ⟨.fin, []⟩ p →
      Move s (({ s with finSent := true }.launch ⟨.fin, []⟩).put p)
  /-- The peer is told how far we have got: not before the connection is
  open, unless it is owed. -/
  | state {s : Streams} {p : Packet} :
      (s.state = .connecting → s.ackPending = true) → (s.state = .ended → s.error = none) →
      s.Stamps s.seqNr ⟨.state, []⟩ p → Move s (s.put p)
  /-- A connection is asked for again. -/
  | syn {s : Streams} {p : Packet} :
      s.state = .connecting → s.Stamps (s.seqNr - 1) ⟨.syn, []⟩ p → Move s (s.put p)
  /-- The connection ends, in order only if it was open. -/
  | ended {s : Streams} {error : Option ErrorKind} :
      (error = none → s.state = .opened) → Move s { s with state := .ended, error := error }

/-- Any number of moves. -/
abbrev Moves : Streams → Streams → Prop :=
  Relation.ReflTransGen Move

theorem Moves.invariant {P : Streams → Prop} (h : Moves s t)
    (hmove : ∀ u v, P u → Move u v → P v) (hs : P s) : P t := by
  induction h with
  | refl => exact hs
  | tail _ hstep ih => exact hmove _ _ ih hstep

theorem Move.toReceiving (h : Move s t) : t.toReceiving = s.toReceiving := by
  cases h <;> rfl

theorem Move.state_ne_opened (h : Move s t) (hs : s.state ≠ .opened) : t.state ≠ .opened := by
  cases h <;> first | exact hs | simp

theorem Move.state_ne_connecting (h : Move s t) (hs : s.state ≠ .connecting) :
    t.state ≠ .connecting := by
  cases h <;> first | exact hs | simp

theorem Moves.state_ne_connecting (h : Moves s t) (hs : s.state ≠ .connecting) :
    t.state ≠ .connecting :=
  h.invariant (P := fun u => u.state ≠ .connecting)
    (fun _ _ hu hmove => hmove.state_ne_connecting hu) hs

theorem Moves.toReceiving (h : Moves s t) : t.toReceiving = s.toReceiving :=
  h.invariant (P := fun u => u.toReceiving = s.toReceiving)
    (fun _ _ hu hmove => hmove.toReceiving.trans hu) rfl

end Streams

namespace Connection

/-- The part of a connection that its streams depend on. -/
def streams {F : Type} (c : Connection F) : Streams where
  state := c.state
  error := c.error
  seqNr := c.seqNr
  outbox := c.outbox
  flight := c.inFlight.map Sent.flying
  finPending := c.finPending
  finSent := c.finSent
  ackPending := c.ackPending
  outgoing := c.outgoing
  ackNr := c.ackNr
  inbox := c.inbox
  reorder := c.reorder
  finSeq := c.finSeq
  peerClosed := c.peerClosed

end Connection

end BitTorrent.Utp
