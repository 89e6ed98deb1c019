import BitTorrent.Peer.Reading

/-!
# The serving loop

`serve_loop` of `seeder.rs`: what a peer asks is answered until it leaves, goes idle or the seeder
stops, or until it has a piece that the download lacks and the connection is handed over.
-/

namespace BitTorrent

/-- What happens outside the loop in one turn of it. -/
structure ServeWorld where
  /-- `shared.running`. -/
  running : Bool
  /-- `IDLE_DISCONNECT` has passed since the peer was heard. -/
  idle : Bool
  /-- `KEEPALIVE_INTERVAL` has passed since anything was sent. -/
  keepaliveDue : Bool
  /-- The keep-alive is written. -/
  keepaliveSent : Bool
  /-- `Serving::tick` succeeds. -/
  ticks : Bool
  /-- What `Message::read_from` returns. -/
  reading : Except WireError Message
  /-- What `Serving::handle` returns; none if it fails. -/
  handles : Option Bool
  /-- `Adopter::wants`, of what the peer has; false if there is no adopter. -/
  wants : List Bool → Bool

/-- How the loop ends. -/
inductive ServeResult
  /-- `Ok(())`. -/
  | left
  /-- `Ok(())`, with the connection given to the download. -/
  | adopted (peerHas : List Bool)
  /-- `Err`. -/
  | failed
deriving DecidableEq

/-- The bit of a piece in a bitfield; false past the end. -/
def bitSet (bits : List UInt8) (index : ℕ) : Bool :=
  (bits[index / 8]?).any fun byte => byte &&& ((0x80 : UInt8) >>> UInt8.ofNat (index % 8)) != 0

def bitfieldIsFull (bits : List UInt8) (total : ℕ) : Bool :=
  decide (0 < total) && decide ((total + 7) / 8 ≤ bits.length) &&
    (List.range total).all fun i => bitSet bits i

/-- What the peer has after it has said something of that. -/
def Message.says (has : List Bool) : Message → Option (List Bool)
  | .bitfield bits => some (has.zipIdx.map fun p => p.1 || bitSet bits p.2)
  | .haveAll => some (has.map fun _ => true)
  | .haveOne pieceIndex => some (has.set pieceIndex.toNat true)
  | _ => none

/-- `serve_loop`, between two turns. -/
structure ServeLoop where
  dialed : Bool
  /-- `shared.have.total()`. -/
  total : ℕ
  /-- What the peer has said it has, if the download may want it. -/
  peerHas : Option (List Bool)
  result : Option ServeResult

namespace ServeLoop

/-- The loop begins. -/
def start (dialed : Bool) (total : ℕ) (adoption : Bool) : ServeLoop :=
  ⟨dialed, total, if adoption then some (List.replicate total false) else none, none⟩

def returns (s : ServeLoop) (result : ServeResult) : ServeLoop := { s with result := some result }

/-- A peer this side dialed that has everything is let go of. -/
def letGo (s : ServeLoop) : Message → ServeLoop
  | .haveAll => if s.dialed then s.returns .left else s
  | .bitfield bits => if s.dialed && bitfieldIsFull bits s.total then s.returns .left else s
  | _ => s

/-- A message has been read. -/
def take (s : ServeLoop) (w : ServeWorld) (m : Message) : ServeLoop :=
  match w.handles with
  | none => s.returns .failed
  | some true => s
  | some false =>
    match s.peerHas.bind fun has => m.says has with
    | some has =>
      if w.wants has then s.returns (.adopted has) else { s with peerHas := some has }.letGo m
    | none => s.letGo m

/-- One turn of the loop: the loop after it, and what was read. -/
def turn (s : ServeLoop) (w : ServeWorld) : ServeLoop × Option (Except WireError Message) :=
  if !w.running then (s.returns .left, none)
  else if w.idle then (s.returns .left, none)
  else if w.keepaliveDue && !w.keepaliveSent then (s.returns .failed, none)
  else if !w.ticks then (s.returns .failed, none)
  else
    match w.reading with
    | .ok m => (s.take w m, some (.ok m))
    -- a quiet interval
    | .error (.io .timedOut) => (s, some (.error (.io .timedOut)))
    | .error (.io e) => (s.returns .failed, some (.error (.io e)))
    -- protocol garbage
    | .error e => (s.returns .left, some (.error e))

/-- The loop as a system; it takes no turn after its end. -/
def system : LTS ServeLoop (ServeWorld × Option (Except WireError Message)) where
  step s e t := s.result = none ∧ s.turn e.1 = (t, e.2)

theorem ended_of_turn {s t : ServeLoop} {w : ServeWorld} {e : WireError}
    (h : s.turn w = (t, some (.error e))) : e = .io .timedOut ∨ t.result.isSome = true := by
  unfold turn at h
  split at h
  · cases h
  split at h
  · cases h
  split at h
  · cases h
  split at h
  · cases h
  split at h <;> cases h
  · exact .inl rfl
  · exact .inr rfl
  · exact .inr rfl

/-- **The loop as a reader**: it sits every timeout out. -/
def reader : Reader ServeLoop (ServeWorld × Option (Except WireError Message)) where
  system := system
  read := Prod.snd
  sitsOut _ _ := True
  ended s := s.result.isSome = true
  fails s e t error h hread := by
    obtain ⟨-, hturn⟩ := h
    rw [hread] at hturn
    exact (ended_of_turn hturn).imp_left fun h => ⟨h, trivial⟩
  stops s e t h hended := by
    rw [h.1] at hended
    cases hended

end ServeLoop

end BitTorrent
