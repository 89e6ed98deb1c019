import BitTorrent.Peer.Reading
import BitTorrent.Worker.Connection

/-!
# The wait for an unchoke

`wait_for_unchoke` of `worker/connect.rs`: before it asks for anything a worker reads messages
until the peer unchokes it, or names a piece that it may have regardless.
-/

namespace BitTorrent

/-- `wait_for_unchoke`, between two turns. -/
structure UnchokeWait where
  peer : PeerState
  queue : WorkQueue
  unchokeTimeouts : ℕ
  result : Option (Except WorkerError Unit)

namespace UnchokeWait

/-- The wait begins. -/
def start (peer : PeerState) (queue : WorkQueue) : UnchokeWait := ⟨peer, queue, 0, none⟩

def fail (u : UnchokeWait) (stage : Stage) : UnchokeWait :=
  { u with result := some (.error (.connection stage)) }

/-- A message has been read. -/
def take (u : UnchokeWait) (w : World) (m : Message) : UnchokeWait :=
  let r := w.take m u.peer u.queue
  let heard : UnchokeWait := { u with peer := r.2.1, queue := r.2.2 }
  match r.1 with
  | .ok _ => heard
  | .error stage => heard.fail stage

/-- A read timed out. -/
def timeOut (u : UnchokeWait) (w : World) : UnchokeWait × Output :=
  let counted : UnchokeWait := { u with unchokeTimeouts := u.unchokeTimeouts + 1 }
  let out : Output := { heard := some (.error (.io .timedOut)) }
  if maxUnchokeWaitTimeouts ≤ u.unchokeTimeouts + 1 then (counted.fail .peerNeverUnchoked, out)
  else if w.writes 0 then (counted, { out with sent := [.keepAlive] })
  else (counted.fail .keepaliveDuringUnchokeWait, out)

/-- One turn of the loop. -/
def turn (u : UnchokeWait) (w : World) : UnchokeWait × Output :=
  if u.peer.peerChoking && !u.peer.hasAllowedPieces then
    if !w.serves then (u.fail .servePeer, {})
    else
      match w.reading with
      | .ok m => (u.take w m, { heard := some (.ok m) })
      | .error (.io .timedOut) => u.timeOut w
      | .error e => (u.fail .waitForUnchoke, { heard := some (.error e) })
  else ({ u with result := some (.ok ()) }, {})

/-- The wait as a system; it takes no turn after its end. -/
def system : LTS UnchokeWait (World × Output) where
  step u e t := u.result = none ∧ u.turn e.1 = (t, e.2)

/-- A timeout is sat out while there have not been too many, if the
keep-alive is written. -/
def sitsOut (u : UnchokeWait) (w : World) : Bool :=
  decide (u.unchokeTimeouts + 1 < maxUnchokeWaitTimeouts) && w.writes 0

theorem ended_of_turn {u t : UnchokeWait} {w : World} {out : Output} {e : WireError}
    (h : u.turn w = (t, out)) (he : out.heard = some (.error e)) :
    (e = .io .timedOut ∧ u.sitsOut w = true) ∨ t.result.isSome = true := by
  unfold turn at h
  split at h
  · split at h
    · cases h
      cases he
    split at h
    · cases h
      cases he
    · unfold timeOut at h
      dsimp only at h
      split at h
      · cases h
        exact .inr rfl
      split at h
      · rename_i hfew hwrites
        cases h
        cases he
        exact .inl ⟨rfl, by simpa [sitsOut, hwrites] using hfew⟩
      · cases h
        exact .inr rfl
    · cases h
      exact .inr rfl
  · cases h
    cases he

/-- **The wait as a reader.** -/
def reader : Reader UnchokeWait (World × Output) where
  system := system
  read e := e.2.heard
  sitsOut u e := u.sitsOut e.1 = true
  ended u := u.result.isSome = true
  fails _ _ _ _ h hread := ended_of_turn h.2 hread
  stops u e t h hended := by
    rw [h.1] at hended
    cases hended

end UnchokeWait

end BitTorrent
