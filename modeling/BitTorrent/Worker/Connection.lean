import BitTorrent.Peer.State
import BitTorrent.Queue.Workers

/-!
# A worker's connection

`fetch_from` of `worker/mod.rs` with what it calls: `download_one_piece`, `attempt` and
`fetch_blocks` of `worker/piece.rs`, and the wait for a piece the peer has.
-/

namespace BitTorrent

namespace Pipeline

def maxDepth : ℕ := 128

def defaultPeerLimit : ℕ := 64

/-- `cap` of `depth_for`: what the peer allows. -/
def cap (peerLimit : Option ℕ) : ℕ := max 1 (min (peerLimit.getD defaultPeerLimit) maxDepth)

/-- `depth_for`, given how many blocks cover the peer's rate. -/
def depthFor (wanted minDepth : ℕ) (peerLimit : Option ℕ) : ℕ :=
  max (min minDepth (cap peerLimit)) (min wanted (cap peerLimit))

theorem depthFor_le_cap (wanted minDepth : ℕ) (peerLimit : Option ℕ) :
    depthFor wanted minDepth peerLimit ≤ cap peerLimit :=
  Nat.max_le.2 ⟨Nat.min_le_right _ _, Nat.min_le_right _ _⟩

end Pipeline

/-- The stages that an error of a connection names. -/
inductive Stage
  | servePeer
  | replyHolepunch
  | relayHolepunch
  | sendRequest
  | sendRequestAfterPriorProgress
  | readMessageDuringPieceDownload
  | readMessageAfterPriorProgress
  | keepaliveWhileChoked
  | peerChokedUsMidPiece
  | waitForRelevantHave
  | peerHasNoNeededPieces
  | writePieceToDisk
  | waitForUnchoke
  | peerNeverUnchoked
  | keepaliveDuringUnchokeWait
deriving DecidableEq

def stageLabel (base : Stage) (blocksReceived : ℕ) : Stage :=
  if blocksReceived = 0 then base
  else
    match base with
    | .sendRequest => .sendRequestAfterPriorProgress
    | .readMessageDuringPieceDownload => .readMessageAfterPriorProgress
    | other => other

/-- `WorkerError`, without the error of the operating system in it. -/
inductive WorkerError
  | connection (stage : Stage)
  | pieceHashMismatch
deriving DecidableEq

/-- The messages that `handle_holepunch` is for. -/
def Message.isHolepunch : Message → Bool
  | .extended id _ => id == ourUtHolepunchId
  | _ => false

/-- **What happens outside the worker in one step.** A step looks at what
it comes to. -/
structure World where
  /-- `keep_serving` succeeds. -/
  serves : Bool
  /-- `relay_pending_holepunch` succeeds. -/
  relays : Bool
  /-- How many blocks cover two seconds of the peer's rate. -/
  wanted : ℕ
  /-- What `read_message` returns. -/
  reading : Except WireError Message
  /-- What `Serving::handle` returns; none if it fails. -/
  handles : Option Bool
  /-- The reply to a hole-punching message is written, if there is one. -/
  replies : Bool
  /-- Whether the first, second, ... write of the step succeeds. -/
  writes : ℕ → Bool
  /-- What is read after a write has failed. -/
  late : List Message
  /-- `write_piece` succeeds. -/
  stores : Bool

namespace World

/-- What is written of a list where the first failure ends it. -/
def sendAll {α : Type*} (w : World) (l : List α) : List α :=
  (l.zipIdx.takeWhile fun p => w.writes p.2).map Prod.fst

/-- What is written of a list where failures are ignored. -/
def sendEach {α : Type*} (w : World) (l : List α) : List α :=
  (l.zipIdx.filter fun p => w.writes p.2).map Prod.fst

/-- `take`: the upload side, then `absorb`, then `handle_holepunch`. What
it says is whether the peer is doing something, or the stage it failed
at. -/
def take (w : World) (m : Message) (peer : PeerState) (queue : WorkQueue) :
    Except Stage Bool × PeerState × WorkQueue :=
  match w.handles with
  | none => (.error .servePeer, peer, queue)
  | some asked =>
    let absorbed := peer.absorb m
    let result : Except Stage Bool :=
      if m.isHolepunch && !w.replies then .error .replyHolepunch else .ok (absorbed.1 || asked)
    (result, absorbed.2, queue.hear m)

end World

/-- What a worker writes. -/
inductive Sent
  | request (r : BlockRequest)
  | cancel (r : BlockRequest)
  | keepAlive
deriving DecidableEq

/-- **What can be seen of a step from outside**: what was written, what
was read, which pieces were taken from the queue and given back to it,
and the piece reported. -/
structure Output where
  sent : List Sent := []
  heard : Option (Except WireError Message) := none
  took : List PieceWork := []
  gave : List PieceWork := []
  reported : Option (UInt32 × List UInt8) := none

/-- `Lookahead`: a piece that has been taken, with what has been asked of
the peer for it. -/
structure Lookahead where
  work : PieceWork
  assembler : PieceAssembler
  /-- The assembler began from blocks of another connection. -/
  resumed : Bool
  /-- Offset and length of what is asked for and not here yet. -/
  inFlight : List (ℕ × ℕ)
  refusals : ℕ
deriving DecidableEq

def maxLookahead : ℕ := 8

def maxRefusalsPerPiece : ℕ := 8

def maxSalvageMessages : ℕ := 256

namespace Lookahead

/-- A piece that has just been taken, with the blocks `open` found. -/
def opened (work : PieceWork) (part : Option PartialPiece) : Lookahead :=
  ⟨work, .openFrom work part, part.isSome, [], 0⟩

/-- A piece begun again from nothing. -/
def again (work : PieceWork) : Lookahead := ⟨work, .new work, false, [], 0⟩

variable (la : Lookahead)

/-- `next_requests` of its assembler. -/
def ask (room : ℕ) : Option (List BlockRequest × Lookahead) := do
  let r ← la.assembler.nextRequests room
  return (r.1, { la with assembler := r.2 })

/-- The requests that went out are in flight. -/
def send (reqs : List BlockRequest) : Lookahead :=
  { la with inFlight := la.inFlight ++ reqs.map Prod.snd }

/-- `in_flight.retain`: what is at an offset is no longer in flight. -/
def settle (start : UInt32) : Lookahead :=
  { la with inFlight := la.inFlight.filter fun r => r.1 != start.toNat }

/-- `record_block`, whatever it says. -/
def record (start : UInt32) (block : List UInt8) : Option Lookahead := do
  let r ← la.assembler.recordBlock start block
  return { la with assembler := r.2 }

/-- A block has arrived. -/
def receive (start : UInt32) (block : List UInt8) : Option Lookahead := do
  let recorded ← la.record start block
  return recorded.settle start

/-- A request was refused. -/
def refuse (start : UInt32) : Option Lookahead := do
  let assembler ← la.assembler.refuseRequest start
  return { la.settle start with assembler := assembler, refusals := la.refusals + 1 }

/-- What a choke makes of it. -/
def forget : Lookahead :=
  { la with inFlight := [], assembler := la.assembler.forgetRequests }

/-- Whether a request is in flight. -/
def inFlightHas (start length : UInt32) : Bool :=
  la.inFlight.contains (start.toNat, length.toNat)

/-- The first piece of an index, with the ones before and after it. -/
def find (index : UInt32) :
    List Lookahead → Option (List Lookahead × Lookahead × List Lookahead)
  | [] => none
  | next :: rest =>
    if next.work.index = index then some ([], next, rest)
    else (find index rest).map fun r => (next :: r.1, r.2)

/-- **The first piece with anything to ask for**: the ones before it, the
requests, the piece and the ones after it. Asking changes the assemblers
of those before it too. -/
def firstToAsk (room : ℕ) : List Lookahead →
    Option (List Lookahead × Option (List BlockRequest × Lookahead × List Lookahead))
  | [] => some ([], none)
  | next :: rest => do
    let asked ← next.ask room
    if asked.1 = [] then
      let later ← firstToAsk room rest
      return (asked.2 :: later.1, later.2)
    else return ([], some (asked.1, asked.2, rest))

/-- `salvage_after_failed_write`: blocks that had been sent are kept. The
piece being fetched is the first. -/
def salvage : List Message → List Lookahead → Option (List Lookahead)
  | [], hand => some hand
  | .piece index start block :: late, hand =>
    match find index hand with
    | none => salvage late hand
    | some (before, next, rest) => do
      let recorded ← next.record start block
      salvage late (before ++ recorded :: rest)
  | _ :: late, hand => salvage late hand

end Lookahead

namespace WorkQueue

/-- What arrived of a piece is left for another connection. -/
def stash (q : WorkQueue) (la : Lookahead) : WorkQueue :=
  match la.assembler.intoPartial with
  | some part => q.stashPartial la.work.index part
  | none => q

def release (q : WorkQueue) (la : Lookahead) : WorkQueue := (q.stash la).pushBack la.work

end WorkQueue

/-- The piece being fetched, with what else `fetch_blocks` keeps. -/
structure Fetch extends Lookahead where
  blocksReceived : ℕ
  /-- Read timeouts sat through in a row while choked. -/
  chokedTimeouts : ℕ
  /-- Pieces given back after their look-ahead was refused. -/
  declined : Finset UInt32
deriving DecidableEq

namespace Fetch

/-- `fetch_blocks` begins. -/
def start (la : Lookahead) : Fetch :=
  { la with refusals := 0, blocksReceived := 0, chokedTimeouts := 0, declined := ∅ }

/-- The pieces in hand, of which the first is being fetched, put back. -/
def regain (f : Fetch) : List Lookahead → Fetch × List Lookahead
  | [] => (f, [])
  | current :: ahead => ({ f with toLookahead := current }, ahead)

end Fetch

def maxUnchokeWaitTimeouts : ℕ := 6

def maxIrrelevantCycles : ℕ := 50

/-- **Where the worker is.** -/
inductive Phase
  /-- At the top of the loop of `fetch_from`. -/
  | choosing
  /-- A piece has been taken, and is to be opened. -/
  | opening (work : PieceWork)
  /-- In `wait_for_a_piece_it_has`. -/
  | waiting
  /-- At the top of the loop of `fetch_blocks`. -/
  | fetching (f : Fetch)
  /-- At the top of its loop of requests. -/
  | asking (f : Fetch) (depth : ℕ)
  /-- A piece has been taken ahead, and is to be opened. -/
  | openingAhead (f : Fetch) (depth : ℕ) (work : PieceWork)
  /-- Past the requests. -/
  | reading (f : Fetch)
  /-- `download_one_piece` has returned a verified piece. -/
  | writing (work : PieceWork) (data : List UInt8)
  /-- In `release_all`, and then to return, or else to go on. -/
  | releasing (result : Option (Except WorkerError Unit))
  | returned (result : Except WorkerError Unit)

/-- **A connection**, with the queue it shares with others. -/
structure Connection where
  peer : PeerState
  queue : WorkQueue
  /-- Pieces taken ahead, in the order they will be fetched. -/
  ahead : List Lookahead
  /-- Pieces the peer keeps refusing. -/
  refused : Finset UInt32
  irrelevantCycles : ℕ
  phase : Phase

namespace Connection

/-- `fetch_from` begins. -/
def start (peer : PeerState) (queue : WorkQueue) : Connection :=
  ⟨peer, queue, [], ∅, 0, .choosing⟩

variable (c : Connection)

/-- What `fetch_from` asks the queue for. -/
def wants (piece : UInt32) : Bool :=
  c.peer.hasPiece piece && c.peer.mayRequest piece && !decide (piece ∈ c.refused)

/-- What `fetch_blocks` asks the queue for. -/
def wantsAhead (f : Fetch) (piece : UInt32) : Bool :=
  piece != f.work.index && !(c.ahead.any fun next => next.work.index == piece) && c.wants piece &&
    !decide (piece ∈ f.declined)

/-- `return`, with nothing given back. -/
def returns (result : Except WorkerError Unit) : Connection :=
  { c with phase := .returned result }

/-- `fetch_blocks` fails: `attempt` stashes what arrived, and `fetch_from`
gives the piece back and releases those taken ahead. -/
def fail (f : Fetch) (stage : Stage) (out : Output) : Connection × Output :=
  ({ c with
      queue := c.queue.release f.toLookahead
      phase := .releasing (some (.error (.connection stage))) },
    { out with gave := [f.work] })

/-- **The top of the loop of `fetch_from`**, as far as taking a piece. -/
def choose (w : World) : Connection × Output :=
  if !w.serves then (c.returns (.error (.connection .servePeer)), {})
  else if !w.relays then (c.returns (.error (.connection .relayHolepunch)), {})
  else
    match c.ahead with
    | next :: rest =>
      ({ c with ahead := rest, irrelevantCycles := 0, phase := .fetching (.start next) }, {})
    | [] =>
      match c.queue.takeFor c.wants with
      | (.piece work, queue) =>
        ({ c with queue := queue, irrelevantCycles := 0, phase := .opening work },
          { took := [work] })
      | (.done, queue) => ({ c with queue := queue, phase := .returned (.ok ()) }, {})
      | (.nothingForThisPeer, queue) => ({ c with queue := queue, phase := .waiting }, {})

/-- `open`, of the piece to be fetched. -/
def openPiece (work : PieceWork) : Connection × Output :=
  let r := c.queue.takePartial work.index
  ({ c with queue := r.2, phase := .fetching (.start (.opened work r.1)) }, {})

/-- How many times in a row nothing new is put up with. -/
def budget : ℕ :=
  if c.peer.peerChoking then maxUnchokeWaitTimeouts else maxIrrelevantCycles

/-- The end of `wait_for_a_piece_it_has`. -/
def cycle (cycles : ℕ) : Connection :=
  { c with
    irrelevantCycles := cycles
    phase :=
      if c.budget ≤ cycles then .returned (.error (.connection .peerHasNoNeededPieces))
      else .choosing }

/-- `wait_for_a_piece_it_has`. -/
def wait (w : World) : Connection × Output :=
  match w.reading with
  | .ok m =>
    let r := w.take m c.peer c.queue
    let heard : Connection := { c with peer := r.2.1, queue := r.2.2 }
    match r.1 with
    | .ok active =>
      (heard.cycle (if active then 0 else c.irrelevantCycles + 1), { heard := some (.ok m) })
    | .error stage => (heard.returns (.error (.connection stage)), { heard := some (.ok m) })
  | .error (.io .timedOut) =>
    if !c.peer.peerChoking then
      (c.cycle (c.irrelevantCycles + 1), { heard := some (.error (.io .timedOut)) })
    else if w.writes 0 then
      (c.cycle (c.irrelevantCycles + 1),
        { sent := [.keepAlive], heard := some (.error (.io .timedOut)) })
    else
      (c.returns (.error (.connection .keepaliveWhileChoked)),
        { heard := some (.error (.io .timedOut)) })
  | .error e =>
    (c.returns (.error (.connection .waitForRelevantHave)), { heard := some (.error e) })

/-- **The top of the loop of `fetch_blocks`**: the piece may be done
elsewhere, or not be asked for now. -/
def begin (w : World) (minDepth : ℕ) (f : Fetch) : Connection × Output :=
  if !w.serves then c.fail f .servePeer {}
  else if c.queue.isDone f.work.index then
    ({ c with phase := .choosing },
      { sent := (w.sendEach f.inFlight).map fun r => .cancel (f.work.index.toNat, r) })
  else if !c.peer.mayRequest f.work.index then
    -- a choke makes the peer discard every request it has not answered
    ({ c with
        ahead := c.ahead.map Lookahead.forget
        phase := .reading { f with toLookahead := f.forget } }, {})
  else
    let timeouts := if c.peer.peerChoking then f.chokedTimeouts else 0
    let depth := Pipeline.depthFor w.wanted minDepth c.peer.peerRequestLimit
    ({ c with phase := .asking { f with chokedTimeouts := timeouts } depth }, {})

/-- The requests that count against the depth. -/
def outstanding (f : Fetch) : ℕ :=
  f.inFlight.length + (c.ahead.map fun next => next.inFlight.length).sum

/-- Everything taken is asked for: another piece is taken, if there is
room for it. -/
def lookAhead (f : Fetch) (depth : ℕ) : Connection × Output :=
  if maxLookahead ≤ c.ahead.length then ({ c with phase := .reading f }, {})
  else
    match c.queue.takePendingFor (c.wantsAhead f) with
    | (some work, queue) =>
      ({ c with queue := queue, phase := .openingAhead f depth work }, { took := [work] })
    | (none, queue) => ({ c with queue := queue, phase := .reading f }, {})

/-- `open`, of a piece taken ahead. -/
def openAhead (f : Fetch) (depth : ℕ) (work : PieceWork) :
    Connection × Output :=
  let r := c.queue.takePartial work.index
  ({ c with
      queue := r.2
      ahead := c.ahead ++ [.opened work r.1]
      phase := .asking f depth }, {})

/-- **One turn of the loop of requests**: those of one piece go out, the
piece being fetched before those taken ahead, or another piece is
taken. -/
def ask (w : World) (f : Fetch) (depth : ℕ) : Option (Connection × Output) :=
  if depth ≤ c.outstanding f then some ({ c with phase := .reading f }, {})
  else do
    let r ← Lookahead.firstToAsk (depth - c.outstanding f) (f.toLookahead :: c.ahead)
    match r.2 with
    | none =>
      let back := f.regain r.1
      return { c with ahead := back.2 }.lookAhead back.1 depth
    | some (reqs, next, rest) =>
      let written := w.sendAll reqs
      let out : Output := { sent := written.map .request }
      let hand := r.1 ++ next.send written :: rest
      if written.length = reqs.length then
        let back := f.regain hand
        return ({ c with ahead := back.2, phase := .asking back.1 depth }, out)
      else
        let salvaged ← Lookahead.salvage (w.late.take maxSalvageMessages) hand
        let back := f.regain salvaged
        return { c with ahead := back.2 }.fail back.1 (stageLabel .sendRequest f.blocksReceived) out

/-- A message that is neither a block nor a refusal of what is in hand. -/
def takeOther (w : World) (f : Fetch) (m : Message) : Connection × Output :=
  let r := w.take m c.peer c.queue
  let heard : Connection := { c with peer := r.2.1, queue := r.2.2 }
  match r.1 with
  | .ok _ => ({ heard with phase := .fetching f }, { heard := some (.ok m) })
  | .error stage => heard.fail f stage { heard := some (.ok m) }

/-- A refusal of a request for the piece being fetched: asked again, or
the piece is given up on. -/
def refuseCurrent (f : Fetch) (m : Message) (start : UInt32) :
    Option (Connection × Output) := do
  let current ← f.refuse start
  if maxRefusalsPerPiece ≤ current.refusals then
    return ({ c with
        queue := c.queue.release current
        refused := insert f.work.index c.refused
        phase := .releasing none },
      { heard := some (.ok m), gave := [f.work] })
  else
    return ({ c with phase := .fetching { f with toLookahead := current } },
      { heard := some (.ok m) })

/-- The same for a piece taken ahead. -/
def refuseAhead (f : Fetch) (m : Message) (index start : UInt32) :
    Option (Connection × Output) :=
  match Lookahead.find index c.ahead with
  | none => some ({ c with phase := .fetching f }, { heard := some (.ok m) })
  | some (before, next, rest) => do
    let refused ← next.refuse start
    if maxRefusalsPerPiece ≤ refused.refusals then
      return ({ c with
          queue := c.queue.release refused
          ahead := before ++ rest
          phase := .fetching { f with declined := insert next.work.index f.declined } },
        { heard := some (.ok m), gave := [next.work] })
    else
      return ({ c with ahead := before ++ refused :: rest, phase := .fetching f },
        { heard := some (.ok m) })

/-- **A message in the middle of a piece.** -/
def hear (w : World) (f : Fetch) (m : Message) : Option (Connection × Output) :=
  match m with
  | .piece index start block =>
    match Lookahead.find index (f.toLookahead :: c.ahead) with
    -- a block of no piece in hand is dropped
    | none => some ({ c with phase := .fetching f }, { heard := some (.ok m) })
    | some (before, next, rest) => do
      let received ← next.receive start block
      let back := f.regain (before ++ received :: rest)
      return ({ c with
          ahead := back.2
          phase := .fetching { back.1 with blocksReceived := f.blocksReceived + 1 } },
        { heard := some (.ok m) })
  | .rejectRequest index start length =>
    if index = f.work.index ∧ f.inFlightHas start length = true then c.refuseCurrent f m start
    else if c.ahead.any fun next => next.work.index == index && next.inFlightHas start length then
      c.refuseAhead f m index start
    else some (c.takeOther w f m)
  | _ => some (c.takeOther w f m)

/-- A read that fails: a quiet spell is sat through while choked. -/
def readFails (w : World) (f : Fetch) (e : WireError) : Connection × Output :=
  let out : Output := { heard := some (.error e) }
  if c.peer.peerChoking ∧ e = .io .timedOut then
    if maxUnchokeWaitTimeouts ≤ f.chokedTimeouts + 1 then c.fail f .peerChokedUsMidPiece out
    else if w.writes 0 then
      ({ c with phase := .fetching { f with chokedTimeouts := f.chokedTimeouts + 1 } },
        { out with sent := [.keepAlive] })
    else c.fail f .keepaliveWhileChoked out
  else c.fail f (stageLabel .readMessageDuringPieceDownload f.blocksReceived) out

/-- The end of `attempt` on a complete piece: verified, or begun again if
it was resumed, or else the connection fails. -/
def finish [Digests] (c : Connection) (f : Fetch) : Connection × Output :=
  match f.assembler.finish with
  | .ok data => ({ c with phase := .writing f.work data }, {})
  | .error _ =>
    if f.resumed then ({ c with phase := .fetching (.start (.again f.work)) }, {})
    else
      ({ c with
          queue := c.queue.pushBack f.work
          phase := .releasing (some (.error .pieceHashMismatch)) },
        { gave := [f.work] })

/-- **Past the requests.** -/
def read [Digests] (w : World) (f : Fetch) : Option (Connection × Output) :=
  if f.assembler.isComplete then some (c.finish f)
  else
    match w.reading with
    | .ok m => c.hear w f m
    | .error e => some (c.readFails w f e)

/-- `write_piece` and `mark_done`. -/
def store (w : World) (work : PieceWork) (data : List UInt8) :
    Connection × Output :=
  if w.stores then
    let r := c.queue.markDone work.index
    ({ c with queue := r.2, phase := .choosing },
      { reported := if r.1 then some (work.index, data) else none })
  else
    ({ c with
        queue := c.queue.pushBack work
        phase := .releasing (some (.error (.connection .writePieceToDisk))) },
      { gave := [work] })

/-- `release_all`, one piece at a time. -/
def releaseNext (result : Option (Except WorkerError Unit)) :
    Connection × Output :=
  match c.ahead with
  | next :: rest =>
    ({ c with queue := c.queue.release next, ahead := rest }, { gave := [next.work] })
  | [] =>
    match result with
    | some result => (c.returns result, {})
    | none => ({ c with phase := .choosing }, {})

/-- **One step of the worker.** -/
def step [Digests] (minDepth : ℕ) (c : Connection) (w : World) : Option (Connection × Output) :=
  match c.phase with
  | .choosing => some (c.choose w)
  | .opening work => some (c.openPiece work)
  | .waiting => some (c.wait w)
  | .fetching f => some (c.begin w minDepth f)
  | .asking f depth => c.ask w f depth
  | .openingAhead f depth work => some (c.openAhead f depth work)
  | .reading f => c.read w f
  | .writing work data => some (c.store w work data)
  | .releasing result => some (c.releaseNext result)
  | .returned _ => none

end Connection

/-- What happens on a connection and to its queue. -/
inductive ConnectionEvent
  /-- A step of the worker. -/
  | own (w : World) (out : Output)
  /-- A call of another worker. -/
  | other (call : QueueCall ℕ)
  /-- Another worker hears what its peer has. -/
  | noted (held : List Bool)

/-- The message heard in a step, if there is one. -/
def Output.messages (out : Output) : List Message :=
  match out.heard with
  | some (.ok m) => [m]
  | _ => []

/-- The same for an event. -/
def ConnectionEvent.messages : ConnectionEvent → List Message
  | .own _ out => out.messages
  | _ => []

/-- **A connection among other workers**: between any two of its steps
they make any calls of the queue. -/
def connection [Digests] (minDepth : ℕ) : LTS Connection ConnectionEvent where
  step c e t :=
    match e with
    | .own w out => c.step minDepth w = some (t, out)
    | .other call => ∃ q, QueueCall.Queue c.queue call q ∧ t = { c with queue := q }
    | .noted held => t = { c with queue := c.queue.noteBitfield held }

/-- A step in which nothing fails, and this is read. -/
def World.calm (reading : Except WireError Message) : World where
  serves := true
  relays := true
  wanted := 0
  reading := reading
  handles := some false
  replies := true
  writes _ := true
  late := []
  stores := true

namespace Connection

variable [Digests] {minDepth : ℕ} {allowed : Connection → World → Bool}
  {G : Connection → ConnectionEvent → Connection → Prop} {c : Connection} {ws : List World}

/-- A step of the worker in a world, if it is allowed. -/
def next (minDepth : ℕ) (allowed : Connection → World → Bool) (c : Connection) (w : World) :
    Option (ConnectionEvent × Connection) :=
  if allowed c w then (c.step minDepth w).map fun r => (.own w r.2, r.1) else none

theorem step_of_next (hG : ∀ c w out t, allowed c w = true → G c (.own w out) t)
    (c : Connection) (w : World) (e : ConnectionEvent) (t : Connection)
    (h : c.next minDepth allowed w = some (e, t)) :
    ((connection minDepth).restrict G).step c e t := by
  unfold next at h
  split at h
  · rename_i hallowed
    obtain ⟨r, hr, h⟩ := Option.map_eq_some_iff.1 h
    cases h
    exact ⟨hr, hG _ _ _ _ hallowed⟩
  · cases h

/-- The steps a worker takes in one world after another, as far as each
is allowed. -/
def drive (minDepth : ℕ) (allowed : Connection → World → Bool) :
    Connection → List World → Option (List ConnectionEvent × Connection) :=
  LTS.drive fun c w => c.next minDepth allowed w

theorem run_of_drive {es : List ConnectionEvent} {t : Connection}
    (hG : ∀ c w out t, allowed c w = true → G c (.own w out) t)
    (h : drive minDepth allowed c ws = some (es, t)) :
    ((connection minDepth).restrict G).Run c es t :=
  LTS.run_of_drive (step_of_next hG) h

end Connection

/-- Nothing is read. -/
def World.silence : World := .calm (.error (.io .timedOut))

/-- A piece of one byte. -/
def PieceWork.byte (index : UInt32) : PieceWork := { PieceWork.sample 1 with index := index }

/-- A torrent of such pieces, all to be fetched. -/
def WorkQueue.bytes (n : ℕ) : WorkQueue :=
  .new ((List.range n).map fun i => .byte (.ofNat i)) n .rarestFirst ∅

/-- A peer that has them all, does not choke us, allows piece 0 even if it
does, and takes two requests. -/
def PeerState.seed (n : ℕ) : PeerState :=
  { forTorrent n with
    peerChoking := false
    peerHasPieces := List.replicate n true
    peerRequestLimit := some 2
    fast := true
    allowedFast := {0} }

end BitTorrent
