import BitTorrent.Dht.Node

/-!
# Lookups

`dht/lookup.rs`: the iterative lookup for peers and the one for a stored item.
-/

namespace BitTorrent.Dht

def alpha : ℕ := 3

def maxLookupQueries : ℕ := 64

/-- The local variables of a lookup. -/
structure Search (α : Type) where
  candidates : List CompactNode
  queried : Finset SocketAddr
  pending : AList fun _ : Txid => CompactNode
  queriesSent : ℕ
  /-- What it has to return so far. -/
  found : α

/-- What a lookup is for: the query it sends, given this node's id and what
is found so far, and what it makes of an answer. -/
structure Purpose (α : Type) where
  target : NodeId
  ask : NodeId → α → Query
  take : Response → SocketAddr → α → α

/-- Where the loop stands: at its top, before `recv`, or past its end. -/
inductive LookupPhase
  | top
  | waiting
  | ended
deriving DecidableEq

/-- A lookup under way: the node, the local variables and the place. -/
structure Looking (α : Type) where
  node : Dht
  search : Search α
  phase : LookupPhase

/-- What `recv` returns. -/
inductive Received
  | datagram (data : List UInt8) (source : SocketAddr)
  | silence
  | failed

/-- What a step does. -/
inductive LookupEvent
  /-- The queries that went out. -/
  | asks (sent : List Datagram)
  /-- A response; the node that is waited for under its transaction id, if
  one is. -/
  | hears (t : Txid) (response : Response) (source : SocketAddr) (asked : Option CompactNode)
  /-- A query, answered on the spot, or noise. -/
  | serves (replies : List Datagram)
  | silence
  | ends

variable {α : Type}

/-- `dedup_by_key` by address: of neighbours with one address the first
stays. -/
def dedupByAddr : List CompactNode → List CompactNode
  | [] => []
  | n :: ns =>
    match dedupByAddr ns with
    | [] => [n]
    | m :: ms => if n.addr = m.addr then n :: ms else n :: m :: ms

namespace Search

variable (s : Search α)

/-- The candidates sorted by distance, without neighbours of one address. -/
def sorted (target : NodeId) : Search α :=
  { s with candidates := dedupByAddr (RoutingTable.sortByDistance CompactNode.id target
      s.candidates) }

def frontierExhausted : Bool :=
  (s.candidates.take bucketSize).all fun n => n.addr ∈ s.queried

def toQuery : List CompactNode :=
  (s.candidates.filter fun n => n.addr ∉ s.queried).take (alpha - s.pending.entries.length)

/-- A query that went out. -/
def note (t : Txid) (n : CompactNode) : Search α :=
  { s with
    queried := insert n.addr s.queried
    pending := s.pending.insert t n
    queriesSent := s.queriesSent + 1 }

/-- An address that nothing can be sent to. -/
def giveUp (n : CompactNode) : Search α :=
  { s with queried := insert n.addr s.queried }

end Search

namespace Looking

/-- The loop over `to_query`: each query takes a transaction id, and goes
out if `sendable` says so of its place. -/
def askEach (query : Query) (sendable : ℕ → Bool) :
    ℕ → List CompactNode → Dht → Search α → List Datagram × Dht × Search α
  | _, [], d, s => ([], d, s)
  | i, n :: ns, d, s =>
    if sendable i then
      let rest := askEach query sendable (i + 1) ns d.nextTxid.2 (s.note d.nextTxid.1 n)
      ((.query d.nextTxid.1 query, n.addr) :: rest.1, rest.2)
    else askEach query sendable (i + 1) ns d.nextTxid.2 (s.giveUp n)

/-- The first half of a turn, up to `recv`. `timeUp` is the deadline or the
stop flag. -/
def turn (p : Purpose α) (l : Looking α) (timeUp : Bool) (sendable : ℕ → Bool) :
    LookupEvent × Looking α :=
  if timeUp then (.ends, { l with phase := .ended })
  else
    let s := l.search.sorted p.target
    if s.pending.entries.isEmpty && (s.frontierExhausted || s.candidates.isEmpty) then
      (.ends, { l with search := s, phase := .ended })
    else if s.queriesSent < maxLookupQueries then
      let asked := askEach (p.ask l.node.nodeId s.found) sendable 0 s.toQuery l.node s
      (.asks asked.1, ⟨asked.2.1, asked.2.2, .waiting⟩)
    else if s.pending.entries.isEmpty then (.ends, { l with search := s, phase := .ended })
    else (.asks [], { l with search := s, phase := .waiting })

/-- What a lookup makes of a response under a transaction id that it waits
for. -/
def answered (p : Purpose α) (d : Dht) (s : Search α) (t : Txid) (response : Response)
    (source : SocketAddr) : Search α :=
  { s with
    pending := s.pending.erase t
    found := p.take response source s.found
    candidates := s.candidates ++
      response.nodes.filter fun n => n.addr ∉ s.queried && d.isOurFamily n.addr }

variable [Digests] [Ed25519]

/-- The second half of a turn: `recv`, and what comes of it. -/
def receive (p : Purpose α) (l : Looking α) (r : Received) (w : Supply) :
    LookupEvent × Looking α :=
  match r with
  | .failed => (.ends, { l with phase := .ended })
  | .silence => (.silence, { l with search := { l.search with pending := ∅ }, phase := .top })
  | .datagram data source =>
    match l.node.handleInbound data source w with
    | (none, d, replies) => (.serves replies, ⟨d, l.search, .top⟩)
    | (some (t, response, source), d, _) =>
      -- either way the responder is alive
      let d := { d with table := d.table.insert ⟨response.id, source⟩ w.now }
      match l.search.pending.lookup t with
      | none => (.hears t response source none, ⟨d, l.search, .top⟩)
      | some asked =>
        (.hears t response source (some asked),
          ⟨d, answered p d l.search t response source, .top⟩)

end Looking

variable [Digests] [Ed25519]

/-- **A lookup, step by step**, against any datagrams and failures. -/
def looking (p : Purpose α) : LTS (Looking α) LookupEvent where
  step l e m :=
    (l.phase = .top ∧ ∃ timeUp sendable, l.turn p timeUp sendable = (e, m)) ∨
    (l.phase = .waiting ∧ ∃ r w, l.receive p r w = (e, m))

structure LookupResult where
  peers : List SocketAddr := []
  tokens : List (CompactNode × List UInt8) := []
deriving DecidableEq

/-- What the lookup for peers has found: its result and `seen_peers`. -/
structure Gathered where
  result : LookupResult := {}
  seen : Finset SocketAddr := ∅

namespace Gathered

/-- A peer of a response. -/
def add (g : Gathered) (peer : SocketAddr) : Gathered :=
  if peer ∈ g.seen then g
  else ⟨{ g.result with peers := g.result.peers ++ [peer] }, insert peer g.seen⟩

/-- What a response adds: its peers that are new, and its token. -/
def take (response : Response) (source : SocketAddr) (g : Gathered) : Gathered :=
  let g := response.values.foldl add g
  match response.token with
  | none => g
  | some token =>
    { g with result := { g.result with
        tokens := g.result.tokens ++ [(⟨response.id, source⟩, token)] } }

/-- What is returned: the tokens sorted by distance. -/
def finish (g : Gathered) (target : NodeId) : LookupResult :=
  { g.result with tokens := RoutingTable.sortByDistance (fun e => e.1.id) target g.result.tokens }

end Gathered

/-- `iterative_lookup`: for peers, or for nodes only. -/
def lookupPurpose (target : NodeId) (wantPeers : Bool) : Purpose Gathered where
  target := target
  ask id _ := if wantPeers then .getPeers id target else .findNode id target
  take := Gathered.take

/-- Where `iterative_lookup` begins. -/
def beginLookup (d : Dht) (target : NodeId) (extraSeeds : List SocketAddr) : Looking Gathered where
  node := d
  search := {
    candidates := d.table.closest target (bucketSize * 2) ++
      extraSeeds.map fun addr => ⟨.replicate 20 0, addr⟩
    queried := ∅
    pending := ∅
    queriesSent := 0
    found := {} }
  phase := .top

/-- The item of a response, if it verifies against the target: by its hash,
or by the hash of its key and its signature. -/
def verifiedItem (target : NodeId) (salt : Option (List UInt8)) (r : Response) :
    Option StoredItem :=
  match r.v with
  | none => none
  | some v =>
    match r.k, r.seq, r.sig with
    | some k, some seq, some sig =>
      if mutableTarget k salt = target ∧ verifyMutable k salt seq v.encode sig = true then
        some ⟨v, some (k, seq, sig)⟩
      else none
    | none, none, none =>
      if immutableTarget v.encode = target then some ⟨v, none⟩ else none
    | _, _, _ => none

/-- The sequence number of an item, if it is mutable. -/
def StoredItem.seq (item : StoredItem) : Option Int64 := item.mutable.map fun m => m.2.1

/-- `better`. -/
def betterItem : Option StoredItem → StoredItem → Bool
  | none, _ => true
  | some current, candidate =>
    match candidate.seq with
    | some seq => current.seq.all fun currentSeq => decide (currentSeq < seq)
    | none => false

/-- The best item after one more response. -/
def takeItem (target : NodeId) (salt : Option (List UInt8)) (r : Response)
    (best : Option StoredItem) : Option StoredItem :=
  match verifiedItem target salt r with
  | none => best
  | some candidate => if betterItem best candidate then some candidate else best

/-- `get_item`. -/
def itemPurpose (target : NodeId) (salt : Option (List UInt8)) : Purpose (Option StoredItem) where
  target := target
  ask id best := .get id target (best.bind StoredItem.seq)
  take r _ best := takeItem target salt r best

/-- Where `get_item` begins. -/
def beginItem (d : Dht) (target : NodeId) : Looking (Option StoredItem) where
  node := d
  search := {
    candidates := d.table.closest target (bucketSize * 2)
    queried := ∅
    pending := ∅
    queriesSent := 0
    found := none }
  phase := .top

end BitTorrent.Dht
