import BitTorrent.Dht.Routing

/-!
# A node of the DHT

`Dht` of `dht/mod.rs` with what it does with a datagram (`dht/responder.rs`), the tokens it hands
out (`dht/token.rs`) and the ids that are made of an address (`dht/secure_id.rs`).
-/

namespace BitTorrent

namespace Dht

def crc32c (data : List UInt8) : UInt32 :=
  let bit := fun crc : UInt32 => if crc &&& 1 = 1 then (crc >>> 1) ^^^ 0x82F63B78 else crc >>> 1
  ~~~ data.foldl (fun crc byte => bit^[8] (crc ^^^ byte.toUInt32)) 0xFFFFFFFF

def maskV4 : List UInt8 := [0x03, 0x0f, 0x3f, 0xff]

def maskV6 : List UInt8 := [0x01, 0x03, 0x07, 0x0f, 0x1f, 0x3f, 0x7f, 0xff]

/-- `checksum`: the masked octets, with three bits of `rand` in the first. -/
def checksum (ip : IpAddr) (rand : UInt8) : UInt32 :=
  let mask := if ip.isIpv6 then maskV6 else maskV4
  let masked := List.zipWith (· &&& ·) ip.octets mask
  crc32c (masked.modifyHead (· ||| ((rand &&& 7) <<< 5)))

def nodeIdFor (ip : IpAddr) (rand : UInt8) (random : NodeId) : NodeId :=
  let crc := checksum ip rand
  (((random.set 0 (crc >>> 24).toUInt8).set 1 (crc >>> 16).toUInt8).set 2
    (((crc >>> 8).toUInt8 &&& 0xf8) ||| (random.get 2 &&& 7))).set 19 rand

def isLocal : IpAddr → Bool
  | .v4 o => IpAddr.isLocalV4 o
  | .v6 o =>
    let first := (IpAddr.v6 o).segment
    o.toList == List.replicate 15 0 ++ [1] || o.toList == List.replicate 16 0 ||
      first &&& 0xfe00 == 0xfc00 || first &&& 0xffc0 == 0xfe80

/-- `TOKEN_ROTATION`: five minutes. -/
def tokenRotation : ℕ := 300 * 1000000000

structure TokenSecrets where
  current : Hash20
  previous : Option Hash20
  rotatedAt : ℕ

section

variable [Digests]

def tokenFor (secret : Hash20) (ip : IpAddr) : List UInt8 :=
  (Digests.sha1 (secret.toList ++ ip.octets)).toList.take 8

namespace TokenSecrets

variable (t : TokenSecrets)

def issue (ip : IpAddr) : List UInt8 := tokenFor t.current ip

/-- `rotate`, to a secret that is made up then. -/
def rotate (secret : Hash20) (now : ℕ) : TokenSecrets :=
  ⟨secret, some t.current, now⟩

def rotateIfDue (secret : Hash20) (now : ℕ) : TokenSecrets :=
  if tokenRotation ≤ now - t.rotatedAt then t.rotate secret now else t

def accepts (ip : IpAddr) (token : List UInt8) : Bool :=
  tokenFor t.current ip == token || t.previous.any fun prev => tokenFor prev ip == token

end TokenSecrets

end

def addressReportsNeeded : ℕ := 5

def maxAddressCandidates : ℕ := 32

def maxStoredPeersPerHash : ℕ := 100

def maxStoredInfohashes : ℕ := 1000

/-- What the system supplies while a datagram is handled. -/
structure Supply where
  now : ℕ
  /-- A token secret made up at that moment. -/
  secret : Hash20
  /-- The byte of `getrandom`, and `random_node_id`. -/
  rand : UInt8
  randomId : NodeId
  /-- The clock while a table is recentred. -/
  clock : ℕ → ℕ

end Dht

/-- `Dht`, without its socket. -/
structure Dht where
  nodeId : Dht.NodeId
  table : Dht.RoutingTable
  ipv6 : Bool
  txidCounter : UInt16
  tokens : Dht.TokenSecrets
  peerStore : AList fun _ : Dht.NodeId => List SocketAddr
  readOnly : Bool
  externalIp : Option IpAddr
  addressReports : AList fun _ : IpAddr => Finset IpAddr
  itemStore : Dht.Store

namespace Dht

/-- `new`, on an id and a first secret made up then. -/
def new (nodeId : NodeId) (ipv6 : Bool) (secret : Hash20) (now : ℕ) : Dht where
  nodeId := nodeId
  table := .new nodeId
  ipv6 := ipv6
  txidCounter := 0
  tokens := ⟨secret, none, now⟩
  peerStore := ∅
  readOnly := false
  externalIp := none
  addressReports := ∅
  itemStore := .new

def isOurFamily (d : Dht) (addr : SocketAddr) : Bool := addr.isIpv6 == d.ipv6

def nextTxid (d : Dht) : Txid × Dht :=
  (be16Bytes (d.txidCounter + 1), { d with txidCounter := d.txidCounter + 1 })

def noteReportedAddress (d : Dht) (reporter reported : IpAddr) (w : Supply) : Dht :=
  if reported.isIpv6 != d.ipv6 || isLocal reported || d.externalIp == some reported then d
  else
    let reports :=
      if reported ∉ d.addressReports ∧ maxAddressCandidates ≤ d.addressReports.entries.length then
        ∅
      else d.addressReports
    let reporters := insert reporter ((reports.lookup reported).getD ∅)
    if addressReportsNeeded ≤ reporters.card then
      let nodeId := nodeIdFor reported w.rand w.randomId
      { d with
        nodeId := nodeId
        table := d.table.recentre nodeId w.clock
        externalIp := some reported
        addressReports := ∅ }
    else { d with addressReports := reports.insert reported reporters }

/-- A datagram that is sent: the message in it and where it goes. -/
abbrev Datagram := KrpcMessage × SocketAddr

def putErrorCode : PutError → Int64 × List UInt8
  | .valueTooLarge => (205, key "message (v field) too big")
  | .saltTooLarge => (207, key "salt (salt field) too big")
  | .badSignature => (206, key "invalid signature")
  | .casMismatch => (301, key "the CAS hash mismatched, re-read value and try again")
  | .sequenceTooLow => (302, key "sequence number less than current")
  | .storeFull => (201, key "generic error: no room to store any more items")

section

variable [Digests] [Ed25519]

/-- The peer that an announcement stores. -/
def storePeer (d : Dht) (infoHash : NodeId) (peer : SocketAddr) : Dht :=
  if infoHash ∈ d.peerStore ∨ d.peerStore.entries.length < maxStoredInfohashes then
    let peers := (d.peerStore.lookup infoHash).getD []
    let peers := if peer ∉ peers ∧ peers.length < maxStoredPeersPerHash then peers ++ [peer]
      else peers
    { d with peerStore := d.peerStore.insert infoHash peers }
  else d

/-- What a `get` is answered with. -/
def answerGet (d : Dht) (target : NodeId) (seq : Option Int64) (source : SocketAddr) (now : ℕ) :
    Response :=
  let token := some (d.tokens.issue source.ip)
  match d.itemStore.get target now with
  | none => { id := d.nodeId, token, nodes := d.table.closest target bucketSize }
  | some item =>
    match item.mutable with
    | none => { id := d.nodeId, token, v := some item.v }
    | some (k, itemSeq, sig) =>
      if seq.any fun theirs => decide (itemSeq ≤ theirs) then { id := d.nodeId, token }
      else
        { id := d.nodeId, token, v := some item.v, k := some k, seq := some itemSeq,
          sig := some sig }

/-- The reply to a query, or the error, with the node after it. -/
def reply (d : Dht) (query : Query) (source : SocketAddr) (now : ℕ) :
    Except (Int64 × List UInt8) Response × Dht :=
  match query with
  | .ping _ => (.ok { id := d.nodeId }, d)
  | .findNode _ target => (.ok { id := d.nodeId, nodes := d.table.closest target bucketSize }, d)
  | .getPeers _ infoHash =>
    let token := some (d.tokens.issue source.ip)
    match (d.peerStore.lookup infoHash).getD [] with
    | [] => (.ok { id := d.nodeId, nodes := d.table.closest infoHash bucketSize, token }, d)
    | peers => (.ok { id := d.nodeId, values := peers, token }, d)
  | .announcePeer _ infoHash port token impliedPort =>
    if d.tokens.accepts source.ip token then
      (.ok { id := d.nodeId },
        d.storePeer infoHash ⟨source.ip, if impliedPort then source.port else port⟩)
    else (.error (203, key "bad token"), d)
  | .get _ target seq => (.ok (d.answerGet target seq source now), d)
  | .put _ token item =>
    if d.tokens.accepts source.ip token then
      let stored := match item.mutable with
        | none => d.itemStore.putImmutable item.v now
        | some m => d.itemStore.putMutable ⟨m.k, m.salt, m.seq, m.sig, item.v, m.cas⟩ now
      ((stored.1.mapError putErrorCode).map fun _ => { id := d.nodeId },
        { d with itemStore := stored.2 })
    else (.error (203, key "bad token"), d)

/-- `handle_inbound` of a query. -/
def handleQuery (d : Dht) (data : List UInt8) (t : Txid) (query : Query) (source : SocketAddr)
    (w : Supply) : Dht × List Datagram :=
  if d.readOnly then (d, [])
  else
    let d := { d with tokens := d.tokens.rotateIfDue w.secret w.now }
    let d := if isReadOnly data then d
      else { d with table := d.table.insert ⟨query.senderId, source⟩ w.now }
    match d.reply query source w.now with
    | (.ok response, d) => (d, [(.response t { response with ip := some source }, source)])
    | (.error e, d) => (d, [(.error t e.1 e.2, source)])

/-- `handle_inbound`: what is a response is returned, with its transaction
id and where it came from. -/
def handleInbound (d : Dht) (data : List UInt8) (source : SocketAddr) (w : Supply) :
    Option (Txid × Response × SocketAddr) × Dht × List Datagram :=
  if d.isOurFamily source = false then (none, d, [])
  else
    match KrpcMessage.decode data with
    | .error _ => (none, d, [])
    | .ok (.query t query) => (none, d.handleQuery data t query source w)
    | .ok (.response t response) =>
      let d := match response.ip with
        | some reported => d.noteReportedAddress source.ip reported.ip w
        | none => d
      (some (t, response, source), d, [])
    | .ok (.error _ _ _) => (none, d, [])

end

end Dht

end BitTorrent
