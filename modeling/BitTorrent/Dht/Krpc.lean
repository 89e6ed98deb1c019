import BitTorrent.Bencode.Dict
import BitTorrent.Common.Address
import BitTorrent.Common.BigEndian
import BitTorrent.Dht.Store

/-!
# The messages of the DHT

`dht/krpc.rs`: queries, responses and errors, each under the transaction
id that its sender chose, how a datagram is read and how one is written.
-/

namespace BitTorrent.Dht

abbrev NodeId := Hash20

/-- A transaction id. -/
abbrev Txid := List UInt8

structure CompactNode where
  id : NodeId
  addr : SocketAddr
deriving DecidableEq

structure MutableFields where
  k : Hash32
  salt : Option (List UInt8)
  seq : Int64
  sig : Signature
  cas : Option Int64

structure PutItem where
  v : Bencode
  mutable : Option MutableFields

inductive Query
  | ping (id : NodeId)
  | findNode (id target : NodeId)
  | getPeers (id infoHash : NodeId)
  | announcePeer (id infoHash : NodeId) (port : UInt16) (token : List UInt8) (impliedPort : Bool)
  | get (id target : NodeId) (seq : Option Int64)
  | put (id : NodeId) (token : List UInt8) (item : PutItem)

def Query.senderId : Query → NodeId
  | ping id => id
  | findNode id _ => id
  | getPeers id _ => id
  | announcePeer id _ _ _ _ => id
  | get id _ _ => id
  | put id _ _ => id

structure Response where
  id : NodeId
  nodes : List CompactNode := []
  values : List SocketAddr := []
  token : Option (List UInt8) := none
  ip : Option SocketAddr := none
  v : Option Bencode := none
  k : Option Hash32 := none
  seq : Option Int64 := none
  sig : Option Signature := none

inductive KrpcMessage
  | query (t : Txid) (query : Query)
  | response (t : Txid) (response : Response)
  | error (t : Txid) (code : Int64) (message : List UInt8)

inductive KrpcError
  | decode (error : DecodeError)
  | notADict
  | missingField (name : String)
  | unknownMessageType
  | unknownQuery (name : List UInt8)
  | malformedCompact (what : String)
deriving DecidableEq

/-- A byte string of an exact length, as `try_into` makes an array of it. -/
def toArray (n : ℕ) (b : List UInt8) : Option (List.Vector UInt8 n) :=
  if h : b.length = n then some ⟨b, h⟩ else none

/-- `bytes20`, `bytes32` and `bytes64`: a byte string that has to be there
and to be so long. -/
def bytesN (n : ℕ) (what : String) (value : Option Bencode) (field : String) :
    Except KrpcError (List.Vector UInt8 n) :=
  match value.bind Bencode.asBytes with
  | none => .error (.missingField field)
  | some b =>
    match toArray n b with
    | none => .error (.malformedCompact what)
    | some a => .ok a

def bytes20 := bytesN 20 "id/hash not 20 bytes"

def bytes32 := bytesN 32 "public key not 32 bytes"

def bytes64 := bytesN 64 "signature not 64 bytes"

def node4Len : ℕ := 26

def node6Len : ℕ := 38

/-- The bytes of a list from one place on, as an array. -/
def arrayAt (n : ℕ) (b : List UInt8) (pos : ℕ) : List.Vector UInt8 n :=
  .ofFn fun i => b.getD (pos + i) 0

/-- `as_chunks`, each chunk read by `read`. -/
def chunksOf {α : Type} (n : ℕ) (read : List UInt8 → α) (data : List UInt8) : List α :=
  (List.range (data.length / n)).map fun i => read ((data.drop (i * n)).take n)

/-- One compact IPv4 node. -/
def compactNode4 (c : List UInt8) : CompactNode :=
  ⟨arrayAt 20 c 0, ⟨.v4 (arrayAt 4 c 20), be16 c 24⟩⟩

/-- One compact IPv6 node. -/
def compactNode6 (c : List UInt8) : CompactNode :=
  ⟨arrayAt 20 c 0, ⟨.v6 (arrayAt 16 c 20), be16 c 36⟩⟩

def parseCompactNodes (data : List UInt8) : Except KrpcError (List CompactNode) :=
  if data.length % node4Len ≠ 0 then
    .error (.malformedCompact "nodes length not a multiple of 26")
  else .ok (chunksOf node4Len compactNode4 data)

def parseCompactNodes6 (data : List UInt8) : Except KrpcError (List CompactNode) :=
  if data.length % node6Len ≠ 0 then
    .error (.malformedCompact "nodes6 length not a multiple of 38")
  else .ok (chunksOf node6Len compactNode6 data)

def parseCompactAddr (b : List UInt8) : Option SocketAddr :=
  if b.length = 6 then some ⟨.v4 (arrayAt 4 b 0), be16 b 4⟩
  else if b.length = 18 then some ⟨.v6 (arrayAt 16 b 0), be16 b 16⟩
  else none

/-- `parse_values`: what is no compact peer, or has no port, is skipped. -/
def parseValues (list : List Bencode) : List SocketAddr :=
  (list.filterMap fun v => v.asBytes.bind parseCompactAddr).filter fun peer => peer.port != 0

/-- An ASCII literal, as bytes. -/
def key (name : String) : List UInt8 := name.toList.map fun c => .ofNat c.toNat

def isReadOnly (data : List UInt8) : Bool :=
  match Bencode.decodeTopLevel false data with
  | .ok value => (value.get (key "ro")).bind Bencode.asInt == some 1
  | .error _ => false

/-- The byte string under a key. -/
def bytesAt (dict : Entries) (name : String) : Option (List UInt8) :=
  (dict.lookup (key name)).bind Bencode.asBytes

/-- The integer under a key. -/
def intAt (dict : Entries) (name : String) : Option Int64 :=
  (dict.lookup (key name)).bind Bencode.asInt

/-- What a field that has to be there is, or which one is missing. -/
def required {α : Type} (name : String) : Option α → Except KrpcError α
  | some a => .ok a
  | none => .error (.missingField name)

/-- The arguments of a `put`: mutable if there is a key `k`. -/
def decodePut (id : NodeId) (a : Entries) : Except KrpcError Query := do
  let v ← required "a.v" (a.lookup (key "v"))
  let token := (bytesAt a "token").getD []
  if (a.lookup (key "k")).isSome then
    let k ← bytes32 (a.lookup (key "k")) "a.k"
    let seq ← required "a.seq" (intAt a "seq")
    let sig ← bytes64 (a.lookup (key "sig")) "a.sig"
    return .put id token ⟨v, some ⟨k, bytesAt a "salt", seq, sig, intAt a "cas"⟩⟩
  else return .put id token ⟨v, none⟩

/-- The query of a name and its arguments. -/
def decodeQuery (name : List UInt8) (id : NodeId) (a : Entries) : Except KrpcError Query :=
  if name = key "ping" then .ok (.ping id)
  else if name = key "find_node" then do
    return .findNode id (← bytes20 (a.lookup (key "target")) "a.target")
  else if name = key "get_peers" then do
    return .getPeers id (← bytes20 (a.lookup (key "info_hash")) "a.info_hash")
  else if name = key "announce_peer" then do
    return .announcePeer id (← bytes20 (a.lookup (key "info_hash")) "a.info_hash")
      ((intAt a "port").getD 0).toUInt64.toUInt16 ((bytesAt a "token").getD [])
      ((intAt a "implied_port").getD 0 == 1)
  else if name = key "get" then do
    return .get id (← bytes20 (a.lookup (key "target")) "a.target") (intAt a "seq")
  else if name = key "put" then decodePut id a
  else .error (.unknownQuery name)

/-- The `r` of a response, and the `ip` beside it. -/
def decodeResponse (dict r : Entries) : Except KrpcError Response := do
  let id ← bytes20 (r.lookup (key "id")) "r.id"
  let nodes ← match bytesAt r "nodes" with
    | some raw => parseCompactNodes raw
    | none => .ok []
  let nodes6 ← match bytesAt r "nodes6" with
    | some raw => parseCompactNodes6 raw
    | none => .ok []
  return {
    id
    nodes := nodes ++ nodes6
    values := (((r.lookup (key "values")).bind Bencode.asList).map parseValues).getD []
    token := bytesAt r "token"
    ip := (bytesAt dict "ip").bind parseCompactAddr
    v := r.lookup (key "v")
    k := (bytesAt r "k").bind (toArray 32)
    seq := intAt r "seq"
    sig := (bytesAt r "sig").bind (toArray 64) }

def KrpcMessage.decode (data : List UInt8) : Except KrpcError KrpcMessage :=
  match Bencode.decodeTopLevel false data with
  | .error e => .error (.decode e)
  | .ok value =>
    match value.asDict with
    | none => .error .notADict
    | some dict => do
      let t ← required "t" (bytesAt dict "t")
      let y ← required "y" (bytesAt dict "y")
      if y = key "q" then
        let name ← required "q" ((dict.lookup (key "q")).bind Bencode.asStr)
        let a ← required "a" ((dict.lookup (key "a")).bind Bencode.asDict)
        let id ← bytes20 (a.lookup (key "id")) "a.id"
        return .query t (← decodeQuery name id a)
      else if y = key "r" then
        let r ← required "r" ((dict.lookup (key "r")).bind Bencode.asDict)
        return .response t (← decodeResponse dict r)
      else if y = key "e" then
        let e ← required "e" ((dict.lookup (key "e")).bind Bencode.asList)
        return .error t (((e[0]?).bind Bencode.asInt).getD 0) (((e[1]?).bind Bencode.asStr).getD [])
      else .error .unknownMessageType

/-- `name`, as the bytes that are sent. -/
def Query.name : Query → List UInt8
  | ping _ => key "ping"
  | findNode _ _ => key "find_node"
  | getPeers _ _ => key "get_peers"
  | announcePeer _ _ _ _ _ => key "announce_peer"
  | get _ _ _ => key "get"
  | put _ _ _ => key "put"

/-- `encode_compact_nodes`: the IPv4 nodes. -/
def encodeCompactNodes (nodes : List CompactNode) : List UInt8 :=
  nodes.flatMap fun n =>
    match n.addr.ip with
    | .v4 octets => n.id.toList ++ octets.toList ++ be16Bytes n.addr.port
    | .v6 _ => []

/-- `encode_compact_nodes6`: the IPv6 nodes. -/
def encodeCompactNodes6 (nodes : List CompactNode) : List UInt8 :=
  nodes.flatMap fun n =>
    match n.addr.ip with
    | .v4 _ => []
    | .v6 octets => n.id.toList ++ octets.toList ++ be16Bytes n.addr.port

def encodePeer (peer : SocketAddr) : List UInt8 := peer.ip.octets ++ be16Bytes peer.port

open Bencode (insertEntry insertSome)

/-- A byte string that is left out where it is empty. -/
def nonempty (b : List UInt8) : Option Bencode := if b = [] then none else some (.bytes b)

/-- The `a` of a query. -/
def Query.encodeArgs (query : Query) : Entries :=
  let a := insertEntry (key "id") (.bytes query.senderId.toList) []
  match query with
  | .ping _ => a
  | .findNode _ target => insertEntry (key "target") (.bytes target.toList) a
  | .getPeers _ infoHash => insertEntry (key "info_hash") (.bytes infoHash.toList) a
  | .announcePeer _ infoHash port token impliedPort =>
    let a := insertEntry (key "implied_port") (.int (if impliedPort then 1 else 0)) a
    let a := insertEntry (key "info_hash") (.bytes infoHash.toList) a
    let a := insertEntry (key "port") (.int port.toUInt64.toInt64) a
    insertEntry (key "token") (.bytes token) a
  | .get _ target seq =>
    let a := insertEntry (key "target") (.bytes target.toList) a
    insertSome (key "seq") (seq.map .int) a
  | .put _ token item =>
    let a := insertEntry (key "token") (.bytes token) a
    let a := insertEntry (key "v") item.v a
    match item.mutable with
    | none => a
    | some m =>
      let a := insertEntry (key "k") (.bytes m.k.toList) a
      let a := insertSome (key "salt") (m.salt.map .bytes) a
      let a := insertEntry (key "seq") (.int m.seq) a
      let a := insertEntry (key "sig") (.bytes m.sig.toList) a
      insertSome (key "cas") (m.cas.map .int) a

/-- The `r` of a response. -/
def Response.encodeBody (response : Response) : Entries :=
  let r := insertEntry (key "id") (.bytes response.id.toList) []
  let r := insertSome (key "nodes") (nonempty (encodeCompactNodes response.nodes)) r
  let r := insertSome (key "nodes6") (nonempty (encodeCompactNodes6 response.nodes)) r
  let r := insertSome (key "token") (response.token.map .bytes) r
  let r := insertSome (key "values")
    (if response.values = [] then none
      else some (.list (response.values.map fun p => .bytes (encodePeer p)))) r
  let r := insertSome (key "v") response.v r
  let r := insertSome (key "k") (response.k.map fun k => .bytes k.toList) r
  let r := insertSome (key "seq") (response.seq.map .int) r
  insertSome (key "sig") (response.sig.map fun sig => .bytes sig.toList) r

/-- The dict of a message. -/
def KrpcMessage.encodeTop (m : KrpcMessage) (readOnly : Bool) : Entries :=
  match m with
  | .query t q =>
    let top := insertEntry (key "a") (.dict q.encodeArgs) []
    let top := if readOnly then insertEntry (key "ro") (.int 1) top else top
    let top := insertEntry (key "q") (.bytes q.name) top
    let top := insertEntry (key "t") (.bytes t) top
    insertEntry (key "y") (.bytes (key "q")) top
  | .response t r =>
    let top := insertEntry (key "r") (.dict r.encodeBody) []
    let top := insertSome (key "ip") (r.ip.map fun ip => .bytes (encodePeer ip)) top
    let top := insertEntry (key "t") (.bytes t) top
    insertEntry (key "y") (.bytes (key "r")) top
  | .error t code message =>
    let top := insertEntry (key "e") (.list [.int code, .bytes message]) []
    let top := insertEntry (key "t") (.bytes t) top
    insertEntry (key "y") (.bytes (key "e")) top

def KrpcMessage.encodeWith (m : KrpcMessage) (readOnly : Bool) : List UInt8 :=
  Bencode.encode (.dict (m.encodeTop readOnly))

def KrpcMessage.encode (m : KrpcMessage) : List UInt8 := m.encodeWith false

end BitTorrent.Dht
