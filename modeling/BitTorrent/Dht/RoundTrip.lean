import BitTorrent.Dht.Krpc

/-!
# A message that is sent comes back

The encoder inserts into dicts what the decoder looks up there, and leaves out what is empty.
-/

namespace BitTorrent.Dht

open List Option Bencode

open Bencode (insertEntry insertSome lookup_insertEntry lookup_insertSome IsDict)

variable {α : Type} {n : ℕ}

theorem toArray_toList (v : List.Vector UInt8 n) : toArray n v.toList = some v :=
  dif_pos v.toList_length

theorem arrayAt_append (before : List UInt8) (v : List.Vector UInt8 n) (rest : List UInt8) :
    arrayAt n (before ++ v.toList ++ rest) before.length = v := by
  refine List.Vector.ext fun i => ?_
  have hi : i.1 < v.toList.length := by
    rw [v.toList_length]
    exact i.2
  rw [arrayAt, List.Vector.get_ofFn, append_assoc, getD_append_add,
    getD_eq_getElem?_getD, getElem?_append_left hi, getElem?_eq_getElem hi]
  rfl

theorem bytesN_toList (what field : String) (v : List.Vector UInt8 n) :
    bytesN n what (some (.bytes v.toList)) field = .ok v := by
  simp [bytesN, asBytes, toArray_toList]

theorem chunksOf_flatMap {read : List UInt8 → α} {write : α → List UInt8} (hn : 0 < n) {xs : List α}
    (h : ∀ x ∈ xs, (write x).length = n ∧ read (write x) = x) :
    (xs.flatMap write).length % n = 0 ∧ chunksOf n read (xs.flatMap write) = xs := by
  induction xs with
  | nil => exact ⟨Nat.zero_mod n, by simp [chunksOf]⟩
  | cons x xs ih =>
    rw [forall_mem_cons] at h
    obtain ⟨⟨hlength, hread⟩, hxs⟩ := h
    obtain ⟨hmod, hchunks⟩ := ih hxs
    rw [flatMap_cons]
    have hdiv : (write x ++ xs.flatMap write).length / n = (xs.flatMap write).length / n + 1 := by
      rw [length_append, hlength, Nat.add_comm, Nat.add_div_right _ hn]
    constructor
    · rw [length_append, hlength, Nat.add_mod_left, hmod]
    · rw [chunksOf, hdiv, range_succ_eq_map, map_cons, List.map_map]
      refine congrArg₂ _ ?_ ?_
      · rw [Nat.zero_mul, drop_zero, take_left' hlength, hread]
      · conv_rhs => rw [← hchunks, chunksOf]
        refine map_congr_left fun i _ => ?_
        have hdrop : (write x ++ xs.flatMap write).drop ((i + 1) * n) =
            (xs.flatMap write).drop (i * n) := by
          rw [Nat.succ_mul, Nat.add_comm, ← drop_drop, drop_left' hlength]
        exact congrArg (fun b => read (b.take n)) hdrop

/-- What `encode_compact_nodes` and `encode_compact_nodes6` write for a node
of theirs. -/
def writeNode (node : CompactNode) : List UInt8 :=
  node.id.toList ++ node.addr.ip.octets ++ be16Bytes node.addr.port

theorem encodeCompactNodes_eq (nodes : List CompactNode) :
    encodeCompactNodes nodes = (nodes.filter fun n => !n.addr.isIpv6).flatMap writeNode ∧
    encodeCompactNodes6 nodes = (nodes.filter fun n => n.addr.isIpv6).flatMap writeNode := by
  induction nodes with
  | nil => exact ⟨rfl, rfl⟩
  | cons node nodes ih =>
    obtain ⟨id, ip, port⟩ := node
    rw [encodeCompactNodes, encodeCompactNodes6] at ih ⊢
    rw [flatMap_cons, flatMap_cons, ih.1, ih.2]
    cases ip <;> exact ⟨rfl, rfl⟩

theorem parts_of_node (id : NodeId) (octets : List.Vector UInt8 n) (port : UInt16) :
    arrayAt 20 (id.toList ++ octets.toList ++ be16Bytes port) 0 = id ∧
    arrayAt n (id.toList ++ octets.toList ++ be16Bytes port) 20 = octets ∧
    be16 (id.toList ++ octets.toList ++ be16Bytes port) (20 + n) = port := by
  refine ⟨?_, ?_, ?_⟩
  · have h := arrayAt_append [] id (octets.toList ++ be16Bytes port)
    rwa [nil_append, ← append_assoc] at h
  · have h := arrayAt_append id.toList octets (be16Bytes port)
    rwa [id.toList_length] at h
  · have h := be16_concat (id.toList ++ octets.toList) port
    rwa [length_append, id.toList_length, octets.toList_length] at h

theorem compactNode_writeNode (node : CompactNode) :
    (writeNode node).length = (if node.addr.isIpv6 then node6Len else node4Len) ∧
    (if node.addr.isIpv6 then compactNode6 else compactNode4) (writeNode node) = node := by
  obtain ⟨id, ip, port⟩ := node
  cases ip with
  | v4 octets | v6 octets =>
    obtain ⟨hid, hoctets, hport⟩ := parts_of_node id octets port
    refine ⟨by simp [writeNode, IpAddr.octets, be16Bytes, SocketAddr.isIpv6, IpAddr.isIpv6,
      node4Len, node6Len], ?_⟩
    simp [compactNode4, compactNode6, writeNode, SocketAddr.isIpv6, IpAddr.isIpv6, IpAddr.octets,
      -append_assoc, hid, hoctets, hport]

theorem parseCompactNodes_encode (nodes : List CompactNode) :
    parseCompactNodes (encodeCompactNodes nodes) = .ok (nodes.filter fun n => !n.addr.isIpv6) ∧
    parseCompactNodes6 (encodeCompactNodes6 nodes) = .ok (nodes.filter fun n => n.addr.isIpv6) := by
  obtain ⟨h4, h6⟩ := encodeCompactNodes_eq nodes
  constructor
  · have hwritten : ∀ node ∈ nodes.filter fun n => !n.addr.isIpv6,
        (writeNode node).length = node4Len ∧ compactNode4 (writeNode node) = node :=
      fun node hnode => by
        have hfour : node.addr.isIpv6 = false := by simpa using (mem_filter.1 hnode).2
        simpa [hfour] using compactNode_writeNode node
    obtain ⟨hmod, hchunks⟩ := chunksOf_flatMap (by decide) hwritten
    rw [h4, parseCompactNodes, if_neg (not_not.2 hmod), hchunks]
  · have hwritten : ∀ node ∈ nodes.filter fun n => n.addr.isIpv6,
        (writeNode node).length = node6Len ∧ compactNode6 (writeNode node) = node :=
      fun node hnode => by
        simpa [(mem_filter.1 hnode).2] using compactNode_writeNode node
    obtain ⟨hmod, hchunks⟩ := chunksOf_flatMap (by decide) hwritten
    rw [h6, parseCompactNodes6, if_neg (not_not.2 hmod), hchunks]

theorem filter_append_filter {nodes : List CompactNode}
    (h : nodes.Pairwise fun a b => a.addr.isIpv6 = true → b.addr.isIpv6 = true) :
    (nodes.filter fun n => !n.addr.isIpv6) ++ (nodes.filter fun n => n.addr.isIpv6) = nodes := by
  induction nodes with
  | nil => rfl
  | cons node nodes ih =>
    rw [pairwise_cons] at h
    cases hnode : node.addr.isIpv6 with
    | false =>
      rw [filter_cons_of_pos (by simp [hnode]), filter_cons_of_neg (by simp [hnode]),
        cons_append, ih h.2]
    | true =>
      have hall : ∀ b ∈ nodes, b.addr.isIpv6 = true := fun b hb => h.1 b hb hnode
      rw [filter_cons_of_neg (by simp [hnode]), filter_cons_of_pos (by simp [hnode]),
        filter_eq_self.2 hall, filter_eq_nil_iff.2 fun b hb => by simp [hall b hb],
        nil_append]

theorem parseCompactAddr_encodePeer (peer : SocketAddr) :
    parseCompactAddr (encodePeer peer) = some peer := by
  obtain ⟨ip, port⟩ := peer
  cases ip with
  | v4 octets | v6 octets =>
    have hoctets := arrayAt_append [] octets (be16Bytes port)
    have hport := be16_concat octets.toList port
    rw [octets.toList_length] at hport
    simp only [nil_append, length_nil] at hoctets
    have htwo : (be16Bytes port).length = 2 := rfl
    simp [parseCompactAddr, encodePeer, IpAddr.octets, hoctets, hport, htwo]

theorem parseValues_encode {values : List SocketAddr} (h : ∀ p ∈ values, p.port ≠ 0) :
    parseValues (values.map fun p => .bytes (encodePeer p)) = values := by
  have hall : (values.map fun p => bytes (encodePeer p)).filterMap
      (fun v => v.asBytes.bind parseCompactAddr) = values := by
    rw [filterMap_map]
    refine (filterMap_congr fun p _ => ?_).trans filterMap_some
    exact parseCompactAddr_encodePeer p
  rw [parseValues, hall]
  exact filter_eq_self.2 fun p hp => by simpa using h p hp

theorem decodePut_encodeArgs (id : NodeId) (token : List UInt8) (item : PutItem) :
    decodePut id (Query.put id token item).encodeArgs = .ok (.put id token item) := by
  obtain ⟨v, mutable⟩ := item
  cases mutable with
  | none =>
    simp (disch := decide +kernel) only [decodePut, Query.encodeArgs, bytesAt,
      lookup_insertEntry, ↓if_neg, ↓reduceIte]
    rfl
  | some m =>
    obtain ⟨k, salt, seq, sig, cas⟩ := m
    simp (disch := decide +kernel) only [decodePut, Query.encodeArgs, bytesAt, intAt,
      lookup_insertEntry, lookup_insertSome, ↓if_neg, ↓reduceIte, bytes32,
      bytes64, bytesN_toList, isSome_some]
    cases salt <;> cases cas <;> rfl

variable (query : Query)

theorem decodeQuery_encodeArgs :
    decodeQuery query.name query.senderId query.encodeArgs = .ok query := by
  cases query with
  | ping id => rw [decodeQuery, Query.name, if_pos rfl, Query.senderId]
  | findNode | getPeers =>
    simp (disch := decide +kernel) only [decodeQuery, Query.name, Query.senderId, Query.encodeArgs,
      lookup_insertEntry, ↓if_neg, ↓reduceIte, bytes20,
      bytesN_toList]
    rfl
  | announcePeer id infoHash port token impliedPort =>
    simp (disch := decide +kernel) only [decodeQuery, Query.name, Query.senderId, Query.encodeArgs,
      bytesAt, intAt, lookup_insertEntry, ↓if_neg, ↓reduceIte,
      bytes20, bytesN_toList]
    have hport : port.toUInt64.toInt64.toUInt64.toUInt16 = port := by simp
    have himplied : ((if impliedPort then (1 : Int64) else 0) == 1) = impliedPort := by
      cases impliedPort <;> decide
    change Except.ok (Query.announcePeer id infoHash port.toUInt64.toInt64.toUInt64.toUInt16 token
      ((if impliedPort then (1 : Int64) else 0) == 1)) = _
    rw [hport, himplied]
  | get id target seq =>
    simp (disch := decide +kernel) only [decodeQuery, Query.name, Query.senderId, Query.encodeArgs,
      intAt, lookup_insertEntry, lookup_insertSome, ↓if_neg, ↓reduceIte, bytes20, bytesN_toList]
    cases seq <;> rfl
  | put id token item =>
    simp (disch := decide +kernel) only [decodeQuery, Query.name, Query.senderId,
      ↓if_neg, ↓reduceIte]
    exact decodePut_encodeArgs id token item

theorem nonempty_cases {parse : List UInt8 → Except KrpcError (List CompactNode)} {b : List UInt8}
    {nodes : List CompactNode} (hnil : parse [] = .ok []) (h : parse b = .ok nodes) :
    (nonempty b = none ∧ nodes = []) ∨ nonempty b = some (.bytes b) := by
  unfold nonempty
  split
  · rename_i hb
    subst hb
    exact .inl ⟨rfl, Except.ok.inj (h.symm.trans hnil)⟩
  · exact .inr rfl

theorem bind_map_bytes (o : Option (List UInt8)) : (o.map bytes).bind asBytes = o := by
  cases o <;> rfl

theorem bind_map_int (o : Option Int64) : (o.map int).bind asInt = o := by
  cases o <;> rfl

theorem bind_map_read {f : α → List UInt8} {g : List UInt8 → Option α}
    (h : ∀ a, g (f a) = some a) (o : Option α) :
    ((o.map fun a => bytes (f a)).bind asBytes).bind g = o := by
  cases o with
  | none => rfl
  | some a => exact h a

theorem getD_map_parseValues {values : List SocketAddr} (h : ∀ p ∈ values, p.port ≠ 0) :
    (((if values = [] then none
      else some (list (values.map fun p => .bytes (encodePeer p)))).bind
        asList).map parseValues).getD [] = values := by
  split
  · rename_i hvalues
    exact hvalues.symm
  · exact parseValues_encode h

theorem decodeResponse_encodeBody {top : Entries} (r : Response)
    (hnodes : r.nodes.Pairwise fun a b => a.addr.isIpv6 = true → b.addr.isIpv6 = true)
    (hvalues : ∀ p ∈ r.values, p.port ≠ 0)
    (hip : top.lookup (key "ip") = r.ip.map fun ip => .bytes (encodePeer ip)) :
    decodeResponse top r.encodeBody = .ok r := by
  simp (disch := decide +kernel) only [decodeResponse, Response.encodeBody, bytesAt, intAt,
    lookup_insertEntry, lookup_insertSome, ↓if_neg, ↓reduceIte, bytes20,
    bytesN_toList, hip, lookup_nil, or_none, bind_map_bytes, bind_map_int,
    bind_map_read toArray_toList,
    bind_map_read parseCompactAddr_encodePeer, getD_map_parseValues hvalues]
  have hall := filter_append_filter hnodes
  obtain ⟨h4, h6⟩ := parseCompactNodes_encode r.nodes
  generalize (r.nodes.filter fun n => !n.addr.isIpv6) = nodes4 at hall h4
  generalize (r.nodes.filter fun n => n.addr.isIpv6) = nodes6 at hall h6
  rcases nonempty_cases rfl h4 with ⟨hsome4, rfl⟩ | hsome4 <;>
    rcases nonempty_cases rfl h6 with ⟨hsome6, rfl⟩ | hsome6 <;>
    simp only [hsome4, hsome6, bind_none, bind_some, asBytes, h4, h6] <;>
    exact congrArg (fun nodes => Except.ok { r with nodes }) hall

/-- The compact nodes of a message. -/
def KrpcMessage.nodes : KrpcMessage → List CompactNode
  | .response _ r => r.nodes
  | _ => []

/-- The peers of a message. -/
def KrpcMessage.values : KrpcMessage → List SocketAddr
  | .response _ r => r.values
  | _ => []

/-- The stored value of a message. -/
def KrpcMessage.value : KrpcMessage → Option Bencode
  | .query _ (.put _ _ item) => some item.v
  | .response _ r => r.v
  | _ => none

/-- The text of a message. -/
def KrpcMessage.text : KrpcMessage → List UInt8
  | .error _ _ message => message
  | _ => []

/-- **A message the source can hold**: a dict is a `BTreeMap`, and a text is
a `String`. -/
structure KrpcMessage.Held (m : KrpcMessage) : Prop where
  ordered : ∀ v ∈ m.value, v.Ordered
  text : validUtf8 m.text = true

variable {query}

theorem isDict_encodeArgs
    (h : ∀ id token item, query = .put id token item → item.v.Ordered ∧ item.v.depth ≤ n) :
    IsDict n query.encodeArgs := by
  have hid : IsDict n (insertEntry (key "id") (.bytes query.senderId.toList) []) :=
    IsDict.nil.insertBytes
  cases query with
  | ping id => exact hid
  | findNode | getPeers => exact hid.insertBytes
  | announcePeer id infoHash port token impliedPort =>
    exact hid.insertInt.insertBytes.insertInt.insertBytes
  | get id target seq => exact hid.insertBytes.insertSomeInt
  | put id token item =>
    obtain ⟨hord, hdepth⟩ := h id token item rfl
    obtain ⟨v, mutable⟩ := item
    cases mutable with
    | none => exact hid.insertBytes.insertEntry hord hdepth
    | some m =>
      exact ((hid.insertBytes.insertEntry hord hdepth).insertBytes.insertSomeBytes
        (f := fun b => b)).insertInt.insertBytes.insertSomeInt

theorem isDict_nonempty {es : Entries} {k b : List UInt8} (h : IsDict n es) :
    IsDict n (insertSome k (nonempty b) es) := by
  unfold nonempty
  split
  · exact h
  · exact h.insertBytes

theorem shallow_list {β : Type} (f : β → List UInt8) (xs : List β) :
    (list (xs.map fun x => .bytes (f x))).Ordered ∧
      (list (xs.map fun x => .bytes (f x))).depth = 1 := by
  induction xs with
  | nil => exact ⟨trivial, rfl⟩
  | cons x xs ih =>
    obtain ⟨hord, hdepth⟩ := ih
    refine ⟨⟨trivial, hord⟩, ?_⟩
    simp only [map_cons, depth, depthItems] at hdepth ⊢
    omega

variable {r : Response}

theorem isDict_encodeBody (hn : 0 < n)
    (h : ∀ v ∈ r.v, v.Ordered ∧ v.depth ≤ n) : IsDict n r.encodeBody := by
  have hvalues : ∀ {es : Entries}, IsDict n es → IsDict n (insertSome (key "values")
      (if r.values = [] then none
        else some (.list (r.values.map fun p => .bytes (encodePeer p)))) es) := by
    intro es hes
    split
    · exact hes
    · obtain ⟨hord, hdepth⟩ := shallow_list encodePeer r.values
      exact hes.insertEntry hord (hdepth.trans_le hn)
  have hnodes := isDict_nonempty (k := key "nodes6") (b := encodeCompactNodes6 r.nodes)
    (isDict_nonempty (k := key "nodes") (b := encodeCompactNodes r.nodes)
      (IsDict.nil.insertBytes (n := n) (k := key "id") (b := r.id.toList)))
  exact ((hvalues (hnodes.insertSomeBytes (f := id))).insertSome h).insertSomeBytes.insertSomeInt
    |>.insertSomeBytes

theorem isDict_encodeTop {m : KrpcMessage} (readOnly : Bool)
    (h : ∀ v ∈ m.value, v.Ordered ∧ v.depth ≤ n) (hn : 0 < n) :
    IsDict (n + 1) (m.encodeTop readOnly) := by
  cases m with
  | query t query =>
    have hargs : IsDict n query.encodeArgs := by
      refine isDict_encodeArgs fun id token item heq => ?_
      subst heq
      exact h item.v rfl
    have ha : IsDict (n + 1) (insertEntry (key "a") (.dict query.encodeArgs) []) :=
      IsDict.nil.insertEntry hargs.ordered_dict hargs.depth_dict
    have hro : IsDict (n + 1) (if readOnly = true then
        insertEntry (key "ro") (.int 1) (insertEntry (key "a") (.dict query.encodeArgs) [])
        else insertEntry (key "a") (.dict query.encodeArgs) []) := by
      split
      · exact ha.insertInt
      · exact ha
    exact hro.insertBytes.insertBytes.insertBytes
  | response t r =>
    have hbody := isDict_encodeBody hn h
    exact (IsDict.nil.insertEntry hbody.ordered_dict
      hbody.depth_dict).insertSomeBytes.insertBytes.insertBytes
  | error t code message =>
    have he : IsDict (n + 1) (insertEntry (key "e") (.list [.int code, .bytes message]) []) :=
      IsDict.nil.insertEntry ⟨trivial, trivial, trivial⟩ (Nat.succ_le_succ (Nat.zero_le n))
    exact he.insertBytes.insertBytes

theorem validUtf8_name : validUtf8 query.name = true := by
  cases query <;> rw [Query.name] <;> decide +kernel

theorem bytes20_encodeArgs :
    bytes20 (query.encodeArgs.lookup (key "id")) "a.id" = .ok query.senderId := by
  have hid : query.encodeArgs.lookup (key "id") = some (.bytes query.senderId.toList) := by
    cases query with
    | put id token item =>
      obtain ⟨v, mutable⟩ := item
      cases mutable <;> simp (disch := decide +kernel) only [Query.encodeArgs, lookup_insertEntry,
        lookup_insertSome, ↓if_neg, ↓reduceIte]
    | _ => simp (disch := decide +kernel) only [Query.encodeArgs, lookup_insertEntry,
        lookup_insertSome,
        ↓if_neg, ↓reduceIte]
  rw [hid]
  exact bytesN_toList _ _ _

section Decode

variable {data : List UInt8} {dict : Entries} {t : Txid}
  (htop : decodeTopLevel false data = .ok (.dict dict)) (ht : bytesAt dict "t" = some t)

include htop ht

theorem decode_of_query (hy : bytesAt dict "y" = some (key "q"))
    (hname : (dict.lookup (key "q")).bind asStr = some query.name)
    (ha : (dict.lookup (key "a")).bind asDict = some query.encodeArgs) :
    KrpcMessage.decode data = .ok (.query t query) := by
  simp [KrpcMessage.decode, htop, asDict, ht, hy, required, hname, ha, bytes20_encodeArgs,
    decodeQuery_encodeArgs, bind, Except.bind, pure, Except.pure]

theorem decode_of_response {body : Entries} (hy : bytesAt dict "y" = some (key "r"))
    (hr : (dict.lookup (key "r")).bind asDict = some body)
    (hbody : decodeResponse dict body = .ok r) :
    KrpcMessage.decode data = .ok (.response t r) := by
  have hne : key "r" ≠ key "q" := by decide +kernel
  simp [KrpcMessage.decode, htop, asDict, ht, hy, required, hr, hbody, hne, bind,
    Except.bind, pure, Except.pure]

theorem decode_of_error {code : Int64} {message : List UInt8}
    (hy : bytesAt dict "y" = some (key "e"))
    (he : (dict.lookup (key "e")).bind asList = some [.int code, .bytes message])
    (hmessage : validUtf8 message = true) :
    KrpcMessage.decode data = .ok (.error t code message) := by
  have hq : key "e" ≠ key "q" := by decide +kernel
  have hr : key "e" ≠ key "r" := by decide +kernel
  simp [KrpcMessage.decode, htop, asDict, ht, hy, required, he, hq, hr, asInt,
    asStr, asBytes, filter_some, hmessage, bind, Except.bind, pure,
    Except.pure]

end Decode

/-- **A message comes back from its encoding**, marked as read-only or not.
Nodes of the two families have to be in order, peers to have a port, and a
stored value may be nested two levels less than the decoder follows. -/
theorem decode_encodeWith (m : KrpcMessage) (readOnly : Bool) (hheld : m.Held)
    (hslice : (m.encodeWith readOnly).length < 2 ^ 63)
    (hnodes : m.nodes.Pairwise fun a b => a.addr.isIpv6 = true → b.addr.isIpv6 = true)
    (hports : ∀ p ∈ m.values, p.port ≠ 0)
    (hdepth : ∀ v ∈ m.value, v.depth ≤ maxDepth - 2) :
    KrpcMessage.decode (m.encodeWith readOnly) = .ok m := by
  have hdict : IsDict (maxDepth - 2 + 1) (m.encodeTop readOnly) :=
    isDict_encodeTop readOnly (fun v hv => ⟨hheld.ordered v hv, hdepth v hv⟩) (by decide)
  have htop := decodeTopLevel_encode hdict.ordered_dict hdict.depth_dict hslice
  cases m with
  | query t query =>
    have hname : (some (Bencode.bytes query.name)).bind asStr = some query.name := by
      simp [asStr, Bencode.asBytes, validUtf8_name]
    cases readOnly <;> refine decode_of_query htop ?_ ?_ ?_ ?_ <;>
      simp (disch := decide +kernel) only [KrpcMessage.encodeTop, bytesAt, lookup_insertEntry,
        ↓if_neg, ↓reduceIte, hname] <;> rfl
  | response t r =>
    have hip : ((KrpcMessage.response t r).encodeTop readOnly).lookup (key "ip") =
        r.ip.map fun ip => .bytes (encodePeer ip) := by
      simp (disch := decide +kernel) only [KrpcMessage.encodeTop, lookup_insertEntry,
        lookup_insertSome,
        ↓if_neg, ↓reduceIte, lookup_nil, or_none]
    refine decode_of_response htop ?_ ?_ ?_ (decodeResponse_encodeBody r hnodes hports hip) <;>
      simp (disch := decide +kernel) only [KrpcMessage.encodeTop, bytesAt, lookup_insertEntry,
        lookup_insertSome, ↓if_neg, ↓reduceIte] <;> rfl
  | error t code message =>
    refine decode_of_error htop ?_ ?_ ?_ hheld.text <;>
      simp (disch := decide +kernel) only [KrpcMessage.encodeTop, bytesAt, lookup_insertEntry,
        ↓if_neg, ↓reduceIte] <;> rfl

/-- A response with a node and a peer of either family, and a value. -/
def sampleResponse : KrpcMessage :=
  .response [97] {
    id := .replicate 20 1
    nodes := [⟨.replicate 20 2, ⟨.v4 (.replicate 4 10), 6881⟩⟩,
      ⟨.replicate 20 3, ⟨.v6 (.replicate 16 11), 0⟩⟩]
    values := [⟨.v6 (.replicate 16 12), 80⟩, ⟨.v4 (.replicate 4 13), 443⟩]
    token := some []
    ip := some ⟨.v4 (.replicate 4 14), 0⟩
    v := some (.dict [([105], .list [.int (-5)])]) }

theorem decode_encodeWith_sample :
    KrpcMessage.decode (sampleResponse.encodeWith true) = .ok sampleResponse := by
  refine decode_encodeWith sampleResponse true ⟨?_, rfl⟩ (by decide +kernel) ?_ ?_ ?_
  · rintro v ⟨⟩
    simp [Bencode.Ordered, Bencode.OrderedEntries, Bencode.OrderedItems]
  · simp [sampleResponse, KrpcMessage.nodes, SocketAddr.isIpv6, IpAddr.isIpv6]
  · simp [sampleResponse, KrpcMessage.values]
  · rintro v ⟨⟩
    decide

end BitTorrent.Dht
