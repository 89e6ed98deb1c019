import BitTorrent.Dht.Krpc
import BitTorrent.Peer.State

/-!
# The numbers of bencoded messages

A bencoded integer has 64 bits. `ExtendedHandshake::parse`, `MetadataMessage::decode`,
`parse_announce_body` and `KrpcMessage::decode` cut it down to the width of its field with `as`.
-/

namespace BitTorrent

open List Option

/-- `get(name).and_then(as_int)`. -/
def Bencode.intAt (v : Bencode) (name : String) : Option Int64 := (v.get (ascii name)).bind asInt

open Bencode

inductive MetadataError
  | decode (error : DecodeError)
  | notADict
  | missingField (name : String)
  | unknownMsgType (msgType : Int64)
deriving DecidableEq

inductive MetadataMessage
  | request (piece : UInt32)
  | data (piece totalSize : UInt32) (data : List UInt8)
  | reject (piece : UInt32)
deriving DecidableEq

namespace MetadataMessage

def piece : MetadataMessage → UInt32
  | request piece | data piece _ _ | reject piece => piece

/-- The integer under a key that has to be there. -/
def field (value : Bencode) (name : String) : Except MetadataError Int64 :=
  (value.intAt name).elim (.error (.missingField name)) .ok

/-- `decode`: a dict, and behind it the bytes of a piece. -/
def decode (payload : List UInt8) : Except MetadataError MetadataMessage :=
  match decodeValue false maxDepth payload with
  | .error e => .error (.decode e)
  | .ok (value, rest) =>
    if value.asDict = none then .error .notADict
    else do
      let msgType ← field value "msg_type"
      let piece := (← field value "piece").toUInt64.toUInt32
      if msgType = 0 then return request piece
      else if msgType = 2 then return reject piece
      else if msgType = 1 then
        return data piece (← field value "total_size").toUInt64.toUInt32 rest
      else .error (.unknownMsgType msgType)

/-- `encode`: the header, its keys in order, and behind it the bytes of a
piece. -/
def encode : MetadataMessage → List UInt8
  | request piece => header 0 piece []
  | data piece total chunk =>
    header 1 piece [(ascii "total_size", .int total.toUInt64.toInt64)] ++ chunk
  | reject piece => header 2 piece []
where
  header (msgType : Int64) (piece : UInt32) (rest : Entries) : List UInt8 :=
    Bencode.encode (.dict ((ascii "msg_type", .int msgType) ::
      (ascii "piece", .int piece.toUInt64.toInt64) :: rest))

/-- **A metadata message is read back**, with the bytes behind its header. -/
theorem metadata_reads_back (m : MetadataMessage) (h : m.encode.length < 2 ^ 63) :
    decode m.encode = .ok m := by
  have hnarrow : ∀ n : UInt32, n.toUInt64.toInt64.toUInt64.toUInt32 = n := by simp
  cases m with
  | data piece total chunk =>
    rw [encode, encode.header] at h ⊢
    rw [decode, decodeValue_encode h (Nat.le_of_ble_eq_true rfl)
      ⟨show [ascii "msg_type", ascii "piece", ascii "total_size"].Pairwise (· < ·) by decide,
        trivial, trivial, trivial, trivial⟩]
    change Except.ok (data piece.toUInt64.toInt64.toUInt64.toUInt32
      total.toUInt64.toInt64.toUInt64.toUInt32 chunk) = _
    rw [hnarrow, hnarrow]
  | request piece | reject piece =>
    rw [encode, encode.header, ← append_nil (Bencode.encode _)] at h ⊢
    rw [decode, decodeValue_encode h (Nat.le_of_ble_eq_true rfl)
      ⟨show [ascii "msg_type", ascii "piece"].Pairwise (· < ·) by decide, trivial, trivial,
        trivial⟩]
    first
      | exact congrArg (fun n => Except.ok (request n)) (hnarrow piece)
      | exact congrArg (fun n => Except.ok (reject n)) (hnarrow piece)

theorem metadata_reads_back_sample :
    decode (encode (.data 3 16384 [1, 2])) = .ok (.data 3 16384 [1, 2]) :=
  metadata_reads_back _ (by decide)

end MetadataMessage

open ExtendedHandshake MetadataMessage Dht

/-- `TrackerError`, where a body is read. -/
inductive TrackerError
  | decode (error : DecodeError)
  | malformedResponse (what : String)
  | trackerFailure (reason : List UInt8)
deriving DecidableEq

structure AnnounceResponse where
  interval : UInt32
  minInterval : Option UInt32
  complete : Option UInt32
  incomplete : Option UInt32
  peers : List SocketAddr
deriving DecidableEq

/-- `Ipv4Addr::from_str`: four numbers up to 255, without zeros in front. -/
def parseIpv4 (text : List UInt8) : Option (List.Vector UInt8 4) :=
  let parts := text.splitOn 46
  if parts.length = 4 ∧ ∀ part ∈ parts, Decimal.value part < 256 ∧
      part = Decimal.numeral (Decimal.value part) then
    some (.ofFn fun i => .ofNat (Decimal.value (parts.getD i [])))
  else none

/-- The address of a peer in a list. -/
def listedIp (p : Bencode) : Option (List.Vector UInt8 4) :=
  ((p.get (ascii "ip")).bind asStr).bind parseIpv4

/-- A peer in a list. -/
def listedPeer (p : Bencode) : Option SocketAddr :=
  (listedIp p).bind fun ip => (p.intAt "port").map fun port => ⟨.v4 ip, port.toUInt64.toUInt16⟩

/-- The `peers` of a body. -/
def parsePeers : Option Bencode → Except TrackerError (List SocketAddr)
  | some (.bytes compact) =>
    if compact.length % 6 ≠ 0 then
      .error (.malformedResponse "compact peers length not a multiple of 6")
    else .ok (chunksOf 6 (fun c => ⟨.v4 (arrayAt 4 c 0), be16 c 4⟩) compact)
  | some (.list peers) => .ok (peers.filterMap listedPeer)
  | _ => .error (.malformedResponse "missing or malformed peers")

/-- The `peers6` of a body, in which nothing is an error. -/
def parsePeers6 : Option Bencode → List SocketAddr
  | some (.bytes compact) =>
    if compact.length % 18 ≠ 0 then []
    else chunksOf 18 (fun c => ⟨.v6 (arrayAt 16 c 0), be16 c 16⟩) compact
  | _ => []

def parseAnnounceBody (body : List UInt8) : Except TrackerError AnnounceResponse :=
  match decodeTopLevel false body with
  | .error e => .error (.decode e)
  | .ok value =>
    if value.asDict = none then .error (.malformedResponse "response is not a dict")
    else match (value.get (ascii "failure reason")).bind asStr, value.intAt "interval" with
    | some reason, _ => .error (.trackerFailure reason)
    | none, none => .error (.malformedResponse "missing interval")
    | none, some interval => do
      let number (name : String) := (value.intAt name).map (·.toUInt64.toUInt32)
      let peers ← parsePeers (value.get (ascii "peers"))
      return ⟨interval.toUInt64.toUInt32, number "min interval", number "complete",
        number "incomplete", peers ++ parsePeers6 (value.get (ascii "peers6"))⟩

/-- **The message states the number**, which its field takes. -/
def States (lo : ℕ) (stated : Option Int64) (n : ℕ) : Prop := lo ≤ n ∧ ∃ i ∈ stated, i.toInt = n

/-- An integer that there is fits its field. -/
def InRange (lo : ℕ) (hi : ℤ) (stated : Option Int64) : Prop :=
  ∀ i ∈ stated, lo ≤ i.toInt ∧ i.toInt < hi

theorem narrowed_iff {i : Int64} {w : ℕ} (hw : w ≤ 64) :
    i.toInt = (i.toUInt64.toNat % 2 ^ w : ℕ) ↔ 0 ≤ i.toInt ∧ i.toInt < 2 ^ w := by
  have hpos : (0 : ℤ) < 2 ^ w := by positivity
  have hwide : (i.toUInt64.toNat : ℤ) = i.toInt % 2 ^ 64 := by
    have hcond := BitVec.toInt_eq_toNat_cond i.toBitVec
    have hlt := i.toUInt64.toNat_lt
    rw [Int64.toInt_toBitVec, show i.toBitVec.toNat = i.toUInt64.toNat from rfl] at hcond
    split at hcond <;> omega
  rw [Int.natCast_mod, hwide, Nat.cast_pow, Nat.cast_ofNat,
    Int.emod_emod_of_dvd _ (pow_dvd_pow 2 hw)]
  constructor
  · intro h
    rw [h]
    exact ⟨Int.emod_nonneg _ hpos.ne', Int.emod_lt_of_pos _ hpos⟩
  · rintro ⟨h0, hlt⟩
    exact (Int.emod_eq_of_lt h0 hlt).symm

theorem states_iff {lo w : ℕ} {stated : Option Int64} (hw : w ≤ 64) :
    (∀ i ∈ stated, States lo stated (i.toUInt64.toNat % 2 ^ w)) ↔ InRange lo (2 ^ w) stated := by
  cases stated with
  | none => simp [InRange]
  | some i =>
    have hiff := narrowed_iff (i := i) hw
    simp only [States, InRange, mem_def, some_inj, forall_eq', exists_eq_left']
    omega

theorem port_of_decode {x t token : List UInt8} {value : Bencode} {id infoHash : NodeId}
    {port : UInt16} {implied : Bool} (hvalue : decodeTopLevel false x = .ok value)
    (h : KrpcMessage.decode x = .ok (.query t (.announcePeer id infoHash port token implied))) :
    port = (((value.get (ascii "a")).bind (·.intAt "port")).getD 0).toUInt64.toUInt16 := by
  simp only [KrpcMessage.decode, hvalue] at h
  cases hdict : value.asDict with
  | none => simp [hdict] at h
  | some dict =>
    simp only [hdict, bind_eq_ok_iff] at h
    obtain ⟨_, -, _, -, h⟩ := h
    split_ifs at h
    · simp only [bind_eq_ok_iff] at h
      obtain ⟨name, -, a, ha, _, -, query, hquery, hret⟩ := h
      cases hret
      have hport : port = ((intAt a "port").getD 0).toUInt64.toUInt16 := by
        unfold decodeQuery decodePut at hquery
        simp only [pure, Except.pure] at hquery
        grind [bind_eq_ok_iff]
      have ha : value.get (ascii "a") = some (.dict a) := by
        rw [Bencode.get, hdict]
        change dict.lookup (key "a") = _
        cases hv : dict.lookup (key "a") with
        | none => simp [hv, required] at ha
        | some v => cases v <;> simp_all [required, asDict]
      rw [hport, ha]
      rfl
    all_goals
      simp only [bind_eq_ok_iff, pure, Except.pure] at h
      grind

/-- **A number is the one that the message states exactly where that fits
its field.** Of a metadata message the piece; of an extended handshake the
ids and the port; of a tracker's answer the intervals and the ports of the
peers in a list; and of an `announce_peer` query the port, unless it is
implied. -/
theorem numbers_stated_iff (x : List UInt8) (value : Bencode) :
    (∀ rest message, decodeValue false maxDepth x = .ok (value, rest) →
      MetadataMessage.decode x = .ok message →
      (States 0 (value.intAt "piece") message.piece.toNat ↔
        InRange 0 (2 ^ 32) (value.intAt "piece"))) ∧
    (decodeTopLevel false x = .ok value →
      (∀ handshake, parse x = .ok handshake →
        let entries := ((value.get (ascii "m")).bind asDict).getD []
        handshake.m = entries.filterMap extension ∧
        ((∀ e ∈ entries, ∀ id ∈ extension e, States 1 e.2.asInt id.2.toNat) ∧
          (∀ port ∈ handshake.listenPort, States 0 (value.intAt "p") port.toNat) ↔
        (∀ e ∈ entries, validUtf8 e.1 = true → InRange 1 (2 ^ 8) e.2.asInt) ∧
          InRange 0 (2 ^ 16) (value.intAt "p"))) ∧
      (∀ response, parseAnnounceBody x = .ok response →
        let listed := ((value.get (ascii "peers")).bind asList).getD []
        (States 0 (value.intAt "interval") response.interval.toNat ∧
          (∀ n ∈ response.minInterval, States 0 (value.intAt "min interval") n.toNat) ∧
          (∀ p ∈ listed, ∀ peer ∈ listedPeer p, States 0 (p.intAt "port") peer.port.toNat) ↔
        InRange 0 (2 ^ 32) (value.intAt "interval") ∧
          InRange 0 (2 ^ 32) (value.intAt "min interval") ∧
          ∀ p ∈ listed, (listedIp p).isSome = true → InRange 0 (2 ^ 16) (p.intAt "port"))) ∧
      ∀ t id infoHash port token, KrpcMessage.decode x =
          .ok (.query t (.announcePeer id infoHash port token false)) →
        let stated := (value.get (ascii "a")).bind (·.intAt "port")
        (States 0 stated port.toNat ↔ stated.isSome = true ∧ InRange 0 (2 ^ 16) stated)) := by
  refine ⟨fun rest message hvalue h => ?_, fun hvalue => ⟨fun handshake h => ?_,
    fun response h => ?_, fun t id infoHash port token h => ?_⟩⟩
  · obtain ⟨i, hi, hpiece⟩ : ∃ i, value.intAt "piece" = some i ∧
        message.piece = i.toUInt64.toUInt32 := by
      simp only [MetadataMessage.decode, hvalue] at h
      split_ifs at h
      simp only [bind_eq_ok_iff, field, pure, Except.pure] at h
      obtain ⟨_, -, i, hi, h⟩ := h
      refine ⟨i, by cases hj : value.intAt "piece" <;> simp_all, ?_⟩
      grind [piece, bind_eq_ok_iff]
    rw [← states_iff (by decide), hpiece, hi]
    simp
  · simp only [parse, hvalue] at h
    split at h <;> try cases h
    split at h <;> cases h
    rename_i dict hdict _ entries hentries
    have hm : (value.get (ascii "m")).bind asDict = some entries := by
      rw [Bencode.get, hdict]
      exact hentries
    rw [hm]
    refine ⟨rfl, and_congr (forall₂_congr fun e _ => ?_) ?_⟩
    · rw [← states_iff (by decide)]
      by_cases hutf8 : validUtf8 e.1 = true <;> simp [extension, hutf8]
    · change (∀ port ∈ (value.intAt "p").map (·.toUInt64.toUInt16), _) ↔ _
      rw [← states_iff (by decide)]
      simp
  · simp only [parseAnnounceBody, hvalue] at h
    split_ifs at h
    split at h
    · cases h
    · cases h
    · rename_i interval _ hinterval
      obtain ⟨peers, -, h⟩ := bind_eq_ok_iff.1 h
      cases h
      rw [← states_iff (by decide), ← states_iff (by decide), hinterval]
      refine and_congr (by simp) (and_congr (by simp) (forall₂_congr fun p _ => ?_))
      rw [← states_iff (by decide)]
      cases hip : listedIp p <;> simp [listedPeer, hip]
  · dsimp only
    rw [port_of_decode hvalue h, ← states_iff (by decide)]
    cases (value.get (ascii "a")).bind (·.intAt "port") <;> simp [States]

theorem numbers_stated_iff_sample :
    (∃ message, MetadataMessage.decode (ascii "d8:msg_typei0e5:piecei7ee") = .ok message ∧
      States 0 (some 7) message.piece.toNat) ∧
    (∃ handshake, parse (ascii "d1:md11:ut_metadatai3ee1:pi6881ee") = .ok handshake ∧
      ∀ port ∈ handshake.listenPort, States 0 (some 6881) port.toNat) ∧
    ∃ response, parseAnnounceBody (ascii "d8:intervali9e5:peersld2:ip7:1.2.3.44:porti7eeee") =
      .ok response ∧ States 0 (some 9) response.interval.toNat := by
  refine ⟨⟨_, rfl, ?_⟩, ⟨_, rfl, ?_⟩, ⟨_, rfl, ?_⟩⟩
  · exact ((numbers_stated_iff (ascii "d8:msg_typei0e5:piecei7ee")
      (.dict [(ascii "msg_type", .int 0), (ascii "piece", .int 7)])).1 _ _ rfl rfl).2
        (by rintro _ ⟨⟩; decide)
  · have hiff := ((numbers_stated_iff (ascii "d1:md11:ut_metadatai3ee1:pi6881ee")
      (.dict [(ascii "m", .dict [(ascii "ut_metadata", .int 3)]), (ascii "p", .int 6881)])).2 rfl).1
    refine ((hiff _ rfl).2.2 ⟨?_, ?_⟩).2
    · rintro _ (_ | ⟨_, ⟨⟩⟩) - _ ⟨⟩
      decide
    · rintro _ ⟨⟩
      decide
  · have hiff := ((numbers_stated_iff (ascii "d8:intervali9e5:peersld2:ip7:1.2.3.44:porti7eeee")
      (.dict [(ascii "interval", .int 9), (ascii "peers",
        .list [.dict [(ascii "ip", .bytes (ascii "1.2.3.4")), (ascii "port", .int 7)]])])).2 rfl).2.1
    refine ((hiff _ rfl).2 ⟨?_, ?_, ?_⟩).1
    · rintro _ ⟨⟩
      decide
    · rintro _ ⟨⟩
    · rintro _ (_ | ⟨_, ⟨⟩⟩) - _ ⟨⟩
      decide

/-- An id, a piece and an interval wrap. -/
theorem numbers_wrap :
    (parse (ascii "d1:md11:ut_metadatai258eee")).toOption.map (·.m) =
      some [(ascii "ut_metadata", 2)] ∧
    MetadataMessage.decode (ascii "d8:msg_typei0e5:piecei4294967296ee") = .ok (.request 0) ∧
    (parseAnnounceBody (ascii "d8:intervali-1e5:peers0:e")).toOption.map (·.interval) =
      some 4294967295 := by
  decide +kernel

end BitTorrent
