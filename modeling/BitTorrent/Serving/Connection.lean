import BitTorrent.Common.Address
import BitTorrent.Disk.FileWriter
import BitTorrent.Peer.State
import BitTorrent.Serving.Choker

/-!
# One torrent and the peers it is served to

`serving.rs` with the part of `seeder.rs` it shares: `HaveMap`, and of `SeederShared` what a
request is checked against and answered from.
-/

namespace BitTorrent

namespace Serving

def maxRequestLen : ℕ := 128 * 1024

def allowedFastPieces : ℕ := 5

/-- What the thread that has the write lock of a `HaveMap` has done. -/
inductive Writer
  /-- The bit of a new piece is set. -/
  | marked (index : ℕ)
  /-- The version is bumped as well. -/
  | bumped (index : ℕ)
deriving DecidableEq

structure HaveMap where
  bits : List Bool
  version : ℕ
  /-- The thread in `set` that holds the lock, if one does. -/
  writer : Option Writer

namespace HaveMap

def new (totalPieces : ℕ) : HaveMap := ⟨List.replicate totalPieces false, 0, none⟩

/-- `set`, up to the new bit. A piece that is there, or that the torrent
does not have, changes nothing. -/
def mark (m : HaveMap) (index : UInt32) : Option HaveMap :=
  match m.writer with
  | some _ => none
  | none =>
    if m.bits[index.toNat]? = some false then
      some { m with bits := m.bits.set index.toNat true, writer := some (.marked index.toNat) }
    else some m

/-- `set`: the version is bumped. -/
def bump (m : HaveMap) : Option HaveMap :=
  match m.writer with
  | some (.marked index) => some { m with version := m.version + 1, writer := some (.bumped index) }
  | _ => none

/-- `set`: the lock is let go of. -/
def release (m : HaveMap) : Option HaveMap :=
  match m.writer with
  | some (.bumped _) => some { m with writer := none }
  | _ => none

/-- `get`, for a thread that has the read lock. -/
def get (m : HaveMap) (index : UInt32) : Bool := m.bits.getD index.toNat false

end HaveMap

/-- What does not change of `SeederShared`. -/
structure Shared where
  infoHash : Hash20
  spans : List FileSpan
  pieceLength : ℕ
  totalLength : ℕ
  pieceLengths : Option (List UInt32)

/-- `piece_len`, with the product of 64 bits. -/
def Shared.pieceLen (sh : Shared) (pieceIndex : UInt32) : ℕ :=
  match sh.pieceLengths with
  | some lengths => ((lengths[pieceIndex.toNat]?).map UInt32.toNat).getD 0
  | none => min sh.pieceLength (sh.totalLength - pieceIndex.toNat * sh.pieceLength % 2 ^ 64)

/-- What the threads share that does change. -/
structure World where
  haveMap : HaveMap
  choker : Choker
  fs : FileSystem
  uploaded : ℕ

/-- Who is served: whether it speaks the Fast Extension, where it is, and
the extended handshake that is sent to it, if one is. -/
structure Peer where
  fast : Bool
  ip : Option IpAddr
  handshake : Option (List UInt8)

end Serving

/-- `Serving`. What it keeps for requests for the info dictionary, and when
it last sent anything, is left out. -/
structure Serving where
  chokerId : Serving.PeerId
  fast : Bool
  allowedFast : Finset UInt32
  toldUnchoked : Bool
  seenVersion : ℕ
  advertised : List Bool

namespace Serving

section FastSet

variable [Digests]

/-- The indices in one digest, as far as there is room for them. -/
def fastRound (pieceCount count : ℕ) (digest : List UInt8) (set : List UInt32) : List UInt32 :=
  (List.range 5).foldl (fun set i =>
    if set.length = count then set
    else
      let index := UInt32.ofNat ((be32 digest (4 * i)).toNat % pieceCount)
      if index ∈ set then set else set ++ [index]) set

/-- The loop of `allowed_fast_set`; none if the fuel is not enough. -/
def fastLoop (pieceCount count : ℕ) : ℕ → List UInt8 → List UInt32 → Option (List UInt32)
  | fuel, x, set =>
    if count ≤ set.length then some set
    else
      match fuel with
      | 0 => none
      | fuel + 1 =>
        let digest := (Digests.sha1 x).toList
        fastLoop pieceCount count fuel digest (fastRound pieceCount count digest set)

/-- `allowed_fast_set`: the seed is the address without its last byte and
the info hash. -/
def allowedFastSet (fuel : ℕ) (ip : List.Vector UInt8 4) (infoHash : Hash20)
    (pieceCount count : ℕ) : Option (List UInt32) :=
  if pieceCount = 0 then some []
  else
    fastLoop pieceCount (min count pieceCount) fuel (ip.toList.take 3 ++ [0] ++ infoHash.toList) []

/-- The pieces a peer is told it may request while choked: those of its set
that there are. -/
def fastPieces (sh : Shared) (fuel : ℕ) (peer : Peer) (advertised : List Bool) :
    Option (List UInt32) :=
  match peer.fast, peer.ip with
  | true, some (.v4 ip) =>
    (allowedFastSet fuel ip sh.infoHash advertised.length allowedFastPieces).map
      fun set => set.filter fun piece => advertised.getD piece.toNat false
  | _, _ => some []

end FastSet

/-- `bitfield_to_bytes`: one bit after another, the first of a byte the
highest. -/
def bitfieldToBytes (pieces : List Bool) : List UInt8 :=
  pieces.zipIdx.foldl (fun out x =>
    if x.1 then out.modify (x.2 / 8) (· ||| ((1 : UInt8) <<< .ofNat (7 - x.2 % 8))) else out)
    (List.replicate ((pieces.length + 7) / 8) 0)

/-- The first message: the pieces there are. -/
def firstMessage (fast : Bool) (advertised : List Bool) : Message :=
  if !fast then .bitfield (bitfieldToBytes advertised)
  else if advertised.all id && !advertised.isEmpty then .haveAll
  else if advertised.all (! ·) then .haveNone
  else .bitfield (bitfieldToBytes advertised)

/-- The indices of `announce_new_pieces`: there, and not told. -/
def newPieces (now advertised : List Bool) : List ℕ :=
  (List.range (min now.length advertised.length)).filter fun i =>
    now.getD i false && !advertised.getD i false

/-- What the thread of a connection is about to do. -/
inductive Phase
  /-- `begin`: nothing is read yet. -/
  | opens
  /-- `begin`: the version is read, the pieces are not. -/
  | opening (version : ℕ)
  /-- Between messages. -/
  | idle (s : Serving)
  /-- `tick`: there are new pieces to announce. -/
  | announcing (s : Serving)
  /-- `tick`: a choke or an unchoke may be to tell. -/
  | choosing (s : Serving)
  /-- `handle`: a peer that is interested may get a free slot. -/
  | granting (s : Serving)
  /-- `handle`: a request may be answered, if there is such a block. -/
  | asked (s : Serving) (index start length : UInt32)
  /-- `handle`: the block is to be read. -/
  | bounded (s : Serving) (index start length : UInt32)
  /-- `handle`: the block is to be sent. -/
  | holding (s : Serving) (index start length : UInt32) (block : List UInt8)
  /-- `handle`: the block is sent, and not counted. -/
  | counting (s : Serving) (length : UInt32)
  /-- `handle`: the block is counted, and the choker does not know of it. -/
  | recording (s : Serving) (length : UInt32)
  /-- The connection has ended. -/
  | closed

/-- What a thread does. -/
inductive Act
  | readsVersion
  /-- So many of the messages are written. -/
  | begins (fuel written : ℕ)
  | ticks
  /-- So many of the messages are written. -/
  | announces (written : ℕ)
  | tells
  /-- A message is read, with the answer if it is for the info dictionary or
  for hashes. -/
  | hears (m : Message) (answer : Option Message)
  | grants
  | bounds
  | reads
  | sends
  | counts
  | records
  /-- A read, or the write of a message, fails. -/
  | fails

/-- The messages that requests for the info dictionary and for hashes are
answered with. -/
def isOtherAnswer : Message → Bool
  | .extended _ _ => true
  | .hashes _ _ => true
  | .hashReject _ => true
  | _ => false

/-- The `Serving` of a phase, once there is one. -/
def Phase.serving : Phase → Option Serving
  | .idle s => some s
  | .announcing s => some s
  | .choosing s => some s
  | .granting s => some s
  | .asked s _ _ _ => some s
  | .bounded s _ _ _ => some s
  | .holding s _ _ _ _ => some s
  | .counting s _ => some s
  | .recording s _ => some s
  | _ => none

/-- Whether something that can fail is done next. A block that has been
sent is counted whatever comes after. -/
def Phase.mayFail : Phase → Bool
  | .granting _ => false
  | .counting _ _ => false
  | .recording _ _ => false
  | .closed => false
  | _ => true

/-- `drop`: the choker forgets the peer. -/
def World.drop (w : World) (s : Serving) : World :=
  { w with choker := w.choker.unregister s.chokerId }

/-- `handle` up to the first look at the pieces, on a message that was
read. -/
def handle (w : World) (s : Serving) (m : Message) (answer : Option Message) :
    World × Phase × List Message :=
  match m with
  | .interested =>
    ({ w with choker := w.choker.setInterested s.chokerId true }, .granting s, [])
  | .notInterested =>
    ({ w with choker := w.choker.setInterested s.chokerId false }, .idle s, [])
  | .request index start length =>
    if !w.choker.isUnchoked s.chokerId && decide (index ∉ s.allowedFast) then
      (w, .idle s, if s.fast then [.rejectRequest index start length] else [])
    else if maxRequestLen < length.toNat then (w.drop s, .closed, [])
    else (w, .asked s index start length, [])
  | .extended _ _ => (w, .idle s, answer.toList.filter isOtherAnswer)
  | .hashRequest _ => (w, .idle s, answer.toList.filter isOtherAnswer)
  | _ => (w, .idle s, [])

section Acts

variable [Digests]

/-- The messages that `begin` writes. -/
def openingMessages (peer : Peer) (advertised : List Bool) (fast : List UInt32) : List Message :=
  firstMessage peer.fast advertised :: (fast.map Message.allowedFast ++
    peer.handshake.toList.map (Message.extended 0))

/-- The messages that `announce_new_pieces` writes. -/
def haveMessages (now advertised : List Bool) : List Message :=
  (newPieces now advertised).map fun i => .haveOne (.ofNat i)

/-- What has been told after it. -/
def toldAfter (now advertised : List Bool) : List Bool :=
  advertised.zipIdx.map fun x => x.1 || now.getD x.2 false

/-- **One act of a thread**: what is shared after it, the phase, and what is
written to the peer. The pieces are not read while a thread in `set` has
the lock, and a write that fails ends the connection. -/
def act (sh : Shared) (peer : Peer) (w : World) :
    Phase → Act → Option (World × Phase × List Message)
  | .opens, .readsVersion => some (w, .opening w.haveMap.version, [])
  | .opening version, .begins fuel written =>
    if w.haveMap.writer.isSome then none
    else
      (fastPieces sh fuel peer w.haveMap.bits).map fun fast =>
        let messages := openingMessages peer w.haveMap.bits fast
        if written < messages.length then (w, .closed, messages.take written)
        else
          ({ w with choker := w.choker.register.2 },
            .idle ⟨w.choker.register.1, peer.fast, fast.toFinset, false, version, w.haveMap.bits⟩,
            messages)
  | .idle s, .ticks =>
    if w.haveMap.version = s.seenVersion then some (w, .choosing s, [])
    else some (w, .announcing { s with seenVersion := w.haveMap.version }, [])
  | .announcing s, .announces written =>
    if w.haveMap.writer.isSome then none
    else
      let messages := haveMessages w.haveMap.bits s.advertised
      if written < messages.length then some (w.drop s, .closed, messages.take written)
      else
        some (w, .choosing { s with advertised := toldAfter w.haveMap.bits s.advertised }, messages)
  | .choosing s, .tells =>
    let allowed := w.choker.isUnchoked s.chokerId
    if allowed != s.toldUnchoked then
      some (w, .idle { s with toldUnchoked := allowed }, [if allowed then .unchoke else .choke])
    else some (w, .idle s, [])
  | .idle s, .hears m answer => some (handle w s m answer)
  | .granting s, .grants =>
    some ({ w with choker := (w.choker.grantIfFree s.chokerId).2 }, .idle s, [])
  | .asked s index start length, .bounds =>
    if w.haveMap.writer.isSome then none
    else if w.haveMap.get index && decide (start.toNat + length.toNat ≤ sh.pieceLen index) then
      some (w, .bounded s index start length, [])
    else some (w, .idle s, if s.fast then [.rejectRequest index start length] else [])
  | .bounded s index start length, .reads =>
    match readBlock sh.spans index sh.pieceLength start.toNat length.toNat w.fs with
    | some (.ok block) => some (w, .holding s index start length block, [])
    | some (.error _) => some (w.drop s, .closed, [])
    | none => none
  | .holding s index start length block, .sends =>
    some (w, .counting s length, [.piece index start block])
  | .counting s length, .counts =>
    some ({ w with uploaded := w.uploaded + length.toNat }, .recording s length, [])
  | .recording s length, .records =>
    some ({ w with choker := w.choker.recordUpload s.chokerId length.toNat }, .idle s, [])
  | phase, .fails =>
    if phase.mayFail then some ((phase.serving.map w.drop).getD w, .closed, []) else none
  | _, _ => none

/-- **What an act can do**, with what it looks at. -/
inductive Does (sh : Shared) (peer : Peer) (w : World) :
    Phase → Act → World → Phase → List Message → Prop
  | readsVersion : Does sh peer w .opens .readsVersion w (.opening w.haveMap.version) []
  | beginFails {version fuel written : ℕ} {fast : List UInt32} (hfree : w.haveMap.writer = none)
      (hfast : fastPieces sh fuel peer w.haveMap.bits = some fast) :
      Does sh peer w (.opening version) (.begins fuel written) w .closed
        ((openingMessages peer w.haveMap.bits fast).take written)
  | begins {version fuel written : ℕ} {fast : List UInt32} (hfree : w.haveMap.writer = none)
      (hfast : fastPieces sh fuel peer w.haveMap.bits = some fast) :
      Does sh peer w (.opening version) (.begins fuel written)
        { w with choker := w.choker.register.2 }
        (.idle ⟨w.choker.register.1, peer.fast, fast.toFinset, false, version, w.haveMap.bits⟩)
        (openingMessages peer w.haveMap.bits fast)
  | ticksSame {s : Serving} (hsame : w.haveMap.version = s.seenVersion) :
      Does sh peer w (.idle s) .ticks w (.choosing s) []
  | ticksNew {s : Serving} :
      Does sh peer w (.idle s) .ticks w
        (.announcing { s with seenVersion := w.haveMap.version }) []
  | announceFails {s : Serving} {written : ℕ} (hfree : w.haveMap.writer = none) :
      Does sh peer w (.announcing s) (.announces written) (w.drop s) .closed
        ((haveMessages w.haveMap.bits s.advertised).take written)
  | announces {s : Serving} {written : ℕ} (hfree : w.haveMap.writer = none) :
      Does sh peer w (.announcing s) (.announces written) w
        (.choosing { s with advertised := toldAfter w.haveMap.bits s.advertised })
        (haveMessages w.haveMap.bits s.advertised)
  | tells {s : Serving} {told : Bool} {sent : List Message}
      (hsent : sent = [] ∨ sent = [.unchoke] ∨ sent = [.choke]) :
      Does sh peer w (.choosing s) .tells w (.idle { s with toldUnchoked := told }) sent
  | hears {s : Serving} {m : Message} {answer : Option Message} {r : World × Phase × List Message}
      (hr : handle w s m answer = r) :
      Does sh peer w (.idle s) (.hears m answer) r.1 r.2.1 r.2.2
  | grants {s : Serving} : Does sh peer w (.granting s) .grants
      { w with choker := (w.choker.grantIfFree s.chokerId).2 } (.idle s) []
  | bounds {s : Serving} {index start length : UInt32} (hhas : w.haveMap.get index = true)
      (hle : start.toNat + length.toNat ≤ sh.pieceLen index) :
      Does sh peer w (.asked s index start length) .bounds w (.bounded s index start length) []
  | rejects {s : Serving} {index start length : UInt32} {sent : List Message}
      (hsent : sent = [] ∨ sent = [.rejectRequest index start length]) :
      Does sh peer w (.asked s index start length) .bounds w (.idle s) sent
  | reads {s : Serving} {index start length : UInt32} {block : List UInt8}
      (hread : readBlock sh.spans index sh.pieceLength start.toNat length.toNat w.fs =
        some (.ok block)) :
      Does sh peer w (.bounded s index start length) .reads w
        (.holding s index start length block) []
  | readFails {s : Serving} {index start length : UInt32} :
      Does sh peer w (.bounded s index start length) .reads (w.drop s) .closed []
  | sends {s : Serving} {index start length : UInt32} {block : List UInt8} :
      Does sh peer w (.holding s index start length block) .sends w (.counting s length)
        [.piece index start block]
  | counts {s : Serving} {length : UInt32} :
      Does sh peer w (.counting s length) .counts
        { w with uploaded := w.uploaded + length.toNat } (.recording s length) []
  | records {s : Serving} {length : UInt32} :
      Does sh peer w (.recording s length) .records
        { w with choker := w.choker.recordUpload s.chokerId length.toNat } (.idle s) []
  | fails {phase : Phase} (hfail : phase.mayFail = true) :
      Does sh peer w phase .fails ((phase.serving.map w.drop).getD w) .closed []

variable {sent : List Message}

theorem Does.of_act {sh : Shared} {peer : Peer} {w w' : World} {phase phase' : Phase} {a : Act}
    (h : act sh peer w phase a = some (w', phase', sent)) :
    Does sh peer w phase a w' phase' sent := by
  unfold act at h
  split at h
  · cases h
    exact .readsVersion
  · -- `begin`
    split at h
    · cases h
    · rename_i hfree
      have hfree := Option.not_isSome_iff_eq_none.1 hfree
      obtain ⟨fast, hfast, h⟩ := Option.map_eq_some_iff.1 h
      dsimp only at h
      split at h
      · cases h
        exact .beginFails hfree hfast
      · cases h
        exact .begins hfree hfast
  · -- `tick`, the version
    split at h
    · rename_i hsame
      cases h
      exact .ticksSame hsame
    · cases h
      exact .ticksNew
  · -- `tick`, the pieces
    split at h
    · cases h
    · rename_i hfree
      have hfree := Option.not_isSome_iff_eq_none.1 hfree
      dsimp only at h
      split at h
      · cases h
        exact .announceFails hfree
      · cases h
        exact .announces hfree
  · -- `tick`, the choke
    rename_i s
    dsimp only at h
    split at h
    · cases h
      refine .tells ?_
      cases w.choker.isUnchoked s.chokerId
      · exact .inr (.inr rfl)
      · exact .inr (.inl rfl)
    · cases h
      exact (.tells (.inl rfl) : Does sh peer w (.choosing s) .tells w
        (.idle { s with toldUnchoked := s.toldUnchoked }) [])
  · exact .hears (Option.some_inj.1 h)
  · cases h
    exact .grants
  · -- the bounds of a request
    split at h
    · cases h
    · split at h
      · rename_i hbounds
        obtain ⟨hhas, hle⟩ := Bool.and_eq_true_iff.1 hbounds
        cases h
        exact .bounds hhas (of_decide_eq_true hle)
      · rename_i s index start length _ _
        cases h
        refine .rejects ?_
        cases s.fast
        · exact .inl rfl
        · exact .inr rfl
  · -- the block
    split at h
    · rename_i hread
      cases h
      exact .reads hread
    · cases h
      exact .readFails
    · cases h
  · cases h
    exact .sends
  · cases h
    exact .counts
  · cases h
    exact .records
  · split at h
    · rename_i hfail
      cases h
      exact .fails hfail
    · cases h
  · cases h

end Acts

/-- A connection. -/
structure Conn where
  peer : Peer
  phase : Phase

/-- A torrent that is served, with its connections. -/
structure Seeding where
  world : World
  conns : List Conn

/-- What happens. -/
inductive ServeEvent
  /-- A thread is in `HaveMap::set`. -/
  | marks (index : UInt32)
  | bumps (index : ℕ)
  | releases
  /-- The round of the choker. -/
  | rechokes
  /-- A peer has sent something that is downloaded. -/
  | downloads (id : PeerId) (bytes : ℕ)
  /-- Something is written to the disk. -/
  | writesDisk (fs : FileSystem)
  /-- A new connection. -/
  | connects (peer : Peer)
  /-- The thread of a connection acts, and writes messages. -/
  | acts (k : ℕ) (a : Act) (sent : List Message)

/-- Nothing is served yet: no piece, and no peer. -/
def Seeding.start (pieces slots : ℕ) (fs : FileSystem) : Seeding :=
  ⟨⟨.new pieces, .new slots, fs, 0⟩, []⟩

/-- **The system**: threads that add pieces, the rounds of the choker, the
disk, and every connection, in any order. -/
def seeding [Digests] (sh : Shared) : LTS Seeding ServeEvent where
  step s e t := match e with
    | .marks index => ∃ m, s.world.haveMap.mark index = some m ∧
        t = { s with world.haveMap := m }
    | .bumps index => s.world.haveMap.writer = some (.marked index) ∧
        ∃ m, s.world.haveMap.bump = some m ∧ t = { s with world.haveMap := m }
    | .releases => ∃ m, s.world.haveMap.release = some m ∧ t = { s with world.haveMap := m }
    | .rechokes => t = { s with world.choker := s.world.choker.rechoke }
    | .downloads id bytes =>
        t = { s with world.choker := s.world.choker.recordDownload id bytes }
    | .writesDisk fs => t = { s with world.fs := fs }
    | .connects peer => t = { s with conns := s.conns ++ [⟨peer, .opens⟩] }
    | .acts k a sent => ∃ c w phase, s.conns[k]? = some c ∧
        act sh c.peer s.world c.phase a = some (w, phase, sent) ∧
        t = ⟨w, s.conns.set k ⟨c.peer, phase⟩⟩

/-- What a connection has been sent. -/
def ServeEvent.sentTo (k : ℕ) : ServeEvent → List Message
  | .acts j _ sent => if j = k then sent else []
  | _ => []

/-- What a connection has been sent over a run. -/
def sentTo (k : ℕ) (es : List ServeEvent) : List Message := es.flatMap (·.sentTo k)

theorem sentTo_snoc (k : ℕ) (es : List ServeEvent) (e : ServeEvent) :
    sentTo k (es ++ [e]) = sentTo k es ++ e.sentTo k := by
  simp [sentTo]

variable {e : ServeEvent} {k : ℕ}

theorem sentTo_of_ne (h : ∀ a sent, e ≠ .acts k a sent) : e.sentTo k = [] := by
  cases e with
  | acts j a sent =>
    refine if_neg ?_
    rintro rfl
    exact h a sent rfl
  | _ => rfl

section Steps

variable [Digests] {sh : Shared} {s t : Seeding}

theorem acts_cases {a : Act} (hstep : (seeding sh).step s (.acts k a sent) t) :
    ∃ c c', s.conns[k]? = some c ∧ t.conns[k]? = some c' ∧ c'.peer = c.peer ∧
      Does sh c.peer s.world c.phase a t.world c'.phase sent := by
  obtain ⟨c, w, phase, hc, hact, rfl⟩ := hstep
  refine ⟨c, ⟨c.peer, phase⟩, hc, ?_, rfl, .of_act hact⟩
  exact List.getElem?_set_self (List.getElem?_eq_some_iff.1 hc).1

section

variable (hstep : (seeding sh).step s e t)

include hstep

theorem conn_cases {c' : Conn} (hc' : t.conns[k]? = some c') :
    (s.conns[k]? = some c' ∧ ∀ a sent, e ≠ .acts k a sent) ∨
    (k = s.conns.length ∧ ∃ peer, e = .connects peer ∧ c' = ⟨peer, .opens⟩) ∨
    ∃ c a sent, e = .acts k a sent ∧ s.conns[k]? = some c ∧ c'.peer = c.peer ∧
      Does sh c.peer s.world c.phase a t.world c'.phase sent := by
  cases e with
  | connects peer =>
    obtain rfl := hstep
    rcases Nat.lt_or_ge k s.conns.length with hk | hk
    · rw [List.getElem?_append_left hk] at hc'
      exact .inl ⟨hc', by simp⟩
    · rw [List.getElem?_append_right hk, List.getElem?_singleton] at hc'
      split at hc'
      · obtain rfl := Option.some_inj.1 hc'
        exact .inr (.inl ⟨by omega, peer, rfl, rfl⟩)
      · cases hc'
  | acts j a sent =>
    by_cases hj : j = k
    · subst hj
      obtain ⟨c, c₁, hc, hc₁, hpeer, hdoes⟩ := acts_cases hstep
      obtain rfl := Option.some_inj.1 (hc₁.symm.trans hc')
      exact .inr (.inr ⟨c, a, sent, rfl, hc, hpeer, hdoes⟩)
    · obtain ⟨c, w, phase, hc, hact, rfl⟩ := hstep
      rw [List.getElem?_set_ne hj] at hc'
      refine .inl ⟨hc', fun a' sent' heq => hj ?_⟩
      cases heq
      rfl
  | marks | releases =>
    obtain ⟨m, -, rfl⟩ := hstep
    exact .inl ⟨hc', by simp⟩
  | bumps index =>
    obtain ⟨-, m, -, rfl⟩ := hstep
    exact .inl ⟨hc', by simp⟩
  | rechokes | downloads | writesDisk =>
    obtain rfl := hstep
    exact .inl ⟨hc', by simp⟩

theorem conn_stays {c : Conn} (hc : s.conns[k]? = some c) : ∃ c', t.conns[k]? = some c' := by
  have hk := (List.getElem?_eq_some_iff.1 hc).1
  suffices hlt : k < t.conns.length from ⟨_, List.getElem?_eq_getElem hlt⟩
  cases e with
  | connects peer =>
    obtain rfl := hstep
    exact hk.trans_le (by simp)
  | acts j a sent =>
    obtain ⟨c, w, phase, -, -, rfl⟩ := hstep
    rwa [List.length_set]
  | marks | releases =>
    obtain ⟨m, -, rfl⟩ := hstep
    exact hk
  | bumps index =>
    obtain ⟨-, m, -, rfl⟩ := hstep
    exact hk
  | rechokes | downloads | writesDisk =>
    obtain rfl := hstep
    exact hk

theorem sentTo_eq_nil {es : List ServeEvent}
    (h : ∀ k, s.conns[k]? = none → sentTo k es = []) (hk : t.conns[k]? = none) :
    sentTo k (es ++ [e]) = [] := by
  have hs : s.conns[k]? = none := by
    by_contra hsome
    obtain ⟨c, hc⟩ := Option.ne_none_iff_exists'.1 hsome
    obtain ⟨c', hc'⟩ := conn_stays hstep hc
    rw [hc'] at hk
    cases hk
  rw [sentTo_snoc, h k hs, List.nil_append]
  refine sentTo_of_ne fun a sent heq => ?_
  subst heq
  obtain ⟨c, -, hc, -⟩ := acts_cases hstep
  rw [hs] at hc
  cases hc

end

end Steps

end Serving

end BitTorrent
