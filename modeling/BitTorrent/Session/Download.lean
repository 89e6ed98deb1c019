import BitTorrent.Queue.Workers
import BitTorrent.Session.WebSeed

/-!
# A download

What `prepare` starts from the files on disk, and what the workers then do to them: `fetch_from`
of `worker/mod.rs` and `run_web_worker` take pieces from the one queue, assemble or fetch them,
check them, write them, mark them done and send word, and `Progress::absorb` enters them in the
have-map.
-/

namespace BitTorrent

open List

/-- `HaveMap`: its bits. -/
structure HaveMap where
  bits : List Bool
deriving DecidableEq

namespace HaveMap

def new (totalPieces : ℕ) : HaveMap := ⟨List.replicate totalPieces false⟩

def set (m : HaveMap) (index : UInt32) : HaveMap := ⟨m.bits.set index.toNat true⟩

def get (m : HaveMap) (index : UInt32) : Bool := m.bits.getD index.toNat false

theorem get_new (n : ℕ) (i : UInt32) : (new n).get i = false := by
  simp only [get, new, getD_eq_getElem?_getD, getElem?_replicate]
  split <;> rfl

theorem get_set {m : HaveMap} {i j : UInt32} (h : (m.set i).get j = true) :
    j = i ∨ m.get j = true := by
  by_cases hij : i.toNat = j.toNat
  · exact .inl (UInt32.toNat_inj.1 hij.symm)
  · right
    simpa [get, set, getD_eq_getElem?_getD, getElem?_set_ne hij] using h

theorem mem_of_get_foldl {l : List UInt32} {m : HaveMap} {i : UInt32}
    (h : (l.foldl set m).get i = true) : i ∈ l ∨ m.get i = true := by
  induction l generalizing m with
  | nil => exact .inr h
  | cons j l ih =>
    rcases ih h with h | h
    · exact .inl (by simp [h])
    · rcases get_set h with rfl | h
      · exact .inl (by simp)
      · exact .inr h

end HaveMap

section

variable [Digests]

def pieceIsOnDisk (spans : List FileSpan) (t : TorrentFile) (fs : FileSystem) (index : UInt32) :
    Bool :=
  if t.pieces.length ≤ index.toNat then false
  else
    match readPieceBytes spans index t.pieceLength (t.pieceLen index.toNat) fs with
    | some (.ok data) => t.pieceMatches index.toNat data
    | _ => false

/-- `load_and_verify`, of the pieces a resume file claims. -/
def loadAndVerify (spans : List FileSpan) (t : TorrentFile) (fs : FileSystem)
    (claimed : List UInt32) : List UInt32 :=
  claimed.filter (pieceIsOnDisk spans t fs)

def scanAll (spans : List FileSpan) (t : TorrentFile) (fs : FileSystem) : List UInt32 :=
  ((List.range (t.pieces.length % 2 ^ 32)).map UInt32.ofNat).filter (pieceIsOnDisk spans t fs)

end

/-- **A piece in a worker's hands.** -/
inductive Job
  /-- Taken from the queue, or about to be asked of a web seed. -/
  | taken (work : PieceWork)
  /-- A peer's blocks are being put together. -/
  | assembling (a : PieceAssembler)
  /-- Checked, and being written: what is left to write, and where. -/
  | writing (work : PieceWork) (offset : ℕ) (remaining : List UInt8)
  /-- Written, and marked done first: the result is to be sent. -/
  | marked (index : UInt32)

/-- **A session**: the disk, the queue with its workers, the pieces in
hand, the channel of results and the have-map. -/
structure Session where
  fs : FileSystem
  pool : Workers ℕ
  jobs : ℕ → Option Job
  results : List UInt32
  haveMap : HaveMap

/-- What a run asks for: which pieces the selection wants, what the
resume file claims, or that everything is to be checked, and the order. -/
structure RunOptions where
  wanted : UInt32 → Bool
  fullScan : Bool
  claimed : List UInt32
  order : Order
  preferred : Finset UInt32

section

variable [Digests] (t : TorrentFile) (spans : List FileSpan)

/-- The pieces confirmed on resuming. -/
def confirmedResumed (o : RunOptions) (fs : FileSystem) : List UInt32 :=
  if o.fullScan then scanAll spans t fs else loadAndVerify spans t fs o.claimed

/-- `DownloadPlan::outstanding`: the work of a run. -/
def outstanding (o : RunOptions) (confirmed : List UInt32) : List PieceWork :=
  t.buildWorkQueue.filter fun w => o.wanted w.index && !confirmed.contains w.index

/-- `prepare`: the session that a run starts with. -/
def prepare (o : RunOptions) (fs : FileSystem) : Session where
  fs := fs
  pool := Workers.start ℕ (.new (outstanding t o (confirmedResumed t spans o fs)) t.pieces.length
    o.order o.preferred)
  jobs := fun _ => none
  results := []
  haveMap := (confirmedResumed t spans o fs).foldl HaveMap.set (HaveMap.new t.pieces.length)

end

/-- What happens in a session. -/
inductive SessionEvent
  | queue (c : QueueCall ℕ)
  | assembles (j : ℕ)
  | verifies (j : ℕ) (index : UInt32) (data : List UInt8)
  | writes (j : ℕ)
  | stops (j : ℕ)
  | sends (j : ℕ)
  | absorbs (index : UInt32)

/-- The piece that an event checks against its hash, with its bytes. -/
def SessionEvent.verified : SessionEvent → Option (UInt32 × List UInt8)
  | .verifies _ index data => some (index, data)
  | _ => none

/-- A job is at another point, or over. -/
def Session.setJob (s : Session) (j : ℕ) (job : Option Job) : Session :=
  { s with jobs := Function.update s.jobs j job }

/-- **One step of a session.** -/
inductive Session.Step [Digests] (t : TorrentFile) (spans : List FileSpan) :
    Session → SessionEvent → Session → Prop
  /-- A worker takes a piece. -/
  | takes {s : Session} {pool : Workers ℕ} {j : ℕ} {c : QueueCall ℕ} {work : PieceWork} :
      s.jobs j = none → (workers ℕ).step s.pool c pool → c.handedOut = [(j, work)] →
      Step t spans s (.queue c) ({ s with pool := pool }.setJob j (some (.taken work)))
  /-- A call that hands out nothing and marks nothing done: blocks are
  stashed, a piece is given back, a peer's pieces are noted. -/
  | calls {s : Session} {pool : Workers ℕ} {c : QueueCall ℕ} :
      (workers ℕ).step s.pool c pool → c.handedOut = [] → (∀ i, ¬ c.Marks i) →
      Step t spans s (.queue c) { s with pool := pool }
  /-- `open`, by a worker of a peer. -/
  | opens {s : Session} {pool : Workers ℕ} {j : ℕ} {work : PieceWork} {part : Option PartialPiece} :
      s.jobs j = some (.taken work) →
      (workers ℕ).step s.pool (.takePartial j work.index part) pool →
      Step t spans s (.queue (.takePartial j work.index part))
        ({ s with pool := pool }.setJob j (some (.assembling (.openFrom work part))))
  /-- A message of the peer's, or a request to it. -/
  | assembles {s : Session} {j : ℕ} {a a' : PieceAssembler} {op : AssemblerOp} :
      s.jobs j = some (.assembling a) → a.step op = some a' →
      Step t spans s (.assembles j) (s.setJob j (some (.assembling a')))
  /-- A piece begun with another's blocks did not match: it is fetched
  again from the start. -/
  | restarts {s : Session} {j : ℕ} {a : PieceAssembler} :
      s.jobs j = some (.assembling a) →
      Step t spans s (.assembles j) (s.setJob j (some (.assembling (.new a.work))))
  /-- `finish`: the piece is whole and matches its hash. -/
  | finishes {s : Session} {j : ℕ} {a : PieceAssembler} {data : List UInt8} :
      s.jobs j = some (.assembling a) → a.finish = .ok data →
      Step t spans s (.verifies j a.work.index data)
        (s.setJob j (some (.writing a.work (a.work.index.toNat * t.pieceLength) data)))
  /-- A web seed has answered, and what it sent matches the hash. -/
  | fetches {s : Session} {j : ℕ} {work : PieceWork} {baseUrl : List UInt8} {mirror : Mirror}
      {data : List UInt8} :
      s.jobs j = some (.taken work) →
      webFetch t spans baseUrl mirror work.index = some data → work.matches data = true →
      Step t spans s (.verifies j work.index data)
        (s.setJob j (some (.writing work (work.index.toNat * t.pieceLength) data)))
  /-- A turn of `write_piece`: the first `k` bytes of what is left, or as
  many of them as the file has room for. -/
  | writes {s : Session} {j k n : ℕ} {work : PieceWork} {offset : ℕ} {remaining : List UInt8}
      {fs : FileSystem} :
      s.jobs j = some (.writing work offset remaining) → remaining.take k ≠ [] →
      writeChunk spans offset (remaining.take k) s.fs = (fs, .ok n) →
      Step t spans s (.writes j)
        ({ s with fs := fs }.setJob j (some (.writing work (offset + n) (remaining.drop n))))
  /-- A turn that fails. -/
  | fails {s : Session} {j k : ℕ} {work : PieceWork} {offset : ℕ} {remaining : List UInt8}
      {fs : FileSystem} {e : IoError} :
      s.jobs j = some (.writing work offset remaining) → remaining.take k ≠ [] →
      writeChunk spans offset (remaining.take k) s.fs = (fs, .error e) →
      Step t spans s (.stops j) ({ s with fs := fs }.setJob j none)
  /-- A worker drops a piece: it is done elsewhere, or the connection or
  the disk failed, or it was told to stop. -/
  | stops {s : Session} {j : ℕ} : Step t spans s (.stops j) (s.setJob j none)
  /-- `mark_done`, once all is written. -/
  | marks {s : Session} {pool : Workers ℕ} {j : ℕ} {work : PieceWork} {offset : ℕ} {first : Bool} :
      s.jobs j = some (.writing work offset []) →
      (workers ℕ).step s.pool (.markDone j work.index first) pool →
      Step t spans s (.queue (.markDone j work.index first))
        ({ s with pool := pool }.setJob j (if first then some (.marked work.index) else none))
  /-- The result is sent. -/
  | sends {s : Session} {j : ℕ} {index : UInt32} :
      s.jobs j = some (.marked index) →
      Step t spans s (.sends j) ({ s with results := s.results ++ [index] }.setJob j none)
  /-- `Progress::absorb`. -/
  | absorbs {s : Session} {index : UInt32} {rest : List UInt32} :
      s.results = index :: rest →
      Step t spans s (.absorbs index)
        { s with results := rest, haveMap := s.haveMap.set index }

/-- **The session as a system.** -/
def session [Digests] (t : TorrentFile) (spans : List FileSpan) : LTS Session SessionEvent :=
  ⟨Session.Step t spans⟩

end BitTorrent
