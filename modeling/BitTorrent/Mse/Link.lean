import BitTorrent.Common.Run
import BitTorrent.Mse.Scripts
import Mathlib.Data.Fintype.Prod

/-!
# Two ends and the stream between them

Both ends of an exchange, connected by a byte stream that loses nothing and cuts what is read into
any pieces.
-/

namespace BitTorrent.Mse

open Script

/-- The two ends. -/
inductive Side
  | initiator
  | responder
deriving DecidableEq

/-- The end at the other side. -/
def Side.other : Side → Side
  | initiator => responder
  | responder => initiator

/-- Where an end is: at its script, or past it. -/
inductive Party
  | shaking (script : Exchange (MseStream × Hash20))
  | talking (stream : MseStream) (infoHash : Hash20)

/-- Both ends, and the bytes that are on their way to each. -/
structure Link where
  party : Side → Party
  toward : Side → List UInt8

/-- What happens. -/
inductive LinkEvent
  /-- A message of the exchange is written. -/
  | sends (x : Side)
  /-- A piece of what is on its way is read by the exchange. -/
  | receives (x : Side) (chunk : List UInt8)
  /-- The exchange returns. -/
  | finishes (x : Side)
  /-- `write` reports these bytes as written. -/
  | writes (x : Side) (bytes : List UInt8)
  /-- `read` returns these bytes. -/
  | reads (x : Side) (bytes : List UInt8)

namespace LinkEvent

/-- A step of the exchange, at one end. -/
def shakes (x : Side) : LinkEvent → Bool
  | sends y => x = y
  | receives y _ => x = y
  | finishes y => x = y
  | _ => false

/-- What an end has written with this step. -/
def wrote (x : Side) : LinkEvent → List UInt8
  | writes y bytes => if x = y then bytes else []
  | _ => []

/-- What an end has read with this step. -/
def got (x : Side) : LinkEvent → List UInt8
  | reads y bytes => if x = y then bytes else []
  | _ => []

end LinkEvent

/-- What an end has written after the exchange. -/
def writtenBy (x : Side) (es : List LinkEvent) : List UInt8 := es.flatMap (LinkEvent.wrote x)

/-- What an end has read after the exchange. -/
def readBy (x : Side) (es : List LinkEvent) : List UInt8 := es.flatMap (LinkEvent.got x)

namespace Link

/-- An end moves on, writes, and takes what is left of the bytes toward it. -/
def put (s : Link) (x : Side) (p : Party) (written rest : List UInt8) : Link where
  party := fun y => if y = x then p else s.party y
  toward := fun y => if y = x then rest else s.toward y ++ written

end Link

/-- **The two ends, step by step**, under any cutting of what is read. -/
def linking : LTS Link LinkEvent where
  step s e t :=
    match e with
    | .sends x => ∃ bytes next, s.party x = .shaking (.send bytes next) ∧
        t = s.put x (.shaking next) bytes (s.toward x)
    | .receives x chunk => ∃ missing next rest, s.party x = .shaking (.read missing next) ∧
        chunk ≠ [] ∧ chunk.length ≤ missing + 1 ∧ s.toward x = chunk ++ rest ∧
        t = s.put x (.shaking (resume missing next chunk)) [] rest
    | .finishes x => ∃ stream infoHash, s.party x = .shaking (.done (stream, infoHash)) ∧
        t = s.put x (.talking stream infoHash) [] (s.toward x)
    | .writes x bytes => ∃ stream infoHash buf accepted, s.party x = .talking stream infoHash ∧
        bytes = buf.take (stream.write buf accepted).1 ∧
        t = s.put x (.talking (stream.write buf accepted).2.2 infoHash)
          (stream.write buf accepted).2.1 (s.toward x)
    | .reads x bytes => ∃ stream infoHash length inner rest,
        s.party x = .talking stream infoHash ∧ s.toward x = inner ++ rest ∧
        -- the stream inside is asked only when there is nothing to replay
        (stream.replay ≠ [] → inner = []) ∧
        (stream.replay = [] → inner ≠ [] ∧ inner.length ≤ length) ∧
        bytes = (stream.read length inner).1 ∧
        t = s.put x (.talking (stream.read length inner).2 infoHash) [] rest

section Start

variable [Digests]

/-- The initiator's script. -/
def Setting.initiate (x : Setting) : Exchange (MseStream × Hash20) := do
  let stream ← initiateWithPads x.infoHash x.allowPlaintext x.payload x.initiator
  pure (stream, x.infoHash)

/-- The script of an end. -/
def Setting.script (x : Setting) : Side → Exchange (MseStream × Hash20)
  | .initiator => x.initiate
  | .responder => x.respond

/-- Where the two ends begin: nothing is on its way. -/
def Setting.start (x : Setting) : Link := ⟨fun side => .shaking (x.script side), fun _ => []⟩

end Start

/-- **What is meant for an end**: what the other end has written, and before
it the initial payload. -/
def Setting.meantFor (x : Setting) (side : Side) (es : List LinkEvent) : List UInt8 :=
  (match side with
    | .initiator => []
    | .responder => x.payload) ++ writtenBy side.other es

end BitTorrent.Mse
