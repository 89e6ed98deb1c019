import BitTorrent.Common.BigEndian
import BitTorrent.Common.Keystream
import BitTorrent.Common.Script
import BitTorrent.Mse.Bignum
import BitTorrent.V2.Merkle

/-!
# The exchange, end by end

`peer/mse.rs` after the arithmetic: RC4, the stream that the exchange ends in, and the exchange
itself as each end carries it out.
-/

namespace BitTorrent.Mse

structure Rc4 where
  s : Vector UInt8 256
  i : UInt8
  j : UInt8

namespace Rc4

/-- `s[i]` for a byte. -/
def byteAt (s : Vector UInt8 256) (i : UInt8) : UInt8 := s.get ⟨i.toNat, i.toNat_lt⟩

/-- `s.swap(i, j)`. -/
def swap (s : Vector UInt8 256) (i j : UInt8) : Vector UInt8 256 :=
  s.swap i.toNat j.toNat i.toNat_lt j.toNat_lt

/-- One turn of the key schedule. -/
def mix (key : List UInt8) (state : Vector UInt8 256 × UInt8) (i : ℕ) : Vector UInt8 256 × UInt8 :=
  let j := state.2 + byteAt state.1 (.ofNat i) + key.getD (i % key.length) 0
  (swap state.1 (.ofNat i) j, j)

def new (key : List UInt8) : Rc4 where
  s := ((List.range 256).foldl (mix key) (.ofFn fun i => .ofNat i, 0)).1
  i := 0
  j := 0

/-- The next byte of the keystream. -/
def next (c : Rc4) : UInt8 × Rc4 :=
  let i := c.i + 1
  let j := c.j + byteAt c.s i
  let s := swap c.s i j
  (byteAt s (byteAt s i + byteAt s j), ⟨s, i, j⟩)

/-- `apply`: the data, and the cipher after it. -/
def apply (c : Rc4) (data : List UInt8) : List UInt8 × Rc4 := crypt next c data

variable (c : Rc4) (data : List UInt8)

@[simp] theorem length_apply : (c.apply data).1.length = data.length :=
  length_crypt c data

theorem apply_append (xs ys : List UInt8) : c.apply (xs ++ ys) =
      ((c.apply xs).1 ++ ((c.apply xs).2.apply ys).1, ((c.apply xs).2.apply ys).2) :=
  crypt_append c xs ys

theorem apply_apply :
    c.apply (c.apply data).1 = (data, (c.apply data).2) :=
  crypt_crypt c data

def keyedForMse (key : List UInt8) : Rc4 := ((new key).apply (.replicate 1024 0)).2

end Rc4

/-- `MseStream`, beside the stream inside it. -/
structure MseStream where
  encrypt : Option Rc4
  decrypt : Option Rc4
  replay : List UInt8

namespace MseStream

def isEncrypted (s : MseStream) : Bool := s.encrypt.isSome

/-- `read` into a buffer of `length` bytes. `inner` is what the stream inside
puts into the buffer, if it is asked. -/
def read (s : MseStream) (length : ℕ) (inner : List UInt8) : List UInt8 × MseStream :=
  if s.replay ≠ [] then
    (s.replay.take (min length s.replay.length),
      { s with replay := s.replay.drop (min length s.replay.length) })
  else
    match s.decrypt with
    | none => (inner, s)
    | some cipher => ((cipher.apply inner).1, { s with decrypt := some (cipher.apply inner).2 })

/-- `write`: how many bytes it reports, what the stream inside is given, and
the stream after it. `accepted` is how many bytes the stream inside takes of
those it is offered, where the source asks it only once. -/
def write (s : MseStream) (buf : List UInt8) (accepted : ℕ) : ℕ × List UInt8 × MseStream :=
  match s.encrypt with
  | none => (min accepted buf.length, buf.take accepted, s)
  | some cipher =>
    (buf.length, (cipher.apply buf).1, { s with encrypt := some (cipher.apply buf).2 })

end MseStream

/-- `MseError`. A stream that never fails leaves out its errors of input and
output; an arithmetic overflow is a panic. -/
inductive MseError
  | protocol (what : String)
  | unknownTorrent
  | noCommonMethod
  | panic
deriving DecidableEq

def cryptoPlaintext : UInt32 := 1

def cryptoRc4 : UInt32 := 2

def maxPad : ℕ := 512

/-- The scripts of the exchange. -/
abbrev Exchange := Script MseError

/-- A computation that has no value where it overflows. -/
def checked {α : Type} : Option α → Exchange α
  | none => .fail .panic
  | some a => .done a

/-- `b"req1"`. -/
def req1 : List UInt8 := [114, 101, 113, 49]

/-- `b"req2"`. -/
def req2 : List UInt8 := [114, 101, 113, 50]

/-- `b"req3"`. -/
def req3 : List UInt8 := [114, 101, 113, 51]

/-- `b"keyA"`. -/
def keyA : List UInt8 := [107, 101, 121, 65]

/-- `b"keyB"`. -/
def keyB : List UInt8 := [107, 101, 121, 66]

/-- The loop of `scan_for`: bytes are read one at a time until the last of
them equal the pattern. -/
def scanLoop (pattern : List UInt8) : ℕ → List UInt8 → Exchange Unit
  | 0, _ => .fail (.protocol "did not find where the pad ends")
  | limit + 1, window => do
    let byte ← .readExact 1
    let window := (if window.length = pattern.length then window.drop 1 else window) ++ byte
    if window.length = pattern.length ∧ window = pattern then pure ()
    else scanLoop pattern limit window

def scanFor (pattern : List UInt8) (limit : ℕ) : Exchange Unit := scanLoop pattern limit []

/-- The bytes of a public key, as an array. -/
def toKey (bytes : List UInt8) : Key := .ofFn fun i => bytes.getD i 0

structure Ciphers where
  encrypt : Rc4
  decrypt : Rc4

variable [Digests]

def hash (parts : List (List UInt8)) : Hash20 := Digests.sha1 parts.flatten

def ciphers (secret : Key) (skey : Hash20) (initiator : Bool) : Ciphers :=
  let a := Rc4.keyedForMse (hash [keyA, secret.toList, skey.toList]).toList
  let b := Rc4.keyedForMse (hash [keyB, secret.toList, skey.toList]).toList
  if initiator then ⟨a, b⟩ else ⟨b, a⟩

/-- `a ^ b`, byte by byte. -/
def xorBytes (a b : Hash20) : List UInt8 := List.zipWith (· ^^^ ·) a.toList b.toList

/-- What an end draws at random: its private key and the bytes of its pads. -/
structure Drawn where
  secret : List UInt8
  /-- The pad behind the public key. -/
  pad : List UInt8
  /-- The pad in the second message. -/
  innerPad : List UInt8

/-- The bits of `crypto_provide`. -/
def provide (allowPlaintext : Bool) : UInt32 :=
  cryptoRc4 ||| if allowPlaintext then cryptoPlaintext else 0

/-- What the initiator seals in its request. -/
def requestPlain (allowPlaintext : Bool) (padC payload : List UInt8) : List UInt8 :=
  .replicate 8 0 ++ be32Bytes (provide allowPlaintext) ++ be16Bytes (.ofNat padC.length) ++ padC ++
    be16Bytes (.ofNat payload.length) ++ payload

/-- The proof of the request: the hash of the info hash, masked. -/
def proof (secret : Key) (infoHash : Hash20) : List UInt8 :=
  xorBytes (hash [req2, infoHash.toList]) (hash [req3, secret.toList])

def initiateWithPads (infoHash : Hash20) (allowPlaintext : Bool) (payload : List UInt8)
    (drawn : Drawn) : Exchange MseStream := do
  let pub ← checked (publicKey drawn.secret)
  .write (pub.toList ++ drawn.pad)
  let theirs ← .readExact keyBytes
  let secret ← checked (sharedSecret (toKey theirs) drawn.secret)
  match secret with
  | none => .fail (.protocol "the peer's public key is not usable")
  | some secret =>
    let c := ciphers secret infoHash true
    let sealed := c.encrypt.apply (requestPlain allowPlaintext drawn.innerPad payload)
    .write ((hash [req1, secret.toList]).toList ++ proof secret infoHash ++ sealed.1)
    -- what their answer starts with: eight zero bytes through their cipher
    scanFor (c.decrypt.apply (.replicate 8 0)).1 (maxPad + 8)
    let decrypt := (c.decrypt.apply (.replicate 8 0)).2
    let head ← .readExact 6
    let opened := decrypt.apply head
    let select := be32 opened.1 0
    let padD := (be16 opened.1 4).toNat
    if padD > maxPad then .fail (.protocol "the peer's pad is longer than allowed")
    else
      let skip ← .readExact padD
      let decrypt := (opened.2.apply skip).2
      if select = cryptoRc4 then pure ⟨some sealed.2, some decrypt, []⟩
      else if select = cryptoPlaintext ∧ allowPlaintext then pure ⟨none, none, []⟩
      else .fail .noCommonMethod

structure Accept where
  allowRc4 : Bool
  allowPlaintext : Bool

/-- The method that the responder selects. -/
def selectMethod (accept : Accept) (provided : UInt32) : Option UInt32 :=
  if provided &&& cryptoRc4 ≠ 0 ∧ accept.allowRc4 then some cryptoRc4
  else if provided &&& cryptoPlaintext ≠ 0 ∧ accept.allowPlaintext then some cryptoPlaintext
  else none

/-- What the responder seals in its answer. -/
def answerPlain (select : UInt32) (padD : List UInt8) : List UInt8 :=
  .replicate 8 0 ++ be32Bytes select ++ be16Bytes (.ofNat padD.length) ++ padD

/-- The end of `respond_with_pad`: the method is chosen, and the answer sealed
and written. -/
def answerRequest (accept : Accept) (drawn : Drawn) (encrypt : Rc4) (skey : Hash20)
    (provided : UInt32) (payload : List UInt8 × Rc4) : Exchange (MseStream × Hash20) :=
  match selectMethod accept provided with
  | none => .fail .noCommonMethod
  | some select => do
    .write (encrypt.apply (answerPlain select drawn.innerPad)).1
    if select = cryptoRc4 then
      pure (⟨some (encrypt.apply (answerPlain select drawn.innerPad)).2, some payload.2,
        payload.1⟩, skey)
    else pure (⟨none, none, payload.1⟩, skey)

/-- `respond_with_pad` from where the info hash is known: what the request
holds is read and opened. -/
def openRequest (accept : Accept) (drawn : Drawn) (c : Ciphers) (skey : Hash20) :
    Exchange (MseStream × Hash20) := do
  let head ← .readExact (8 + 4 + 2)
  let opened := c.decrypt.apply head
  if opened.1.take 8 ≠ .replicate 8 0 then .fail (.protocol "the verification constant is wrong")
  else
    let padC := (be16 opened.1 12).toNat
    if padC > maxPad then .fail (.protocol "the peer's pad is longer than allowed")
    else
      let skip ← .readExact (padC + 2)
      let skipped := opened.2.apply skip
      let payload ← .readExact (be16 skipped.1 padC).toNat
      answerRequest accept drawn c.encrypt skey (be32 opened.1 8) (skipped.2.apply payload)

/-- `respond_with_pad` from where the secret is known: past the initiator's
pad to the hash that says where the request begins, and to the info hash. -/
def findRequest (known : List Hash20) (accept : Accept) (drawn : Drawn) (secret : Key) :
    Exchange (MseStream × Hash20) := do
  scanFor (hash [req1, secret.toList]).toList (maxPad + 20)
  let proven ← .readExact 20
  match known.find? fun candidate => proof secret candidate = proven with
  | none => .fail .unknownTorrent
  | some skey => openRequest accept drawn (ciphers secret skey false) skey

def respondWithPad (alreadyRead : List UInt8) (known : List Hash20) (accept : Accept)
    (drawn : Drawn) : Exchange (MseStream × Hash20) := do
  let rest ← .readExact (keyBytes - min alreadyRead.length keyBytes)
  let pub ← checked (publicKey drawn.secret)
  .write (pub.toList ++ drawn.pad)
  let secret ← checked (sharedSecret
    (toKey (alreadyRead.take (min alreadyRead.length keyBytes) ++ rest)) drawn.secret)
  match secret with
  | none => .fail (.protocol "the peer's public key is not usable")
  | some secret => findRequest known accept drawn secret

end BitTorrent.Mse
