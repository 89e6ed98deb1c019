import BitTorrent.Bencode.Canonical
import BitTorrent.Common.Run
import BitTorrent.V2.Merkle
import Mathlib.Data.List.AList

/-!
# The items a DHT node stores

`dht/store.rs`: an immutable item is kept under the hash of its value, a mutable one under the
hash of a public key and a salt, signed and with a sequence number.
-/

namespace BitTorrent

/-- `[u8; 64]`, an ed25519 signature. -/
abbrev Signature := List.Vector UInt8 64

/-- **The signature scheme** of `ed25519-dalek`: whether a key is a point of
the curve and the signature of the message under it checks out. -/
class Ed25519 where
  verify : Hash32 → List UInt8 → Signature → Bool

/-- The scheme that takes every signature, to try a result out on. -/
@[reducible] def Ed25519.lax : Ed25519 := ⟨fun _ _ _ => true⟩

namespace Dht

def maxValueLen : ℕ := 1000

def maxSaltLen : ℕ := 64

/-- `ITEM_LIFETIME`: two hours. -/
def itemLifetime : ℕ := 2 * 60 * 60 * 1000000000

def maxStoredItems : ℕ := 1000

section Crypto

variable [Digests] [Ed25519]

def immutableTarget (bencodedValue : List UInt8) : Hash20 := Digests.sha1 bencodedValue

def mutableTarget (k : Hash32) (salt : Option (List UInt8)) : Hash20 :=
  Digests.sha1 (k.toList ++ salt.getD [])

/-- `signing_buffer`: `4:salt`, the length of the salt, a colon and the salt,
unless it is empty; then `3:seqi`, the number, `e1:v` and the value. -/
def signingBuffer (salt : Option (List UInt8)) (seq : Int64) (bencodedV : List UInt8) :
    List UInt8 :=
  (match salt with
    | some (b :: bs) =>
      [52, 58, 115, 97, 108, 116] ++ Decimal.numeral (b :: bs).length ++ [58] ++ (b :: bs)
    | _ => []) ++
  [51, 58, 115, 101, 113, 105] ++ Bencode.signedNumeral seq.toInt ++ [101, 49, 58, 118] ++
    bencodedV

def verifyMutable (k : Hash32) (salt : Option (List UInt8)) (seq : Int64)
    (bencodedV : List UInt8) (sig : Signature) : Bool :=
  Ed25519.verify k (signingBuffer salt seq bencodedV) sig

end Crypto

section Signing

open List Bencode Decimal

/-- A numeral ends at the first byte that is no digit. -/
theorem numeral_append_inj {t : UInt8} (ht : isDigit t = false) {m n : ℕ}
    {x y : List UInt8} (h : numeral m ++ t :: x = numeral n ++ t :: y) :
    m = n ∧ x = y := by
  have hscan (k : ℕ) (z : List UInt8) : scanDigits t (numeral k ++ t :: z) = .ok (numeral k, z) :=
    (scanDigits_eq_ok_iff ht).2 ⟨rfl, (canonical_numeral k).2.1⟩
  have heq := hscan m x
  rw [h, hscan n y, Except.ok.injEq, Prod.mk.injEq] at heq
  refine ⟨?_, heq.2.symm⟩
  rw [← value_numeral m, ← heq.1, value_numeral]

theorem encodeBytes_append_inj {b c x y : List UInt8}
    (h : encodeBytes b ++ x = encodeBytes c ++ y) : b = c ∧ x = y := by
  simp only [encodeBytes, append_assoc, cons_append] at h
  obtain ⟨hlength, hrest⟩ := numeral_append_inj (by decide) h
  exact append_inj hrest hlength

theorem signingBuffer_eq (salt : Option (List UInt8)) (seq : Int64) (v : List UInt8) :
    signingBuffer salt seq v = (if salt.getD [] = [] then []
        else [52, 58, 115, 97, 108, 116] ++ encodeBytes (salt.getD [])) ++
      [51, 58, 115, 101, 113, 105] ++ signedNumeral seq.toInt ++ 101 :: 49 :: 58 :: 118 :: v := by
  rcases salt with - | - | - <;> simp [signingBuffer, encodeBytes, colon]

/-- **What is signed says which item it is of.** Two items have one signing
buffer exactly if they have one salt, where none is an empty one, one
number and one value. -/
theorem signingBuffer_eq_iff (salt salt' : Option (List UInt8)) (seq seq' : Int64)
    (v v' : List UInt8) :
    signingBuffer salt seq v = signingBuffer salt' seq' v' ↔
      salt.getD [] = salt'.getD [] ∧ seq = seq' ∧ v = v' := by
  rw [signingBuffer_eq, signingBuffer_eq]
  constructor
  · intro h
    have htail {x y : List UInt8} (h : Bencode.signedNumeral seq.toInt ++ 101 :: x =
        Bencode.signedNumeral seq'.toInt ++ 101 :: y) : seq = seq' ∧ x = y := by
      have hparse := (Bencode.parseSignedUntil_eq_ok_iff (t := 101) (by decide)).2 h
      rw [(Bencode.parseSignedUntil_eq_ok_iff (by decide)).2 rfl, Except.ok.injEq,
        Prod.mk.injEq] at hparse
      exact hparse
    -- the first byte says whether there is a salt
    split_ifs at h with hs hs' hs'
    · obtain ⟨hseq, hv⟩ := htail (by simpa using h)
      exact ⟨hs.trans hs'.symm, hseq, by simpa using hv⟩
    · simp at h
    · simp at h
    · simp only [append_assoc, append_cancel_left_eq] at h
      obtain ⟨hsalt, h⟩ := encodeBytes_append_inj h
      obtain ⟨hseq, hv⟩ := htail (by simpa using h)
      exact ⟨hsalt, hseq, by simpa using hv⟩
  · rintro ⟨hsalt, rfl, rfl⟩
    rw [hsalt]

end Signing

inductive PutError
  | valueTooLarge
  | saltTooLarge
  | badSignature
  | casMismatch
  | sequenceTooLow
  | storeFull
deriving DecidableEq

structure MutableMeta where
  k : Hash32
  seq : Int64
  sig : Signature

structure Item where
  v : Bencode
  /-- What a mutable item has beside its value. -/
  mutable : Option MutableMeta
  storedAt : ℕ

structure StoredItem where
  v : Bencode
  mutable : Option (Hash32 × Int64 × Signature)

/-- An item that has not expired. -/
def Item.fresh (item : Item) (now : ℕ) : Bool := decide (now - item.storedAt < itemLifetime)

structure Store where
  items : AList fun _ : Hash20 => Item

/-- `MutableFields` and the value that goes with them: what a `put` of a
mutable item says. -/
structure MutablePut where
  k : Hash32
  salt : Option (List UInt8)
  seq : Int64
  sig : Signature
  v : Bencode
  cas : Option Int64

namespace Store

def new : Store := ⟨∅⟩

/-- The item under a key that has not expired. -/
def current (s : Store) (target : Hash20) (now : ℕ) : Option Item :=
  (s.items.lookup target).filter fun item => item.fresh now

def get (s : Store) (target : Hash20) (now : ℕ) : Option StoredItem :=
  (s.current target now).map fun item =>
    ⟨item.v, item.mutable.map fun m => (m.k, m.seq, m.sig)⟩

variable [Digests] [Ed25519]

def putImmutable (s : Store) (v : Bencode) (now : ℕ) : Except PutError Hash20 × Store :=
  let bencoded := v.encode
  if maxValueLen < bencoded.length then (.error .valueTooLarge, s)
  else
    let target := immutableTarget bencoded
    if target ∉ s.items ∧ maxStoredItems ≤ s.items.entries.length then (.error .storeFull, s)
    else (.ok target, ⟨s.items.insert target ⟨v, none, now⟩⟩)

/-- The sequence number a `put` is compared with: that of the item there,
and the least one where the item is an immutable one. -/
def currentSeq (item : Item) : Int64 := (item.mutable.map MutableMeta.seq).getD Int64.minValue

/-- `put_mutable`: the salt, the value and the signature, then `cas` and the
sequence number against what is there, in this order. -/
def putMutable (s : Store) (p : MutablePut) (now : ℕ) : Except PutError Hash20 × Store :=
  if p.salt.any fun salt => decide (maxSaltLen < salt.length) then (.error .saltTooLarge, s)
  else
    let bencoded := p.v.encode
    if maxValueLen < bencoded.length then (.error .valueTooLarge, s)
    else if verifyMutable p.k p.salt p.seq bencoded p.sig = false then (.error .badSignature, s)
    else
      let target := mutableTarget p.k p.salt
      let stored : Except PutError Hash20 × Store :=
        (.ok target, ⟨s.items.insert target ⟨p.v, some ⟨p.k, p.seq, p.sig⟩, now⟩⟩)
      match s.current target now with
      | some item =>
        if p.cas.any fun cas => decide (cas ≠ currentSeq item) then (.error .casMismatch, s)
        else if p.seq < currentSeq item then (.error .sequenceTooLow, s)
        -- an equal number is stored again, whatever the value
        else stored
      | none =>
        if maxStoredItems ≤ s.items.entries.length then (.error .storeFull, s) else stored

end Store

/-- A call of the store. -/
inductive StoreCall
  | putImmutable (v : Bencode)
  | putMutable (p : MutablePut)
  | get (target : Hash20)

/-- What a call answers. -/
inductive StoreAnswer
  | put (result : Except PutError Hash20)
  | got (item : Option StoredItem)

/-- A call, its time and its answer. -/
structure StoreEvent where
  call : StoreCall
  now : ℕ
  answer : StoreAnswer

section Calls

variable [Digests] [Ed25519]

/-- What a call answers, and the store after it. -/
def Store.call (s : Store) (now : ℕ) : StoreCall → StoreAnswer × Store
  | .putImmutable v => (.put (s.putImmutable v now).1, (s.putImmutable v now).2)
  | .putMutable p => (.put (s.putMutable p now).1, (s.putMutable p now).2)
  | .get target => (.got (s.get target now), s)

/-- **A store under calls whose times do not decrease.** The state is the
store and the time of the last call. -/
def storing : LTS (Store × ℕ) StoreEvent where
  step s e t := s.2 ≤ e.now ∧ s.1.call e.now e.call = (e.answer, t.1) ∧ t.2 = e.now

/-- The checks of `put_mutable` that do not look at the store. -/
def MutablePut.wellSigned (p : MutablePut) : Bool :=
  p.salt.all (fun salt => decide (salt.length ≤ maxSaltLen)) &&
    decide (p.v.encode.length ≤ maxValueLen) && verifyMutable p.k p.salt p.seq p.v.encode p.sig

/-- The item that a mutable put stores. -/
def MutablePut.item (p : MutablePut) (now : ℕ) : Item := ⟨p.v, some ⟨p.k, p.seq, p.sig⟩, now⟩

/-- The checks of `put_mutable` against an item that is there. -/
def MutablePut.passes (p : MutablePut) (item : Item) : Bool :=
  p.cas.all (fun cas => decide (cas = Store.currentSeq item)) &&
    decide (Store.currentSeq item ≤ p.seq)

namespace StoreCall

/-- The key that a put is for. -/
def key : StoreCall → Option Hash20
  | .putImmutable v => some (immutableTarget v.encode)
  | .putMutable p => some (mutableTarget p.k p.salt)
  | .get _ => none

/-- **A put that passes the checks of its own**: of the salt, the size and
the signature. -/
def Acceptable : StoreCall → Prop
  | .putImmutable v => v.encode.length ≤ maxValueLen
  | .putMutable p => p.wellSigned = true
  | .get _ => False

/-- **The item that a put renews is there**, as the call looks for it: an
immutable put takes an expired one for there, a mutable put does not. -/
def Renewing (s : Store) (now : ℕ) : StoreCall → Prop
  | .putImmutable v => immutableTarget v.encode ∈ s.items
  | .putMutable p => (s.current (mutableTarget p.k p.salt) now).isSome
  | .get _ => False

/-- The item that a put stores. -/
def item (now : ℕ) : StoreCall → Option Item
  | .putImmutable v => some ⟨v, none, now⟩
  | .putMutable p => some (p.item now)
  | .get _ => none

/-- A put that passes the checks against the item that is there. -/
def Passes (s : Store) (now : ℕ) : StoreCall → Prop
  | .putMutable p =>
    ∀ item, s.current (mutableTarget p.k p.salt) now = some item → p.passes item = true
  | _ => True

end StoreCall

/-- **What a call comes to**: a put stores its item, finds the store full or
is refused by what it says, and a `get` changes nothing. -/
inductive Store.Called (s : Store) (now : ℕ) (call : StoreCall) : StoreAnswer × Store → Prop
  | stored {target : Hash20} {item : Item} (hkey : call.key = some target)
      (hitem : call.item now = some item) (hacceptable : call.Acceptable)
      (hpasses : call.Passes s now)
      (hroom : call.Renewing s now ∨ s.items.entries.length < maxStoredItems) :
      Called s now call (.put (.ok target), ⟨s.items.insert target item⟩)
  | full (hacceptable : call.Acceptable) (hrenewing : ¬ call.Renewing s now)
      (hfull : maxStoredItems ≤ s.items.entries.length) :
      Called s now call (.put (.error .storeFull), s)
  | refused {e : PutError} (he : e ≠ .storeFull)
      (hrefused : call.Acceptable → call.Renewing s now ∧ ¬ call.Passes s now) :
      Called s now call (.put (.error e), s)
  | got {target : Hash20} (hcall : call = .get target) :
      Called s now call (.got (s.get target now), s)

variable {s : Store} {now : ℕ}

theorem called_putImmutable (v : Bencode) :
    s.Called now (.putImmutable v) (s.call now (.putImmutable v)) := by
  rw [Store.call, Store.putImmutable]
  dsimp only
  split_ifs with hlen hfull
  · exact .refused nofun fun h => absurd hlen (Nat.not_lt.2 h)
  · exact .full (Nat.not_lt.1 hlen) hfull.1 hfull.2
  · rw [not_and_or, not_not, Nat.not_le] at hfull
    exact .stored rfl rfl (Nat.not_lt.1 hlen) trivial hfull

theorem called_putMutable (p : MutablePut) :
    s.Called now (.putMutable p) (s.call now (.putMutable p)) := by
  have hwell : p.wellSigned = true ↔ (¬ p.salt.any fun salt => decide (maxSaltLen < salt.length)) ∧
        ¬ maxValueLen < p.v.encode.length ∧
        ¬ verifyMutable p.k p.salt p.seq p.v.encode p.sig = false := by
    cases hsalt : p.salt <;> simp [MutablePut.wellSigned, hsalt, and_assoc]
  have hpasses (item : Item) : p.passes item = true ↔
      (¬ p.cas.any fun cas => decide (cas ≠ Store.currentSeq item)) ∧
        ¬ p.seq < Store.currentSeq item := by
    cases hcas : p.cas <;> simp [MutablePut.passes, hcas]
  rw [Store.call, Store.putMutable]
  dsimp only
  by_cases hsigned : p.wellSigned = true
  · obtain ⟨hsalt, hlen, hsig⟩ := hwell.1 hsigned
    rw [if_neg hsalt, if_neg hlen, if_neg hsig]
    cases hitem : s.current (mutableTarget p.k p.salt) now with
    | some item =>
      have hthere : StoreCall.Renewing s now (.putMutable p) := by
        rw [StoreCall.Renewing, hitem]
        rfl
      dsimp only
      split_ifs with hcas hseq
      · exact .refused nofun fun _ => ⟨hthere, fun h => ((hpasses item).1 (h item hitem)).1 hcas⟩
      · exact .refused nofun fun _ => ⟨hthere, fun h => ((hpasses item).1 (h item hitem)).2 hseq⟩
      · refine .stored rfl rfl hsigned (fun other hother => ?_) (.inl hthere)
        obtain rfl := Option.some_inj.1 (hitem.symm.trans hother)
        exact (hpasses item).2 ⟨hcas, hseq⟩
    | none =>
      dsimp only
      split_ifs with hfull
      · exact .full hsigned (by simp [StoreCall.Renewing, hitem]) hfull
      · exact .stored rfl rfl hsigned (by simp [StoreCall.Passes, hitem])
          (.inr (Nat.not_le.1 hfull))
  · split
    · exact .refused nofun fun h => absurd h hsigned
    · rename_i hsalt
      split
      · exact .refused nofun fun h => absurd h hsigned
      · rename_i hlen
        have hsig : verifyMutable p.k p.salt p.seq p.v.encode p.sig = false := by
          by_contra hsig
          exact hsigned (hwell.2 ⟨hsalt, hlen, hsig⟩)
        rw [if_pos hsig]
        exact .refused nofun fun h => absurd h hsigned

theorem called (call : StoreCall) : s.Called now call (s.call now call) := by
  cases call with
  | putImmutable v => exact called_putImmutable v
  | putMutable p => exact called_putMutable p
  | get target => exact .got rfl

theorem called_of_step {call : StoreCall} {answer : StoreAnswer} {after : Store} {before last : ℕ}
    (h : storing.step (s, before) ⟨call, now, answer⟩ (after, last)) :
    s.Called now call (answer, after) := h.2.1 ▸ called call

end Calls

end Dht

end BitTorrent
