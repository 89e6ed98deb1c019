import BitTorrent.Common.Limbs
import BitTorrent.Common.Machine
import Mathlib.Data.Vector.Basic

/-!
# The arithmetic of the key exchange

The 768-bit numbers of `peer/mse.rs`: comparison and subtraction limb by limb, Montgomery's
multiplication by scanning the digits of one operand, the power by squaring, and the two functions
of the key exchange on top.
-/

namespace BitTorrent.Mse

def limbs : ℕ := 24

def keyBytes : ℕ := 96

/-- `Big`: the limbs of a number, the least significant first. -/
abbrev Big := List.Vector UInt32 limbs

/-- A public key or a shared secret. -/
abbrev Key := List.Vector UInt8 keyBytes

namespace Big

/-- The number itself. -/
def value (n : Big) : ℕ := limbsNat n.toList

/-- The least significant limb. -/
def low (n : Big) : UInt32 := n.toList.headD 0

/-- A number of one limb. -/
def ofLimb (x : UInt32) : Big := ⟨x :: .replicate 23 0, rfl⟩

end Big

/-- The byte at a place, counted from the last, as a word. -/
def byteFromLast (bytes : List UInt8) (i : ℕ) : UInt32 := (bytes.reverse.getD i 0).toUInt32

/-- `from_be_bytes`: each limb is made of its four bytes. -/
def fromBeBytes (bytes : List UInt8) : Big :=
  .ofFn fun k =>
    byteFromLast bytes (4 * k) ||| byteFromLast bytes (4 * k + 1) <<< 8 |||
      byteFromLast bytes (4 * k + 2) <<< 16 ||| byteFromLast bytes (4 * k + 3) <<< 24

def toBeBytes (n : Big) : Key :=
  .ofFn fun j =>
    let i := keyBytes - 1 - j
    (n.toList.getD (i / 4) 0 >>> (8 * (i % 4)).toUInt32).toUInt8

/-- `cmp`, of numbers with any number of limbs: the highest limb in which
they differ decides. -/
def cmpLimbs : List UInt32 → List UInt32 → Ordering
  | x :: xs, y :: ys => (cmpLimbs xs ys).then (compare x y)
  | _, _ => .eq

def cmp (a b : Big) : Ordering := cmpLimbs a.toList b.toList

/-- The loop of `sub`. -/
def subLimbs : ℤ → List UInt32 → List UInt32 → List UInt32
  | borrow, x :: xs, y :: ys =>
    let d : ℤ := x.toNat - y.toNat - borrow
    UInt32.ofInt d :: subLimbs (if d < 0 then 1 else 0) xs ys
  | _, _, _ => []

theorem length_subLimbs (borrow : ℤ) (xs ys : List UInt32) :
    (subLimbs borrow xs ys).length = min xs.length ys.length := by
  induction xs generalizing borrow ys with
  | nil => simp [subLimbs]
  | cons x xs ih =>
    cases ys with
    | nil => simp [subLimbs]
    | cons y ys => simp [subLimbs, ih]

/-- `sub`: `a - b`, wrapping. -/
def sub (a b : Big) : Big :=
  ⟨subLimbs 0 a.toList b.toList, by rw [length_subLimbs, a.toList_length, b.toList_length]; rfl⟩

structure Montgomery where
  modulus : Big
  n0 : UInt32
  r2 : Big

/-- One turn of Newton's iteration. -/
def newton (m0 inv : UInt32) : UInt32 := inv * (2 - m0 * inv)

/-- Twice a number, and the carry. -/
def doubleLimbs : UInt32 → List UInt32 → List UInt32 × UInt32
  | carry, [] => ([], carry)
  | carry, x :: xs =>
    let rest := doubleLimbs (x >>> 31) xs
    ((x <<< 1 ||| carry) :: rest.1, rest.2)

theorem length_doubleLimbs (carry : UInt32) (xs : List UInt32) :
    (doubleLimbs carry xs).1.length = xs.length := by
  induction xs generalizing carry with
  | nil => rfl
  | cons x xs ih => simp [doubleLimbs, ih]

/-- One turn of the loop that makes `r2`. -/
def double (modulus r2 : Big) : Big :=
  let doubled : Big :=
    ⟨(doubleLimbs 0 r2.toList).1, by rw [length_doubleLimbs, r2.toList_length]⟩
  if (doubleLimbs 0 r2.toList).2 = 1 ∨ cmp doubled modulus ≠ .lt then sub doubled modulus
  else doubled

/-- `t[j] + a[j] * b + carry` from one limb to the next: an inner loop of
`mul`. -/
def mulAddRow (b : UInt32) : ℕ → List UInt32 → List UInt32 → Option (List UInt32 × ℕ)
  | carry, t :: ts, x :: xs => do
    let product ← U64.mul x.toNat b.toNat
    let sum ← U64.add t.toNat product
    let v ← U64.add sum carry
    let rest ← mulAddRow b (v / 2 ^ 32) ts xs
    some (UInt32.ofNat v :: rest.1, rest.2)
  | carry, _, _ => some ([], carry)

/-- The array `t` of `mul` between two turns. Its last element is written
in a turn before it is read. -/
structure Scratch where
  /-- `t[..LIMBS]`. -/
  low : List UInt32
  /-- `t[LIMBS]`. -/
  top : UInt32

namespace Montgomery

def new (modulus : Big) : Montgomery where
  modulus := modulus
  n0 := -(newton modulus.low)^[5] 1
  r2 := (double modulus)^[2 * 32 * limbs] (.ofLimb 1)

variable (g : Montgomery)

/-- One turn of `mul`: the digit `bi` times `a` is added to `t`, then the
multiple of the modulus that clears the last limb, which is dropped. -/
def turn (a : Big) (t : Scratch) (bi : UInt32) : Option Scratch := do
  let row ← mulAddRow bi 0 t.low a.toList
  let v ← U64.add t.top.toNat row.2
  let q := row.1.headD 0 * g.n0
  let product ← U64.mul q.toNat g.modulus.low.toNat
  let cleared ← U64.add (row.1.headD 0).toNat product
  let shifted ← mulAddRow q (cleared / 2 ^ 32) row.1.tail g.modulus.toList.tail
  let w ← U64.add (UInt32.ofNat v).toNat shifted.2
  let top ← U32.add (UInt32.ofNat (v / 2 ^ 32)) (UInt32.ofNat (w / 2 ^ 32))
  some ⟨shifted.1 ++ [UInt32.ofNat w], top⟩

/-- `copy_from_slice`, which wants as many limbs as there are. -/
def copyFromSlice (xs : List UInt32) : Option Big :=
  if h : xs.length = limbs then some ⟨xs, h⟩ else none

/-- `mul`: `a * b` divided by `2 ^ 768`, modulo the modulus. -/
def mul (a b : Big) : Option Big := do
  let t ← b.toList.foldlM (g.turn a) ⟨.replicate limbs 0, 0⟩
  let out ← copyFromSlice t.low
  some (if t.top ≠ 0 ∨ cmp out g.modulus ≠ .lt then sub out g.modulus else out)

/-- The bits of a byte, the highest first. -/
def bits (byte : UInt8) : List Bool :=
  [7, 6, 5, 4, 3, 2, 1, 0].map fun bit => byte >>> bit &&& 1 == 1

/-- One bit of the exponent: the result is squared, and multiplied by the
base if the bit is set. -/
def powBit (baseM : Big) (result : Big) (bit : Bool) : Option Big := do
  let squared ← g.mul result result
  if bit then g.mul squared baseM else some squared

def pow (base : Big) (exponent : List UInt8) : Option Big := do
  let baseM ← g.mul base g.r2
  let start ← g.mul (.ofLimb 1) g.r2
  let result ← exponent.foldlM (fun result byte => (bits byte).foldlM (g.powBit baseM) result) start
  g.mul result (.ofLimb 1)

end Montgomery

def primeHex : String :=
  "FFFFFFFFFFFFFFFFC90FDAA22168C234C4C6628B80DC1CD129024E088A67CC74020BBEA63B139B22514A08798E3404DDEF9519B3CD3A431B302B0A6DF25F14374FE1356D6D51C245E485B576625E7EC6F44C42E9A63A36210000000000090563"

/-- The value of a hexadecimal digit. -/
def hexDigit (c : Char) : Option UInt8 :=
  if '0' ≤ c ∧ c ≤ '9' then some (.ofNat (c.toNat - 48))
  else if 'A' ≤ c ∧ c ≤ 'F' then some (.ofNat (c.toNat - 55))
  else if 'a' ≤ c ∧ c ≤ 'f' then some (.ofNat (c.toNat - 87))
  else none

/-- The bytes of pairs of hexadecimal digits, a pair that is not one as 0. -/
def hexBytes : List Char → List UInt8
  | high :: low :: rest =>
    (((hexDigit high).bind fun h => (hexDigit low).map fun l => 16 * h + l).getD 0) :: hexBytes rest
  | _ => []

def group : Montgomery := .new (fromBeBytes (hexBytes primeHex.toList))

def publicKey (secret : List UInt8) : Option Key := do
  let power ← group.pow (.ofLimb 2) secret
  some (toBeBytes power)

/-- A key that it is safe to use: above 1 and below the prime less one. -/
def usable (peerPublic : Key) : Option Bool := do
  let y := fromBeBytes peerPublic.toList
  let least ← U32.sub group.modulus.low 1
  let primeMinusOne : Big := ⟨group.modulus.toList.set 0 least, by simp⟩
  some (cmp y (.ofLimb 1) == .gt && cmp y primeMinusOne == .lt)

/-- `shared_secret`, with no secret for a key that is not usable. -/
def sharedSecret (peerPublic : Key) (secret : List UInt8) : Option (Option Key) := do
  let fit ← usable peerPublic
  if fit then
    let power ← group.pow (fromBeBytes peerPublic.toList) secret
    some (some (toBeBytes power))
  else some none

end BitTorrent.Mse
