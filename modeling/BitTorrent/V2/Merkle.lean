import BitTorrent.Common.Splice
import Mathlib.Data.Vector.Basic

/-!
# Digests, and the merkle trees of BitTorrent v2

The two hash functions are parameters of the development: nothing here depends on which functions
they are.
-/

namespace BitTorrent

/-- `[u8; 20]`, what SHA-1 returns. -/
abbrev Hash20 := List.Vector UInt8 20

/-- `[u8; 32]`, what SHA-256 returns: `v2::Hash`. -/
abbrev Hash32 := List.Vector UInt8 32

/-- **The digests**: `Sha1::digest` and `sha256::sha256`. -/
class Digests where
  sha1 : List UInt8 → Hash20
  sha256 : List UInt8 → Hash32

/-- The digests that send everything to zeros, to try a result out on. -/
@[reducible] def Digests.zero : Digests := ⟨fun _ => .replicate 20 0, fun _ => .replicate 32 0⟩

/-- Digests that tell short inputs apart: their bytes, with zeros after
them. -/
@[reducible] def Digests.spread : Digests where
  sha1 bs := ⟨(bs ++ List.replicate 20 0).take 20, by simp⟩
  sha256 bs := ⟨(bs ++ List.replicate 32 0).take 32, by simp⟩

namespace V2

variable [Digests]

/-- `BLOCK`: the unit at the leaves of every tree. -/
def block : ℕ := 16 * 1024

/-- A hash of zeros, the leaf that pads a layer. -/
def zeroHash : Hash32 := List.Vector.replicate 32 0

/-- `parent`: the hash of the two, one after the other. -/
def parent (left right : Hash32) : Hash32 := Digests.sha256 (left.toList ++ right.toList)

/-- `level.chunks(2).map(parent)`. A layer has an even width wherever the
source pairs one up, so the last chunk is never short. -/
def pairUp : List Hash32 → List Hash32
  | left :: right :: rest => parent left right :: pairUp rest
  | _ => []

/-- The loop of `merkle_root`: pair up while more than one hash is left.
Each turn halves the layer, so its length is fuel enough. -/
def climb : ℕ → List Hash32 → List Hash32
  | 0, level => level
  | fuel + 1, level => if 1 < level.length then climb fuel (pairUp level) else level

def resize {α : Type*} (l : List α) (n : ℕ) (pad : α) : List α :=
  l.take n ++ List.replicate (n - l.length) pad

/-- `merkle_root`: the root of a tree `width` leaves wide whose first
leaves are `leaves` and whose others are `pad`. -/
def merkleRoot (leaves : List Hash32) (width : ℕ) (pad : Hash32) : Hash32 :=
  (climb (max width 1) (resize leaves (max width 1) pad)).headD zeroHash

/-- `slice::chunks`: ranges of `n`, the last as short as it is. -/
def chunks {α : Type*} (n : ℕ) (l : List α) : List (List α) :=
  (List.range ((l.length + n - 1) / n)).map fun i => slice l (i * n) n

/-- `block_hashes`: the hash of each 16 KiB block, the last block as
short as it is. -/
def blockHashes (data : List UInt8) : List Hash32 := (chunks block data).map Digests.sha256

/-- `merkle_matches`: whether `data` is a piece whose tree, `width`
leaves wide, has root `root`. -/
def merkleMatches (data : List UInt8) (width : ℕ) (root : Hash32) : Bool :=
  if ¬ width.isPowerOfTwo ∨ min (width * block) (2 ^ 64 - 1) < data.length then false
  else merkleRoot (blockHashes data) width zeroHash == root

end V2

end BitTorrent
