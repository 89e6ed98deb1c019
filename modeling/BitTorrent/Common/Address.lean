import Mathlib.Data.Vector.Basic

/-!
# Addresses

`IpAddr` and `SocketAddr` of the standard library.
-/

namespace BitTorrent

/-- `IpAddr`: the octets of either family. -/
inductive IpAddr
  | v4 (octets : List.Vector UInt8 4)
  | v6 (octets : List.Vector UInt8 16)
deriving DecidableEq

namespace IpAddr

def octets : IpAddr → List UInt8
  | v4 o => o.toList
  | v6 o => o.toList

def isIpv6 : IpAddr → Bool
  | v4 _ => false
  | v6 _ => true

/-- The first two octets of an address, as a number. -/
def segment (ip : IpAddr) : ℕ := (ip.octets.getD 0 0).toNat * 256 + (ip.octets.getD 1 0).toNat

/-- `Ipv4Addr::is_private`, `is_loopback`, `is_link_local` and
`is_unspecified` together. -/
def isLocalV4 (o : List.Vector UInt8 4) : Bool :=
  let a := o.toList.getD 0 0
  let b := o.toList.getD 1 0
  a == 10 || (a == 172 && 16 ≤ b && b ≤ 31) || (a == 192 && b == 168) || a == 127 ||
    (a == 169 && b == 254) || o.toList == [0, 0, 0, 0]

end IpAddr

structure SocketAddr where
  ip : IpAddr
  port : UInt16
deriving DecidableEq

def SocketAddr.isIpv6 (a : SocketAddr) : Bool := a.ip.isIpv6

end BitTorrent
