import BitTorrent.Dht.Krpc
import Mathlib.Data.List.MinMax

/-!
# The routing table

`dht/routing.rs`: the nodes that answered, in 160 buckets by how many
leading bits their id shares with this node's.
-/

namespace BitTorrent.Dht

/-- `K`. -/
def bucketSize : ℕ := 8

def xorDistance (a b : NodeId) : NodeId := .ofFn fun i => a.get i ^^^ b.get i

def leadingZeros (b : UInt8) : ℕ := if b = 0 then 8 else 7 - Nat.log2 b.toNat

def bucketIndex (selfId other : NodeId) : Option ℕ :=
  let d := (xorDistance selfId other).toList
  (d.findIdx? (· != 0)).map fun i => i * 8 + leadingZeros (d.getD i 0)

structure Entry where
  node : CompactNode
  lastSeen : ℕ

structure RoutingTable where
  selfId : NodeId
  buckets : List (List Entry)

namespace RoutingTable

def new (selfId : NodeId) : RoutingTable := ⟨selfId, List.replicate 160 []⟩

/-- A node put in its bucket: refreshed where it is known, else added, in
the place of the one seen longest ago where the bucket is full. -/
def insertInto (bucket : List Entry) (node : CompactNode) (now : ℕ) : List Entry :=
  match bucket.findIdx? fun e => e.node.id == node.id with
  | some i => bucket.modify i fun e => ⟨⟨e.node.id, node.addr⟩, now⟩
  | none =>
    if bucket.length < bucketSize then bucket ++ [⟨node, now⟩]
    else
      match bucket.zipIdx.argmin fun p => p.1.lastSeen with
      | some oldest => bucket.set oldest.2 ⟨node, now⟩
      | none => bucket

def insert (table : RoutingTable) (node : CompactNode) (now : ℕ) : RoutingTable :=
  match bucketIndex table.selfId node.id with
  | none => table
  | some i => { table with buckets := table.buckets.modify i fun b => insertInto b node now }

/-- `recentre`; each insertion reads the clock again. -/
def recentre (table : RoutingTable) (newId : NodeId) (clock : ℕ → ℕ) : RoutingTable :=
  table.buckets.flatten.zipIdx.foldl (fun t p => t.insert p.1.node (clock p.2))
    ⟨newId, table.buckets.map fun _ => []⟩

/-- `sort_by_key` by distance to a target, which is stable. -/
def sortByDistance {α : Type} (id : α → NodeId) (target : NodeId) (nodes : List α) : List α :=
  nodes.insertionSort fun a b =>
    (xorDistance (id a) target).toList ≤ (xorDistance (id b) target).toList

def closest (table : RoutingTable) (target : NodeId) (n : ℕ) : List CompactNode :=
  ((sortByDistance (fun e => e.node.id) target table.buckets.flatten).take n).map Entry.node

end RoutingTable

end BitTorrent.Dht
