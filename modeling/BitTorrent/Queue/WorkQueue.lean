import BitTorrent.Piece.Assembler
import Mathlib.Data.List.AList
import Mathlib.Data.List.MinMax
import Mathlib.Data.Prod.Lex

/-!
# The queue of pieces

`WorkQueue` of `queue.rs`, one method at a time as its lock makes them: the pieces nobody has
taken, the ones some worker is fetching, the ones that are done, and the blocks that failed
connections left behind.
-/

namespace BitTorrent

open List

/-- `Vec::swap_remove`: the last element takes the place of the one that
goes. -/
def swapRemove {α : Type*} (l : List α) (i : ℕ) : List α :=
  match l.getLast? with
  | some last => (l.set i last).dropLast
  | none => []

theorem swapRemove_perm {α : Type*} {l : List α} {i : ℕ} {x : α} (h : l[i]? = some x) :
    l.Perm (x :: swapRemove l i) := by
  obtain ⟨hi, rfl⟩ := List.getElem?_eq_some_iff.1 h
  have hne : l ≠ [] := ne_nil_of_length_pos (by omega)
  obtain ⟨front, last, rfl⟩ := (eq_nil_or_concat' l).resolve_left hne
  simp only [swapRemove, getLast?_append, getLast?_singleton, Option.some_or]
  rcases Nat.lt_or_ge i front.length with hlt | hge
  · -- the one that goes is in front: the last one is put there
    rw [getElem_append_left hlt, set_append_left i last hlt, dropLast_concat]
    have hfront := set_perm_cons_eraseIdx hlt last
    have hback := getElem_cons_eraseIdx_perm hlt
    exact (perm_append_singleton last front).trans
      (((hback.symm.cons last).trans (List.Perm.swap _ _ _)).trans (hfront.symm.cons _))
  · obtain rfl : i = front.length := by
      simp only [length_append, length_singleton] at hi
      omega
    simp only [getElem_append_right le_rfl, Nat.sub_self, getElem_singleton,
      set_append_right _ _ le_rfl, set_cons_zero, dropLast_concat]
    exact perm_append_singleton last front

/-- `Order`: which pending piece comes out first. -/
inductive Order
  | rarestFirst
  | sequential
deriving DecidableEq

/-- `Take`: what `take_for` found for a peer. -/
inductive Take
  | piece (work : PieceWork)
  | nothingForThisPeer
  | done
deriving DecidableEq

def maxStashedBytes : ℕ := 2 ^ 26

/-- `WorkQueue`, with the fields of its `Inner`. -/
structure WorkQueue where
  /-- Not yet done, not taken by any worker. -/
  pending : List PieceWork
  /-- Taken by a worker and not yet done, by piece index. -/
  claimed : AList fun _ : UInt32 => PieceWork
  /-- Verified and written. -/
  done : Finset UInt32
  /-- Blocks of pieces whose connection failed part-way. -/
  partials : AList fun _ : UInt32 => PartialPiece
  availability : List ℕ
  order : Order
  preferred : Finset UInt32

namespace WorkQueue

/-- `new`, with `with_order` and `with_preferred`. -/
def new (pieces : List PieceWork) (totalPieces : ℕ) (order : Order) (preferred : Finset UInt32) :
    WorkQueue where
  pending := pieces
  claimed := ∅
  done := ∅
  partials := ∅
  availability := List.replicate totalPieces 0
  order := order
  preferred := preferred

variable (q : WorkQueue)

/-- `rank`: lower comes first, and the index breaks ties. -/
def rank (w : PieceWork) : ℕ ×ₗ ℕ ×ₗ ℕ :=
  let later := if w.index ∈ q.preferred then 0 else 1
  match q.order with
  | .rarestFirst => toLex (later, toLex (q.availability.getD w.index.toNat 0, w.index.toNat))
  | .sequential => toLex (later, toLex (0, w.index.toNat))

/-- The place in `pending` of the first piece to offer a peer. -/
def firstOffered (has : UInt32 → Bool) : Option ℕ :=
  ((q.pending.zipIdx.filter fun p => has p.1.index).argmin fun p => q.rank p.1).map Prod.snd

/-- The claimed piece to hand out once more. -/
def firstClaimed (has : UInt32 → Bool) : Option PieceWork :=
  ((q.claimed.entries.map Sigma.snd).filter fun w => has w.index).argmin q.rank

def isEmpty : Bool := q.pending.isEmpty && q.claimed.entries.isEmpty

/-- What is left to say when nothing is handed out. -/
def nothing : Take := if q.isEmpty then .done else .nothingForThisPeer

/-- `take`: a pending piece the peer has; failing that, and when nothing
at all is pending, a copy of a claimed one. -/
def take (has : UInt32 → Bool) (endgameDuplicates : Bool) : Take × WorkQueue :=
  match q.firstOffered has with
  | some i =>
    match q.pending[i]? with
    | some work =>
      (.piece work,
        { q with
          pending := swapRemove q.pending i
          claimed := q.claimed.insert work.index work })
    | none => (q.nothing, q)
  | none =>
    if endgameDuplicates && q.pending.isEmpty then
      match q.firstClaimed has with
      | some work => (.piece work, q)
      | none => (q.nothing, q)
    else (q.nothing, q)

def takeFor (has : UInt32 → Bool) : Take × WorkQueue := q.take has true

def takePendingFor (has : UInt32 → Bool) : Option PieceWork × WorkQueue :=
  match q.take has false with
  | (.piece work, q') => (some work, q')
  | (_, q') => (none, q')

def pushBack (work : PieceWork) : WorkQueue :=
  if work.index ∈ q.done then q
  else
    { q with
      claimed := q.claimed.erase work.index
      pending :=
        if q.pending.any fun w => w.index == work.index then q.pending else q.pending ++ [work] }

/-- Bytes stashed for pieces other than `index`. -/
def heldApartFrom (index : UInt32) : ℕ :=
  ((q.partials.entries.filter fun e => e.1 != index).map fun e => e.2.size).sum

def stashPartial (index : UInt32) (part : PartialPiece) : WorkQueue :=
  if index ∈ q.done then q
  else if maxStashedBytes < q.heldApartFrom index + part.size then q
  else
    match q.partials.lookup index with
    | some existing =>
      if part.blocksHeld ≤ existing.blocksHeld then q
      else { q with partials := q.partials.insert index part }
    | none => { q with partials := q.partials.insert index part }

def takePartial (index : UInt32) : Option PartialPiece × WorkQueue :=
  (q.partials.lookup index, { q with partials := q.partials.erase index })

/-- `mark_done`: whether this call was the first for the piece. -/
def markDone (index : UInt32) : Bool × WorkQueue :=
  (decide (index ∉ q.done),
    { q with
      done := insert index q.done
      claimed := q.claimed.erase index
      pending := q.pending.filter fun w => w.index != index
      partials := q.partials.erase index })

/-- `note_have`; the count is a `u32`. -/
def noteHave (pieceIndex : UInt32) : WorkQueue :=
  { q with availability := q.availability.modify pieceIndex.toNat fun c => (c + 1) % 2 ^ 32 }

def noteBitfield (held : List Bool) : WorkQueue :=
  { q with
    availability := q.availability.mapIdx fun i c =>
      if held.getD i false then (c + 1) % 2 ^ 32 else c }

def isDone (index : UInt32) : Bool := decide (index ∈ q.done)

def totalPieces : ℕ := q.availability.length

end WorkQueue

end BitTorrent
