import BitTorrent.Common.OrderedMap
import BitTorrent.Common.Run
import Mathlib.Data.Finset.Card

/-!
# Who is unchoked

`choker.rs`: the record of the peers that are served and the choice of those that are unchoked.
-/

namespace BitTorrent.Serving

open List

abbrev PeerId := ℕ

def optimisticEvery : ℕ := 3

structure Candidate where
  id : PeerId
  interested : Bool
  uploaded : ℕ
  downloaded : ℕ
deriving DecidableEq

/-- The order of `choose`: those that gave the most, then those that took
the most, then those with the lower id. -/
def Candidate.before (a b : Candidate) : Prop :=
  b.downloaded < a.downloaded ∨ (b.downloaded = a.downloaded ∧
    (b.uploaded < a.uploaded ∨ (b.uploaded = a.uploaded ∧ a.id ≤ b.id)))

instance (a b : Candidate) : Decidable (a.before b) := by
  unfold Candidate.before
  infer_instance

/-- The interested ones, best first. -/
def ranked (peers : List Candidate) : List Candidate :=
  (peers.filter fun p => p.interested).insertionSort Candidate.before

/-- The slot that is left once the best have theirs: it is for the
optimistic one, and for the next best if that one has a slot or does not
want one. -/
def fillLast (interested : List Candidate) (chosen : Finset PeerId) (optimistic : Option PeerId) :
    Finset PeerId :=
  match optimistic.filter fun id =>
      interested.any (fun p => p.id == id) && decide (id ∉ chosen) with
  | some id => insert id chosen
  | none =>
    match interested.find? fun p => decide (p.id ∉ chosen) with
    | some next => insert next.id chosen
    | none => chosen

def choose (peers : List Candidate) (slots : ℕ) (optimistic : Option PeerId) : Finset PeerId :=
  if slots = 0 then ∅
  else
    let regular := if slots = 1 then 1 else slots - 1
    let chosen := (((ranked peers).take regular).map Candidate.id).toFinset
    if 1 < slots then fillLast (ranked peers) chosen optimistic else chosen

structure Slot where
  interested : Bool
  unchoked : Bool
  uploaded : ℕ
  downloaded : ℕ

/-- `Choker`, with the state in its lock. -/
structure Choker where
  slots : ℕ
  peers : OrderedMap PeerId Slot
  nextId : PeerId
  optimistic : Option PeerId
  round : ℕ

namespace Choker

def new (slots : ℕ) : Choker := ⟨slots, .empty, 0, none, 0⟩

variable (c : Choker)

/-- `register`: the id, and the choker that has given it out. -/
def register : PeerId × Choker :=
  (c.nextId, { c with
    nextId := c.nextId + 1
    peers := c.peers.insert c.nextId ⟨false, false, 0, 0⟩ })

def unregister (id : PeerId) : Choker :=
  { c with
    peers := c.peers.erase id
    optimistic := if c.optimistic = some id then none else c.optimistic }

def setInterested (id : PeerId) (interested : Bool) : Choker :=
  { c with peers := c.peers.modify id fun slot =>
      { slot with interested, unchoked := if interested then slot.unchoked else false } }

def unchokedCount : ℕ := c.peers.count Slot.unchoked

def isUnchoked (id : PeerId) : Bool := (c.peers.get id).any Slot.unchoked

def grantIfFree (id : PeerId) : Bool × Choker :=
  let held := c.unchokedCount
  match c.peers.get id with
  | none => (false, c)
  | some slot =>
    if slot.unchoked then (true, c)
    else if slot.interested && decide (held < c.slots) then
      (true, { c with peers := c.peers.modify id fun slot => { slot with unchoked := true } })
    else (false, c)

def recordUpload (id : PeerId) (bytes : ℕ) : Choker :=
  { c with peers := c.peers.modify id fun slot => { slot with uploaded := slot.uploaded + bytes } }

def recordDownload (id : PeerId) (bytes : ℕ) : Choker :=
  { c with
    peers := c.peers.modify id fun slot => { slot with downloaded := slot.downloaded + bytes } }

/-- The ids of those that are interested, in their order. -/
def interestedIds : List PeerId :=
  (c.peers.entries.filter fun x => x.2.interested).map Prod.fst

/-- The optimistic slot moves on: to the first one after the last that had
it, and around. -/
def nextOptimistic : Option PeerId :=
  (c.interestedIds.find? fun id => c.optimistic.all fun a => decide (a < id)).or
    c.interestedIds.head?

/-- The optimistic slot is to move on in this round: it is time, or the one
that has it is not interested any more. -/
def movesOn (round : ℕ) : Bool :=
  decide (1 < c.slots) && (round % optimisticEvery == 1 ||
    c.optimistic.all fun id => !(c.peers.get id).any Slot.interested)

/-- What `choose` is asked about. -/
def candidates : List Candidate :=
  c.peers.entries.map fun x => ⟨x.1, x.2.interested, x.2.uploaded, x.2.downloaded⟩

def rechoke : Choker :=
  let round := c.round + 1
  let optimistic := if c.movesOn round then c.nextOptimistic else c.optimistic
  let chosen := choose c.candidates c.slots optimistic
  { c with
    round
    optimistic
    peers := c.peers.mapValues fun id slot =>
      { slot with unchoked := decide (id ∈ chosen), uploaded := 0, downloaded := 0 } }

end Choker

/-- An operation of the choker, with what it answered. -/
inductive ChokerEvent
  | register (id : PeerId)
  | unregister (id : PeerId)
  | setInterested (id : PeerId) (interested : Bool)
  | grantIfFree (id : PeerId) (granted : Bool)
  | recordUpload (id : PeerId) (bytes : ℕ)
  | recordDownload (id : PeerId) (bytes : ℕ)
  | rechoke

/-- **The choker under any operations**, one after another. -/
def choking : LTS Choker ChokerEvent where
  step c e d := match e with
    | .register id => c.register = (id, d)
    | .unregister id => d = c.unregister id
    | .setInterested id interested => d = c.setInterested id interested
    | .grantIfFree id granted => c.grantIfFree id = (granted, d)
    | .recordUpload id bytes => d = c.recordUpload id bytes
    | .recordDownload id bytes => d = c.recordDownload id bytes
    | .rechoke => d = c.rechoke

section Choice

variable {peers : List Candidate} {interested : List Candidate} {chosen : Finset PeerId}
  {optimistic : Option PeerId} {slots : ℕ}

theorem fillLast_cases (optimistic : Option PeerId)
    (hsub : chosen ⊆ (interested.map Candidate.id).toFinset) :
    (∃ id ∈ (interested.map Candidate.id).toFinset, id ∉ chosen ∧
      fillLast interested chosen optimistic = insert id chosen) ∨
    (chosen = (interested.map Candidate.id).toFinset ∧
      fillLast interested chosen optimistic = chosen) := by
  unfold fillLast
  split
  · rename_i id hid
    obtain ⟨-, hid⟩ := Option.filter_eq_some_iff.1 hid
    rw [Bool.and_eq_true, any_eq_true, decide_eq_true_eq] at hid
    obtain ⟨⟨p, hp, hpid⟩, hnot⟩ := hid
    refine .inl ⟨id, ?_, hnot, rfl⟩
    rw [mem_toFinset, ← beq_iff_eq.1 hpid]
    exact mem_map_of_mem hp
  · split
    · rename_i next hnext
      have hnot : next.id ∉ chosen := by simpa using find?_some hnext
      refine .inl ⟨next.id, ?_, hnot, rfl⟩
      exact mem_toFinset.2 (mem_map_of_mem (mem_of_find?_eq_some hnext))
    · rename_i hnone
      refine .inr ⟨hsub.antisymm fun id hid => ?_, rfl⟩
      obtain ⟨p, hp, rfl⟩ := mem_map.1 (mem_toFinset.1 hid)
      simpa using find?_eq_none.1 hnone p hp

theorem ranked_perm (peers : List Candidate) :
    (ranked peers).Perm (peers.filter fun p => p.interested) := perm_insertionSort _ _

/-- The ids of the interested. -/
def interestedOf (peers : List Candidate) : Finset PeerId :=
  ((peers.filter fun p => p.interested).map Candidate.id).toFinset

theorem toFinset_ranked (peers : List Candidate) :
    ((ranked peers).map Candidate.id).toFinset = interestedOf peers :=
  toFinset_eq_of_perm _ _ ((ranked_perm peers).map _)

theorem nodup_ranked (hnodup : (peers.map Candidate.id).Nodup) :
    ((ranked peers).map Candidate.id).Nodup := by
  refine ((ranked_perm peers).map _).nodup_iff.2 ?_
  exact (filter_sublist.map _).nodup hnodup

theorem card_take_ranked (hnodup : (peers.map Candidate.id).Nodup) (n : ℕ) :
    (((ranked peers).take n).map Candidate.id).toFinset.card = min n (interestedOf peers).card := by
  have htake : (((ranked peers).take n).map Candidate.id).Nodup :=
    ((take_sublist _ _).map _).nodup (nodup_ranked hnodup)
  rw [toFinset_card_of_nodup htake, length_map, length_take, ← toFinset_ranked,
    toFinset_card_of_nodup (nodup_ranked hnodup), length_map]

theorem take_ranked_subset (peers : List Candidate) (n : ℕ) :
    (((ranked peers).take n).map Candidate.id).toFinset ⊆ interestedOf peers := by
  rw [← toFinset_ranked]
  intro id hid
  exact mem_toFinset.2 (((take_sublist _ _).map _).subset (mem_toFinset.1 hid))

theorem choose_subset : choose peers slots optimistic ⊆ interestedOf peers := by
  unfold choose
  split
  · exact Finset.empty_subset _
  · dsimp only
    split
    · have hsub := take_ranked_subset peers (if slots = 1 then 1 else slots - 1)
      rw [← toFinset_ranked] at hsub ⊢
      rcases fillLast_cases optimistic hsub with
        ⟨id, hid, -, hfill⟩ | ⟨hall, hfill⟩
      · rw [hfill]
        exact Finset.insert_subset hid hsub
      · rw [hfill]
        exact hsub
    · exact take_ranked_subset _ _

theorem card_choose (hnodup : (peers.map Candidate.id).Nodup) :
    (choose peers slots optimistic).card = min slots (interestedOf peers).card := by
  unfold choose
  split
  · rename_i hzero
    rw [hzero, Nat.zero_min]
    rfl
  · rename_i hpos
    dsimp only
    split
    · rename_i hmany
      rw [if_neg (show ¬ slots = 1 by omega)]
      have hsub := take_ranked_subset peers (slots - 1)
      have hcard := card_take_ranked hnodup (slots - 1)
      rw [← toFinset_ranked] at hsub
      rcases fillLast_cases optimistic hsub with
        ⟨id, hid, hnot, hfill⟩ | ⟨hall, hfill⟩
      · have hlt := Finset.card_lt_card ((Finset.ssubset_iff_of_subset hsub).2 ⟨id, hid, hnot⟩)
        rw [toFinset_ranked] at hlt
        rw [hfill, Finset.card_insert_of_notMem hnot]
        omega
      · have hequal := congrArg Finset.card hall
        rw [toFinset_ranked] at hequal
        rw [hfill]
        omega
    · have hone : slots = 1 := by omega
      rw [if_pos hone, card_take_ranked hnodup, hone]

/-! The order of the candidates does not matter: the ranking is the only
one there is. -/

instance : IsTrans Candidate Candidate.before := ⟨by
  unfold Candidate.before
  intro a b c hab hbc
  grind⟩

instance : Std.Total Candidate.before := ⟨by
  unfold Candidate.before
  intro a b
  grind⟩

theorem before_antisymm {a b : Candidate} (ha : a.interested = true) (hb : b.interested = true)
    (hab : a.before b) (hba : b.before a) : a = b := by
  obtain ⟨ida, _, upa, downa⟩ := a
  obtain ⟨idb, _, upb, downb⟩ := b
  unfold Candidate.before at hab hba
  dsimp only at ha hb hab hba
  rw [ha, hb, Candidate.mk.injEq]
  grind

variable {others : List Candidate}

theorem ranked_eq_of_perm (h : others.Perm peers) : ranked others = ranked peers := by
  have hperm : (ranked others).Perm (ranked peers) :=
    (ranked_perm others).trans ((h.filter _).trans (ranked_perm peers).symm)
  refine hperm.eq_of_pairwise (fun a b ha hb hab hba => ?_) (pairwise_insertionSort _ _)
    (pairwise_insertionSort _ _)
  have hinterested : ∀ {ps : List Candidate} {p}, p ∈ ranked ps → p.interested = true :=
    fun hp => (mem_filter.1 ((ranked_perm _).subset hp)).2
  exact before_antisymm (hinterested ha) (hinterested hb) hab hba

theorem choose_eq_of_perm (h : others.Perm peers) :
    choose others slots optimistic = choose peers slots optimistic := by
  unfold choose
  rw [ranked_eq_of_perm h]

end Choice

end BitTorrent.Serving
