import BitTorrent.Common.Run
import BitTorrent.Queue.WorkQueue

/-!
# Workers on one queue

Any number of workers use one queue, each call under its lock, so a run is an interleaving of
whole calls.
-/

namespace BitTorrent

open List WorkQueue PieceWork

namespace WorkQueue

variable {q q' : WorkQueue} {has : UInt32 → Bool}

theorem firstOffered_spec {i : ℕ} (h : q.firstOffered has = some i) :
    ∃ work, q.pending[i]? = some work ∧ has work.index = true := by
  obtain ⟨⟨work, j⟩, hmin, rfl⟩ := Option.map_eq_some_iff.1 h
  have hmem := argmin_mem (Option.mem_def.2 hmin)
  obtain ⟨hzip, hhas⟩ := mem_filter.1 hmem
  exact ⟨work, mem_zipIdx_iff_getElem?.1 hzip, hhas⟩

variable {work : PieceWork}

theorem firstClaimed_spec (h : q.firstClaimed has = some work) :
    has work.index = true ∧ ∃ i, q.claimed.lookup i = some work := by
  have hmem := argmin_mem (Option.mem_def.2 h)
  obtain ⟨hval, hhas⟩ := mem_filter.1 hmem
  obtain ⟨⟨i, w⟩, hentry, rfl⟩ := mem_map.1 hval
  exact ⟨hhas, i, AList.mem_lookup_iff.2 hentry⟩

variable {dup : Bool}

theorem take_cases {r : Take} (h : q.take has dup = (r, q')) :
    (∃ work rest, r = .piece work ∧ has work.index = true ∧ q.pending.Perm (work :: rest) ∧
      q' = { q with pending := rest, claimed := q.claimed.insert work.index work }) ∨
    (q' = q ∧ ∃ work i, r = .piece work ∧ has work.index = true ∧ dup = true ∧ q.pending = [] ∧
      q.claimed.lookup i = some work) ∨
    (q' = q ∧ r = q.nothing) := by
  unfold take at h
  split at h
  · rename_i i hi
    obtain ⟨work, hwork, hhas⟩ := firstOffered_spec hi
    simp only [hwork, Prod.mk.injEq] at h
    obtain ⟨rfl, rfl⟩ := h
    exact .inl ⟨work, _, rfl, hhas, swapRemove_perm hwork, rfl⟩
  · split at h
    · rename_i hend
      obtain ⟨hdup, hempty⟩ := Bool.and_eq_true_iff.1 hend
      split at h
      · rename_i work hclaimed
        cases h
        obtain ⟨hhas, i, hi⟩ := firstClaimed_spec hclaimed
        exact .inr (.inl ⟨rfl, work, i, rfl, hhas, hdup, List.isEmpty_iff.1 hempty, hi⟩)
      · cases h
        exact .inr (.inr ⟨rfl, rfl⟩)
    · cases h
      exact .inr (.inr ⟨rfl, rfl⟩)

theorem has_of_take (h : q.take has dup = (.piece work, q')) : has work.index = true := by
  rcases take_cases h with ⟨work', rest, hr, hhas, -⟩ | ⟨-, work', i, hr, hhas, -⟩ | ⟨-, hr⟩
  · cases hr
    exact hhas
  · cases hr
    exact hhas
  · unfold nothing at hr
    split at hr <;> cases hr

theorem takePendingFor_eq {r : Option PieceWork} (h : q.takePendingFor has = (r, q')) :
    ∃ r', q.take has false = (r', q') ∧ ∀ work, r = some work ↔ r' = .piece work := by
  unfold takePendingFor at h
  cases htake : q.take has false with
  | mk r' q'' =>
    rw [htake] at h
    cases r' with
    | piece work =>
      cases h
      exact ⟨_, rfl, by simp⟩
    | nothingForThisPeer | done =>
      cases h
      exact ⟨_, rfl, by simp⟩

theorem stashPartial_eq (q : WorkQueue) (index : UInt32) (part : PartialPiece) :
    ∃ kept, q.stashPartial index part = { q with partials := kept } := by
  unfold stashPartial
  split
  · exact ⟨q.partials, rfl⟩
  · split
    · exact ⟨q.partials, rfl⟩
    · split
      · split
        · exact ⟨q.partials, rfl⟩
        · exact ⟨_, rfl⟩
      · exact ⟨_, rfl⟩

theorem isEmpty_iff : q.isEmpty = true ↔ q.pending = [] ∧ ∀ i, i ∉ q.claimed := by
  rw [isEmpty, Bool.and_eq_true_iff, List.isEmpty_iff, List.isEmpty_iff]
  refine and_congr_right fun _ => ⟨fun h i hi => ?_, fun h => ?_⟩
  · simp [AList.mem_keys, AList.keys, h] at hi
  · by_contra hne
    obtain ⟨e, he⟩ := exists_mem_of_ne_nil _ hne
    exact h e.1 (AList.mem_keys.2 (mem_keys_of_mem he))

end WorkQueue

/-- **A queue and the workers on it**: what each worker has been handed
so far. -/
structure Workers (W : Type*) where
  queue : WorkQueue
  taken : List (W × PieceWork)

/-- **One call by a worker**, with what it returned. -/
inductive QueueCall (W : Type*)
  | takeFor (w : W) (has : UInt32 → Bool) (r : Take)
  | takePendingFor (w : W) (has : UInt32 → Bool) (r : Option PieceWork)
  | pushBack (w : W) (work : PieceWork)
  | markDone (w : W) (index : UInt32) (first : Bool)
  | stashPartial (w : W) (index : UInt32) (part : PartialPiece)
  | takePartial (w : W) (index : UInt32) (r : Option PartialPiece)
  | noteHave (w : W) (pieceIndex : UInt32)

namespace QueueCall

variable {W : Type*}

/-- The piece a call hands out, with the worker it goes to. -/
def handedOut : QueueCall W → List (W × PieceWork)
  | takeFor w _ (.piece work) => [(w, work)]
  | takePendingFor w _ (some work) => [(w, work)]
  | _ => []

/-- The call was `mark_done` for this piece. -/
def Marks (i : UInt32) : QueueCall W → Prop
  | markDone _ j _ => j = i
  | _ => False

/-- The call was `mark_done` for this piece, and returned true. -/
def marksFirst (i : UInt32) : QueueCall W → Bool
  | markDone _ j first => j == i && first
  | _ => false

/-- **The queue's side of a call.** -/
def Queue (q : WorkQueue) : QueueCall W → WorkQueue → Prop
  | takeFor _ has r, q' => q.takeFor has = (r, q')
  | takePendingFor _ has r, q' => q.takePendingFor has = (r, q')
  | pushBack _ work, q' => q' = q.pushBack work
  | markDone _ index first, q' => q.markDone index = (first, q')
  | stashPartial _ index part, q' => q' = q.stashPartial index part
  | takePartial _ index r, q' => q.takePartial index = (r, q')
  | noteHave _ pieceIndex, q' => q' = q.noteHave pieceIndex

end QueueCall

/-- **The calls the workers make**: any of them at any time, except that
a worker gives back only a piece it was handed. -/
def workers (W : Type*) : LTS (Workers W) (QueueCall W) where
  step s e t :=
    QueueCall.Queue s.queue e t.queue ∧ t.taken = e.handedOut ++ s.taken ∧
      ∀ w work, e = .pushBack w work → (w, work) ∈ s.taken

/-- The start: nothing has been handed out. -/
def Workers.start (W : Type*) (q : WorkQueue) : Workers W := ⟨q, []⟩

/-- Where a piece stands. -/
inductive Place
  | pending
  | claimed
  | done
deriving DecidableEq

/-- A piece stands at a place of the queue. -/
def WorkQueue.At (q : WorkQueue) (i : UInt32) : Place → Prop
  | .pending => i ∈ q.pending.map PieceWork.index
  | .claimed => i ∈ q.claimed
  | .done => i ∈ q.done

/-- **Piece `j` moves to `dest`**, and no other piece moves. -/
def WorkQueue.Moved (q q' : WorkQueue) (j : UInt32) (dest : Place) : Prop :=
  ∀ i pl, q'.At i pl ↔ if i = j then pl = dest else q.At i pl

namespace WorkQueue

variable {q q' : WorkQueue} {work : PieceWork} {rest : List PieceWork}

theorem moved_claim (hnodup : (q.pending.map index).Nodup)
    (hdone : work.index ∉ q.done) (hperm : q.pending.Perm (work :: rest))
    (hp : q'.pending = rest) (hc : q'.claimed = q.claimed.insert work.index work)
    (hd : q'.done = q.done) : q.Moved q' work.index .claimed := by
  have hmap := hperm.map index
  rw [map_cons] at hmap
  have hfresh : work.index ∉ rest.map index := (nodup_cons.1 (hmap.nodup_iff.1 hnodup)).1
  intro i pl
  have hmem : i ∈ q.pending.map index ↔ i = work.index ∨ i ∈ rest.map index := by
    rw [hmap.mem_iff, mem_cons]
  cases pl with
  | pending =>
    simp only [At, hp, hmem]
    split
    · rename_i heq
      subst heq
      simpa using hfresh
    · rename_i hne
      simp [hne]
  | claimed =>
    simp only [At, hc, AList.mem_insert]
    split <;> simp_all
  | done =>
    simp only [At, hd]
    split
    · rename_i heq
      subst heq
      simpa using hdone
    · rfl

theorem moved_pushBack (hdone : work.index ∉ q.done) :
    q.Moved (q.pushBack work) work.index .pending := by
  intro i pl
  rw [pushBack, if_neg hdone]
  cases pl with
  | pending =>
    simp only [At]
    split
    · -- it is pending already, as another copy was given back first
      rename_i hany
      obtain ⟨w, hw, heq⟩ := any_eq_true.1 hany
      have hin : work.index ∈ q.pending.map index := mem_map.2 ⟨w, hw, by simpa using heq⟩
      split <;> simp_all
    · simp only [map_append, map_cons, map_nil, mem_append,
        mem_singleton]
      split <;> simp_all
  | claimed =>
    simp only [At, AList.mem_erase]
    split <;> simp_all
  | done =>
    simp only [At]
    split
    · rename_i heq
      subst heq
      simpa using hdone
    · rfl

theorem moved_markDone (q : WorkQueue) (i : UInt32) : q.Moved (q.markDone i).2 i .done := by
  intro j pl
  cases pl with
  | pending =>
    simp only [At, markDone, mem_map, mem_filter, bne_iff_ne]
    split
    · simp only [reduceCtorEq, iff_false]
      rintro ⟨w, ⟨-, hne⟩, heq⟩
      simp_all
    · constructor
      · rintro ⟨w, ⟨hw, -⟩, heq⟩
        exact ⟨w, hw, heq⟩
      · rintro ⟨w, hw, rfl⟩
        exact ⟨w, ⟨hw, by simpa⟩, rfl⟩
  | claimed =>
    simp only [At, markDone, AList.mem_erase]
    split <;> simp_all
  | done =>
    simp only [At, markDone, Finset.mem_insert]
    split <;> simp_all

end WorkQueue

namespace Workers

variable {W : Type*} {pieces : List PieceWork} {s t : Workers W}

/-- **The invariant.** What is pending, claimed or in a worker's hands is
one of the pieces, no index is pending twice, and every piece is at one
place. -/
structure Inv (pieces : List PieceWork) (s : Workers W) : Prop where
  pending_mem : ∀ w ∈ s.queue.pending, w ∈ pieces
  claimed_mem : ∀ i w, s.queue.claimed.lookup i = some w → w.index = i ∧ w ∈ pieces
  taken_mem : ∀ p ∈ s.taken, p.2 ∈ pieces
  pending_nodup : (s.queue.pending.map PieceWork.index).Nodup
  somewhere : ∀ w ∈ pieces, ∃ pl, s.queue.At w.index pl
  once : ∀ i pl pl', s.queue.At i pl → s.queue.At i pl' → pl = pl'

theorem inv_start (hd : (pieces.map index).Nodup) (total : ℕ) (order : Order)
    (preferred : Finset UInt32) : Inv pieces (start W (.new pieces total order preferred)) where
  pending_mem := fun w hw => hw
  claimed_mem := by simp [start, new]
  taken_mem := by simp [start]
  pending_nodup := hd
  somewhere := fun w hw => ⟨.pending, mem_map_of_mem hw⟩
  once := by
    have hplace : ∀ i pl, (start W (.new pieces total order preferred)).queue.At i pl →
        pl = .pending := by
      intro i pl h
      cases pl with
      | pending => rfl
      | claimed => exact absurd h (AList.notMem_empty i)
      | done => exact absurd h (Finset.notMem_empty i)
    intro i pl pl' h h'
    rw [hplace i pl h, hplace i pl' h']

variable {q : WorkQueue}

theorem places_of_moved (h : Inv pieces s) {j : UInt32} {dest : Place}
    (hm : s.queue.Moved q j dest) :
    (∀ w ∈ pieces, ∃ pl, q.At w.index pl) ∧ ∀ i pl pl', q.At i pl → q.At i pl' → pl = pl' := by
  constructor
  · intro w hw
    by_cases hj : w.index = j
    · exact ⟨dest, (hm _ _).2 (by rw [if_pos hj])⟩
    · obtain ⟨pl, hpl⟩ := h.somewhere w hw
      exact ⟨pl, (hm _ _).2 (by rwa [if_neg hj])⟩
  · intro i pl pl' hpl hpl'
    rw [hm] at hpl hpl'
    by_cases hj : i = j
    · rw [if_pos hj] at hpl hpl'
      rw [hpl, hpl']
    · rw [if_neg hj] at hpl hpl'
      exact h.once i pl pl' hpl hpl'

/-- Every piece stays where it is, and what is handed out is claimed. -/
def Stays (s : Workers W) (e : QueueCall W) (t : Workers W) : Prop :=
  t.queue.pending = s.queue.pending ∧ t.queue.claimed = s.queue.claimed ∧
    t.queue.done = s.queue.done ∧ (∀ i, ¬ e.Marks i) ∧
    ∀ p ∈ e.handedOut, ∃ i, s.queue.claimed.lookup i = some p.2

/-- A pending piece is handed out and claimed. -/
def Claims (s : Workers W) (e : QueueCall W) (t : Workers W) : Prop :=
  ∃ w work, e.handedOut = [(w, work)] ∧ s.queue.pending.Perm (work :: t.queue.pending) ∧
    t.queue.claimed = s.queue.claimed.insert work.index work ∧
    t.queue.done = s.queue.done ∧ ∀ i, ¬ e.Marks i

variable {e : QueueCall W}

theorem stays_or_claims_of_take {w : W} {has : UInt32 → Bool}
    {r : Take} (h : s.queue.take has dup = (r, t.queue)) (hmarks : ∀ i, ¬ e.Marks i)
    (hpiece : ∀ work, r = .piece work → e.handedOut = [(w, work)])
    (hnone : (∀ work, r ≠ .piece work) → e.handedOut = []) : Stays s e t ∨ Claims s e t := by
  rcases take_cases h with
    ⟨work, rest, rfl, -, hperm, heq⟩ | ⟨heq, work, i, rfl, -, -, -, hi⟩ | ⟨heq, rfl⟩
  · refine .inr ⟨w, work, hpiece work rfl, ?_, ?_, ?_, hmarks⟩ <;> rw [heq]
    exact hperm
  · refine .inl ⟨by rw [heq], by rw [heq], by rw [heq], hmarks, ?_⟩
    intro p hp
    rw [hpiece work rfl, mem_singleton] at hp
    subst hp
    exact ⟨i, hi⟩
  · refine .inl ⟨by rw [heq], by rw [heq], by rw [heq], hmarks, ?_⟩
    have hno : ∀ work, s.queue.nothing ≠ .piece work := by
      intro work
      simp only [nothing]
      split <;> simp
    simp [hnone hno]

theorem call_cases (h : (workers W).step s e t) : Stays s e t ∨ Claims s e t ∨
    (∃ w work, e = .pushBack w work ∧ (w, work) ∈ s.taken ∧ work.index ∉ s.queue.done ∧
      t.queue = s.queue.pushBack work) ∨
    (∃ w i, e = .markDone w i (decide (i ∉ s.queue.done)) ∧ t.queue = (s.queue.markDone i).2) := by
  obtain ⟨hq, -, hback⟩ := h
  cases e with
  | takeFor w has r =>
    have := stays_or_claims_of_take (e := .takeFor w has r) (w := w) hq (fun _ h => h)
      (fun work hr => by rw [hr]; rfl) (fun hr => by cases r <;> simp_all [QueueCall.handedOut])
    tauto
  | takePendingFor w has r =>
    obtain ⟨r', htake, hiff⟩ := takePendingFor_eq hq
    have := stays_or_claims_of_take (e := .takePendingFor w has r) (w := w) htake (fun _ h => h)
      (fun work hr => by rw [(hiff work).2 hr]; rfl)
      (fun hr => by
        cases r with
        | none => rfl
        | some work => exact absurd ((hiff work).1 rfl) (hr work))
    tauto
  | pushBack w work =>
    by_cases hdone : work.index ∈ s.queue.done
    · -- finished by another worker in the meantime
      have heq : t.queue = s.queue := by
        rw [show t.queue = s.queue.pushBack work from hq, pushBack, if_pos hdone]
      exact .inl ⟨by rw [heq], by rw [heq], by rw [heq], fun _ h => h,
        by simp [QueueCall.handedOut]⟩
    · exact .inr (.inr (.inl ⟨w, work, rfl, hback w work rfl, hdone, hq⟩))
  | markDone w i first =>
    obtain ⟨rfl, heq⟩ := Prod.mk.inj (show (_, _) = (first, t.queue) from hq)
    exact .inr (.inr (.inr ⟨w, i, rfl, heq.symm⟩))
  | stashPartial w i part =>
    obtain ⟨kept, hkept⟩ := stashPartial_eq s.queue i part
    have heq : t.queue = { s.queue with partials := kept } := hkept ▸ hq
    exact .inl ⟨by rw [heq], by rw [heq], by rw [heq], fun _ h => h, by simp [QueueCall.handedOut]⟩
  | takePartial w i r =>
    obtain ⟨-, heq⟩ := Prod.mk.inj (show (_, _) = (r, t.queue) from hq)
    exact .inl ⟨by rw [← heq], by rw [← heq], by rw [← heq], fun _ h => h,
      by simp [QueueCall.handedOut]⟩
  | noteHave w i =>
    have heq : t.queue = s.queue.noteHave i := hq
    exact .inl ⟨by rw [heq]; rfl, by rw [heq]; rfl, by rw [heq]; rfl, fun _ h => h,
      by simp [QueueCall.handedOut]⟩

theorem mem_done_iff (hstep : (workers W).step s e t) (i : UInt32) :
    i ∈ t.queue.done ↔ i ∈ s.queue.done ∨ e.Marks i := by
  rcases call_cases hstep with ⟨-, -, hd, hm, -⟩ | ⟨w, work, -, -, -, hd, hm⟩ |
    ⟨w, work, rfl, -, hdone, hq⟩ | ⟨w, j, rfl, hq⟩
  · simp [hd, hm i]
  · simp [hd, hm i]
  · simp [hq, pushBack, hdone, QueueCall.Marks]
  · simp only [hq, markDone, Finset.mem_insert, QueueCall.Marks]
    rw [or_comm, eq_comm]

theorem marksFirst_iff (hstep : (workers W).step s e t) (i : UInt32) :
    e.marksFirst i = true ↔ e.Marks i ∧ i ∉ s.queue.done := by
  cases e with
  | markDone w j first =>
    obtain ⟨rfl, -⟩ := Prod.mk.inj (show (_, _) = (first, t.queue) from hstep.1)
    simp only [QueueCall.marksFirst, QueueCall.Marks, Bool.and_eq_true, beq_iff_eq,
      decide_eq_true_eq]
    refine and_congr_right fun h => ?_
    rw [h]
  | _ => simp [QueueCall.marksFirst, QueueCall.Marks]

section

variable (h : Inv pieces s)

include h

theorem handedOut_spec (hstep : (workers W).step s e t) :
    ∀ p ∈ e.handedOut, p.2 ∈ pieces ∧ p.2.index ∉ s.queue.done := by
  intro p hp
  rcases call_cases hstep with ⟨-, -, -, -, hdup⟩ | ⟨w, work, hout, hperm, -⟩ |
    ⟨w, work, rfl, -⟩ | ⟨w, i, rfl, -⟩
  · -- a copy of a claimed piece
    obtain ⟨i, hi⟩ := hdup p hp
    obtain ⟨rfl, hmem⟩ := h.claimed_mem i p.2 hi
    refine ⟨hmem, fun hdone => ?_⟩
    have hin : p.2.index ∈ s.queue.claimed := AList.lookup_isSome.1 (by rw [hi]; rfl)
    have := h.once p.2.index .claimed .done hin hdone
    cases this
  · rw [hout, mem_singleton] at hp
    subst hp
    have hin : work ∈ s.queue.pending := hperm.mem_iff.2 (by simp)
    refine ⟨h.pending_mem work hin, fun hdone => ?_⟩
    have := h.once work.index .pending .done (mem_map_of_mem hin) hdone
    cases this
  · simp [QueueCall.handedOut] at hp
  · simp [QueueCall.handedOut] at hp

theorem Inv.claimed_mem_erase {j i : UInt32} {w : PieceWork}
    (hi : (s.queue.claimed.erase j).lookup i = some w) : w.index = i ∧ w ∈ pieces := by
  by_cases hne : i = j
  · subst hne
    rw [AList.lookup_erase] at hi
    cases hi
  · rw [AList.lookup_erase_ne hne] at hi
    exact h.claimed_mem i w hi

section

variable (htaken : ∀ p ∈ t.taken, p.2 ∈ pieces)

include htaken

theorem Inv.of_stays (hstays : Stays s e t) : Inv pieces t := by
  obtain ⟨hp, hc, hd, -, -⟩ := hstays
  have hat : ∀ i pl, t.queue.At i pl ↔ s.queue.At i pl := by
    intro i pl
    cases pl <;> simp only [WorkQueue.At, hp, hc, hd]
  refine ⟨by rw [hp]; exact h.pending_mem, by rw [hc]; exact h.claimed_mem, htaken,
    by rw [hp]; exact h.pending_nodup, ?_, ?_⟩
  · intro w hw
    obtain ⟨pl, hpl⟩ := h.somewhere w hw
    exact ⟨pl, (hat _ _).2 hpl⟩
  · intro i pl pl' hpl hpl'
    exact h.once i pl pl' ((hat _ _).1 hpl) ((hat _ _).1 hpl')

theorem Inv.of_claims (hclaims : Claims s e t) : Inv pieces t := by
  obtain ⟨w, work, -, hperm, hc, hd, -⟩ := hclaims
  have hin : work ∈ s.queue.pending := hperm.mem_iff.2 (by simp)
  have hnot : work.index ∉ s.queue.done := by
    intro hdone
    have := h.once work.index .pending .done (mem_map_of_mem hin) hdone
    cases this
  obtain ⟨hsome, honce⟩ := places_of_moved h (moved_claim h.pending_nodup hnot hperm rfl hc hd)
  refine ⟨?_, ?_, htaken, ?_, hsome, honce⟩
  · exact fun w hw => h.pending_mem w (hperm.mem_iff.2 (by simp [hw]))
  · intro i w hi
    rw [hc] at hi
    by_cases hne : i = work.index
    · subst hne
      rw [AList.lookup_insert] at hi
      cases hi
      exact ⟨rfl, h.pending_mem _ hin⟩
    · rw [AList.lookup_insert_ne hne] at hi
      exact h.claimed_mem i w hi
  · have := (hperm.map index).nodup_iff.1 h.pending_nodup
    rw [map_cons] at this
    exact (nodup_cons.1 this).2

theorem Inv.of_pushBack (hwork : work ∈ pieces)
    (hdone : work.index ∉ s.queue.done) (hq : t.queue = s.queue.pushBack work) : Inv pieces t := by
  obtain ⟨hsome, honce⟩ := places_of_moved h (moved_pushBack hdone)
  rw [← hq] at hsome honce
  rw [pushBack, if_neg hdone] at hq
  refine ⟨?_, ?_, htaken, ?_, hsome, honce⟩
  · intro w hw
    simp only [hq] at hw
    split at hw
    · exact h.pending_mem w hw
    · exact forall_mem_append.2 ⟨h.pending_mem, forall_mem_singleton.2 hwork⟩ w hw
  · intro i w hi
    simp only [hq] at hi
    exact h.claimed_mem_erase hi
  · simp only [hq]
    split
    · exact h.pending_nodup
    · rename_i hany
      rw [map_append, map_singleton, nodup_append]
      refine ⟨h.pending_nodup, nodup_singleton _, ?_⟩
      intro i hi j hj heq
      rw [mem_singleton] at hj
      obtain ⟨w, hw, rfl⟩ := mem_map.1 hi
      exact hany (any_eq_true.2 ⟨w, hw, by simp [heq, hj]⟩)

theorem Inv.of_markDone {i : UInt32} (hq : t.queue = (s.queue.markDone i).2) : Inv pieces t := by
  obtain ⟨hsome, honce⟩ := places_of_moved h (moved_markDone s.queue i)
  rw [← hq] at hsome honce
  refine ⟨?_, ?_, htaken, ?_, hsome, honce⟩
  · intro w hw
    rw [hq] at hw
    exact h.pending_mem w (mem_filter.1 hw).1
  · intro j w hj
    rw [hq] at hj
    exact h.claimed_mem_erase hj
  · rw [hq]
    exact h.pending_nodup.sublist ((filter_sublist).map index)

end

theorem inv_step (hstep : (workers W).step s e t) : Inv pieces t := by
  have htaken : ∀ p ∈ t.taken, p.2 ∈ pieces := by
    intro p hp
    rw [hstep.2.1, mem_append] at hp
    rcases hp with hp | hp
    · exact (handedOut_spec h hstep p hp).1
    · exact h.taken_mem p hp
  rcases call_cases hstep with hstays | hclaims | ⟨w, work, -, hwork, hdone, hq⟩ | ⟨w, i, -, hq⟩
  · exact h.of_stays htaken hstays
  · exact h.of_claims htaken hclaims
  · exact h.of_pushBack htaken (h.taken_mem _ hwork) hdone hq
  · exact h.of_markDone htaken hq

theorem done_stays {fs : List (QueueCall W)} (hrun : (workers W).Run s fs t) {i : UInt32}
    (hi : i ∈ s.queue.done) : i ∈ t.queue.done ∧ ∀ e ∈ fs, ∀ p ∈ e.handedOut, p.2.index ≠ i := by
  suffices hall : Inv pieces t ∧ i ∈ t.queue.done ∧ ∀ e ∈ fs, ∀ p ∈ e.handedOut, p.2.index ≠ i
    from hall.2
  refine hrun.history (I := fun fs t => Inv pieces t ∧ i ∈ t.queue.done ∧
    ∀ e ∈ fs, ∀ p ∈ e.handedOut, p.2.index ≠ i) ?_ ⟨h, hi, by simp⟩
  rintro fs s e t ⟨hinv, hdone, hout⟩ hstep
  refine ⟨inv_step hinv hstep, (mem_done_iff hstep i).2 (.inl hdone), ?_⟩
  intro e' he' p hp
  rcases mem_append.1 he' with he' | he'
  · exact hout e' he' p hp
  · obtain rfl := mem_singleton.1 he'
    rintro rfl
    exact (handedOut_spec hinv hstep p hp).2 hdone

end

theorem marksFirst_count (hq : q.done = ∅) {es : List (QueueCall W)}
    (hrun : (workers W).Run (start W q) es s) (i : UInt32) :
    (i ∈ s.queue.done ↔ ∃ e ∈ es, e.Marks i) ∧
      es.countP (QueueCall.marksFirst i) = if i ∈ s.queue.done then 1 else 0 := by
  refine hrun.history (I := fun es s => (i ∈ s.queue.done ↔ ∃ e ∈ es, e.Marks i) ∧
    es.countP (QueueCall.marksFirst i) = if i ∈ s.queue.done then 1 else 0) ?_ ?_
  · rintro es s e t ⟨hiff, hcount⟩ hstep
    have hdone := mem_done_iff hstep i
    have hfirst := marksFirst_iff hstep i
    refine ⟨?_, ?_⟩
    · rw [hdone, hiff]
      simp [or_and_right, exists_or]
    · rw [countP_append, hcount, countP_singleton]
      -- the call adds one exactly when it makes the piece done
      by_cases h₁ : i ∈ s.queue.done <;> by_cases h₂ : e.Marks i <;> simp_all
  · simp [start, hq]

/-- **The queue under its workers.** At every moment of every run, from
pieces with distinct indices: every piece is at one place, no index is
pending twice, a done piece stays done and is never handed out again,
`mark_done` returns true once for each index it is called with, and the
queue is empty exactly when every piece is done. -/
theorem queue_run (W : Type*) (pieces : List PieceWork) (total : ℕ) (order : Order)
    (preferred : Finset UInt32) (hd : (pieces.map PieceWork.index).Nodup)
    (es : List (QueueCall W)) (s : Workers W)
    (hrun : (workers W).Run (start W (.new pieces total order preferred)) es s) :
    (∀ w ∈ pieces, ∃! pl, s.queue.At w.index pl) ∧
      (∀ w ∈ s.queue.pending, w ∈ pieces) ∧
      (∀ i w, s.queue.claimed.lookup i = some w → w.index = i ∧ w ∈ pieces) ∧
      (s.queue.pending.map PieceWork.index).Nodup ∧
      (∀ i ∈ s.queue.done, ∀ fs t, (workers W).Run s fs t →
        i ∈ t.queue.done ∧ ∀ e ∈ fs, ∀ p ∈ e.handedOut, p.2.index ≠ i) ∧
      (∀ i, es.countP (QueueCall.marksFirst i) ≤ 1 ∧
        (es.countP (QueueCall.marksFirst i) = 1 ↔ ∃ e ∈ es, e.Marks i)) ∧
      (s.queue.isEmpty = true ↔ ∀ w ∈ pieces, w.index ∈ s.queue.done) := by
  have hinv : Inv pieces s :=
    hrun.invariant (fun _ _ _ h hstep => inv_step h hstep) (inv_start hd total order preferred)
  refine ⟨?_, hinv.pending_mem, hinv.claimed_mem, hinv.pending_nodup, ?_, ?_, ?_⟩
  · intro w hw
    obtain ⟨pl, hpl⟩ := hinv.somewhere w hw
    exact ⟨pl, hpl, fun pl' hpl' => hinv.once _ _ _ hpl' hpl⟩
  · exact fun i hi fs t hfs => done_stays hinv hfs hi
  · intro i
    obtain ⟨hiff, hcount⟩ := marksFirst_count rfl hrun i
    rw [hcount, ← hiff]
    split <;> simp_all
  · rw [WorkQueue.isEmpty_iff]
    constructor
    · rintro ⟨hp, hc⟩ w hw
      obtain ⟨pl, hpl⟩ := hinv.somewhere w hw
      cases pl with
      | pending => simp [WorkQueue.At, hp] at hpl
      | claimed => exact absurd hpl (hc _)
      | done => exact hpl
    · intro h
      constructor
      · rw [eq_nil_iff_forall_not_mem]
        intro w hw
        have := hinv.once w.index .pending .done (mem_map_of_mem hw)
          (h w (hinv.pending_mem w hw))
        cases this
      · intro i hi
        obtain ⟨w, hw⟩ := Option.isSome_iff_exists.1 (AList.lookup_isSome.2 hi)
        obtain ⟨rfl, hmem⟩ := hinv.claimed_mem i w hw
        have := hinv.once w.index .claimed .done hi (h w hmem)
        cases this

/-- `queue_run` for a piece that two workers fetch in endgame: the first
gives up, the second finishes it, and the first gives it up again. -/
theorem queue_run_sample :
    ∃ s, (workers Bool).Run (start Bool (.new [.sample 3] 1 .rarestFirst ∅))
        [.takeFor true (fun _ => true) (.piece (.sample 3)),
          .takeFor false (fun _ => true) (.piece (.sample 3)),
          .pushBack true (.sample 3), .markDone false 0 true, .pushBack true (.sample 3)] s ∧
      s.queue.isEmpty = true := by
  let w : PieceWork := .sample 3
  let all : List (Bool × PieceWork) := [(false, w), (true, w)]
  let q₀ := WorkQueue.new [w] 1 .rarestFirst ∅
  let q₁ := (q₀.takeFor fun _ => true).2
  let q₂ := (q₁.takeFor fun _ => true).2
  let q₃ := q₂.pushBack w
  let q₄ := (q₃.markDone 0).2
  have h₁ : (workers Bool).step ⟨q₀, []⟩ (.takeFor true (fun _ => true) (.piece w))
      ⟨q₁, [(true, w)]⟩ := ⟨rfl, rfl, by simp⟩
  have h₂ : (workers Bool).step ⟨q₁, [(true, w)]⟩ (.takeFor false (fun _ => true) (.piece w))
      ⟨q₂, all⟩ := ⟨rfl, rfl, by simp⟩
  have h₃ : (workers Bool).step ⟨q₂, all⟩ (.pushBack true w) ⟨q₃, all⟩ := ⟨rfl, rfl, by simp [all]⟩
  have h₄ : (workers Bool).step ⟨q₃, all⟩ (.markDone false 0 true) ⟨q₄, all⟩ :=
    ⟨rfl, rfl, by simp⟩
  have h₅ : (workers Bool).step ⟨q₄, all⟩ (.pushBack true w) ⟨q₄.pushBack w, all⟩ :=
    ⟨rfl, rfl, by simp [all]⟩
  have hrun := ((((LTS.Run.nil.snoc h₁).snoc h₂).snoc h₃).snoc h₄).snoc h₅
  exact ⟨_, hrun, (queue_run Bool [w] 1 .rarestFirst ∅ (by simp) _ _ hrun).2.2.2.2.2.2.2
    (by decide)⟩

end Workers

end BitTorrent
