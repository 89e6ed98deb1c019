import BitTorrent.Common.Circle
import BitTorrent.Utp.Calls
import Mathlib.Algebra.Order.Ring.Int

/-!
# The bytes in the network

`cur_window` is added to and subtracted from in six places.
-/

namespace BitTorrent.Utp.Connection

open Circular Utp.Core List Sent

variable {F : Type}

/-- The payload bytes of the packets in flight that are in the network. -/
def bytesInNetwork (flight : List Sent) : ℕ :=
  ((flight.filter Sent.inNetwork).map fun p => p.payload.length).sum

theorem bytesInNetwork_append (flight more : List Sent) :
    bytesInNetwork (flight ++ more) = bytesInNetwork flight + bytesInNetwork more := by
  simp [bytesInNetwork]

theorem bytesInNetwork_cons (p : Sent) (flight : List Sent) : bytesInNetwork (p :: flight) =
      (if p.inNetwork then p.payload.length else 0) + bytesInNetwork flight := by
  cases hin : p.inNetwork <;> simp [bytesInNetwork, hin]

/-- **The counter is right** for what is in flight. -/
structure Counted (flight : List Sent) (curWindow : ℤ) : Prop where
  window : curWindow = bytesInNetwork flight
  apart : ∀ p ∈ flight, p.lost = true → p.sacked = false

namespace Counted

variable {flight before after : List Sent} {curWindow : ℤ} {p : Sent}

theorem le_of_inNetwork (h : Counted (before ++ p :: after) curWindow) (hp : p.inNetwork = true) :
    (p.payload.length : ℤ) ≤ curWindow := by
  rw [h.window, bytesInNetwork_append, bytesInNetwork_cons, if_pos hp]
  omega

theorem change (h : Counted (before ++ p :: after) curWindow) {q : Sent}
    (hlen : q.payload.length = p.payload.length)
    (hapart : q.lost = true → q.sacked = false) :
    Counted (before ++ q :: after)
      (curWindow - (if p.inNetwork then (p.payload.length : ℤ) else 0) +
        (if q.inNetwork then (p.payload.length : ℤ) else 0)) := by
  refine ⟨?_, ?_⟩
  · rw [h.window, bytesInNetwork_append, bytesInNetwork_append, bytesInNetwork_cons,
      bytesInNetwork_cons, hlen]
    split_ifs <;> push_cast <;> omega
  · intro r hr
    rw [mem_append, mem_cons] at hr
    rcases hr with hr | rfl | hr
    · exact h.apart r (by simp [hr])
    · exact hapart
    · exact h.apart r (by simp [hr])

theorem tail (h : Counted (p :: flight) curWindow) :
    Counted flight (if p.inNetwork then curWindow - p.payload.length else curWindow) := by
  refine ⟨?_, fun q hq => h.apart q (mem_cons_of_mem _ hq)⟩
  rw [h.window, bytesInNetwork_cons]
  split_ifs <;> push_cast <;> omega

theorem launch (h : Counted flight curWindow) (now : ℕ) (seq : UInt16) (kind : PacketType)
    (payload : List UInt8) :
    Counted (flight ++ [first now seq kind payload]) (curWindow + payload.length) := by
  refine ⟨?_, ?_⟩
  · rw [h.window, bytesInNetwork_append]
    simp [bytesInNetwork, first, inNetwork]
  · exact forall_mem_append.2 ⟨h.apart, forall_mem_singleton.2 fun hlost => Bool.noConfusion hlost⟩

end Counted

variable {s t : Core}

theorem counted_turn (h : Counted s.inFlight s.curWindow) (hturn : Turn s t) :
    Counted t.inFlight t.curWindow := by
  cases hturn with
  | sends hsends =>
    cases hsends with
    | @lost _ _ p hflight hin =>
      simp only [inNetwork, Bool.and_eq_true, Bool.not_eq_true'] at hin
      rw [hflight] at h
      have hchange := h.change (q := { p with lost := true }) rfl fun _ => hin.1
      simpa [change, inNetwork, hin] using hchange
    | @resent now _ _ p hflight hlost hroom =>
      -- a packet that was presumed lost is in the network again
      have hsacked := h.apart p (by simp [hflight]) hlost
      rw [hflight] at h
      have hchange := h.change
        (q := { p with lost := false, transmissions := p.transmissions + 1, sentAt := now })
        rfl fun hlost => Bool.noConfusion hlost
      simpa [change, inNetwork, hlost, hsacked] using hchange
    | @asked now after p hflight =>
      have hapart := h.apart p (by simp [hflight])
      rw [hflight] at h
      have hfront : Counted ([] ++ p :: after) s.curWindow := h
      have hchange := hfront.change
        (q := { p with transmissions := p.transmissions + 1, sentAt := now }) rfl hapart
      simpa [change, inNetwork] using hchange
    | again hx hp => exact h
    | @data now n _ hopen hne hn hroom hp =>
      have hlaunch := h.launch now s.seqNr .data (s.outbox.take n)
      rwa [length_take, Nat.min_eq_left (by omega)] at hlaunch
    | fin hopen hne hpending hsent hp =>
      simpa [launch, put] using h.launch _ s.seqNr .fin []
    | state | syn | ended => exact h
  | popped hflight =>
    rw [hflight] at h
    exact h.tail
  | @sacked _ _ p hflight =>
    rw [hflight] at h
    have hchange := h.change (q := { p with sacked := true, lost := false }) rfl
      fun hlost => Bool.noConfusion hlost
    have hgone : ({ p with sacked := true, lost := false } : Sent).inNetwork = false := rfl
    rw [hgone, if_neg Bool.false_ne_true, add_zero] at hchange
    have hwindow : (if p.inNetwork then s.curWindow - p.payload.length else s.curWindow) =
        s.curWindow - if p.inNetwork then (p.payload.length : ℤ) else 0 := by
      split_ifs <;> simp
    rw [← hwindow] at hchange
    exact hchange
  | received | opened => exact h
  | reset => exact ⟨rfl, fun p hp => absurd hp not_mem_nil⟩
  | aborts hp => exact h

theorem inFlight_of_owns (h : Owns s t) :
    t.inFlight = s.inFlight ∧ t.curWindow = s.curWindow ∧ t.seqNr = s.seqNr := by
  cases h <;> exact ⟨rfl, rfl, rfl⟩

variable {c : Connection F}

/-- The counter of a connection is right. -/
abbrev FlightCounted (c : Connection F) : Prop := Counted c.inFlight c.curWindow

theorem counted_of_starts [F64 F] (h : c.Starts) : c.FlightCounted := by
  have hnone : Counted [] 0 := ⟨rfl, fun p hp => absurd hp not_mem_nil⟩
  cases h with
  | connect now recvId initialSeq => exact hnone.launch now initialSeq .syn []
  | accept now syn initialSeq => exact hnone

/-- What is in flight has consecutive numbers, up to the next. -/
def Consecutive (s : Core) : Prop := EndsBefore s.seqNr (s.inFlight.map Sent.seq)

theorem consecutive_turn (h : Consecutive s) (hturn : Turn s t) : Consecutive t := by
  have hchange : ∀ {before after : List Sent} {p q : Sent} {n : ℤ},
      s.inFlight = before ++ p :: after → q.seq = p.seq →
      Consecutive (s.change before q after n) := by
    intro before after p q n hflight hq
    rw [Consecutive, hflight] at h
    simpa [Consecutive, change, hq] using h
  have hlaunch : ∀ {now : ℕ} {kind : PacketType} {payload : List UInt8},
      EndsBefore (s.seqNr + 1) ((s.inFlight ++ [first now s.seqNr kind payload]).map seq) := by
    intro now kind payload
    rw [map_append]
    exact h.concat
  cases hturn with
  | sends hsends =>
    cases hsends with
    | lost hflight | resent hflight => exact hchange hflight rfl
    | asked hflight => exact @hchange [] _ _ _ _ hflight rfl
    | again hx hp => exact h
    | data | fin => exact hlaunch
    | state | syn | ended => exact h
  | @popped p rest hflight =>
    rw [Consecutive, hflight] at h
    have hall : EndsBefore s.seqNr ([p.seq] ++ rest.map seq) := h
    exact hall.of_append
  | sacked hflight => exact hchange hflight rfl
  | received | opened => exact h
  | reset => exact EndsBefore.nil
  | aborts hp => exact h

theorem consecutive_of_starts [F64 F] (h : c.Starts) : Consecutive c.core := by
  cases h with
  | connect now recvId initialSeq => exact EndsBefore.nil.concat
  | accept now syn initialSeq => exact EndsBefore.nil

/-- **A subtraction from `cur_window`** that a connection may come to, with
what the counter is before it and what is taken off. -/
inductive Subtracts (now : ℕ) (packet : Packet) (c : Connection F) : ℤ → ℕ → Prop
  /-- A packet that is acknowledged leaves the front. -/
  | popped {gone rest : List Sent} {front : Sent} :
      c.inFlight = gone ++ front :: rest → (∀ p ∈ gone, seqLe p.seq packet.ackNr = true) →
      seqLe front.seq packet.ackNr = true → front.inNetwork = true →
      Subtracts now packet c
        (popAcked now packet.ackNr gone ⟨c.curWindow, c.finAcked, 0, none⟩).2.curWindow
        front.payload.length
  /-- A packet is acknowledged past a hole. -/
  | sacked {before after : List UInt16} {seq : UInt16} {found : List Sent × Tally} {p : Sent} :
      sackedNumbers packet.ackNr packet.sack = before ++ seq :: after →
      found = before.foldl (sackOne now)
        (popAcked now packet.ackNr c.inFlight ⟨c.curWindow, c.finAcked, 0, none⟩) →
      (found.1.find? fun p => p.seq == seq) = some p → p.sacked = false → p.inNetwork = true →
      Subtracts now packet c found.2.curWindow p.payload.length
  /-- The first packet that the peer does not have is presumed lost. -/
  | lostFront {front : Sent} :
      ((c.acknowledged now packet).1.find? fun p => !p.sacked) = some front →
      front.transmissions = 1 → front.lost = false →
      Subtracts now packet c (c.acknowledged now packet).2.curWindow front.payload.length
  /-- A packet is presumed lost after those before it, as the time runs
  out. -/
  | timedOut {before after : List Sent} {p : Sent} :
      c.inFlight = before ++ p :: after → p.inNetwork = true →
      Subtracts now packet c (c.curWindow - bytesInNetwork before) p.payload.length

theorem counted_popped (now : ℕ) {ack : UInt16} {gone rest : List Sent} {tally : Tally}
    (h : Counted (gone ++ rest) tally.curWindow) (hgone : ∀ p ∈ gone, seqLe p.seq ack = true) :
    Counted rest (popAcked now ack gone tally).2.curWindow := by
  induction gone generalizing tally with
  | nil => exact h
  | cons front gone ih =>
    rw [popAcked, if_pos (hgone front (by simp))]
    exact ih h.tail fun p hp => hgone p (by simp [hp])

theorem le_of_subtracts {now n : ℕ} {packet : Packet} {before : ℤ} (h : c.FlightCounted)
    (hsub : Subtracts now packet c before n) : (n : ℤ) ≤ before := by
  have hpop : ∀ {tally}, tally = ⟨c.curWindow, c.finAcked, 0, none⟩ →
      Counted (popAcked now packet.ackNr c.inFlight tally).1
        (popAcked now packet.ackNr c.inFlight tally).2.curWindow := by
    rintro tally rfl
    exact (turns_popAcked now packet.ackNr c.core c.inFlight _).invariant
      (I := fun s => Counted s.inFlight s.curWindow) (fun _ _ => counted_turn) h
  have hsack : ∀ seqs : List UInt16, ∀ {found : List Sent × Tally},
      Counted found.1 found.2.curWindow →
      Counted (seqs.foldl (sackOne now) found).1 (seqs.foldl (sackOne now) found).2.curWindow :=
    fun seqs {found} hfound => (turns_sackAll now c.core seqs found).invariant
      (I := fun s => Counted s.inFlight s.curWindow) (fun _ _ => counted_turn) hfound
  cases hsub with
  | popped heq hgone hfront hin =>
    rw [FlightCounted, heq] at h
    exact Counted.le_of_inNetwork
      (show Counted ([] ++ _ :: _) _ from counted_popped now h hgone) hin
  | @sacked numbers _ _ _ _ hseqs hfound hfind hsacked hin =>
    obtain ⟨first, after, heq, -⟩ := exists_modify_findIdx hfind id
    have hcounted := hsack numbers (hpop rfl)
    rw [← hfound, heq] at hcounted
    exact hcounted.le_of_inNetwork hin
  | lostFront hfind hfirst hlost =>
    obtain ⟨first, after, heq, -⟩ := exists_modify_findIdx hfind id
    have hcounted := hsack (sackedNumbers packet.ackNr packet.sack) (hpop rfl)
    rw [show List.foldl _ _ _ = c.acknowledged now packet from rfl, heq] at hcounted
    have hsacked := find?_some hfind
    exact hcounted.le_of_inNetwork (by simp_all [inNetwork])
  | timedOut heq hin =>
    rw [h.window, heq, bytesInNetwork_append, bytesInNetwork_cons, if_pos hin]
    push_cast
    omega

theorem endsBefore_of_run [F64 F] {c₀ : Connection F} {calls : List Call} (hstart : c₀.Starts)
    (hrun : (calling F).Run c₀ calls c) : EndsBefore c.seqNr (c.inFlight.map seq) := by
  refine core_of_run (I := Consecutive) (fun _ => consecutive_of_starts)
    (fun _ _ => consecutive_turn)
    (fun s t hs hown => ?_) hstart hrun
  obtain ⟨hflight, -, hseq⟩ := inFlight_of_owns hown
  rw [Consecutive, hflight, hseq]
  exact hs

/-- **The bytes in the network are counted right** in every state of a
connection: the counter is the sum over what is in flight, nothing that is
taken off it is more than it is, and what is in flight has consecutive
numbers. -/
theorem curWindow_eq_of_run [F64 F] {c₀ : Connection F} {calls : List Call} (hstart : c₀.Starts)
    (hrun : (calling F).Run c₀ calls c) :
    c.curWindow = bytesInNetwork c.inFlight ∧
      (∀ now packet before n, Subtracts now packet c before n → (n : ℤ) ≤ before) ∧
      EndsBefore c.seqNr (c.inFlight.map Sent.seq) := by
  have hcounted : c.FlightCounted :=
    core_of_run (I := fun s => Counted s.inFlight s.curWindow) (fun _ => counted_of_starts)
      (fun _ _ => counted_turn)
      (fun s t hs hown => by
        obtain ⟨hflight, hwindow, -⟩ := inFlight_of_owns hown
        rwa [hflight, hwindow])
      hstart hrun
  exact ⟨hcounted.window, fun now packet before n => le_of_subtracts hcounted,
    endsBefore_of_run hstart hrun⟩

/-- Two packets are in flight, and the peer is known to have the second. -/
def sackedSecond : List Call :=
  [.packet 0 ⟨.state, 7, 0, 0, 10000, 5, 1, [], []⟩, .write [1, 2, 3], .flush 0, .write [4, 5],
    .flush 0, .packet 0 ⟨.state, 7, 0, 0, 10000, 5, 1, [1], []⟩]

theorem curWindow_eq_of_run_sample :
    ∃ c : Connection ℚ, (calling ℚ).Run (connectFrom 0 7 1) sackedSecond c ∧
      c.inFlight.length = 2 ∧ c.curWindow = 3 ∧ c.curWindow = bytesInNetwork c.inFlight := by
  refine ⟨_, run_foldl _ _, ?_, ?_, ?_⟩
  · decide +kernel
  · decide +kernel
  · exact (curWindow_eq_of_run (.connect 0 7 1) (run_foldl _ _)).1

end BitTorrent.Utp.Connection
