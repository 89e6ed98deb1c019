import BitTorrent.Utp.Flight
import Mathlib.Algebra.Order.BigOperators.Group.List

/-!
# How many packets are in flight

The window limits the bytes in flight and the send buffer all that is queued, but neither limits
packets: a packet goes out with what there is, be it one byte.
-/

namespace BitTorrent.Utp.Connection

open Circular Utp.Core List

variable {F : Type} {c d : Connection F}

/-- The lengths of the packets of data among some. -/
def dataLengths (items : List Item) : List ℕ :=
  (items.filter fun x => x.kind = .data).map fun x => x.payload.length

/-- How many others there are. -/
def others (items : List Item) : ℕ := items.countP fun x => x.kind ≠ .data

/-- The fewest bytes a write takes, if it takes any. -/
def leastWrite : ℕ := 9

/-- **What is in flight after a packet that is not full** comes to
`leastWrite` bytes a packet, also with what is queued as one more. -/
def Spaced (queued : ℕ) (lengths : List ℕ) : Prop :=
  ∀ before x after, lengths = before ++ x :: after → x < maxPayload →
    leastWrite * after.length ≤ after.sum ∧
      (queued = 0 ∨ leastWrite * (after.length + 1) ≤ after.sum + queued)

namespace Spaced

variable {queued n : ℕ} {lengths gone : List ℕ}

theorem nil : Spaced queued [] := fun before x after h => by simp at h

theorem of_append (h : Spaced queued (gone ++ lengths)) : Spaced queued lengths := by
  intro before x after heq hx
  exact h (gone ++ before) x after (by rw [heq, append_assoc]) hx

section

variable (h : Spaced queued lengths)

include h

theorem write (hn : leastWrite ≤ n) : Spaced (queued + n) lengths := by
  intro before x after heq hx
  obtain ⟨hafter, hqueued⟩ := h before x after heq hx
  refine ⟨hafter, .inr ?_⟩
  rw [leastWrite] at *
  omega

theorem send (hqueued : 0 < queued) :
    Spaced (queued - min queued maxPayload) (lengths ++ [min queued maxPayload]) := by
  intro before x after heq hx
  rcases eq_nil_or_concat after with rfl | ⟨after', y, rfl⟩
  · -- the new packet is not full, so nothing is left
    obtain ⟨-, rfl⟩ := append_inj' heq rfl |>.imp_right singleton_inj.1
    refine ⟨Nat.le_refl _, .inl ?_⟩
    omega
  · rw [concat_eq_append] at heq ⊢
    have hsplit : lengths ++ [min queued maxPayload] = (before ++ x :: after') ++ [y] := by
      rw [heq]
      simp
    obtain ⟨hlengths, hy⟩ := append_singleton_inj.1 hsplit
    obtain ⟨hafter, hmore⟩ := h before x after' hlengths hx
    rw [length_append, sum_append, length_singleton, sum_singleton, ← hy]
    have hfull : maxPayload = 1380 := rfl
    rw [leastWrite] at *
    omega

theorem length_le : leastWrite * lengths.length ≤ lengths.sum + leastWrite := by
  induction lengths with
  | nil => simp
  | cons x lengths ih =>
    rw [length_cons, sum_cons]
    by_cases hx : x < maxPayload
    · have hrest := (h [] x lengths rfl hx).1
      rw [leastWrite] at *
      omega
    · have hall : Spaced queued ([x] ++ lengths) := h
      have hrest := ih hall.of_append
      have hfull : maxPayload = 1380 := rfl
      rw [leastWrite] at *
      omega

end

end Spaced

/-- What is queued, what is in flight, and whether the FIN has gone out. -/
structure Load where
  outbox : List UInt8
  items : List Item
  finSent : Bool

/-- The load of a connection. -/
def load (s : Core) : Load where
  outbox := s.outbox
  items := s.inFlight.map fun p => ⟨p.kind, p.payload⟩
  finSent := s.finSent

/-- **A load that comes of writes of nine bytes at least.** -/
structure Packed (l : Load) : Prop where
  spaced : Spaced l.outbox.length (dataLengths l.items)
  total : l.outbox.length + (dataLengths l.items).sum ≤ sendBuffer
  /-- The request to connect, and the FIN. -/
  others : others l.items + (if l.finSent then 0 else 1) ≤ 2

namespace Packed

variable {l : Load} {outbox : List UInt8} {items gone : List Item} {finSent : Bool}

theorem dataLengths_append (items more : List Item) :
    dataLengths (items ++ more) = dataLengths items ++ dataLengths more := by
  simp [dataLengths]

theorem of_append (h : Packed ⟨outbox, gone ++ items, finSent⟩) :
    Packed ⟨outbox, items, finSent⟩ := by
  have htotal := h.total
  have hothers := h.others
  simp only [dataLengths_append, sum_append, Connection.others, countP_append]
    at htotal hothers
  refine ⟨?_, ?_, ?_⟩
  · have hall := h.spaced
    rw [dataLengths_append] at hall
    exact hall.of_append
  · show outbox.length + (dataLengths items).sum ≤ sendBuffer
    omega
  · show Connection.others items + (if finSent then 0 else 1) ≤ 2
    rw [Connection.others]
    omega

theorem send (h : Packed ⟨outbox, items, finSent⟩) (hne : outbox ≠ []) :
    Packed ⟨outbox.drop (min outbox.length maxPayload),
      items ++ [⟨.data, outbox.take (min outbox.length maxPayload)⟩], finSent⟩ := by
  have hlen : (outbox.take (min outbox.length maxPayload)).length =
      min outbox.length maxPayload := by
    rw [length_take]
    omega
  have hdata : dataLengths (items ++ [⟨.data, outbox.take (min outbox.length maxPayload)⟩]) =
      dataLengths items ++ [min outbox.length maxPayload] := by
    rw [dataLengths_append]
    simp [dataLengths, hlen]
  have htotal := h.total
  simp only at htotal
  refine ⟨?_, ?_, ?_⟩
  · simp only [hdata, length_drop]
    exact h.spaced.send (length_pos_iff.2 hne)
  · simp only [hdata, length_drop, sum_append, sum_singleton]
    omega
  · have hothers := h.others
    simpa [Connection.others] using hothers

theorem fin (h : Packed ⟨outbox, items, false⟩) : Packed ⟨outbox, items ++ [⟨.fin, []⟩], true⟩ := by
  have hdata : dataLengths (items ++ [⟨.fin, []⟩]) = dataLengths items := by
    rw [dataLengths_append]
    simp [dataLengths]
  refine ⟨?_, ?_, ?_⟩
  · simp only [hdata]
    exact h.spaced
  · simp only [hdata]
    exact h.total
  · have hothers := h.others
    simpa [Connection.others] using hothers

theorem length_lt (h : Packed l) : l.items.length < 2 ^ 15 := by
  have hcount : l.items.length = (dataLengths l.items).length + Connection.others l.items := by
    rw [dataLengths, length_map, ← countP_eq_length_filter, Connection.others,
      length_eq_countP_add_countP (fun x : Item => decide (x.kind = .data))]
    simp
  have hlen := h.spaced.length_le
  have htotal := h.total
  have hothers := h.others
  rw [leastWrite] at hlen
  rw [sendBuffer] at htotal
  omega

end Packed

/-- **A write that is not small**: it takes nothing, or nine bytes at
least. -/
def Careful (c : Connection F) : Call → Prop
  | .write data => data = [] ∨ c.writable = 0 ∨ leastWrite ≤ data.length ∧ leastWrite ≤ c.writable
  | _ => True

instance : (call : Call) → Decidable (c.Careful call)
  | .write data => inferInstanceAs (Decidable (data = [] ∨ c.writable = 0 ∨ _ ∧ _))
  | .read _ => .isTrue trivial
  | .close => .isTrue trivial
  | .abort _ => .isTrue trivial
  | .flush _ => .isTrue trivial
  | .tick _ => .isTrue trivial
  | .packet _ _ => .isTrue trivial
  | .takeOutgoing => .isTrue trivial

theorem packed_write {data : List UInt8} (h : Packed (load c.core))
    (hcareful : c.Careful (.write data)) : Packed (load (c.write data).1.core) := by
  have hqueued : c.outbox.length + (dataLengths (load c.core).items).sum ≤ c.queued := by
    rw [queued, Nat.add_le_add_iff_left]
    have hsub : (dataLengths (load c.core).items).Sublist
        ((load c.core).items.map fun x => x.payload.length) := filter_sublist.map _
    have hall : (load c.core).items.map (fun x => x.payload.length) =
        c.inFlight.map fun p => p.payload.length := by
      simp [load, core, Function.comp_def]
    rw [← hall]
    exact hsub.sum_le_sum fun _ _ => Nat.zero_le _
  simp only [write]
  split
  · exact h
  · rename_i hopen
    simp only [Careful, writable, if_neg hopen] at hcareful
    have hspaced := h.spaced
    have htotal := h.total
    generalize htake : min data.length (sendBuffer - c.queued) = take
    have hlen : (c.outbox ++ data.take take).length = c.outbox.length + take := by
      rw [length_append, length_take]
      omega
    refine ⟨?_, ?_, h.others⟩
    · show Spaced (c.outbox ++ data.take take).length (dataLengths (load c.core).items)
      rw [hlen]
      rcases Nat.eq_zero_or_pos take with rfl | hpos
      · exact hspaced
      · refine hspaced.write ?_
        have hdata : data.length ≠ 0 := by omega
        rcases hcareful with rfl | hzero | ⟨hdata, hroom⟩
        · exact absurd rfl hdata
        · omega
        · omega
    · show (c.outbox ++ data.take take).length + (dataLengths (load c.core).items).sum ≤ sendBuffer
      rw [hlen]
      have : (load c.core).outbox.length = c.outbox.length := rfl
      omega

theorem packed_turn {s t : Core} (h : Packed (load s)) (hturn : Turn s t) : Packed (load t) := by
  have hchange : ∀ {before after : List Sent} {p q : Sent} {n : ℤ},
      s.inFlight = before ++ p :: after → q.kind = p.kind → q.payload = p.payload →
      Packed (load (s.change before q after n)) := by
    intro before after p q n hflight hkind hpayload
    rw [load, hflight] at h
    simpa [load, change, hkind, hpayload] using h
  cases hturn with
  | sends hsends =>
    cases hsends with
    | lost hflight | resent hflight => exact hchange hflight rfl rfl
    | asked hflight => exact @hchange [] _ _ _ _ hflight rfl rfl
    | again hx hp => exact h
    | data hopen hne hn hroom hp =>
      subst hn
      simpa [load, launch, put, Sent.first] using Packed.send h hne
    | fin hopen hne hpending hsent hp =>
      rw [load, hsent] at h
      simpa [load, launch, put, Sent.first] using Packed.fin h
    | state | syn | ended => exact h
  | @popped p rest hflight =>
    rw [load, hflight] at h
    have hall : Packed ⟨s.outbox, [⟨p.kind, p.payload⟩] ++ rest.map fun p => ⟨p.kind, p.payload⟩,
      s.finSent⟩ := h
    exact hall.of_append
  | sacked hflight => exact hchange hflight rfl rfl
  | received | opened => exact h
  | reset =>
    have hall : Packed ⟨s.outbox, (load s).items ++ [], s.finSent⟩ := by
      rw [append_nil]
      exact h
    exact hall.of_append
  | aborts hp => exact h

section

variable [F64 F]

theorem packed_call {call : Call} (h : Packed (load c.core)) (hcareful : c.Careful call) :
    Packed (load (c.call call).core) := by
  cases call with
  | write data => exact packed_write h hcareful
  | read | close => exact h
  | abort now => exact (turns_abort now).invariant (fun _ _ => packed_turn) h
  | flush now => exact (sends_flush now).turns.invariant (fun _ _ => packed_turn) h
  | tick now =>
    obtain ⟨w, hsends⟩ := turns_onTick now (c := c)
    exact hsends.turns.invariant (fun _ _ => packed_turn) h
  | packet now p => exact (turns_onPacket now p).invariant (fun _ _ => packed_turn) h
  | takeOutgoing => exact h

theorem packed_of_starts (h : c.Starts) : Packed (load c.core) := by
  have hsyn : Packed ⟨[], [⟨.syn, []⟩], false⟩ := ⟨.nil, by decide, by decide⟩
  have hnone : Packed ⟨[], [], false⟩ := ⟨.nil, by decide, by decide⟩
  cases h with
  | connect now recvId initialSeq => exact hsyn
  | accept now syn initialSeq => exact hnone

end

theorem seqLe_of_endsBefore {next m n : UInt16} {ns : List UInt16} {i j : ℕ}
    (h : EndsBefore next ns) (hlen : ns.length < 2 ^ 15) (hij : i < j) (hm : ns[i]? = some m)
    (hn : ns[j]? = some n) : seqLe m n = true ∧ seqLe n m = false := by
  have hj : j < ns.length := (List.getElem?_eq_some_iff.1 hn).1
  have hi := congrArg UInt16.toNat (h i m hm)
  have hj' := congrArg UInt16.toNat (h j n hn)
  have := m.toNat_lt
  have := n.toNat_lt
  rw [UInt16.toNat_add, UInt16.toNat_ofNat'] at hi hj'
  simp only [seqLe, decide_eq_true_eq, decide_eq_false_iff_not, UInt16.lt_iff_toNat_lt,
    UInt16.toNat_sub]
  change (65536 - m.toNat + n.toNat) % 65536 < 32768 ∧ ¬(65536 - n.toNat + m.toNat) % 65536 < 32768
  omega

/-- **Fewer than half the circle of packets are in flight**, and so their
numbers are compared right, in every run whose writes take nothing or nine
bytes at least. -/
theorem few_in_flight_of_run [F64 F] {c₀ : Connection F} {calls : List Call} (hstart : c₀.Starts)
    (hrun : ((calling F).restrict fun c call _ => c.Careful call).Run c₀ calls c) :
    c.inFlight.length < 2 ^ 15 ∧
      ∀ (i j : ℕ) (p q : Sent), i < j → c.inFlight[i]? = some p → c.inFlight[j]? = some q →
        seqLe p.seq q.seq = true ∧ seqLe q.seq p.seq = false := by
  have hpacked : Packed (load c.core) := by
    refine hrun.invariant (I := fun c : Connection F => Packed (load c.core))
      (fun c call c' hc hstep => ?_) (packed_of_starts hstart)
    obtain rfl : c' = c.call call := hstep.1
    exact packed_call hc hstep.2
  have hfew : c.inFlight.length < 2 ^ 15 := by
    have hlt := hpacked.length_lt
    rwa [load, length_map] at hlt
  have hnumbers := endsBefore_of_run hstart hrun.of_restrict
  refine ⟨hfew, fun i j p q hij hp hq => ?_⟩
  refine seqLe_of_endsBefore hnumbers (by rwa [length_map]) hij ?_ ?_
  · rw [getElem?_map, hp]
    rfl
  · rw [getElem?_map, hq]
    rfl

/-- Two writes of nine bytes, each sent at once. -/
def nineAndNine : List Call :=
  [.write [1, 2, 3, 4, 5, 6, 7, 8, 9], .flush 0, .write [1, 2, 3, 4, 5, 6, 7, 8, 9], .flush 0]

/-- The connection after a call, if the call is careful. -/
def callCarefully [F64 F] (c : Connection F) (call : Call) : Option (Connection F) :=
  if c.Careful call then some (c.call call) else none

theorem few_in_flight_of_run_sample :
    ∃ c : Connection ℚ,
      ((calling ℚ).restrict fun c call _ => c.Careful call).Run
        (accept 0 ⟨.syn, 7, 0, 0, 10000, 1, 0, [], []⟩ 9) nineAndNine c ∧
      c.inFlight.length = 2 ∧ c.inFlight.length < 2 ^ 15 := by
  have hplay : ∃ c ∈ nineAndNine.foldlM callCarefully
      (accept (F := ℚ) 0 ⟨.syn, 7, 0, 0, 10000, 1, 0, [], []⟩ 9), c.inFlight.length = 2 := by
    decide +kernel
  obtain ⟨c, hc, htwo⟩ := hplay
  have hrun : ((calling ℚ).restrict fun c call _ => c.Careful call).Run
      (accept 0 ⟨.syn, 7, 0, 0, 10000, 1, 0, [], []⟩ 9) nineAndNine c := by
    refine LTS.run_of_foldlM (fun c call c' h => ?_) hc
    rw [callCarefully, Option.ite_none_right_eq_some, Option.some.injEq] at h
    exact ⟨h.2.symm, h.1⟩
  exact ⟨c, hrun, htwo, (few_in_flight_of_run (.accept 0 _ 9) hrun).1⟩

/-- `k` packets of one byte are in flight, and the window lets `room` bytes
go. -/
structure Drips [F64 F] (room k : ℕ) (c : Connection F) : Prop where
  opened : c.state = .opened
  writing : c.finPending = false
  finAcked : c.finAcked = false
  outbox : c.outbox = []
  count : c.inFlight.length = k
  bytes : (c.inFlight.map fun p => p.payload.length).sum = k
  fresh : ∀ p ∈ c.inFlight, p.lost = false
  window : c.curWindow = k
  room : min (F64.toUsize c.maxWindow) c.peerWindow.toNat = room

theorem resendLost_of_fresh (now window : ℕ) {flight : List Sent} (curWindow : ℤ)
    (h : ∀ p ∈ flight, p.lost = false) :
    resendLost now window flight curWindow = (flight, curWindow, []) := by
  induction flight generalizing curWindow with
  | nil => rfl
  | cons p rest ih =>
    have hp := h p mem_cons_self
    simp only [resendLost, hp, Bool.false_eq_true, if_false,
      ih curWindow fun q hq => h q (mem_cons_of_mem _ hq)]

variable {room k : ℕ}

theorem Drips.sendData [F64 F] (h : Drips room k c) :
    Drips room (k + 1) (({ c with outbox := [0] } : Connection F).sendData 0 1) := by
  refine ⟨h.opened, h.writing, h.finAcked, rfl, ?_, ?_, ?_, ?_, h.room⟩
  · simp [Connection.sendData, queue, h.count]
  · simp [Connection.sendData, queue, Sent.first, h.bytes]
  · intro p hp
    simp only [Connection.sendData, queue, mem_append, mem_singleton] at hp
    rcases hp with hp | rfl
    · exact h.fresh p hp
    · rfl
  · simp [Connection.sendData, queue, h.window]

theorem Drips.next [F64 F] (h : Drips room k c) (hroom : k < room)
    (hbuffer : k < sendBuffer) : Drips room (k + 1) ((c.call (.write [0])).call (.flush 0)) := by
  have hwrite : (c.write [0]).1 = { c with outbox := [0] } := by
    have hopen : ¬(c.state = .ended ∨ c.finPending = true) := by simp [h.opened, h.writing]
    have hqueued : c.queued = k := by rw [queued, h.outbox, h.bytes]; simp
    have htake : min [(0 : UInt8)].length (sendBuffer - c.queued) = 1 := by
      rw [hqueued]
      simp only [length_singleton]
      omega
    simp only [write, if_neg hopen, htake, h.outbox]
    rfl
  have hlost : ({ c with outbox := [0] } : Connection F).sendLost 0 room =
      { c with outbox := [0] } := by
    simp only [sendLost, resendLost_of_fresh 0 room c.curWindow h.fresh]
    rfl
  have hsent := h.sendData
  generalize hd : ({ c with outbox := [0] } : Connection F) = d at hwrite hlost hsent
  have hnew : sendNew 0 room d.outbox.length d = d.sendData 0 1 := by
    have hfits : ¬((room : ℤ) < d.curWindow + (1 : ℕ) ∧
        ¬(d.curWindow = 0 ∧ (d.lastDataSent.all fun sent => d.rto ≤ 0 - sent) = true)) := by
      have hwindow : d.curWindow = k := by rw [← hd]; exact h.window
      rw [hwindow]
      omega
    have hbox : d.outbox = [0] := by rw [← hd]
    have hmin : min 1 maxPayload = 1 := by decide
    simp only [hbox, length_singleton, sendNew, hmin, cons_ne_nil, if_false, if_neg hfits]
  have hpending : d.sendPending 0 =
      if (d.sendData 0 1).rtoDeadline.isNone ∧ !(d.sendData 0 1).inFlight.isEmpty then
        { d.sendData 0 1 with rtoDeadline := some (0 + (d.sendData 0 1).rto) }
      else d.sendData 0 1 := by
    have hwindow : min (F64.toUsize d.maxWindow) d.peerWindow.toNat = room := by
      rw [← hd]
      exact h.room
    have hfin : (d.sendData 0 1).sendFin 0 = d.sendData 0 1 := by
      rw [sendFin, if_neg (by simp [hsent.writing])]
    simp only [sendPending, hwindow, hlost, hnew, hfin]
  have hpend : Drips room (k + 1) (d.sendPending 0) ∧ (d.sendPending 0).ackPending = false := by
    have hack : (d.sendData 0 1).ackPending = false := by
      simp [Connection.sendData, queue, PacketType.acknowledges]
    rw [hpending]
    split
    · exact ⟨⟨hsent.opened, hsent.writing, hsent.finAcked, hsent.outbox, hsent.count, hsent.bytes,
        hsent.fresh, hsent.window, hsent.room⟩, hack⟩
    · exact ⟨hsent, hack⟩
  have hopen : d.state = .opened := by
    rw [← hd]
    exact h.opened
  have hflush : d.flush 0 = d.sendPending 0 := by
    simp only [flush, if_pos hopen, finishIfDone, hpend.2, Bool.false_eq_true, false_and, if_false,
      hpend.1.finAcked]
  rw [call, call, hwrite, hflush]
  exact hpend.1

/-- Bytes are written one at a time, each sent at once. -/
def drip (k : ℕ) : List Call := (List.replicate k [.write [0], .flush 0]).flatten

theorem exists_drips [F64 F] (h : Drips room 0 c) (hroom : k ≤ room)
    (hbuffer : k ≤ sendBuffer) : ∃ d, (calling F).Run c (drip k) d ∧ Drips room k d := by
  induction k with
  | zero => exact ⟨c, .nil, h⟩
  | succ k ih =>
    obtain ⟨d, hrun, hd⟩ := ih (by omega) (by omega)
    refine ⟨_, ?_, hd.next (by omega) (by omega)⟩
    have hdrip : drip (k + 1) = drip k ++ [.write [0]] ++ [.flush 0] := by
      simp [drip, replicate_succ']
    rw [hdrip]
    exact (hrun.snoc rfl).snoc rfl

/-- Full packets are sent and acknowledged, two of them, then four, eight
and sixteen, which opens the window. -/
def opensWindow : List Call :=
  let full : List Call := [.write (List.replicate 1380 0), .flush 0]
  let ack (n : UInt16) : List Call := [.packet 0 ⟨.state, 7, 0, 0, 1000000, 9, n, [], []⟩]
  (List.replicate 2 full).flatten ++ ack 2 ++ (List.replicate 4 full).flatten ++ ack 6 ++
    (List.replicate 8 full).flatten ++ ack 14 ++ (List.replicate 16 full).flatten ++ ack 30

/-- A connection that has been asked for, by a peer with a large window. -/
def roomy : Connection ℚ := accept 0 ⟨.syn, 7, 0, 0, 1000000, 1, 0, [], []⟩ 1

/-- **Half the circle of packets, and one more, in flight**: the first and
the last of them are compared wrong. -/
theorem many_in_flight :
    ∃ (c : Connection ℚ) (first last : Sent),
      (calling ℚ).Run roomy (opensWindow ++ drip (2 ^ 15 + 1)) c ∧
      c.inFlight.length = 2 ^ 15 + 1 ∧ c.inFlight[0]? = some first ∧
      c.inFlight[2 ^ 15]? = some last ∧ seqLe first.seq last.seq = false := by
  have hidle : Drips 44200 0 (opensWindow.foldl call roomy) := by
    have hflight : (opensWindow.foldl call roomy).inFlight = [] := by decide +kernel
    refine ⟨?_, ?_, ?_, ?_, ?_, ?_, ?_, ?_, ?_⟩
    · decide +kernel
    · decide +kernel
    · decide +kernel
    · decide +kernel
    · rw [hflight]
      rfl
    · rw [hflight]
      rfl
    · rw [hflight]
      exact fun p hp => absurd hp not_mem_nil
    · decide +kernel
    · decide +kernel
  obtain ⟨c, hrun, hc⟩ := exists_drips (k := 2 ^ 15 + 1) hidle (by decide) (by decide)
  have hall := (run_foldl roomy opensWindow).append hrun
  have hnumbers := endsBefore_of_run (.accept 0 _ 1) hall
  have hlen := hc.count
  obtain ⟨first, hfirst⟩ : ∃ first, c.inFlight[0]? = some first :=
    ⟨_, getElem?_eq_getElem (by omega)⟩
  obtain ⟨last, hlast⟩ : ∃ last, c.inFlight[2 ^ 15]? = some last :=
    ⟨_, getElem?_eq_getElem (by omega)⟩
  refine ⟨c, first, last, hall, hlen, hfirst, hlast, ?_⟩
  have hseqs : (c.inFlight.map Sent.seq).length = 2 ^ 15 + 1 := by rw [length_map, hlen]
  have hone := congrArg UInt16.toNat (hnumbers 0 first.seq (by rw [getElem?_map, hfirst]; rfl))
  have htwo := congrArg UInt16.toNat
    (hnumbers (2 ^ 15) last.seq (by rw [getElem?_map, hlast]; rfl))
  have := first.seq.toNat_lt
  have := last.seq.toNat_lt
  rw [hseqs, UInt16.toNat_add, UInt16.toNat_ofNat'] at hone htwo
  simp only [seqLe, decide_eq_false_iff_not, UInt16.lt_iff_toNat_lt, UInt16.toNat_sub]
  change ¬(65536 - first.seq.toNat + last.seq.toNat) % 65536 < 32768
  omega

end BitTorrent.Utp.Connection
