import BitTorrent.Utp.Ends

/-!
# From the initiator to the acceptor

The bytes the acceptor has read are the first of those the initiator's `write` took, whatever the
network loses, repeats and puts out of order, and whatever is asked of the two ends in between.
-/

namespace BitTorrent.Utp

open Streams Circular List Option Connection End

variable {F : Type} [F64 F] {base k r : ℕ} {log new : List Item} {has : ℕ → Prop} {e : End F}
  {s t : Link F} {w : Wire} {event : LinkEvent} (initialSeq : UInt16)

theorem firstNumber_pos : 0 < firstNumber initialSeq := by
  unfold firstNumber
  omega

theorem eq_ofNat_firstNumber : initialSeq = .ofNat (firstNumber initialSeq) :=
  (ofNat_turn_add_toNat initialSeq).symm

variable (now : ℕ) (recvId : UInt16)

theorem sender_connectFrom :
    Sender (firstNumber initialSeq) [⟨.syn, []⟩] 0 has []
      (connectFrom (F := F) now recvId initialSeq).streams.toSending := by
  have hfirst := eq_ofNat_firstNumber initialSeq
  refine ⟨?_, ?_, Nat.zero_le _, ?_, rfl, by simp, ?_, ?_, fun _ => ⟨rfl, rfl⟩, ?_⟩
  · change initialSeq + 1 = _
    rw [hfirst, ofNat_add_one, ← hfirst]
    rfl
  · change [(initialSeq, _)] = [(UInt16.ofNat (firstNumber initialSeq), _)]
    rw [← hfirst]
    rfl
  · intro j x hx hsacked
    rw [mem_singleton.1 (mem_of_getElem? hx)] at hsacked
    contradiction
  · exact fun hsent => by contradiction
  · intro i x hx hfin
    rw [mem_singleton.1 (mem_of_getElem? hx)] at hfin
    contradiction
  · intro p hp
    obtain rfl := mem_singleton.1 hp
    exact ⟨0, le_rfl, Nat.zero_le _, hfirst, .inr rfl⟩

theorem sends_initiator :
    Sends (firstNumber initialSeq) [⟨.syn, []⟩] 0 has (initiator (F := F) now recvId initialSeq).1
      (initiator (F := F) now recvId initialSeq).2 :=
  Sends.start rfl (sender_connectFrom initialSeq now recvId) (show 1 < halfCircle by decide)

theorem receives_acceptor {p : Packet} (hbase : 0 < base) (now : ℕ) (initialSeq : UInt16)
    (hw : w.seq = base) (hp : p.seqNr = .ofNat base) :
    Receives base [⟨.syn, []⟩] 1 (acceptor (F := F) now w p initialSeq).1
      (acceptor (F := F) now w p initialSeq).2 := by
  have hfresh : (accept (F := F) now p initialSeq).streams.toReceiving.Fresh := ⟨rfl, rfl, rfl, rfl⟩
  refine Receives.start (e := ⟨_, _, _, _, _, _⟩) hbase (by rw [hw]; rfl)
    (hfresh.receiver hp le_rfl rfl) ⟨?_, ?_⟩ ?_
  · exact fun x hx => by contradiction
  · intro q hq
    obtain rfl := mem_singleton.1 hq
    exact ⟨by simp [packetOf, header], rfl, .inr rfl⟩
  · simp [accept, sendState, queue, new]

/-- **What holds of what the initiator sends**: `log` is what it has put in
flight, `k` of it has left the flight, and what has is received. Until
there is an acceptor, there is only the request. -/
structure Forward (base : ℕ) (log : List Item) (k : ℕ) (s : Link F) : Prop where
  sends : Sends base log k (fun _ => True) s.a s.toB
  receives : ∀ e, s.b = some e → ∃ r, k ≤ r ∧ Receives base log r e s.toA
  waiting : s.b = none → log = [⟨.syn, []⟩] ∧ s.a.conn.state ≠ .opened ∧ s.toA = []

theorem forward_start : Forward (firstNumber initialSeq) [⟨.syn, []⟩] 0
      (Link.start (F := F) now recvId initialSeq) where
  sends := sends_initiator initialSeq now recvId
  receives e he := by contradiction
  waiting _ := ⟨rfl, by simp [Link.start, initiator, settle, connectFrom,
    sendSyn, queue, new, takeOutgoing], rfl⟩

variable {written : List UInt8}

theorem Sender.finLast {s : Sending} (h : Sender base log k has written s) : FinLast log :=
  fun i x hx hfin => (h.fin i x hx hfin).2

theorem Sender.kind_ne_reset {s : Sending} {p : Packet} {i : ℕ}
    (h : Sender base log k has written s)
    (hkind : p.kind = .state ∨ log[i]? = some ⟨p.kind, p.payload⟩) : p.kind ≠ .reset := by
  rcases hkind with hstate | hitem
  · simp [hstate]
  · rcases h.kinds _ (mem_of_getElem? hitem) with hk | hk | hk <;>
      · rw [show p.kind = _ from hk]
        simp

variable {out : List Wire}

omit [F64 F] in
theorem Sends.front (h : Sends base log k has e out) : e.front = base + k := by
  have hlen := h.sender.length_flight
  rw [streams, length_map] at hlen
  have hle := h.sender.le
  rw [End.front, h.sent, hlen]
  omega

theorem deliver_eq (w : Wire) (e : End F) : e.deliver now w = (e, []) ∨
      ∃ p, Packet.decode w.datagram = .ok p ∧ e.deliver now w = e.hear now w p := by
  rw [deliver]
  split
  · exact .inl rfl
  · rename_i p hp
    split
    · exact .inr ⟨p, hp, rfl⟩
    · exact .inl rfl

theorem Sends.deliver_acks {now : ℕ} (h : Sends base log k has e out)
    (hw : Acks base r has w) (hr : r ≤ log.length) (hk : k ≤ r) (htime : e.InTime w)
    (hfew : (e.deliver now w).1.conn.inFlight.length < halfCircle) :
    ∃ new k', k' ≤ r ∧
      Sends base (log ++ new) k' has (e.deliver now w).1 (out ++ (e.deliver now w).2) := by
  rcases deliver_eq now w e with heq | ⟨p, hp, heq⟩
  · rw [heq]
    exact ⟨[], k, hk, by simpa using h⟩
  · rw [heq] at hfew ⊢
    obtain ⟨q, n, hq, hreset, hack, hseq, hlt, hsack⟩ := hw
    obtain rfl : p = q := by rwa [hp, Except.ok.injEq] at hq
    have hlate : base + k < n + halfCircle := by
      rw [← h.front]
      exact htime.2 n hack
    refine h.hear (Q := (· ≤ r)) hreset hk (fun s t _ _ hopen hdrained hs hacked => ?_) hfew
    obtain ⟨k', hk', hs'⟩ := hs.ackedBy hopen hdrained hseq (by omega) hlate h.few hsack hacked
    exact ⟨k', by omega, hs'⟩

variable {q : Sending}

theorem Receives.deliver_wireOf
    (hbase : 0 < base) (hsender : Sender base log k has written q) (h : Receives base log r e out)
    (hw : WireOf base log w) (hk : k ≤ r) (hfew : log.length < k + halfCircle)
    (htime : e.InTime w) :
    ∃ r', r ≤ r' ∧ (∀ i, Has base r e.conn.streams.toReceiving i →
        Has base r' (e.deliver now w).1.conn.streams.toReceiving i) ∧
      Receives base log r' (e.deliver now w).1 (out ++ (e.deliver now w).2) := by
  rcases deliver_eq now w e with heq | ⟨p, hp, heq⟩
  · rw [heq]
    exact ⟨r, le_rfl, fun i hi => hi, by simpa using h⟩
  · rw [heq]
    obtain ⟨i, hseqw, hi, hseq, hkind⟩ := hw.packet hp
    have hlate := htime.1 _ h.acked
    rw [hseqw] at hlate
    exact h.hear hbase hsender.finLast (hsender.kind_ne_reset hkind) hseq hkind
      (by omega) (by omega)

theorem Forward.step (hbase : 0 < base) (h : Forward base log k s) (hstep : Link.Step s event t)
    (htime : Link.InTime s event t) : ∃ log' k', Forward base log' k' t := by
  cases hstep with
  | atA op =>
    obtain ⟨new, hnew, hs⟩ := h.sends.act op htime.fewA
    refine ⟨log ++ new, k, hs, fun e he => ?_, fun hnone => ?_⟩
    · obtain ⟨r, hk, hr⟩ := h.receives e he
      exact ⟨r, hk, { hr with receiver := hr.receiver.append }⟩
    · obtain ⟨hlog, hopen, hquiet⟩ := h.waiting hnone
      obtain ⟨rfl, hstill⟩ := hnew hopen
      exact ⟨by rw [append_nil, hlog], hstill, hquiet⟩
  | atB op he =>
    obtain ⟨r, hk, hr⟩ := h.receives _ he
    refine ⟨log, k, h.sends, fun e' he' => ?_, fun hnone => by contradiction⟩
    cases he'
    exact ⟨r, hk, hr.act hbase op⟩
  | welcome hw hnone =>
    rename_i now w initialSeq
    obtain ⟨p, i, hp, hseqw, hi, hseq, hkind⟩ := h.sends.wires _ hw
    obtain ⟨rfl, hopen, hquiet⟩ := h.waiting hnone
    by_cases hsyn : p.kind = .syn
    · -- the only request in the log is its first item
      obtain rfl : i = 0 := by
        have hitem := hkind.resolve_left (by simp [hsyn])
        have := (List.getElem?_eq_some_iff.1 hitem).1
        simpa using this
      rw [Link.welcome_eq hp hsyn]
      refine ⟨_, k, h.sends, fun e he => ?_, fun hnone' => by contradiction⟩
      cases he
      refine ⟨1, h.sends.sender.le, ?_⟩
      rw [Link.setB, hquiet, nil_append]
      exact receives_acceptor hbase now initialSeq hseqw hseq
    · have hwelcome : s.welcome now w initialSeq = s := by
        simp only [Link.welcome, hp, if_neg hsyn]
      rw [hwelcome]
      exact ⟨_, k, h⟩
  | toB hw he =>
    obtain ⟨r, hk, hr⟩ := h.receives _ he
    obtain ⟨r', hle, -, hr'⟩ := hr.deliver_wireOf _ hbase h.sends.sender (h.sends.wires _ hw) hk
      h.sends.few (htime.toB _ _ _ _ rfl he)
    refine ⟨log, k, h.sends, fun e' he' => ?_, fun hnone => by contradiction⟩
    cases he'
    exact ⟨r', by omega, hr'⟩
  | toA hw =>
    cases hb : s.b with
    | none =>
      rw [(h.waiting hb).2.2] at hw
      contradiction
    | some e =>
      obtain ⟨r, hk, hr⟩ := h.receives _ hb
      have hacks := (hr.wires _ hw).mono le_rfl fun i _ => trivial
      obtain ⟨new, k', hk', hs⟩ := h.sends.deliver_acks hacks hr.receiver.le hk
        (htime.toA _ _ rfl) htime.fewA
      refine ⟨log ++ new, k', hs, fun e' he' => ?_, fun hnone => ?_⟩
      · obtain rfl : e = e' := some_inj.1 (hb.symm.trans he')
        exact ⟨r, hk', { hr with receiver := hr.receiver.append }⟩
      · exact absurd (hb.symm.trans hnone) (by simp)

variable {got written : List UInt8} {q' : Receiving}

theorem prefix_of_received
    (hs : Sender base log k has written q) (hr : Receiver base log r got q') : got <+: written := by
  rw [← hs.written]
  refine List.IsPrefix.trans ?_ (prefix_append _ _)
  refine ⟨q'.inbox ++ payloads (log.drop r), ?_⟩
  rw [← append_assoc, hr.bytes, ← payloads_append, take_append_drop]

theorem eq_of_closed (hs : Sender base log k has written q) (hr : Receiver base log r got q')
    (hclosed : q'.peerClosed = true) (hempty : q'.inbox = []) : got = written := by
  obtain ⟨i, item, rfl, hitem, hfin⟩ := hr.closed hclosed
  obtain ⟨hsent, hlast⟩ := hs.fin i item hitem hfin
  have hbytes := hr.bytes
  rw [hempty, append_nil, take_of_length_le (by omega)] at hbytes
  rw [← hs.written, (hs.finSent hsent).1, hbytes, append_nil]

/-- **The acceptor reads what the initiator writes.** In every run of the
two ends and the network in which datagrams are in time, the bytes the
acceptor has read are the first of those the initiator's `write` took,
and at the end of the stream they are all of them. -/
theorem acceptor_reads_written (now : ℕ) (recvId initialSeq : UInt16) (events : List LinkEvent)
    (s : Link F) (e : End F)
    (hrun : ((Link.system F).restrict Link.InTime).Run (Link.start now recvId initialSeq) events s)
    (he : s.b = some e) :
    e.got <+: s.a.written ∧ (e.conn.isEof = true → e.got = s.a.written) := by
  obtain ⟨log, k, hforward⟩ := hrun.invariant
    (I := fun s => ∃ log k, Forward (firstNumber initialSeq) log k s)
    (fun s event t hI hstep => by
      obtain ⟨log, k, h⟩ := hI
      exact h.step (firstNumber_pos initialSeq) hstep.1 hstep.2)
    ⟨_, _, forward_start initialSeq now recvId⟩
  obtain ⟨r, -, hr⟩ := hforward.receives e he
  refine ⟨prefix_of_received hforward.sends.sender hr.receiver, fun heof => ?_⟩
  rw [Connection.isEof, Bool.and_eq_true, List.isEmpty_iff] at heof
  exact eq_of_closed hforward.sends.sender hr.receiver heof.1 heof.2

/-- A window that never moves, for runs on fixed inputs. -/
instance unitF64 : F64 Unit where
  ofRat _ := ()
  add _ _ := ()
  sub _ _ := ()
  mul _ _ := ()
  div _ _ := ()
  min _ _ := ()
  max _ _ := ()
  lt _ _ := false
  le _ _ := false
  maxValue := ()
  toUsize _ := 2800

/-- Three bytes and the end of the stream, the FIN before the data. -/
def threeBytes : List (Link Unit → Option LinkEvent) :=
  [fun s => s.toB[0]?.map (.toB 0 · 40000),
   fun s => s.toA[0]?.map (.toA 0),
   fun _ => some (.atA (.write [1, 2, 3])),
   fun _ => some (.atA (.flush 0)),
   fun _ => some (.atA .close),
   fun _ => some (.atA (.flush 0)),
   fun s => s.toB[2]?.map (.toB 0 · 0),
   fun s => s.toB[1]?.map (.toB 0 · 0),
   fun s => s.toB[1]?.map (.toB 0 · 0),
   fun _ => some (.atB (.read 10))]

theorem acceptor_reads_written_sample :
    ∃ events s e, ((Link.system Unit).restrict Link.InTime).Run (Link.start 0 7 65535) events s ∧
      s.b = some e ∧ e.conn.isEof = true ∧ e.got = [1, 2, 3] ∧
      (e.got <+: s.a.written ∧ (e.conn.isEof = true → e.got = s.a.written)) := by
  have hplay : ∃ s ∈ LTS.play (fun s event => (Link.next s event).filter (s.checkTime event))
      (Link.start 0 7 65535) threeBytes, ∃ e ∈ s.b, e.conn.isEof = true ∧ e.got = [1, 2, 3] := by
    decide +kernel
  obtain ⟨s, hplay, e, he, heof, hgot⟩ := hplay
  obtain ⟨events, hrun⟩ := Link.run_of_play hplay
  exact ⟨events, s, e, hrun, he, heof, hgot,
    acceptor_reads_written 0 7 65535 events s e hrun he⟩

end BitTorrent.Utp
