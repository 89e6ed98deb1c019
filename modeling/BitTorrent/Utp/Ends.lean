import BitTorrent.Utp.Link
import BitTorrent.Utp.Transfer

/-!
# What holds at each end of a link

`Sends` is the sender of a log together with what it has put on the network, and `Receives` a
receiver of one together with what it has put there: the numbers that a datagram carries are the
ones it stands for.
-/

namespace BitTorrent.Utp

open Streams Circular List Option Connection

variable {F : Type} {base k r : ℕ} {log new : List Item} {has : ℕ → Prop} {e : End F}
  {c : Connection F} {out : List Wire} {w : Wire} {p : Packet}

/-- A packet says how far the end has got, and names at most what it holds
past that. -/
structure Streams.Tells (s : Streams) (p : Packet) : Prop where
  kind : p.kind ≠ .reset
  ackNr : p.ackNr = s.ackNr
  sack : p.sack = [] ∨ p.sack = sackMask s.ackNr s.reorder.keys

/-- **What an end says is so**, and it never resets. -/
structure Streams.Honest (s : Streams) : Prop where
  flight : ∀ x ∈ s.flight, x.item.kind ≠ .reset
  outgoing : ∀ p ∈ s.outgoing, s.Tells p

variable {seq : UInt16} {s : Streams} {item : Item}

theorem Streams.Stamps.tells (h : s.Stamps seq item p)
    (hkind : item.kind ≠ .reset) : s.Tells p := by
  refine ⟨by rwa [h.kind], h.ackNr, ?_⟩
  rw [h.sack]
  split
  · exact .inr rfl
  · exact .inl rfl

namespace Streams.Honest

variable {s t : Streams}

theorem put (h : Honest s) (hp : s.Tells p) : Honest (s.put p) where
  flight := h.flight
  outgoing := forall_mem_append.2 ⟨fun q hq => { h.outgoing q hq with },
    forall_mem_singleton.2 { hp with }⟩

theorem launch (h : Honest s) (hkind : item.kind ≠ .reset) : Honest (s.launch item) where
  flight := forall_mem_append.2 ⟨h.flight, forall_mem_singleton.2 hkind⟩
  outgoing q hq := { h.outgoing q hq with }

theorem move (h : Honest s) (hmove : Move s t) : Honest t := by
  -- what does not touch the receiving half leaves what is told as it is
  have hsame : ∀ {q : Sending}, (∀ x ∈ q.flight, x.item.kind ≠ .reset) →
      q.outgoing = s.outgoing → Honest ⟨q, s.toReceiving⟩ := fun hflight hout =>
    ⟨hflight, fun p hp => { h.outgoing p (by rwa [← hout]) with }⟩
  cases hmove with
  | again hx hp => exact h.put (hp.tells (h.flight _ hx))
  | @data n p _ _ hp =>
    have hrest : Honest { s with outbox := s.outbox.drop n } := hsame h.flight rfl
    exact (hrest.launch (by simp)).put { hp.tells (by simp) with }
  | @fin p _ _ _ _ hp =>
    have hrest : Honest { s with finSent := true } := hsame h.flight rfl
    exact (hrest.launch (by simp)).put { hp.tells (by simp) with }
  | state _ _ hp | syn _ hp => exact h.put (hp.tells (by simp))
  | ended _ => exact hsame h.flight rfl

theorem moves (h : Honest s) (hmoves : Moves s t) : Honest t :=
  hmoves.invariant (fun _ _ hu hmove => hu.move hmove) h

theorem of_flight (hdrained : s.outgoing = []) (hflight : ∀ x ∈ s.flight, x.item.kind ≠ .reset) :
    Honest s :=
  ⟨hflight, fun p hp => by rw [hdrained] at hp; contradiction⟩

end Streams.Honest

/-- **A datagram of the log**: the number it carries is that of the item
in it, or of the next item when it was sent. -/
def WireOf (base : ℕ) (log : List Item) (w : Wire) : Prop :=
  ∃ p i, Packet.decode w.datagram = .ok p ∧ w.seq = base + i ∧ i ≤ log.length ∧
    p.seqNr = .ofNat (base + i) ∧ (p.kind = .state ∨ log[i]? = some ⟨p.kind, p.payload⟩)

/-- **The sending end of a direction**: `log` is what it has put in flight,
`k` how much of it has left the flight, `has` what of it the other end
has, and `out` what it has sent. -/
structure Sends (base : ℕ) (log : List Item) (k : ℕ) (has : ℕ → Prop) (e : End F)
    (out : List Wire) : Prop where
  sender : Sender base log k has e.written e.conn.streams.toSending
  drained : e.conn.outgoing = []
  sent : e.sent = base + log.length
  few : log.length < k + halfCircle
  wires : ∀ w ∈ out, WireOf base log w

/-- **A datagram that acknowledges** what of a log is received: at most the
first `r` of it, and past that only what the receiver has. -/
def Acks (base r : ℕ) (has : ℕ → Prop) (w : Wire) : Prop :=
  ∃ p n, Packet.decode w.datagram = .ok p ∧ p.kind ≠ .reset ∧ w.ack = some n ∧
    p.ackNr = .ofNat n ∧ n < base + r ∧
    ∀ seq ∈ sackedNumbers p.ackNr p.sack, ∃ i, seq = .ofNat (base + i) ∧
      n < base + i ∧ base + i < n + halfCircle ∧ has i

/-- **The receiving end of a direction**: the first `r` of `log` is
received in order, and `out` is what it has sent since it knows how the
sender counts. -/
structure Receives (base : ℕ) (log : List Item) (r : ℕ) (e : End F) (out : List Wire) :
    Prop where
  receiver : Receiver base log r e.got e.conn.streams.toReceiving
  drained : e.conn.outgoing = []
  started : e.conn.state ≠ .connecting
  flight : ∀ x ∈ e.conn.streams.flight, x.item.kind ≠ .reset
  acked : e.acked = some (base + r - 1)
  wires : ∀ w ∈ out, Acks base r (Has base r e.conn.streams.toReceiving) w

variable {has' : ℕ → Prop}

theorem Sends.mono (h : Sends base log k has e out)
    (hhas : ∀ i, has i → has' i) : Sends base log k has' e out :=
  { h with sender := h.sender.mono hhas }

theorem WireOf.append (h : WireOf base log w) : WireOf base (log ++ new) w := by
  obtain ⟨p, i, hp, hw, hi, hseq, hkind⟩ := h
  refine ⟨p, i, hp, hw, by rw [length_append]; omega, hseq, hkind.imp_right fun hitem => ?_⟩
  rw [getElem?_append_left (List.getElem?_eq_some_iff.1 hitem).1, hitem]

theorem WireOf.packet (h : WireOf base log w) (hp : Packet.decode w.datagram = .ok p) :
    ∃ i, w.seq = base + i ∧ i ≤ log.length ∧ p.seqNr = .ofNat (base + i) ∧
      (p.kind = .state ∨ log[i]? = some ⟨p.kind, p.payload⟩) := by
  obtain ⟨q, i, hq, hw⟩ := h
  obtain rfl : p = q := by rwa [hp, Except.ok.injEq] at hq
  exact ⟨i, hw⟩

theorem Acks.mono {r' : ℕ} (h : Acks base r has w) (hr : r ≤ r')
    (hhas : ∀ i, has i → has' i) : Acks base r' has' w := by
  obtain ⟨p, n, hp, hreset, hw, hack, hlt, hsack⟩ := h
  refine ⟨p, n, hp, hreset, hw, hack, by omega, fun seq hseq => ?_⟩
  obtain ⟨i, hi, hlo, hhi, hi'⟩ := hsack seq hseq
  exact ⟨i, hi, hlo, hhi, hhas i hi'⟩

theorem Sends.settle (hout : ∀ w ∈ out, WireOf base log w) (hsent : e.sent = base + log.length)
    (hs : Sender base (log ++ new) k has e.written c.streams.toSending) (hk : k ≤ log.length)
    (hfew : c.inFlight.length < halfCircle) :
    Sends base (log ++ new) k has (e.settle c).1 (out ++ (e.settle c).2) := by
  have hflight : c.inFlight.length = (log ++ new).length - k := by
    rw [← hs.length_flight, streams, length_map]
  have hhalf : halfCircle = 32768 := rfl
  have hlen : (log ++ new).length = log.length + new.length := length_append
  have hnext : ahead e.sent c.seqNr = base + (log ++ new).length := by
    rw [show c.seqNr = _ from hs.seqNr]
    exact ahead_ofNat (by omega) (by omega)
  refine ⟨{ hs with outgoing := fun p hp => absurd hp not_mem_nil }, rfl, hnext, by omega, ?_⟩
  rw [forall_mem_append]
  refine ⟨fun w hw => (hout w hw).append, fun w hw => ?_⟩
  obtain ⟨p, hp, rfl⟩ := List.mem_map.1 hw
  obtain ⟨i, hki, hi, hseq, hkind⟩ := hs.outgoing p hp
  refine ⟨_, i, p.decode_encode, ?_, hi, hseq, hkind⟩
  simp only [hnext, hseq]
  exact behind_ofNat (by omega) (by omega)

theorem mem_sackedNumbers_of_tells {got : List UInt8}
    (hbase : 0 < base) (hrecv : Receiver base log r got s.toReceiving) (hp : s.Tells p)
    (hseq : seq ∈ sackedNumbers p.ackNr p.sack) :
    ∃ i, seq = .ofNat (base + i) ∧ r < i ∧ i < r + 64 ∧ Has base r s.toReceiving i := by
  have hheld : ∀ key ∈ s.reorder.keys, ∃ i, key = .ofNat (base + i) ∧ r < i ∧ i < r + 64 ∧
      Has base r s.toReceiving i := by
    intro key hkey
    have hsome : (s.reorder.lookup key).isSome = true :=
      AList.lookup_isSome.2 (AList.mem_keys.2 hkey)
    obtain ⟨payload, hlookup⟩ := isSome_iff_exists.1 hsome
    obtain ⟨i, item, hlo, hhi, -, rfl, -⟩ := hrecv.held key payload hlookup
    exact ⟨i, rfl, hlo, hhi, .inr ⟨hhi, hsome⟩⟩
  rcases hp.sack with hnil | hmask
  · rw [hnil] at hseq
    contradiction
  · rw [hp.ackNr, hmask] at hseq
    refine hheld seq (mem_of_mem_sackedNumbers (fun key hkey => ?_) hseq)
    obtain ⟨i, rfl, hlo, hhi, -⟩ := hheld key hkey
    rw [hrecv.ackNr, toNat_sub_of_le (by omega) (by omega)]
    omega

theorem Receives.settle {r' : ℕ} (hbase : 0 < base) (hout : ∀ w ∈ out, Acks base r has w)
    (hacked : e.acked = some (base + r - 1)) (hr : r ≤ r') (hnear : r' < r + 65536)
    (hhas : ∀ i, has i → Has base r' c.streams.toReceiving i)
    (hrecv : Receiver base log r' e.got c.streams.toReceiving) (hhonest : c.streams.Honest)
    (hstate : c.state ≠ .connecting) :
    Receives base log r' (e.settle c).1 (out ++ (e.settle c).2) := by
  have hnext : ahead (base + r - 1) c.ackNr = base + r' - 1 := by
    rw [show c.ackNr = _ from hrecv.ackNr]
    exact ahead_ofNat (by omega) (by omega)
  have hacked' : (e.settle c).1.acked = some (base + r' - 1) := by
    simp only [End.settle, hacked, map_some, hnext]
  refine ⟨hrecv, rfl, hstate, hhonest.flight, hacked', ?_⟩
  rw [forall_mem_append]
  refine ⟨fun w hw => (hout w hw).mono hr hhas, fun w hw => ?_⟩
  obtain ⟨p, hp, rfl⟩ := List.mem_map.1 hw
  have htells := hhonest.outgoing p hp
  have hack := htells.ackNr.trans hrecv.ackNr
  -- the whole mask is written
  have hdecode : Packet.decode p.encode = .ok p := by
    have hshort : p.sackWritten = p.sack := by
      refine take_of_length_le ?_
      rcases htells.sack with hnil | hmask
      · simp [hnil]
      · rw [hmask]
        exact length_sackMask_le _ _
    rw [p.decode_encode, hshort]
  refine ⟨p, base + r' - 1, hdecode, htells.kind, ?_, hack, by omega, fun seq hseq => ?_⟩
  · simp only [hacked, map_some, hnext, hack, some_inj]
    exact behind_ofNat le_rfl (by omega)
  · obtain ⟨i, hi, hlo, hhi, hhas'⟩ := mem_sackedNumbers_of_tells hbase hrecv htells hseq
    have hhalf : halfCircle = 32768 := rfl
    exact ⟨i, hi, by omega, by omega, hhas'⟩

theorem Sends.start (hsent : e.sent = base)
    (hs : Sender base log 0 has e.written c.streams.toSending)
    (hfew : c.inFlight.length < halfCircle) :
    Sends base log 0 has (e.settle c).1 (e.settle c).2 := by
  have hnone : ∀ w ∈ ([] : List Wire), WireOf base [] w := by simp
  exact settle hnone hsent hs le_rfl hfew

theorem Receives.start (hbase : 0 < base) (hacked : e.acked = some (base + r - 1))
    (hrecv : Receiver base log r e.got c.streams.toReceiving) (hhonest : c.streams.Honest)
    (hstate : c.state ≠ .connecting) : Receives base log r (e.settle c).1 (e.settle c).2 := by
  have hnone : ∀ w ∈ ([] : List Wire), Acks base r (fun _ => False) w := by simp
  exact settle hbase hnone hacked le_rfl (by omega) (fun _ hi => hi.elim) hrecv hhonest
    hstate

namespace Sends

theorem of_moves (h : Sends base log k has e out) (hmoves : Moves e.conn.streams c.streams)
    (hfew : c.inFlight.length < halfCircle) :
    ∃ new, (e.conn.state ≠ .opened → new = [] ∧ c.state ≠ .opened) ∧
      Sends base (log ++ new) k has (e.settle c).1 (out ++ (e.settle c).2) := by
  obtain ⟨new, hnew, hs⟩ := h.sender.moves hmoves
  exact ⟨new, hnew, settle h.wires h.sent hs h.sender.le hfew⟩

variable [F64 F]

theorem act (h : Sends base log k has e out) (op : Op)
    (hfew : (e.act op).1.conn.inFlight.length < halfCircle) :
    ∃ new, (e.conn.state ≠ .opened → new = [] ∧ (e.act op).1.conn.state ≠ .opened) ∧
      Sends base (log ++ new) k has (e.act op).1 (out ++ (e.act op).2) := by
  cases op with
  | write data =>
    have hstate : (e.conn.write data).1.state = e.conn.state := by
      rw [write]
      split <;> rfl
    refine ⟨[], fun hnot => ⟨rfl, hstate.trans_ne hnot⟩, ?_⟩
    exact settle (e := { e with written := _ }) h.wires h.sent
      (by rw [append_nil]; exact h.sender.write data) h.sender.le hfew
  | flush now => exact h.of_moves (moves_flush now e.conn) hfew
  | read len =>
    refine ⟨[], fun hnot => ⟨rfl, hnot⟩, ?_⟩
    exact settle (e := { e with got := _ }) h.wires h.sent
      (by rw [append_nil]; exact h.sender.read len) h.sender.le hfew
  | close =>
    refine ⟨[], fun hnot => ⟨rfl, hnot⟩, ?_⟩
    exact settle h.wires h.sent (by rw [append_nil]; exact h.sender.close) h.sender.le hfew
  | tick now => exact h.of_moves (moves_onTick now e.conn) hfew

theorem hear {Q : ℕ → Prop} {now : ℕ} (h : Sends base log k has e out) (hreset : p.kind ≠ .reset)
    (hQ : Q k)
    (hack : ∀ s t : Streams, s.flight = e.conn.streams.flight → s.seqNr = e.conn.seqNr →
      s.state ≠ .connecting → s.outgoing = [] → Sender base log k has e.written s.toSending →
      AckedBy p s t → ∃ k', Q k' ∧ Sender base log k' has e.written t.toSending)
    (hfew : (e.hear now w p).1.conn.inFlight.length < halfCircle) :
    ∃ new k', Q k' ∧
      Sends base (log ++ new) k' has (e.hear now w p).1 (out ++ (e.hear now w p).2) := by
  -- whatever the packet leaves to send, sending it comes last
  have hlast : ∀ {k' : ℕ} {s : Streams}, Q k' → Sender base log k' has e.written s.toSending →
      Moves s (e.conn.onPacket now p).streams →
      ∃ new k', Q k' ∧
        Sends base (log ++ new) k' has (e.hear now w p).1 (out ++ (e.hear now w p).2) := by
    intro k' s hQ' hs hmoves
    obtain ⟨new, -, hs'⟩ := hs.moves hmoves
    exact ⟨new, k', hQ', settle (e := { e with acked := _ }) h.wires h.sent hs' hs.le hfew⟩
  cases hstate : e.conn.state with
  | opened =>
    obtain ⟨d, hd, hmoves⟩ := moves_onPacket_opened now hstate hreset
    obtain ⟨k', hQ', hs⟩ := hack _ _ rfl rfl (by simp [streams, hstate]) h.drained
      h.sender hd
    obtain ⟨owed, howed⟩ := toSending_onKind p d
    refine hlast hQ' ?_ hmoves
    rw [howed]
    exact { hs with }
  | connecting =>
    by_cases hanswer : p.kind = .state
    · obtain ⟨s, hs, hmoves⟩ := moves_onPacket_answer now hstate hanswer
      have hopened : Sender base log k has e.written (e.conn.openBy p).streams.toSending :=
        { h.sender with connecting := fun hconn => by contradiction }
      obtain ⟨k', hQ', hs'⟩ := hack (e.conn.openBy p).streams s rfl rfl
        (fun hconn => by contradiction) h.drained hopened hs
      exact hlast hQ' hs' hmoves
    · exact hlast hQ h.sender (moves_onPacket_ignored now hstate hreset hanswer)
  | ended => exact hlast hQ h.sender (moves_onPacket_ended now hstate)

end Sends

theorem Has.act [F64 F] {i : ℕ} (h : Has base r e.conn.streams.toReceiving i) (op : Op) :
    Has base r (e.act op).1.conn.streams.toReceiving i := by
  have hkeep : (e.act op).1.conn.streams.reorder = e.conn.streams.reorder := by
    cases op with
    | write data =>
      change (e.conn.write data).1.reorder = _
      rw [write]
      split <;> rfl
    | flush now => exact congrArg Receiving.reorder (moves_flush now e.conn).toReceiving
    | read | close => rfl
    | tick now => exact congrArg Receiving.reorder (moves_onTick now e.conn).toReceiving
  rwa [Has, hkeep]

namespace Receives

theorem honest (h : Receives base log r e out) : e.conn.streams.Honest :=
  .of_flight h.drained h.flight

theorem of_moves (hbase : 0 < base) (h : Receives base log r e out)
    (hmoves : Moves e.conn.streams c.streams) :
    Receives base log r (e.settle c).1 (out ++ (e.settle c).2) := by
  refine settle hbase h.wires h.acked le_rfl (by omega) ?_ ?_ (h.honest.moves hmoves)
    (hmoves.state_ne_connecting h.started)
  · rw [hmoves.toReceiving]
    exact fun i hi => hi
  · rw [hmoves.toReceiving]
    exact h.receiver

variable [F64 F]

theorem act (hbase : 0 < base) (h : Receives base log r e out) (op : Op) :
    Receives base log r (e.act op).1 (out ++ (e.act op).2) := by
  cases op with
  | write data =>
    have hsame : (e.conn.write data).1.streams.toReceiving = e.conn.streams.toReceiving ∧
        (e.conn.write data).1.streams.flight = e.conn.streams.flight ∧
        (e.conn.write data).1.streams.outgoing = [] ∧
        (e.conn.write data).1.state = e.conn.state := by
      rw [write]
      split <;> exact ⟨rfl, rfl, h.drained, rfl⟩
    obtain ⟨hrecv, hflight, hdrained, hstate⟩ := hsame
    exact settle (e := { e with written := _ }) hbase h.wires h.acked le_rfl (by omega)
      (by rw [hrecv]; exact fun i hi => hi) (by rw [hrecv]; exact h.receiver)
      (.of_flight hdrained (by rw [hflight]; exact h.flight)) (by rw [hstate]; exact h.started)
  | flush now => exact h.of_moves hbase (moves_flush now e.conn)
  | read len =>
    exact settle (e := { e with got := _ }) hbase h.wires h.acked le_rfl (by omega)
      (fun i hi => hi) (h.receiver.read len) (.of_flight h.drained h.flight) h.started
  | close =>
    exact settle hbase h.wires h.acked le_rfl (by omega) (fun i hi => hi) h.receiver
      (.of_flight h.drained h.flight) h.started
  | tick now => exact h.of_moves hbase (moves_onTick now e.conn)

omit [F64 F] in
theorem onKind {i : ℕ} (hbase : 0 < base) (hlast : FinLast log)
    (h : Receiver base log r e.got c.streams.toReceiving)
    (hseq : p.seqNr = .ofNat (base + i))
    (hkind : p.kind = .state ∨ log[i]? = some ⟨p.kind, p.payload⟩)
    (hlate : r ≤ i + halfCircle) (hfew : log.length ≤ r + halfCircle) :
    ∃ r', r ≤ r' ∧ Receiver base log r' e.got (c.onKind p).streams.toReceiving ∧
      ∀ i, Has base r c.streams.toReceiving i → Has base r' (c.onKind p).streams.toReceiving i := by
  rw [Connection.onKind]
  split
  · rename_i hdata
    exact h.receive hbase hlast (hkind.resolve_left (by simp [hdata])) hseq hlate hfew
  · rename_i hfin
    exact h.receive hbase hlast (hkind.resolve_left (by simp [hfin])) hseq hlate hfew
  all_goals exact ⟨r, le_rfl, h, fun i hi => hi⟩

theorem hear {now i : ℕ} (hbase : 0 < base) (hlast : FinLast log)
    (h : Receives base log r e out) (hreset : p.kind ≠ .reset)
    (hseq : p.seqNr = .ofNat (base + i))
    (hkind : p.kind = .state ∨ log[i]? = some ⟨p.kind, p.payload⟩)
    (hlate : r ≤ i + halfCircle) (hfew : log.length ≤ r + halfCircle) :
    ∃ r', r ≤ r' ∧ (∀ i, Has base r e.conn.streams.toReceiving i →
        Has base r' (e.hear now w p).1.conn.streams.toReceiving i) ∧
      Receives base log r' (e.hear now w p).1 (out ++ (e.hear now w p).2) := by
  have hacked : (if e.conn.state = .connecting ∧ p.kind = .state then some (w.seq - 1)
      else e.acked) = some (base + r - 1) := by
    rw [if_neg (fun hconn => h.started hconn.1), h.acked]
  cases hstate : e.conn.state with
  | opened =>
    obtain ⟨d, hd, hmoves⟩ := moves_onPacket_opened now hstate hreset
    obtain ⟨flight, hsub, hd⟩ := hd.eq
    obtain ⟨owed, howed⟩ := toSending_onKind p d
    have hsame : d.streams.toReceiving = e.conn.streams.toReceiving := by rw [hd]
    obtain ⟨r', hr, hrecv, hhas⟩ := onKind (e := e) (c := d) hbase hlast
      (by rw [hsame]; exact h.receiver) hseq hkind hlate hfew
    rw [hd] at howed
    rw [hsame] at hhas
    rw [← hmoves.toReceiving] at hhas hrecv
    have hhonest : (d.onKind p).streams.Honest := by
      refine .of_flight (by rw [howed]; exact h.drained) ?_
      rw [howed]
      intro x hx
      obtain ⟨y, hy, hxy⟩ := hsub x hx
      rw [← show y.item = x.item from congrArg Prod.snd hxy]
      exact h.flight y hy
    have hbound := hrecv.le
    have hhalf : halfCircle = 32768 := rfl
    exact ⟨r', hr, hhas, settle (e := { e with acked := _ }) hbase h.wires hacked hr (by omega)
      hhas hrecv (hhonest.moves hmoves)
      (hmoves.state_ne_connecting (by rw [howed]; exact h.started))⟩
  | connecting => exact absurd hstate h.started
  | ended =>
    have hmoves : Moves e.conn.streams (e.conn.onPacket now p).streams :=
      moves_onPacket_ended now hstate
    have hsame : ∀ i, Has base r e.conn.streams.toReceiving i →
        Has base r (e.conn.onPacket now p).streams.toReceiving i := by
      rw [hmoves.toReceiving]
      exact fun i hi => hi
    refine ⟨r, le_rfl, hsame, settle (e := { e with acked := _ }) hbase h.wires hacked le_rfl
      (by omega) hsame ?_ (h.honest.moves hmoves) (hmoves.state_ne_connecting h.started)⟩
    rw [hmoves.toReceiving]
    exact h.receiver

end Receives

end BitTorrent.Utp
