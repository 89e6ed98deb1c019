import BitTorrent.Utp.Delivery

/-!
# From the acceptor to the initiator

The acceptor may write and send as soon as it is there; the initiator learns how it counts from
the state packet that opens its connection.
-/

namespace BitTorrent.Utp

open Streams Circular List Option Connection End

variable {F : Type} {base k r : ℕ} {log new : List Item} {has : ℕ → Prop} {e : End F}
  {s t : Link F} {c : Connection F} {out : List Wire} {w : Wire} {p : Packet} {event : LinkEvent}

/-- **An end that only asks**: it has sent nothing but requests, and if it
has given up it did so for a reason. -/
structure Streams.Quiet (s : Streams) : Prop where
  state : s.state = .connecting ∧ s.ackPending = false ∨ s.state = .ended ∧ s.error ≠ none
  flight : ∀ x ∈ s.flight, x.item.kind = .syn
  outgoing : ∀ p ∈ s.outgoing, p.kind = .syn ∧ p.sack = []

namespace Streams.Quiet

variable {s t : Streams}

theorem state_ne_opened (h : Quiet s) : s.state ≠ .opened := by
  rcases h.state with hs | hs <;> simp [hs.1]

theorem put (h : Quiet s) {seq : UInt16} {item : Item} (hp : s.Stamps seq item p)
    (hkind : item.kind = .syn) : Quiet (s.put p) where
  state := by
    rcases h.state with ⟨hs, hack⟩ | hs
    · exact .inl ⟨hs, by simp [Streams.put, hack]⟩
    · exact .inr hs
  flight := h.flight
  outgoing := by
    refine forall_mem_append.2 ⟨h.outgoing, forall_mem_singleton.2 ?_⟩
    rw [hp.kind, hp.sack, if_neg (by simp [hkind])]
    exact ⟨hkind, rfl⟩

theorem move (h : Quiet s) (hmove : Move s t) : Quiet t := by
  cases hmove with
  | again hx hp => exact h.put hp (h.flight _ hx)
  | data hopen | fin hopen => exact absurd hopen h.state_ne_opened
  | state hconn hend _ =>
    -- nothing is owed while it asks, and it did not end in order
    rcases h.state with ⟨hs, hack⟩ | ⟨hs, herror⟩
    · rw [hconn hs] at hack
      contradiction
    · exact absurd (hend hs) herror
  | syn _ hp => exact h.put hp rfl
  | ended herror =>
    exact ⟨.inr ⟨rfl, fun hnone => h.state_ne_opened (herror hnone)⟩, h.flight, h.outgoing⟩

theorem moves (h : Quiet s) (hmoves : Moves s t) : Quiet t :=
  hmoves.invariant (fun _ _ hu hmove => hu.move hmove) h

end Streams.Quiet

/-- A datagram that asks for a connection, and acknowledges nothing. -/
def Asks (w : Wire) : Prop :=
  ∃ p, Packet.decode w.datagram = .ok p ∧ p.kind = .syn ∧ p.sack = []

/-- **The initiator before it is open**, and what it has sent. -/
structure Waits (e : End F) (out : List Wire) : Prop where
  quiet : e.conn.streams.Quiet
  fresh : e.conn.streams.toReceiving.Fresh
  drained : e.conn.outgoing = []
  got : e.got = []
  acked : e.acked = none
  wires : ∀ w ∈ out, Asks w

namespace Waits

theorem settle (hout : ∀ w ∈ out, Asks w) (hquiet : c.streams.Quiet)
    (hfresh : c.streams.toReceiving.Fresh) (hgot : e.got = []) (hacked : e.acked = none) :
    Waits (e.settle c).1 (out ++ (e.settle c).2) where
  quiet := ⟨hquiet.state, hquiet.flight, fun p hp => absurd hp not_mem_nil⟩
  fresh := hfresh
  drained := rfl
  got := hgot
  acked := by simp [End.settle, hacked]
  wires := by
    rw [forall_mem_append]
    refine ⟨hout, fun w hw => ?_⟩
    obtain ⟨p, hp, rfl⟩ := List.mem_map.1 hw
    obtain ⟨hkind, hsack⟩ := hquiet.outgoing p hp
    exact ⟨_, p.decode_encode, hkind, by simp [Packet.sackWritten, hsack]⟩

theorem of_moves (h : Waits e out) (hmoves : Moves e.conn.streams c.streams) :
    Waits (e.settle c).1 (out ++ (e.settle c).2) :=
  settle h.wires (h.quiet.moves hmoves) (by rw [hmoves.toReceiving]; exact h.fresh) h.got h.acked

variable [F64 F]

theorem act (h : Waits e out) (op : Op) : Waits (e.act op).1 (out ++ (e.act op).2) := by
  have hinbox : e.conn.inbox = [] := h.fresh.inbox
  cases op with
  | write data =>
    refine settle (e := { e with written := _ }) h.wires ?_ ?_ h.got h.acked
    · rw [write]
      split <;> exact ⟨h.quiet.state, h.quiet.flight, h.quiet.outgoing⟩
    · rw [write]
      split <;> exact h.fresh
  | flush now => exact h.of_moves (moves_flush now e.conn)
  | read len =>
    -- there is nothing to read, so the read owes nothing
    have howed : (e.conn.read len).1.ackPending = e.conn.ackPending := by
      simp [Connection.read, hinbox]
    refine settle (e := { e with got := _ }) h.wires ⟨?_, h.quiet.flight, h.quiet.outgoing⟩
      ⟨?_, h.fresh.reorder, h.fresh.finSeq, h.fresh.peerClosed⟩ ?_ h.acked
    · rw [show (e.conn.read len).1.streams.ackPending = _ from howed]
      exact h.quiet.state
    · simp [Connection.read, Connection.streams, hinbox]
    · simp [Connection.read, hinbox, h.got]
  | close =>
    exact settle h.wires ⟨h.quiet.state, h.quiet.flight, h.quiet.outgoing⟩ h.fresh h.got h.acked
  | tick now => exact h.of_moves (moves_onTick now e.conn)

theorem hear (now : ℕ) (h : Waits e out) (hreset : p.kind ≠ .reset)
    (hnot : ¬ (e.conn.state = .connecting ∧ p.kind = .state)) :
    Waits (e.hear now w p).1 (out ++ (e.hear now w p).2) := by
  have hmoves : Moves e.conn.streams (e.conn.onPacket now p).streams := by
    rcases h.quiet.state with ⟨hs, -⟩ | ⟨hs, -⟩
    · exact moves_onPacket_ignored now hs hreset fun hstate => hnot ⟨hs, hstate⟩
    · exact moves_onPacket_ended now hs
  have := h.of_moves hmoves
  rw [End.hear]
  simpa only [if_neg hnot] using this

variable {now : ℕ}

theorem hear_answer (h : Waits e out) (hbase : 0 < base)
    (hconn : e.conn.state = .connecting) (hstate : p.kind = .state) (hw : w.seq = base)
    (hseq : p.seqNr = .ofNat base) :
    Receives base log 0 (e.hear now w p).1 (e.hear now w p).2 := by
  obtain ⟨s, hs, hmoves⟩ := moves_onPacket_answer now hconn hstate
  obtain ⟨flight, hsub, rfl⟩ := hs.eq
  have hack : p.seqNr - 1 = .ofNat (base - 1) := by
    obtain ⟨b, rfl⟩ : ∃ b, base = b + 1 := ⟨base - 1, by omega⟩
    rw [hseq, ofNat_add_one_sub_one, Nat.add_sub_cancel]
  have hhonest : ({ (e.conn.openBy p).streams with flight := flight } : Streams).Honest :=
    .of_flight h.drained fun x hx => by
      obtain ⟨y, hy, hxy⟩ := hsub x hx
      rw [← show y.item = x.item from congrArg Prod.snd hxy, h.quiet.flight y hy]
      simp
  refine Receives.start (e := { e with acked := _ }) (r := 0) hbase ?_ ?_ (hhonest.moves hmoves)
    (hmoves.state_ne_connecting (by simp [streams, openBy]))
  · simp only [if_pos (And.intro hconn hstate), hw]
    rfl
  · rw [hmoves.toReceiving, h.got]
    have hfresh : (e.conn.openBy p).streams.toReceiving.Fresh :=
      ⟨h.fresh.inbox, h.fresh.reorder, h.fresh.finSeq, h.fresh.peerClosed⟩
    exact hfresh.receiver hack (Nat.zero_le _) rfl

end Waits

/-- **A step that keeps the order of the handshake.** -/
structure Link.Orderly (s : Link F) (event : LinkEvent) : Prop where
  /-- A state packet that finds the initiator still asking was sent before
  the acceptor put anything in flight. -/
  answer : ∀ now w e p, event = .toA now w → s.b = some e → Packet.decode w.datagram = .ok p →
    s.a.conn.state = .connecting → p.kind = .state → w.seq = e.first
  /-- A request that arrives again finds nothing at the front of the
  flight that its acknowledgement would take out. -/
  request : ∀ now w initialSeq e p front, event = .toB now w initialSeq → s.b = some e →
    Packet.decode w.datagram = .ok p → p.kind = .syn → e.conn.inFlight.head? = some front →
    ¬ (seqLe p.ackNr (e.conn.seqNr - 1) = true ∧ seqLe front.seq p.ackNr = true)

/-- Whether a step keeps the order of the handshake. -/
def Link.checkOrder (s : Link F) : LinkEvent → Bool
  | .toA _ w => (Packet.decode w.datagram).toOption.all fun p => s.b.all fun e =>
    s.a.conn.state = .connecting → p.kind = .state → w.seq = e.first
  | .toB _ w _ => (Packet.decode w.datagram).toOption.all fun p => s.b.all fun e =>
    e.conn.inFlight.head?.all fun front =>
      p.kind = .syn → ¬ (seqLe p.ackNr (e.conn.seqNr - 1) = true ∧ seqLe front.seq p.ackNr = true)
  | _ => true

theorem Link.orderly_of_checkOrder (h : s.checkOrder event = true) : s.Orderly event := by
  constructor
  · rintro now w e p rfl he hp
    rw [checkOrder, hp, he] at h
    exact of_decide_eq_true h
  · rintro now w initialSeq e p front rfl he hp hsyn hfront
    rw [checkOrder, hp, he] at h
    simp only [Except.toOption, all_some, hfront] at h
    exact of_decide_eq_true h hsyn

/-- **What the initiator has of what the acceptor sends**: it only asks
and has nothing, and nothing has left the flight; or it is open, and what
has left the flight is received. `has` is what the acceptor knows it to
hold. -/
inductive Answered (base : ℕ) (log : List Item) (k : ℕ) (has : ℕ → Prop) (s : Link F) : Prop
  | waits : Waits s.a s.toB → k = 0 → (∀ i, ¬ has i) → Answered base log k has s
  | opened {r : ℕ} {early late : List Wire} : k ≤ r →
      (∀ i, has i → Has base r s.a.conn.streams.toReceiving i) → s.toB = early ++ late →
      (∀ w ∈ early, Asks w) → Receives base log r s.a late → Answered base log k has s

/-- **What holds of what the acceptor sends.** -/
structure Backward (s : Link F) : Prop where
  waiting : s.b = none → Waits s.a s.toB ∧ s.toA = []
  sends : ∀ e, s.b = some e → 0 < e.first ∧
    ∃ log k has, Sends e.first log k has e s.toA ∧ Answered e.first log k has s

theorem Answered.append (h : Answered base log k has s) : Answered base (log ++ new) k has s := by
  cases h with
  | waits ha hk hhas => exact .waits ha hk hhas
  | opened hk hhas hout hearly hr =>
    exact .opened hk hhas hout hearly { hr with receiver := hr.receiver.append }

variable {result : End F × List Wire}

theorem Answered.setB (h : Answered base log k has s) :
    Answered base log k has (s.setB result) := by
  cases h with
  | waits ha hk hhas => exact .waits ha hk hhas
  | opened hk hhas hout hearly hr => exact .opened hk hhas hout hearly hr

theorem Backward.setB (hbase : 0 < base)
    (hfirst : result.1.first = base) (hs : Sends base log k has result.1 (s.toA ++ result.2))
    (h : Answered base log k has s) : Backward (s.setB result) := by
  refine ⟨fun hnone => by contradiction, fun e he => ?_⟩
  cases he
  rw [hfirst]
  exact ⟨hbase, log, k, has, hs, h.setB⟩

theorem Backward.received {n : ℕ} (h : Backward s) (he : s.b = some e) (hn : e.first ≤ n)
    (htaken : e.TakesAsAcked n) : s.a.Received n := by
  obtain ⟨hfirst, log, k, has, hs, hanswered⟩ := h.sends e he
  rw [End.TakesAsAcked, hs.front] at htaken
  -- the packet is before the flight, or marked in it
  have hplace : n - e.first < k ∨ has (n - e.first) := by
    rcases htaken with hlt | ⟨p, hp, hsacked⟩
    · exact .inl (by omega)
    · by_cases hlt : n - e.first < k
      · exact .inl hlt
      · right
        have := hs.sender.sacked (n - (e.first + k)) p.flying
          (by rw [streams, getElem?_map, hp, map_some]) hsacked
        rwa [show k + (n - (e.first + k)) = n - e.first by omega] at this
  cases hanswered with
  | waits ha hk hhas =>
    rcases hplace with hlt | hi
    · omega
    · exact absurd hi (hhas _)
  | opened hk hhas hout hearly hr =>
    refine ⟨_, hr.acked, ?_⟩
    rcases hplace with hlt | hi
    · exact .inl (by omega)
    · rcases hhas _ hi with hlt | ⟨hnear, hheld⟩
      · exact .inl (by omega)
      · rw [show e.first + (n - e.first) = n by omega] at hheld
        have hhalf : halfCircle = 32768 := rfl
        exact .inr ⟨by omega, hheld⟩

theorem Backward.got_written (h : Backward s) (he : s.b = some e) : s.a.got <+: e.written := by
  obtain ⟨hfirst, log, k, has, hs, hanswered⟩ := h.sends e he
  cases hanswered with
  | waits ha hk hhas =>
    rw [ha.got]
    exact nil_prefix
  | opened hk hhas hout hearly hr => exact prefix_of_received hs.sender hr.receiver

variable [F64 F]

theorem End.first_deliver (now : ℕ) (w : Wire) (e : End F) :
    (e.deliver now w).1.first = e.first := by
  rcases deliver_eq now w e with heq | ⟨p, -, heq⟩ <;> rw [heq]
  rfl

theorem End.acked_hear {now n : ℕ} (hopens : e.conn.state = .connecting ∧ p.kind = .state)
    (hn : 0 < n) (hw : w.seq = n) (hseq : p.seqNr = .ofNat n) :
    (e.hear now w p).1.acked = some (n - 1) := by
  obtain ⟨s, hs, hmoves⟩ := moves_onPacket_answer now hopens.1 hopens.2
  obtain ⟨flight, -, rfl⟩ := hs.eq
  have hack : (e.conn.onPacket now p).ackNr = .ofNat (n - 1) := by
    obtain ⟨m, rfl⟩ : ∃ m, n = m + 1 := ⟨n - 1, by omega⟩
    rw [show (e.conn.onPacket now p).ackNr = p.seqNr - 1 from
      congrArg Receiving.ackNr hmoves.toReceiving, hseq, ofNat_add_one_sub_one,
      Nat.add_sub_cancel]
  simp only [hear, settle, if_pos hopens, map_some, hack, hw]
  rw [ahead_ofNat le_rfl (by omega)]

theorem Sends.deliver_asks (h : Sends base log k has e out) (hw : Asks w)
    (hfront : ∀ p front, Packet.decode w.datagram = .ok p → p.kind = .syn →
      e.conn.inFlight.head? = some front →
      ¬ (seqLe p.ackNr (e.conn.seqNr - 1) = true ∧ seqLe front.seq p.ackNr = true))
    (hfew : (e.deliver now w).1.conn.inFlight.length < halfCircle) :
    ∃ new, Sends base (log ++ new) k has (e.deliver now w).1 (out ++ (e.deliver now w).2) := by
  rcases deliver_eq now w e with heq | ⟨p, hp, heq⟩
  · rw [heq]
    exact ⟨[], by simpa using h⟩
  · rw [heq] at hfew ⊢
    obtain ⟨q, hq, hsyn, hsack⟩ := hw
    obtain rfl : p = q := by rwa [hp, Except.ok.injEq] at hq
    obtain ⟨new, k', rfl, hs⟩ := h.hear (Q := (· = k)) (by simp [hsyn]) rfl
      (fun s t hflight hseq _ _ hs hacked => by
        have hself : s.acked p.ackNr = s := by
          refine acked_eq_self fun x hx => ?_
          rw [hflight, streams, head?_map, map_eq_some_iff] at hx
          obtain ⟨front, hhead, rfl⟩ := hx
          rw [hseq]
          exact hfront p front hp hsyn hhead
        obtain ⟨flight, hmarked, rfl⟩ := hacked
        rw [hself, hsack] at hmarked
        rw [hself]
        exact ⟨k, rfl, hs.marked hmarked fun seq hmem => by contradiction⟩) hfew
    exact ⟨new, hs⟩

theorem Waits.deliver (now : ℕ) {written : List UInt8} {q : Sending} (hbase : 0 < base)
    (h : Waits e out) (hsender : Sender base log k has written q) (hw : WireOf base log w)
    (hanswer : ∀ p, Packet.decode w.datagram = .ok p → e.conn.state = .connecting →
      p.kind = .state → w.seq = base) :
    Waits (e.deliver now w).1 (out ++ (e.deliver now w).2) ∨
      Receives base log 0 (e.deliver now w).1 (e.deliver now w).2 := by
  rcases deliver_eq now w e with heq | ⟨p, hp, heq⟩
  · rw [heq]
    exact .inl (by simpa using h)
  · obtain ⟨i, hseqw, hi, hseq, hkind⟩ := hw.packet hp
    rw [heq]
    by_cases hopens : e.conn.state = .connecting ∧ p.kind = .state
    · have hfirst := hanswer p hp hopens.1 hopens.2
      obtain rfl : i = 0 := by omega
      exact .inr (h.hear_answer hbase hopens.1 hopens.2 hfirst hseq)
    · exact .inl (h.hear now (hsender.kind_ne_reset hkind) hopens)

theorem Answered.deliver (hbase : 0 < base) (hs : Sends base log k has e s.toA)
    (h : Answered base log k has s) (hw : w ∈ s.toA) (htime : s.a.InTime w)
    (hanswer : ∀ p, Packet.decode w.datagram = .ok p → s.a.conn.state = .connecting →
      p.kind = .state → w.seq = base) :
    Answered base log k has (s.setA (s.a.deliver now w)) := by
  cases h with
  | waits ha hk hhas =>
    rcases ha.deliver now hbase hs.sender (hs.wires w hw) hanswer with ha' | hr
    · exact .waits ha' hk hhas
    · exact .opened hk.le (fun i hi => absurd hi (hhas i)) rfl ha.wires hr
  | opened hk hhas hout hearly hr =>
    obtain ⟨r', hle, hmore, hr'⟩ := hr.deliver_wireOf now hbase hs.sender (hs.wires w hw) hk
      hs.few htime
    exact .opened (hk.trans hle) (fun i hi => hmore i (hhas i hi))
      (by rw [Link.setA, hout, append_assoc]) hearly hr'

theorem sends_acceptor (now : ℕ) (w : Wire) (p : Packet) (initialSeq : UInt16) :
    Sends (firstNumber initialSeq) [] 0 has (acceptor (F := F) now w p initialSeq).1
      (acceptor (F := F) now w p initialSeq).2 := by
  have hfirst := eq_ofNat_firstNumber initialSeq
  refine Sends.start (e := ⟨_, _, _, _, _, _⟩) rfl
    ⟨hfirst, rfl, le_rfl, ?_, rfl, by simp, ?_, by simp, ?_, ?_⟩ (show 0 < halfCircle by decide)
  · exact fun j x hx => by contradiction
  · exact fun hsent => by contradiction
  · exact fun hconn => by contradiction
  · intro q hq
    obtain rfl := mem_singleton.1 hq
    exact ⟨0, le_rfl, le_rfl, hfirst, .inl rfl⟩

theorem backward_start (now : ℕ) (recvId initialSeq : UInt16) :
    Backward (Link.start (F := F) now recvId initialSeq) where
  waiting _ := by
    refine ⟨?_, rfl⟩
    have hnone : ∀ w ∈ ([] : List Wire), Asks w := by simp
    refine Waits.settle (e := ⟨_, _, _, _, _, _⟩) hnone
      ⟨.inl ⟨rfl, rfl⟩, ?_, ?_⟩ ⟨rfl, rfl, rfl, rfl⟩ rfl rfl
    · intro x hx
      obtain rfl := mem_singleton.1 hx
      rfl
    · intro q hq
      obtain rfl := mem_singleton.1 hq
      exact ⟨rfl, rfl⟩
  sends e he := by contradiction

theorem Backward.step (h : Backward s) (hstep : Link.Step s event t)
    (htime : Link.InTime s event t) (horder : Link.Orderly s event) : Backward t := by
  cases hstep with
  | atA op =>
    refine ⟨fun hnone => ?_, fun e he => ?_⟩
    · obtain ⟨ha, hquiet⟩ := h.waiting hnone
      exact ⟨ha.act op, hquiet⟩
    · obtain ⟨hfirst, log, k, has, hs, hanswered⟩ := h.sends e he
      refine ⟨hfirst, log, k, has, hs, ?_⟩
      cases hanswered with
      | waits ha hk hhas => exact .waits (ha.act op) hk hhas
      | opened hk hhas hout hearly hr =>
        exact .opened hk (fun i hi => (hhas i hi).act op)
          (by rw [Link.setA, hout, append_assoc]) hearly (hr.act hfirst op)
  | atB op hb =>
    obtain ⟨hfirst, log, k, has, hs, hanswered⟩ := h.sends _ hb
    obtain ⟨new, -, hs'⟩ := hs.act op (htime.fewB _ rfl)
    exact .setB hfirst (by cases op <;> rfl) hs' hanswered.append
  | welcome hw hnone =>
    rename_i now w initialSeq
    obtain ⟨ha, hquiet⟩ := h.waiting hnone
    obtain ⟨p, hp, hsyn, -⟩ := ha.wires w hw
    rw [Link.welcome_eq hp hsyn]
    have hs : Sends (firstNumber initialSeq) [] 0 (fun _ => False)
        (acceptor (F := F) now w p initialSeq).1
        (s.toA ++ (acceptor (F := F) now w p initialSeq).2) := by
      rw [hquiet, nil_append]
      exact sends_acceptor now w p initialSeq
    exact .setB (firstNumber_pos initialSeq) rfl hs (.waits ha rfl fun _ hi => hi)
  | toB hw hb =>
    rename_i e now w initialSeq
    obtain ⟨hfirst, log, k, has, hs, hanswered⟩ := h.sends e hb
    have hfront := fun p front => horder.request now w initialSeq e p front rfl hb
    have hfew := htime.fewB _ rfl
    cases hanswered with
    | waits ha hk hhas =>
      obtain ⟨new, hs'⟩ := hs.deliver_asks (ha.wires w hw) hfront hfew
      exact .setB hfirst (first_deliver now w e) hs' (Answered.append (.waits ha hk hhas))
    | opened hk hhas hout hearly hr =>
      rw [hout, mem_append] at hw
      rcases hw with hw | hw
      · obtain ⟨new, hs'⟩ := hs.deliver_asks (hearly w hw) hfront hfew
        exact .setB hfirst (first_deliver now w e) hs'
          (Answered.append (.opened hk hhas hout hearly hr))
      · -- what the datagram names, the initiator has by now
        obtain ⟨new, k', hk', hs'⟩ := (hs.mono hhas).deliver_acks (hr.wires w hw) hr.receiver.le hk
          (htime.toB now w initialSeq e rfl hb) hfew
        exact .setB hfirst (first_deliver now w e) hs'
          (Answered.append (.opened hk' (fun i hi => hi) hout hearly hr))
  | toA hw =>
    rename_i now w
    refine ⟨fun hnone => ?_, fun e he => ?_⟩
    · rw [(h.waiting hnone).2] at hw
      contradiction
    · obtain ⟨hfirst, log, k, has, hs, hanswered⟩ := h.sends e he
      exact ⟨hfirst, log, k, has, hs, hanswered.deliver hfirst hs hw (htime.toA now w rfl)
        fun p => horder.answer now w e p rfl he⟩

theorem Backward.starts_at_first_iff {n : ℕ} (h : Backward s) (he : s.b = some e)
    (hstep : Link.Step s event t) (hnone : s.a.acked = none) (hsome : t.a.acked = some n) :
    n + 1 = e.first ↔ s.Orderly event := by
  obtain ⟨hfirst, log, k, has, hs, hanswered⟩ := h.sends e he
  -- it has only asked so far, so the step is the datagram that opens it
  have ha : Waits s.a s.toB := by
    cases hanswered with
    | waits ha hk hhas => exact ha
    | opened hk hhas hout hearly hr =>
      rw [hr.acked] at hnone
      contradiction
  cases hstep with
  | atA op => exact absurd ((ha.act op).acked.symm.trans hsome) (by simp)
  | welcome hw hb => exact absurd (hb.symm.trans he) (by simp)
  | atB | toB => exact absurd (hnone.symm.trans hsome) (by simp)
  | toA hw =>
    rename_i now w
    change (s.a.deliver now w).1.acked = some n at hsome
    rcases deliver_eq now w s.a with heq | ⟨p, hp, heq⟩ <;> rw [heq] at hsome
    · exact absurd (hnone.symm.trans hsome) (by simp)
    · obtain ⟨i, hseqw, hi, hseq, hkind⟩ := (hs.wires w hw).packet hp
      by_cases hopens : s.a.conn.state = .connecting ∧ p.kind = .state
      · rw [acked_hear hopens (by omega) hseqw hseq, some_inj] at hsome
        constructor
        · intro hstart
          refine ⟨?_, fun _ _ _ _ _ _ hevent => by contradiction⟩
          rintro now' w' e' p' hevent he' - - -
          obtain ⟨rfl, rfl⟩ := LinkEvent.toA.inj hevent
          obtain rfl := some_inj.1 (he.symm.trans he')
          omega
        · intro horder
          have := horder.answer now w e p rfl he hp hopens.1 hopens.2
          omega
      · have ha' := ha.hear now (w := w) (hs.sender.kind_ne_reset hkind) hopens
        exact absurd (ha'.acked.symm.trans hsome) (by simp)

omit [F64 F] in
/-- The steps that are in time and in order. -/
def Link.InOrder (s : Link F) (event : LinkEvent) (t : Link F) : Prop :=
  Link.InTime s event t ∧ Link.Orderly s event

/-- **The initiator reads what the acceptor writes, when the handshake is
in order.** In every run of the two ends and the network whose steps are
in time and in order, the bytes the initiator has read are the first of
those the acceptor's `write` took, and nothing it has not received is
taken as acknowledged; and the step that opens it, if in time, starts it
at the acceptor's first packet exactly if that step is in order. -/
theorem initiator_reads_written (now : ℕ) (recvId initialSeq : UInt16) (events : List LinkEvent)
    (s : Link F) (e : End F)
    (hrun : ((Link.system F).restrict Link.InOrder).Run (Link.start now recvId initialSeq) events s)
    (he : s.b = some e) :
    s.a.got <+: e.written ∧
      (∀ event t n, ((Link.system F).restrict Link.InTime).step s event t → s.a.acked = none →
        t.a.acked = some n → (n + 1 = e.first ↔ s.Orderly event)) ∧
      ∀ n, e.first ≤ n → e.TakesAsAcked n → s.a.Received n := by
  have hback : Backward s := by
    refine hrun.invariant (I := Backward) (fun s event t h hstep => ?_)
      (backward_start now recvId initialSeq)
    exact h.step hstep.1 hstep.2.1 hstep.2.2
  refine ⟨hback.got_written he, fun event t n hstep hnone hsome => ?_, fun n => hback.received he⟩
  exact hback.starts_at_first_iff he hstep.1 hnone hsome

/-- The request comes twice, the second time after data was sent, and the
first answer is the one to arrive. -/
def firstAnswer : List (Link Unit → Option LinkEvent) :=
  [fun s => s.toB[0]?.map (.toB 0 · 5),
   fun _ => some (.atB (.write [7])),
   fun _ => some (.atB (.flush 0)),
   fun s => s.toB[0]?.map (.toB 0 · 0),
   fun s => s.toA[0]?.map (.toA 0),
   fun s => s.toA[1]?.map (.toA 0),
   fun _ => some (.atA (.read 10))]

theorem initiator_reads_written_sample :
    ∃ events s e, ((Link.system Unit).restrict Link.InOrder).Run (Link.start 0 7 1) events s ∧
      s.b = some e ∧ s.a.got = [7] ∧
      (s.a.got <+: e.written ∧
        (∀ event t n, ((Link.system Unit).restrict Link.InTime).step s event t →
          s.a.acked = none → t.a.acked = some n → (n + 1 = e.first ↔ s.Orderly event)) ∧
        ∀ n, e.first ≤ n → e.TakesAsAcked n → s.a.Received n) := by
  have hplay : ∃ s ∈ LTS.play (fun s event => (Link.next s event).filter fun t =>
      s.checkTime event t && s.checkOrder event) (Link.start 0 7 1) firstAnswer,
      s.b.isSome = true ∧ s.a.got = [7] := by
    decide +kernel
  obtain ⟨s, hplay, hb, hgot⟩ := hplay
  obtain ⟨e, he⟩ := isSome_iff_exists.1 hb
  obtain ⟨events, hrun⟩ := LTS.run_of_play (L := (Link.system Unit).restrict Link.InOrder)
    (fun s event t ht => by
      obtain ⟨hnext, hcheck⟩ := filter_eq_some_iff.1 ht
      rw [Bool.and_eq_true] at hcheck
      exact ⟨Link.step_of_next hnext, Link.inTime_of_checkTime hcheck.1,
        Link.orderly_of_checkOrder hcheck.2⟩) hplay
  exact ⟨events, s, e, hrun, he, hgot, initiator_reads_written 0 7 1 events s e hrun he⟩

/-- The first answer is lost. The request comes again after data was sent,
and it is the answer to that one that the initiator takes its start
from. -/
def secondAnswer : List (Link Unit → Option LinkEvent) :=
  [fun s => s.toB[0]?.map (.toB 0 · 5),
   fun _ => some (.atB (.write [7])),
   fun _ => some (.atB (.flush 0)),
   fun s => s.toB[0]?.map (.toB 0 · 0),
   fun s => s.toA[2]?.map (.toA 0),
   fun _ => some (.atB (.write [8])),
   fun _ => some (.atB (.flush 0)),
   fun s => s.toA[3]?.map (.toA 0),
   fun _ => some (.atA (.read 10))]

/-- The acceptor counts from 0, and the request comes again, late, while
its first data packet is under way. -/
def lateRequest : List (Link Unit → Option LinkEvent) :=
  [fun s => s.toB[0]?.map (.toB 0 · 0),
   fun s => s.toA[0]?.map (.toA 0),
   fun _ => some (.atB (.write [9])),
   fun _ => some (.atB (.flush 0)),
   fun s => s.toB[0]?.map (.toB 0 · 0)]

/-- **Out of order, the initiator misses data.** In one run it reads a
second byte and not the first; in another a packet is taken as
acknowledged that it has not received. -/
theorem initiator_misses_written :
    (∃ events s e, ((Link.system Unit).restrict Link.InTime).Run (Link.start 0 7 1) events s ∧
      s.b = some e ∧ s.a.got = [8] ∧ e.written = [7, 8] ∧ ¬ s.a.got <+: e.written) ∧
    ∃ events s e n, ((Link.system Unit).restrict Link.InTime).Run (Link.start 0 7 1) events s ∧
      s.b = some e ∧ e.first ≤ n ∧ e.TakesAsAcked n ∧ ¬ s.a.Received n := by
  refine ⟨?_, ?_⟩
  · have hplay : ∃ s ∈ LTS.play (fun s event => (Link.next s event).filter (s.checkTime event))
        (Link.start 0 7 1) secondAnswer, ∃ e ∈ s.b, s.a.got = [8] ∧ e.written = [7, 8] ∧
          ¬ s.a.got <+: e.written := by
      decide +kernel
    obtain ⟨s, hplay, e, hb⟩ := hplay
    obtain ⟨events, hrun⟩ := Link.run_of_play hplay
    exact ⟨events, s, e, hrun, hb⟩
  · have hplay : ∃ s ∈ LTS.play (fun s event => (Link.next s event).filter (s.checkTime event))
        (Link.start 0 7 1) lateRequest, ∃ e ∈ s.b, e.first ≤ 65536 ∧ 65536 < e.front ∧
          s.a.acked = some 65535 ∧ (s.a.conn.reorder.lookup 0).isSome = false := by
      decide +kernel
    obtain ⟨s, hplay, e, he, hfirst, hfront, hacked, hheld⟩ := hplay
    obtain ⟨events, hrun⟩ := Link.run_of_play hplay
    refine ⟨events, s, e, 65536, hrun, he, hfirst, .inl hfront, ?_⟩
    rintro ⟨m, hm, hle | ⟨-, hlookup⟩⟩
    · rw [hacked, some_inj] at hm
      omega
    · rw [show UInt16.ofNat 65536 = 0 from rfl, hheld] at hlookup
      exact Bool.false_ne_true hlookup

end BitTorrent.Utp
