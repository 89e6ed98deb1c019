import BitTorrent.Utp.Reordering

/-!
# How a connection closes

Our FIN goes out after everything written and is acknowledged last; the peer's is where its stream
ends, and what it sends past that is still placed where it belongs.
-/

namespace BitTorrent.Utp.Connection

open Streams Utp.Core List

variable {F : Type} {c d : Connection F} {s t : Core}

/-- **A packet that goes on after the end**: of data, or a FIN, and numbered
next. -/
def GoesOn (c : Connection F) : Call → Prop
  | .packet _ p => c.isEof = true ∧ (p.kind = .data ∨ p.kind = .fin) ∧ p.seqNr = c.ackNr + 1
  | _ => False

theorem isEof_congr (h : d.streams.toReceiving = c.streams.toReceiving) : d.isEof = c.isEof := by
  have hinbox : d.inbox = c.inbox := congrArg Receiving.inbox h
  have hclosed : d.peerClosed = c.peerClosed := congrArg Receiving.peerClosed h
  rw [isEof, isEof, hinbox, hclosed]

theorem isEof_receive {packet : Packet} (h : c.isEof = true)
    (hnext : packet.seqNr ≠ c.ackNr + 1) : (c.receive packet).isEof = true := by
  have hahead : packet.seqNr - c.ackNr ≠ 1 := fun hone =>
    hnext (by rw [← hone, UInt16.add_comm, UInt16.sub_add_cancel])
  have hclosed : ∀ d : Connection F, d.isEof = true → d.noteClosed.isEof = true := by
    intro d hd
    rw [noteClosed]
    split
    · simp_all [isEof]
    · exact hd
  rw [receive]
  split
  · exact h
  · split
    · exact h
    · refine hclosed _ ?_
      rw [place, if_neg hahead, noteFin]
      split_ifs <;> exact h

section

variable [F64 F]

theorem isEof_packet (now : ℕ) {packet : Packet} (h : c.isEof = true)
    (hnext : ¬ c.GoesOn (.packet now packet)) : (c.onPacket now packet).isEof = true := by
  have hflush : ∀ d : Connection F, d.isEof = true → (d.flush now).isEof = true :=
    fun d hd => (isEof_congr (moves_flush now d).toReceiving).trans hd
  have hack : ∀ d : Connection F, d.isEof = true → (d.processAck now packet).isEof = true :=
    fun d hd => (isEof_congr (sameHeld_processAck now packet).receiving).trans hd
  simp only [onPacket]
  split
  · split <;> exact h
  · split
    · exact h
    · split
      · refine hflush _ ?_
        rw [onAnswer]
        split
        · exact hack _ h
        · exact h
      · refine hflush _ ?_
        have hreceive : packet.kind = .data ∨ packet.kind = .fin →
            (receive packet (processAck now packet
              { c.hear now packet with peerWindow := packet.wndSize })).isEof = true := by
          refine fun hkind => isEof_receive (hack _ h) fun heq => hnext ⟨h, hkind, heq.trans ?_⟩
          rw [(sameHeld_processAck now packet).ackNr]
          rfl
        rw [onKind]
        split
        · exact hreceive (.inl ‹_›)
        · exact hreceive (.inr ‹_›)
        · exact hack _ h
        · exact hack _ h
        · exact hack _ h

/-- **Once at the end, always at the end**, in every run in which the peer
goes on after its FIN with no packet that is numbered next. -/
theorem isEof_of_run {calls : List Call} (h : c.isEof = true)
    (hrun : ((calling F).restrict fun c call _ => ¬ c.GoesOn call).Run c calls d) :
    d.isEof = true := by
  refine hrun.invariant (I := fun c => c.isEof = true) (fun c call d hc hstep => ?_) h
  obtain ⟨rfl, hnext⟩ : d = c.call call ∧ _ := hstep
  cases call with
  | write data =>
    rw [call, write]
    split <;> exact hc
  | read len => simp_all [call, read, isEof]
  | abort now =>
    rw [call, abort]
    split <;> exact hc
  | flush now => exact (isEof_congr (moves_flush now c).toReceiving).trans hc
  | tick now => exact (isEof_congr (moves_onTick now c).toReceiving).trans hc
  | packet now p => exact isEof_packet now hc hnext
  | close | takeOutgoing => exact hc

end

/-- A connection whose peer has sent a FIN, numbered 2. -/
def toldFin : Connection ℚ :=
  (accept 0 ⟨.syn, 7, 0, 0, 50000, 1, 0, [], []⟩ 5).onPacket 0 ⟨.fin, 7, 0, 0, 50000, 2, 4, [], []⟩

/-- `isEof_of_run` for a peer that repeats its FIN, and sends data from
farther on. -/
theorem isEof_of_run_sample : toldFin.isEof = true ∧
    ((toldFin.onPacket 0 ⟨.fin, 7, 0, 0, 50000, 2, 4, [], []⟩).onPacket 0
      ⟨.data, 7, 0, 0, 50000, 4, 4, [], [9]⟩).isEof = true := by
  have heof : toldFin.isEof = true := by decide +kernel
  have hstep : ∀ (c : Connection ℚ) (p : Packet), p.seqNr ≠ c.ackNr + 1 →
      ((calling ℚ).restrict fun c call _ => ¬ c.GoesOn call).step c (.packet 0 p)
        (c.onPacket 0 p) := fun c p hp => ⟨rfl, fun hnext => hp hnext.2.2⟩
  exact ⟨heof, isEof_of_run heof ((LTS.Run.nil.snoc (hstep _ _ (by decide +kernel))).snoc
    (hstep _ _ (by decide +kernel)))⟩

/-- **A peer that goes on after its FIN is heard**: the packet numbered
next is received, and its bytes can be read. -/
theorem read_past_fin : toldFin.isEof = true ∧
    (toldFin.onPacket 0 ⟨.data, 7, 0, 0, 50000, 3, 4, [], [9]⟩).isEof = false ∧
    ((toldFin.onPacket 0 ⟨.data, 7, 0, 0, 50000, 3, 4, [], [9]⟩).read 10).2 = [9] := by
  decide +kernel

/-- What closing depends on. -/
structure Closing where
  kinds : List PacketType
  outbox : List UInt8
  finPending : Bool
  finSent : Bool
  finAcked : Bool
  state : ConnState
  error : Option ErrorKind
  peerClosed : Bool

def closing (s : Core) : Closing where
  kinds := s.inFlight.map Sent.kind
  outbox := s.outbox
  finPending := s.finPending
  finSent := s.finSent
  finAcked := s.finAcked
  state := s.state
  error := s.error
  peerClosed := s.peerClosed

/-- **The FIN comes last**, and a connection that has ended in order has
nothing left to send, and is closed at the other side. -/
structure FinLast (x : Closing) : Prop where
  sent : x.finSent = true → x.finPending = true ∧ x.outbox = []
  mem : .fin ∈ x.kinds → x.finSent = true
  last : .fin ∉ x.kinds.dropLast
  acked : x.finAcked = true → x.finSent = true ∧ x.kinds = []
  done : x.state = .ended → x.error = none →
    x.kinds = [] ∧ x.outbox = [] ∧ x.peerClosed = true

theorem FinLast.change {before after : List Sent} {p q : Sent} {n : ℤ} (hs : FinLast (closing s))
    (h : s.inFlight = before ++ p :: after) (hq : q.kind = p.kind) :
    FinLast (closing (s.change before q after n)) := by
  have hsame : closing (s.change before q after n) = closing s := by
    simp [closing, Core.change, h, hq]
  rwa [hsame]

variable {x : Closing}

theorem FinLast.launch (h : FinLast x) (kind : PacketType) (outbox : List UInt8)
    (sent : Bool) (hopen : x.state = .opened) (hbefore : x.finSent = false)
    (hfin : kind = .fin → sent = true) (hsent : sent = true → x.finPending = true ∧ outbox = []) :
    FinLast { x with kinds := x.kinds ++ [kind], outbox := outbox, finSent := sent } := by
  have hnone : .fin ∉ x.kinds := fun hmem => by simp [h.mem hmem] at hbefore
  have hacked : x.finAcked ≠ true := fun hacked => by simp [(h.acked hacked).1] at hbefore
  refine ⟨hsent, fun hmem => ?_, ?_, fun h => absurd h hacked, fun hend => by simp [hopen] at hend⟩
  · rcases mem_append.1 hmem with hmem | hmem
    · exact absurd hmem hnone
    · exact hfin (mem_singleton.1 hmem).symm
  · simpa using hnone

theorem FinLast.pop {kind : PacketType} {rest : List PacketType} (h : FinLast x)
    (hkinds : x.kinds = kind :: rest) :
    FinLast { x with kinds := rest, finAcked := x.finAcked || kind = .fin } := by
  refine ⟨h.sent, fun hmem => h.mem (by simp [hkinds, hmem]), fun hmem => h.last ?_,
    fun hacked => ?_, fun hend hnone => ?_⟩
  · rcases rest with _ | ⟨k, rest⟩
    · cases hmem
    · simp [hkinds, hmem]
  · rcases Bool.or_eq_true_iff.1 hacked with hacked | hfin
    · have hnil := (h.acked hacked).2
      simp [hkinds] at hnil
    · -- behind the FIN there is nothing
      obtain rfl := of_decide_eq_true hfin
      refine ⟨h.mem (by simp [hkinds]), ?_⟩
      by_contra hne
      exact h.last (by simp [hkinds, dropLast_cons_of_ne_nil hne])
  · have hnil := (h.done hend hnone).1
    simp [hkinds] at hnil

theorem finLast_turn (h : FinLast (closing s)) (hturn : Turn s t) : FinLast (closing t) := by
  cases hturn with
  | sends hsends =>
    cases hsends with
    | lost hflight | resent hflight => exact h.change hflight rfl
    | @asked now after p hflight =>
      have hfront : s.inFlight = [] ++ p :: after := hflight
      exact h.change hfront rfl
    | data hopen hne hn hroom hp =>
      have hbefore : s.finSent = false := by
        by_contra hsent
        exact hne (h.sent (Bool.eq_true_of_not_eq_false hsent)).2
      simpa [closing, Core.launch, Core.put, Sent.first, hbefore] using
        h.launch .data (s.outbox.drop _) false hopen hbefore (by simp) (by simp)
    | fin hopen hne hpending hsent hp =>
      simpa [closing, Core.launch, Core.put, Sent.first] using
        h.launch .fin s.outbox true hopen hsent (fun _ => rfl) fun _ => ⟨hpending, hne⟩
    | again | state | syn => exact h
    | ended herror =>
      refine ⟨h.sent, h.mem, h.last, h.acked, fun _ hnone => ?_⟩
      obtain ⟨-, hacked, hclosed⟩ := herror hnone
      obtain ⟨hsent, hkinds⟩ := h.acked hacked
      exact ⟨hkinds, (h.sent hsent).2, hclosed⟩
  | @popped p rest hflight => exact h.pop (by simp [closing, hflight])
  | sacked hflight => exact h.change hflight rfl
  | received hopen =>
    exact ⟨h.sent, h.mem, h.last, h.acked, fun hend => by cases hopen.symm.trans hend⟩
  | opened hconn => exact ⟨h.sent, h.mem, h.last, h.acked, fun hend => by cases hend⟩
  | reset =>
    exact ⟨h.sent, fun hmem => absurd hmem not_mem_nil, not_mem_nil,
      fun hacked => ⟨(h.acked hacked).1, rfl⟩, fun hend hnone => ⟨rfl, (h.done hend hnone).2⟩⟩
  | aborts hp => exact h

theorem finLast_owns (h : FinLast (closing s)) (howns : Owns s t) : FinLast (closing t) := by
  cases howns with
  | wrote hopen hpending hroom =>
    refine ⟨fun hsent => ?_, h.mem, h.last, h.acked, fun hend => absurd hend hopen⟩
    cases hpending.symm.trans (h.sent hsent).1
  | closed => exact ⟨fun hsent => ⟨rfl, (h.sent hsent).2⟩, h.mem, h.last, h.acked, h.done⟩
  | read | taken => exact h

theorem finLast_of_starts [F64 F] (h : c.Starts) : FinLast (closing c.core) := by
  cases h <;> refine ⟨?_, ?_, ?_, ?_, ?_⟩ <;>
    simp [closing, core, connectFrom, accept, sendSyn, sendState, queue, new, Sent.first]

/-- **What is noted of a run**: the bytes that `write` accepted, those that
the peer has acknowledged, the number before its first packet, and its
packets. -/
structure Ledger where
  accepted : List UInt8
  acked : List UInt8
  first : UInt16
  heard : List Packet

/-- The bytes in flight up to the number that a packet acknowledges. -/
def ackedBy (p : Packet) (c : Connection F) : List UInt8 :=
  if c.state ≠ .ended ∧ p.kind ≠ .reset ∧ (c.state = .connecting → p.kind = .state) ∧
      seqLe p.ackNr (c.seqNr - 1) then
    (c.inFlight.takeWhile fun x => seqLe x.seq p.ackNr).flatMap Sent.payload
  else []

def Ledger.note (c : Connection F) (l : Ledger) : Call → Ledger
  | .write data => { l with accepted := l.accepted ++ data.take (c.write data).2 }
  | .packet _ p =>
    { l with
      acked := l.acked ++ c.ackedBy p
      -- the answer to our request does not use up a number
      first := if c.state = .connecting ∧ p.kind = .state then p.seqNr - 1 else l.first
      heard := if c.state = .opened then l.heard ++ [p] else l.heard }
  | _ => l

/-- **One connection, and what is noted of it.** -/
def ledgered (F : Type) [F64 F] : LTS (Connection F × Ledger) Call where
  step s call t := t = (s.1.call call, s.2.note s.1 call)

/-- What is not acknowledged yet. -/
def unacked (x : Streams) : List UInt8 :=
  x.flight.flatMap (fun p => p.item.payload) ++ x.outbox

variable {x y : Streams}

theorem unacked_moves (h : Moves x y) : unacked y = unacked x := by
  refine h.invariant (P := fun y => unacked y = unacked x) (fun u v hu hmove => ?_) rfl
  rw [← hu]
  cases hmove with
  | data | fin => simp [unacked, Streams.put, Streams.launch]
  | again | state | syn | ended => rfl

theorem unacked_of_ackedBy {p : Packet} (h : AckedBy p x y) :
    unacked x = (if seqLe p.ackNr (x.seqNr - 1) then
      (x.flight.takeWhile fun q => seqLe q.seq p.ackNr).flatMap (fun q => q.item.payload)
      else []) ++ unacked y := by
  obtain ⟨flight, hmarked, rfl⟩ := h
  have hpayload : ∀ f : List Flying, f.flatMap (fun q => q.item.payload) =
      (f.map Flying.numbered).flatMap fun q => q.2.payload := by
    intro f
    rw [flatMap_map]
    rfl
  have hsame : unacked { x.acked p.ackNr with flight := flight } = unacked (x.acked p.ackNr) := by
    rw [unacked, unacked, hpayload, hmarked.1, ← hpayload]
  rw [hsame, acked]
  by_cases hle : seqLe p.ackNr (x.seqNr - 1) = true
  · rw [if_pos hle, if_neg (by simp [hle])]
    simp only [unacked]
    rw [← append_assoc, ← flatMap_append, takeWhile_append_dropWhile]
  · rw [if_neg hle, nil_append]
    split
    · rfl
    · rename_i hsent
      have hnone : x.flight = [] := by
        by_contra hne
        exact hsent ⟨hne, by simpa using hle⟩
      simp [unacked, hnone]

theorem broken_turn (h : s.state = .ended ∧ s.error ≠ none) (hturn : Turn s t) :
    t.state = .ended ∧ t.error ≠ none := by
  cases hturn with
  | sends hsends =>
    cases hsends with
    | ended herror => exact ⟨rfl, fun hnone => by simp [h.1] at herror; exact herror hnone⟩
    | _ => exact h
  | opened hconn => simp [h.1] at hconn
  | _ => exact h

section

variable [F64 F] {l : Ledger}

/-- **The bytes accepted are those acknowledged and those that are not**,
unless the connection has failed. -/
def Balanced (c : Connection F) (l : Ledger) : Prop :=
  (c.state = .ended ∧ c.error ≠ none) ∨ l.accepted = l.acked ++ unacked c.streams

theorem Balanced.packet (h : Balanced c l) (now : ℕ) (p : Packet) :
    Balanced (c.onPacket now p) (l.note c (.packet now p)) := by
  rcases h with hbroken | h
  · exact .inl ((turns_onPacket now p).invariant (fun _ _ => broken_turn) hbroken)
  have hmoves : ∀ {x : Streams}, l.accepted = l.acked ++ c.ackedBy p ++ unacked x →
      Moves x (c.onPacket now p).streams → Balanced (c.onPacket now p) (l.note c (.packet now p)) :=
    fun hx hmoves => .inr (by rw [unacked_moves hmoves]; exact hx)
  have hnothing : c.ackedBy p = [] → l.accepted = l.acked ++ c.ackedBy p ++ unacked c.streams :=
    fun hnone => by rw [hnone, append_nil]; exact h
  -- what a packet acknowledges leaves the front of what is not acknowledged
  have hacked : ∀ {x y : Streams}, AckedBy p x y → x.seqNr = c.seqNr →
      unacked x = unacked c.streams → x.flight = c.streams.flight → c.state ≠ .ended ∧ p.kind ≠ .reset ∧
        (c.state = .connecting → p.kind = .state) →
      l.accepted = l.acked ++ c.ackedBy p ++ unacked y := by
    intro x y hack hseq hunacked hflight hlive
    rw [h, ← hunacked, unacked_of_ackedBy hack, hseq, hflight, append_assoc, ackedBy]
    by_cases hle : seqLe p.ackNr (c.seqNr - 1) = true
    · rw [if_pos hle, if_pos ⟨hlive.1, hlive.2.1, hlive.2.2, hle⟩, streams, takeWhile_map,
        flatMap_map]
      rfl
    · rw [if_neg hle, if_neg fun hall => hle hall.2.2.2]
  by_cases hreset : p.kind = .reset ∧ c.state ≠ .ended
  · refine .inl ?_
    simp only [onPacket, if_neg hreset.2, if_pos hreset.1]
    exact ⟨rfl, by simp [fail]⟩
  · cases hstate : c.state with
    | ended => exact hmoves (hnothing (by simp [ackedBy, hstate])) (moves_onPacket_ended now hstate)
    | connecting =>
      have hkind : p.kind ≠ .reset := fun hkind => hreset ⟨hkind, by simp [hstate]⟩
      by_cases hanswer : p.kind = .state
      · obtain ⟨x, hack, hx⟩ := moves_onPacket_answer now hstate hanswer
        exact hmoves (hacked hack rfl rfl rfl ⟨by simp [hstate], hkind, fun _ => hanswer⟩) hx
      · exact hmoves (hnothing (by simp [ackedBy, hstate, hanswer]))
          (moves_onPacket_ignored now hstate hkind hanswer)
    | opened =>
      have hkind : p.kind ≠ .reset := fun hkind => hreset ⟨hkind, by simp [hstate]⟩
      obtain ⟨d, hack, hx⟩ := moves_onPacket_opened now hstate hkind
      obtain ⟨owed, hsending⟩ := toSending_onKind p d
      have hflight : (d.onKind p).streams.flight = d.streams.flight := by rw [hsending]
      have houtbox : (d.onKind p).streams.outbox = d.streams.outbox := by rw [hsending]
      refine hmoves ?_ hx
      rw [unacked, hflight, houtbox, ← unacked]
      exact hacked hack rfl rfl rfl ⟨by simp [hstate], hkind, by simp [hstate]⟩

theorem Balanced.call (h : Balanced c l) (call : Call) :
    Balanced (c.call call) (l.note c call) := by
  cases call with
  | packet now p => exact h.packet now p
  | write data =>
    rcases h with ⟨hend, herror⟩ | h
    · refine .inl ?_
      rw [Connection.call, write, if_pos (.inl hend)]
      exact ⟨hend, herror⟩
    · refine .inr ?_
      simp only [Connection.call, Ledger.note, h]
      rw [write]
      split <;> simp [unacked, streams]
  | abort now => exact .inl ⟨rfl, by simp [Connection.call, abort, fail]⟩
  | flush now =>
    rcases h with hbroken | h
    · exact .inl ((sends_flush now).turns.invariant (fun _ _ => broken_turn) hbroken)
    · exact .inr (h.trans (by rw [← unacked_moves (moves_flush now c)]; rfl))
  | tick now =>
    rcases h with hbroken | h
    · obtain ⟨w, hsends⟩ := turns_onTick now (c := c)
      exact .inl (hsends.turns.invariant (fun _ _ => broken_turn) hbroken)
    · exact .inr (h.trans (by rw [← unacked_moves (moves_onTick now c)]; rfl))
  | read | close | takeOutgoing => exact h

end

/-- A packet of the peer's stream with that number was heard. -/
def Heard (heard : List Packet) (seq : UInt16) : Prop :=
  ∃ p ∈ heard, (p.kind = .data ∨ p.kind = .fin) ∧ p.seqNr = seq

def HeardFin (heard : List Packet) (seq : UInt16) : Prop :=
  ∃ p ∈ heard, p.kind = .fin ∧ p.seqNr = seq

/-- **What was received in order was heard**, `n` packets from `first` on,
and so was what is held. -/
structure Gathered (heard : List Packet) (first : UInt16) (n : ℕ) (r : Receiving) : Prop where
  ackNr : r.ackNr = first + .ofNat n
  all : ∀ i, 1 ≤ i → i ≤ n → Heard heard (first + .ofNat i)
  held : ∀ key ∈ r.reorder.keys, Heard heard key
  fin : ∀ f, r.finSeq = some f → HeardFin heard f ∧ (n = 0 → f ≠ first)
  closed : r.peerClosed = true → ∃ m, 1 ≤ m ∧ m ≤ n ∧ HeardFin heard (first + .ofNat m)

namespace Gathered

variable {heard : List Packet} {first : UInt16} {n : ℕ} {p : Packet} {r : Receiving}

theorem mono (h : Gathered heard first n r) : Gathered (heard ++ [p]) first n r := by
  have hheard : ∀ {seq : UInt16}, Heard heard seq → Heard (heard ++ [p]) seq :=
    fun ⟨q, hq, hseq⟩ => ⟨q, mem_append_left _ hq, hseq⟩
  have hfin : ∀ {seq : UInt16}, HeardFin heard seq → HeardFin (heard ++ [p]) seq :=
    fun ⟨q, hq, hseq⟩ => ⟨q, mem_append_left _ hq, hseq⟩
  refine ⟨h.ackNr, fun i hi hn => hheard (h.all i hi hn), fun key hkey => hheard (h.held key hkey),
    fun f hf => ⟨hfin (h.fin f hf).1, (h.fin f hf).2⟩, fun hclosed => ?_⟩
  obtain ⟨m, hm, hmn, hheard⟩ := h.closed hclosed
  exact ⟨m, hm, hmn, hfin hheard⟩

theorem next {reorder : AList fun _ : UInt16 => List UInt8}
    (h : Gathered heard first n r) (inbox : List UInt8) (hseq : Heard heard (r.ackNr + 1))
    (hreorder : ∀ key ∈ reorder.keys, key ∈ r.reorder.keys) :
    Gathered heard first (n + 1) ⟨r.ackNr + 1, inbox, reorder, r.finSeq, r.peerClosed⟩ := by
  have hnext : r.ackNr + 1 = first + .ofNat (n + 1) := by
    rw [h.ackNr, UInt16.ofNat_add, UInt16.add_assoc]
    rfl
  refine ⟨hnext, fun i hi hn => ?_, fun key hkey => h.held key (hreorder key hkey),
    fun f hf => ⟨(h.fin f hf).1, by simp⟩, fun hclosed => ?_⟩
  · rcases Nat.lt_or_ge n i with hlt | hle
    · obtain rfl : i = n + 1 := by omega
      rwa [← hnext]
    · exact h.all i hi hle
  · obtain ⟨m, hm, hmn, hheard⟩ := h.closed hclosed
    exact ⟨m, hm, by omega, hheard⟩

theorem takeHeld (fuel : ℕ) (h : Gathered heard first n c.streams.toReceiving) :
    ∃ n, Gathered heard first n (takeHeld fuel c).streams.toReceiving := by
  induction fuel generalizing c n with
  | zero => exact ⟨n, h⟩
  | succ fuel ih =>
    rw [takeHeld]
    split
    · exact ⟨n, h⟩
    · rename_i payload hlookup
      have hmem : c.ackNr + 1 ∈ c.reorder.keys := AList.lookup_isSome.1 (by rw [hlookup]; rfl)
      refine ih (h.next _ (h.held _ hmem) fun key hkey => ?_)
      exact (AList.mem_erase.1 (AList.mem_keys.2 hkey)).2

theorem receive (h : Gathered heard first n c.streams.toReceiving) (hp : p ∈ heard)
    (hkind : p.kind = .data ∨ p.kind = .fin) :
    ∃ n, Gathered heard first n (c.receive p).streams.toReceiving := by
  have hclosed : ∀ d : Connection F, (∃ n, Gathered heard first n d.streams.toReceiving) →
      ∃ n, Gathered heard first n d.noteClosed.streams.toReceiving := by
    rintro d ⟨n, hd⟩
    refine ⟨n, ?_⟩
    rw [noteClosed]
    split
    · rename_i hfin
      obtain ⟨hheard, hfirst⟩ := hd.fin d.ackNr hfin
      have hack : d.ackNr = _ := hd.ackNr
      refine ⟨hd.ackNr, hd.all, hd.held, hd.fin, fun _ => ⟨n, ?_, le_rfl, hack ▸ hheard⟩⟩
      rcases Nat.eq_zero_or_pos n with rfl | hpos
      · exact absurd (hack.trans (UInt16.add_zero _)) (hfirst rfl)
      · exact hpos
    · exact hd
  rw [Connection.receive]
  split
  · exact ⟨n, h⟩
  · rename_i hahead
    split
    · exact ⟨n, h⟩
    · refine hclosed _ ?_
      have hnote : Gathered heard first n (c.oweAck.noteFin p).streams.toReceiving := by
        rw [noteFin]
        split
        · rename_i hfin
          refine ⟨h.ackNr, h.all, h.held, fun f hf => ⟨⟨p, hp, hfin, Option.some.inj hf⟩, ?_⟩,
            h.closed⟩
          rintro rfl rfl
          refine hahead (.inl ?_)
          rw [Option.some.inj hf, show c.ackNr = _ from h.ackNr]
          simp
        · exact h
      have hack : (c.oweAck.noteFin p).ackNr = c.ackNr := by
        rw [noteFin]
        split <;> rfl
      rw [place]
      split
      · rename_i hone
        have hseq : p.seqNr = (c.oweAck.noteFin p).ackNr + 1 := by
          rw [hack, ← hone, UInt16.add_comm, UInt16.sub_add_cancel]
        refine takeHeld _ (n := n + 1) ?_
        have hnext := hnote.next ((c.oweAck.noteFin p).inbox ++ p.payload)
          ⟨p, hp, hkind, hseq⟩ fun _ hkey => hkey
        rwa [show (c.oweAck.noteFin p).streams.ackNr + 1 = p.seqNr from hseq.symm] at hnext
      · split
        · refine ⟨n, hnote.ackNr, hnote.all, fun key hkey => ?_, hnote.fin, hnote.closed⟩
          rcases (AList.mem_insert _).1 (AList.mem_keys.2 hkey) with rfl | hkey
          · exact ⟨p, hp, hkind, rfl⟩
          · exact hnote.held key hkey
        · exact ⟨n, hnote⟩

end Gathered

section

variable [F64 F] {l : Ledger}

/-- What was received was heard, and before the answer to our request
nothing is received. -/
structure Gathers (c : Connection F) (l : Ledger) : Prop where
  gathered : ∃ n, Gathered l.heard l.first n c.streams.toReceiving
  asking : c.state = .connecting → c.reorder = ∅ ∧ c.finSeq = none ∧ c.peerClosed = false

omit [F64 F] in
theorem Gathers.of_eq (h : Gathers c l) (hsame : d.streams.toReceiving = c.streams.toReceiving)
    (hstate : d.state = .connecting → c.state = .connecting) : Gathers d l := by
  refine ⟨?_, fun hconn => ?_⟩
  · rw [hsame]
    exact h.gathered
  · obtain ⟨hreorder, hfin, hclosed⟩ := h.asking (hstate hconn)
    exact ⟨(congrArg Receiving.reorder hsame).trans hreorder,
      (congrArg Receiving.finSeq hsame).trans hfin,
      (congrArg Receiving.peerClosed hsame).trans hclosed⟩

omit [F64 F] in
theorem Gathers.moves (h : Gathers c l) (hmoves : Moves c.streams d.streams) : Gathers d l :=
  h.of_eq hmoves.toReceiving fun hconn => by
    by_contra hne
    exact hmoves.state_ne_connecting hne hconn

theorem Gathers.packet (h : Gathers c l) (now : ℕ) (p : Packet) :
    Gathers (c.onPacket now p) (l.note c (.packet now p)) := by
  have hsame : ∀ {d : Connection F}, ¬ (c.state = .connecting ∧ p.kind = .state) →
      c.state ≠ .opened → Gathers d l → Gathers d (l.note c (.packet now p)) := by
    intro d hanswer hopen hd
    refine ⟨?_, hd.asking⟩
    simpa only [Ledger.note, if_neg hanswer, if_neg hopen] using hd.gathered
  cases hstate : c.state with
  | ended =>
    exact hsame (by simp [hstate]) (by simp [hstate]) (h.moves (moves_onPacket_ended now hstate))
  | connecting =>
    by_cases hreset : p.kind = .reset
    · have hended : Gathers (c.onPacket now p) l := by
        simp only [onPacket, if_neg (by simp [hstate] : ¬ c.state = .ended), if_pos hreset]
        exact h.of_eq rfl fun hconn => by cases hconn
      exact hsame (by simp [hreset]) (by simp [hstate]) hended
    by_cases hanswer : p.kind = .state
    · obtain ⟨x, hack, hx⟩ := moves_onPacket_answer now hstate hanswer
      obtain ⟨flight, -, rfl⟩ := hack.eq
      obtain ⟨hreorder, hfin, hclosed⟩ := h.asking hstate
      refine ⟨⟨0, ?_⟩, fun hconn =>
        absurd hconn (hx.state_ne_connecting (by simp [openBy, streams]))⟩
      rw [hx.toReceiving]
      refine ⟨?_, by omega, ?_, ?_, ?_⟩
      · simp [Ledger.note, hstate, hanswer, openBy, streams]
      · simp [openBy, streams, hreorder]
      · simp [openBy, streams, hfin]
      · simp [openBy, streams, hclosed]
    · exact hsame (by simp [hanswer]) (by simp [hstate])
        (h.moves (moves_onPacket_ignored now hstate hreset hanswer))
  | opened =>
    have hopen : ∀ {d : Connection F}, d.state ≠ .connecting →
        (∃ n, Gathered (l.heard ++ [p]) l.first n d.streams.toReceiving) →
        Gathers d (l.note c (.packet now p)) := by
      intro d hd hgathered
      refine ⟨?_, fun hconn => absurd hconn hd⟩
      simpa [Ledger.note, hstate] using hgathered
    obtain ⟨n, hgathered⟩ := h.gathered
    by_cases hreset : p.kind = .reset
    · have hlive : ¬ c.state = .ended := by simp [hstate]
      simp only [onPacket, if_neg hlive, if_pos hreset]
      exact hopen (by simp [fail]) ⟨n, hgathered.mono⟩
    · obtain ⟨d, hack, hx⟩ := moves_onPacket_opened now hstate hreset
      obtain ⟨flight, -, heq⟩ := hack.eq
      have hd : Gathered (l.heard ++ [p]) l.first n d.streams.toReceiving := by
        rw [heq]
        exact hgathered.mono
      have hkind : ∃ n, Gathered (l.heard ++ [p]) l.first n (d.onKind p).streams.toReceiving := by
        rw [onKind]
        split
        · exact hd.receive (by simp) (.inl ‹_›)
        · exact hd.receive (by simp) (.inr ‹_›)
        · exact ⟨n, hd⟩
        · exact ⟨n, hd⟩
        · exact ⟨n, hd⟩
      obtain ⟨owed, hsending⟩ := toSending_onKind p d
      refine hopen (hx.state_ne_connecting ?_) (by rwa [hx.toReceiving])
      rw [hsending, heq]
      simp [streams, hstate]

theorem Gathers.call (h : Gathers c l) (call : Call) : Gathers (c.call call) (l.note c call) := by
  cases call with
  | packet now p => exact h.packet now p
  | write data =>
    rw [Connection.call, write]
    split <;> exact ⟨h.gathered, h.asking⟩
  | read len =>
    obtain ⟨n, hn⟩ := h.gathered
    exact ⟨⟨n, hn.ackNr, hn.all, hn.held, hn.fin, hn.closed⟩, h.asking⟩
  | abort now =>
    refine h.of_eq ?_ fun hconn => by cases hconn
    rw [Connection.call, abort]
    split <;> rfl
  | flush now => exact h.moves (moves_flush now c)
  | tick now => exact h.moves (moves_onTick now c)
  | close | takeOutgoing => exact ⟨h.gathered, h.asking⟩

/-- **A connection that has ended in order is done**, whatever the peer
sends: nothing is queued or in flight, every byte that `write` accepted
was acknowledged up to its number, and the peer's FIN has come with every
packet before it. -/
theorem done_of_run {c₀ : Connection F} {calls : List Call} (hc₀ : c₀.Starts)
    (hrun : (ledgered F).Run (c₀, ⟨[], [], c₀.ackNr, []⟩) calls (c, l)) (hend : c.state = .ended)
    (herror : c.error = none) :
    c.outbox = [] ∧ c.inFlight = [] ∧ l.acked = l.accepted ∧
      ∃ n, 1 ≤ n ∧ HeardFin l.heard (l.first + .ofNat n) ∧
        ∀ i, 1 ≤ i → i ≤ n → Heard l.heard (l.first + .ofNat i) := by
  have hall : FinLast (closing c.core) ∧ Balanced c l ∧ Gathers c l := by
    refine hrun.invariant (s := (c₀, _)) (t := (c, l)) (I := fun s =>
      FinLast (closing s.1.core) ∧ Balanced s.1 s.2 ∧ Gathers s.1 s.2) ?_ ?_
    · rintro ⟨c, l⟩ call t ⟨hlast, hbalanced, hgathers⟩ hstep
      obtain rfl : t = (c.call call, l.note c call) := hstep
      refine ⟨?_, hbalanced.call call, hgathers.call call⟩
      rcases turns_or_owns c call with hturns | howns
      · exact hturns.invariant (fun _ _ => finLast_turn) hlast
      · exact finLast_owns hlast howns
    · refine ⟨finLast_of_starts hc₀, .inr ?_, ⟨0, by simp [streams], by omega, ?_, ?_, ?_⟩, ?_⟩ <;>
        cases hc₀ <;> simp [unacked, streams, connectFrom, accept, sendSyn, sendState, queue, new,
          Sent.first, Sent.flying]
  obtain ⟨hlast, hbalanced, ⟨n, hgathered⟩, -⟩ := hall
  obtain ⟨hkinds, houtbox, hclosed⟩ := hlast.done hend herror
  have hflight : c.inFlight = [] := map_eq_nil_iff.1 hkinds
  refine ⟨houtbox, hflight, ?_, ?_⟩
  · rcases hbalanced with hbroken | hbalanced
    · exact absurd herror hbroken.2
    · rw [hbalanced, unacked, streams, hflight, show c.outbox = [] from houtbox]
      simp
  · obtain ⟨m, hm, hmn, hfin⟩ := hgathered.closed hclosed
    exact ⟨m, hm, hfin, fun i hi him => hgathered.all i hi (by omega)⟩

end

/-- A connection that is accepted, written to and closed, and whose peer
acknowledges all of it with its own FIN. -/
def closedBoth : Connection ℚ × Ledger :=
  foldl (fun s call => (s.1.call call, s.2.note s.1 call))
    (accept 0 ⟨.syn, 7, 0, 0, 50000, 1, 0, [], []⟩ 5, ⟨[], [], 1, []⟩)
    [.write [1, 2], .close, .flush 0, .packet 0 ⟨.fin, 7, 0, 0, 50000, 2, 6, [], []⟩]

/-- `done_of_run` for `closedBoth`. -/
theorem done_of_run_sample : closedBoth.1.state = .ended ∧ closedBoth.1.error = none ∧
    closedBoth.2.accepted = [1, 2] ∧ closedBoth.2.acked = closedBoth.2.accepted := by
  have hend : closedBoth.1.state = .ended ∧ closedBoth.1.error = none := by decide +kernel
  have hdone := done_of_run (.accept 0 ⟨.syn, 7, 0, 0, 50000, 1, 0, [], []⟩ 5)
    (LTS.run_of_foldl (L := ledgered ℚ) (fun _ _ => rfl) _ _) hend.1 hend.2
  exact ⟨hend.1, hend.2, by decide +kernel, hdone.2.2.1⟩

end BitTorrent.Utp.Connection
