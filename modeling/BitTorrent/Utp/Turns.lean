import BitTorrent.Utp.Streams

/-!
# What a connection does, one thing at a time

`Core` is a connection without its clock and its windows.
-/

namespace BitTorrent.Utp

open List Sent

/-- A connection without its timing. -/
structure Core extends Receiving where
  sendId : UInt16
  recvId : UInt16
  state : ConnState
  error : Option ErrorKind
  seqNr : UInt16
  outbox : List UInt8
  inFlight : List Sent
  curWindow : ℤ
  finPending : Bool
  finSent : Bool
  finAcked : Bool
  reorderBytes : ℤ
  ackPending : Bool
  outgoing : List Packet

namespace Core

/-- The part of it that the streams depend on. -/
def streams (s : Core) : Streams where
  toReceiving := s.toReceiving
  state := s.state
  error := s.error
  seqNr := s.seqNr
  outbox := s.outbox
  flight := s.inFlight.map Sent.flying
  finPending := s.finPending
  finSent := s.finSent
  ackPending := s.ackPending
  outgoing := s.outgoing

/-- A packet goes out. -/
def put (p : Packet) (s : Core) : Core :=
  { s with
    outgoing := s.outgoing ++ [p]
    ackPending := s.ackPending && !p.kind.acknowledges }

/-- A packet with the next number is in flight. -/
def launch (now : ℕ) (kind : PacketType) (payload : List UInt8) (s : Core) : Core :=
  { s with
    seqNr := s.seqNr + 1
    inFlight := s.inFlight ++ [Sent.first now s.seqNr kind payload] }

/-- One packet in flight is replaced, and what is in the network counted
anew. -/
def change (before : List Sent) (p : Sent) (after : List Sent) (curWindow : ℤ) (s : Core) : Core :=
  { s with inFlight := before ++ p :: after, curWindow := curWindow }

/-- What `Connection::process_ack` finds is written back. -/
def found (found : List Sent × Connection.Tally) (s : Core) : Core :=
  { s with inFlight := found.1, curWindow := found.2.curWindow, finAcked := found.2.finAcked }

/-- At most one packet is presumed lost. -/
def Loses (s t : Core) : Prop :=
  t = s ∨ ∃ before p after, s.inFlight = before ++ p :: after ∧ p.inNetwork = true ∧
    t = s.change before { p with lost := true } after (s.curWindow - p.payload.length)

/-- The packet is as `Connection::queue` makes it. -/
structure Says (s : Core) (seq : UInt16) (item : Item) (p : Packet) : Prop where
  stamps : s.streams.Stamps seq item p
  connectionId : p.connectionId = if item.kind = .syn then s.recvId else s.sendId

variable {w now : ℕ} {s t : Core}

/-- **What sending does**, one thing at a time, under a window of so many
bytes. -/
inductive Sends (w : ℕ) : Core → Core → Prop
  /-- A packet in the network is presumed lost. -/
  | lost {s : Core} {before after : List Sent} {p : Sent} :
      s.inFlight = before ++ p :: after → p.inNetwork = true →
      Sends w s
        (s.change before { p with lost := true } after (s.curWindow - p.payload.length))
  /-- A packet presumed lost is in the network again. -/
  | resent {s : Core} {now : ℕ} {before after : List Sent} {p : Sent} :
      s.inFlight = before ++ p :: after → p.lost = true →
      s.curWindow + p.payload.length ≤ w ∨ s.curWindow ≤ 0 →
      Sends w s (s.change before
        { p with lost := false, transmissions := p.transmissions + 1, sentAt := now } after
        (s.curWindow + p.payload.length))
  /-- The request to connect is timed anew. -/
  | asked {s : Core} {now : ℕ} {after : List Sent} {p : Sent} :
      s.inFlight = p :: after →
      Sends w s (s.change []
        { p with transmissions := p.transmissions + 1, sentAt := now } after s.curWindow)
  /-- Something in flight goes out again. -/
  | again {s : Core} {x : Sent} {p : Packet} :
      x ∈ s.inFlight → s.Says x.seq ⟨x.kind, x.payload⟩ p → Sends w s (s.put p)
  /-- Bytes of the queue are sent. -/
  | data {s : Core} {now n : ℕ} {p : Packet} :
      s.state = .opened → s.outbox ≠ [] → n = min s.outbox.length maxPayload →
      s.curWindow + n ≤ w ∨ s.curWindow = 0 →
      s.Says s.seqNr ⟨.data, s.outbox.take n⟩ p →
      Sends w s (({ s with outbox := s.outbox.drop n, curWindow := s.curWindow + n }.launch
        now .data (s.outbox.take n)).put p)
  /-- The FIN is sent, after everything queued. -/
  | fin {s : Core} {now : ℕ} {p : Packet} :
      s.state = .opened → s.outbox = [] → s.finPending = true → s.finSent = false →
      s.Says s.seqNr ⟨.fin, []⟩ p →
      Sends w s (({ s with finSent := true }.launch now .fin []).put p)
  /-- The peer is told how far we have got. -/
  | state {s : Core} {p : Packet} :
      (s.state = .connecting → s.ackPending = true) → (s.state = .ended → s.error = none) →
      s.Says s.seqNr ⟨.state, []⟩ p → Sends w s (s.put p)
  /-- A connection is asked for again. -/
  | syn {s : Core} {p : Packet} :
      s.state = .connecting → s.Says (s.seqNr - 1) ⟨.syn, []⟩ p → Sends w s (s.put p)
  /-- The connection ends, in order only if both sides are done. -/
  | ended {s : Core} {error : Option ErrorKind} :
      (error = none → s.state = .opened ∧ s.finAcked = true ∧ s.peerClosed = true) →
      Sends w s { s with state := .ended, error := error }

/-- **What a connection does that is called by no owner**: it sends, and
deals with a packet. -/
inductive Turn : Core → Core → Prop
  | sends {s t : Core} {w : ℕ} : Sends w s t → Turn s t
  /-- A packet that is acknowledged leaves the front. -/
  | popped {s : Core} {p : Sent} {rest : List Sent} :
      s.inFlight = p :: rest →
      Turn s { s with
        inFlight := rest
        curWindow := if p.inNetwork then s.curWindow - p.payload.length else s.curWindow
        finAcked := s.finAcked || p.kind = .fin }
  /-- The peer is known to hold a packet. -/
  | sacked {s : Core} {before after : List Sent} {p : Sent} :
      s.inFlight = before ++ p :: after →
      Turn s (s.change before { p with sacked := true, lost := false } after
        (if p.inNetwork then s.curWindow - p.payload.length else s.curWindow))
  /-- What the peer sends is taken in. -/
  | received {s : Core} {r : Receiving} {bytes : ℤ} {owed : Bool} :
      s.state = .opened →
      Turn s { s with toReceiving := r, reorderBytes := bytes, ackPending := owed }
  /-- The answer to our request has come. -/
  | opened {s : Core} {ack : UInt16} :
      s.state = .connecting → Turn s { s with state := .opened, ackNr := ack }
  /-- The peer has nothing of the connection any more. -/
  | reset {s : Core} : Turn s { s with inFlight := [], curWindow := 0 }
  /-- The peer is told that the connection is over. -/
  | aborts {s : Core} {p : Packet} : s.Says s.seqNr ⟨.reset, []⟩ p → Turn s (s.put p)

/-- Any number of turns. -/
abbrev Turns : Core → Core → Prop := Relation.ReflTransGen Turn

theorem Turns.invariant {I : Core → Prop} (h : Turns s t)
    (hturn : ∀ u v, I u → Turn u v → I v) (hs : I s) : I t := by
  induction h with
  | refl => exact hs
  | tail _ hstep ih => exact hturn _ _ ih hstep

/-- Any number of things that sending does. -/
abbrev AllSends (w : ℕ) : Core → Core → Prop := Relation.ReflTransGen (Sends w)

theorem AllSends.turns (h : AllSends w s t) : Turns s t := h.lift id fun _ _ => .sends

theorem streams_change {before after : List Sent} {p q : Sent} {curWindow : ℤ}
    (h : s.inFlight = before ++ p :: after) (hq : q.flying = p.flying) :
    (s.change before q after curWindow).streams = s.streams := by
  simp [streams, change, h, hq]

theorem Loses.streams (h : s.Loses t) : t.streams = s.streams := by
  rcases h with rfl | ⟨before, p, after, hflight, -, rfl⟩
  · rfl
  · exact streams_change hflight rfl

theorem Sends.moves (h : Sends w s t) : Streams.Moves s.streams t.streams := by
  have hchange : ∀ {before after : List Sent} {p q : Sent} {n : ℤ},
      s.inFlight = before ++ p :: after → q.flying = p.flying →
      Streams.Moves s.streams (s.change before q after n).streams := by
    intro before after p q n hflight hq
    rw [streams_change hflight hq]
  cases h with
  | lost hflight | resent hflight => exact hchange hflight rfl
  | asked hflight => exact @hchange [] _ _ _ _ hflight rfl
  | again hx hp => exact .single (.again (mem_map_of_mem hx) hp.stamps)
  | data hopen hne hn hroom hp =>
    refine .single ?_
    convert Streams.Move.data (s := s.streams) hopen hne hp.stamps using 1
    simp [streams, put, launch, Streams.put, Streams.launch, flying, first]
  | fin hopen hne hpending hsent hp =>
    refine .single ?_
    convert Streams.Move.fin (s := s.streams) hopen hne hpending hsent hp.stamps using 1
    simp [streams, put, launch, Streams.put, Streams.launch, flying, first]
  | state hconn hend hp => exact .single (.state hconn hend hp.stamps)
  | syn hconn hp => exact .single (.syn hconn hp.stamps)
  | ended herror => exact .single (.ended fun hnone => (herror hnone).1)

theorem AllSends.moves (h : AllSends w s t) : Streams.Moves s.streams t.streams := by
  induction h with
  | refl => exact .refl
  | tail _ hstep ih => exact ih.trans hstep.moves

end Core

namespace Connection

open Utp.Core Streams Relation

variable {F : Type} {w : ℕ} {c d : Connection F}

/-- A connection without its timing. -/
def core (c : Connection F) : Core where
  ackNr := c.ackNr
  inbox := c.inbox
  reorder := c.reorder
  finSeq := c.finSeq
  peerClosed := c.peerClosed
  sendId := c.sendId
  recvId := c.recvId
  state := c.state
  error := c.error
  seqNr := c.seqNr
  outbox := c.outbox
  inFlight := c.inFlight
  curWindow := c.curWindow
  finPending := c.finPending
  finSent := c.finSent
  finAcked := c.finAcked
  reorderBytes := c.reorderBytes
  ackPending := c.ackPending
  outgoing := c.outgoing

variable (now : ℕ)

theorem says_packetOf (kind : PacketType) (seq : UInt16) (payload : List UInt8)
    (c : Connection F) : c.core.Says seq ⟨kind, payload⟩ (c.packetOf now kind seq payload) :=
  ⟨⟨rfl, rfl, rfl, rfl, rfl⟩, rfl⟩

theorem sends_ite {P : Prop} [Decidable P] (h : P → AllSends w c.core d.core) :
    AllSends w c.core (if P then d else c).core := by
  split
  · exact h ‹_›
  · exact .refl

theorem sends_resendLost (now w : ℕ) {s : Core} {before flight : List Sent}
    (h : s.inFlight = before ++ flight) :
    AllSends w s { s with
        inFlight := before ++ (resendLost now w flight s.curWindow).1
        curWindow := (resendLost now w flight s.curWindow).2.1 } ∧
      ∀ p ∈ (resendLost now w flight s.curWindow).2.2,
        p ∈ (resendLost now w flight s.curWindow).1 := by
  induction flight generalizing before s with
  | nil =>
    rw [resendLost, ← h]
    exact ⟨.refl, fun p hp => hp⟩
  | cons p rest ih =>
    simp only [resendLost]
    split
    · rename_i hlost
      split
      · rw [← h]
        exact ⟨.refl, fun p hp => absurd hp not_mem_nil⟩
      · rename_i hroom
        have hresent : Sends w s (s.change before { p with
            lost := false, transmissions := p.transmissions + 1, sentAt := now } rest
            (s.curWindow + p.payload.length)) := .resent h hlost (by omega)
        generalize { p with lost := false, transmissions := p.transmissions + 1, sentAt := now } = q
          at hresent ⊢
        obtain ⟨hsends, hmem⟩ := @ih (s.change before q rest (s.curWindow + p.payload.length))
          (before ++ [q]) (append_cons before q rest)
        rw [append_assoc] at hsends
        refine ⟨.head hresent hsends, fun x hx => ?_⟩
        rcases mem_cons.1 hx with rfl | hx
        · exact mem_cons_self
        · exact mem_cons_of_mem _ (hmem x hx)
    · obtain ⟨hsends, hmem⟩ := @ih s (before ++ [p]) (by rw [h, append_cons])
      rw [append_assoc] at hsends
      exact ⟨hsends, fun x hx => mem_cons_of_mem _ (hmem x hx)⟩

theorem sends_queue_all {ps : List Sent} (h : ∀ p ∈ ps, p ∈ c.inFlight) :
    AllSends w c.core (ps.foldl (fun c p => c.queue now p.kind p.seq p.payload) c).core ∧
      (ps.foldl (fun c p => c.queue now p.kind p.seq p.payload) c).state = c.state := by
  induction ps generalizing c with
  | nil => exact ⟨.refl, rfl⟩
  | cons p ps ih =>
    have hp : Sends w c.core _ :=
      .again (h p mem_cons_self) (says_packetOf now p.kind p.seq p.payload c)
    obtain ⟨hrest, hstate⟩ := ih (c := c.queue now p.kind p.seq p.payload)
      fun q hq => h q (mem_cons_of_mem _ hq)
    exact ⟨.head hp hrest, hstate⟩

theorem sends_sendLost (now w : ℕ) (c : Connection F) : AllSends w c.core (c.sendLost now w).core ∧
      (c.sendLost now w).state = c.state := by
  obtain ⟨hsends, hmem⟩ := @sends_resendLost now w c.core [] c.inFlight rfl
  obtain ⟨hqueue, hstate⟩ := @sends_queue_all _ w { c with
    inFlight := (resendLost now w c.inFlight c.curWindow).1
    curWindow := (resendLost now w c.inFlight c.curWindow).2.1 } now _ hmem
  exact ⟨hsends.trans hqueue, hstate⟩

theorem sends_sendNew (now w fuel : ℕ) (hopen : c.state = .opened) :
    AllSends w c.core (sendNew now w fuel c).core ∧ (sendNew now w fuel c).state = .opened := by
  induction fuel generalizing c with
  | zero => exact ⟨.refl, hopen⟩
  | succ fuel ih =>
    simp only [sendNew]
    split
    · exact ⟨.refl, hopen⟩
    · rename_i hne
      split
      · exact ⟨.refl, hopen⟩
      · rename_i hroom
        have hroom' : c.curWindow + (min c.outbox.length maxPayload : ℕ) ≤ w ∨ c.curWindow = 0 := by
          by_contra hfull
          rw [not_or, Int.not_le] at hfull
          exact hroom ⟨hfull.1, fun hprobe => hfull.2 hprobe.1⟩
        have hdata : Sends w c.core (c.sendData now (min c.outbox.length maxPayload)).core :=
          .data hopen hne rfl hroom' (says_packetOf now .data c.seqNr _ c)
        obtain ⟨hrest, hstate⟩ := ih (c := c.sendData now (min c.outbox.length maxPayload)) hopen
        exact ⟨.head hdata hrest, hstate⟩

theorem sends_sendFin (hopen : c.state = .opened) : AllSends w c.core (c.sendFin now).core := by
  refine sends_ite fun h => .single ?_
  exact .fin hopen h.2.2 h.1 (Bool.not_eq_true' _ ▸ h.2.1) (says_packetOf now .fin c.seqNr [] c)

theorem sends_sendState (hconn : c.state = .connecting → c.ackPending = true)
    (hend : c.state = .ended → c.error = none) :
    AllSends w c.core (c.sendState now).core :=
  .single (.state hconn hend (says_packetOf now .state c.seqNr [] c))

theorem sends_fail (error : ErrorKind) : AllSends w c.core (c.fail error).core := by
  have hended : Sends w c.core { c.core with state := .ended, error := some error } :=
    .ended fun hnone => by contradiction
  exact .single hended

theorem sends_finishIfDone : AllSends w c.core c.finishIfDone.core := by
  refine sends_ite fun h => .single ?_
  have hended : Sends w c.core { c.core with state := .ended, error := c.error } :=
    .ended fun _ => ⟨h.2.2, h.1, h.2.1⟩
  exact hended

section

variable [F64 F]

/-- The bytes that the peer and congestion control allow in the network. -/
def allowed (c : Connection F) : ℕ := min (F64.toUsize c.maxWindow) c.peerWindow.toNat

theorem sends_sendPending (hopen : c.state = .opened) :
    AllSends c.allowed c.core (c.sendPending now).core := by
  obtain ⟨hlost, hstate⟩ := sends_sendLost now c.allowed c
  obtain ⟨hnew, hopen'⟩ := sends_sendNew now c.allowed (c.sendLost now c.allowed).outbox.length
    (hstate.trans hopen)
  exact ((hlost.trans hnew).trans (sends_sendFin now hopen')).trans (sends_ite fun _ => .refl)

theorem sends_flush : AllSends c.allowed c.core (c.flush now).core := by
  have hpending := sends_ite (P := c.state = .opened) fun h => sends_sendPending now h
  refine hpending.trans (ReflTransGen.trans (sends_ite fun h => ?_) sends_finishIfDone)
  exact sends_sendState now (fun _ => h.1) (fun hend => absurd hend h.2)

theorem sends_loseAll {s : Core} {before flight : List Sent} (h : s.inFlight = before ++ flight) :
    AllSends w s { s with
      inFlight := before ++ flight.map fun p => if p.inNetwork then { p with lost := true } else p
      curWindow :=
        s.curWindow - ((flight.filter inNetwork).map fun p => p.payload.length).sum } := by
  induction flight generalizing before s with
  | nil =>
    rw [map_nil, ← h]
    simpa using ReflTransGen.refl
  | cons p rest ih =>
    cases hin : p.inNetwork with
    | false =>
      have hrest := @ih s (before ++ [p]) (by rw [h, append_cons])
      simpa [hin] using hrest
    | true =>
      have hlost := Sends.lost (w := w) h hin
      have hrest := @ih (s.change before { p with lost := true } rest
        (s.curWindow - p.payload.length)) _ (append_cons before _ rest)
      simpa [hin, change, Int.sub_sub] using ReflTransGen.head hlost hrest

theorem sends_onTimeout : AllSends w c.core (c.onTimeout now).core := by
  simp only [onTimeout]
  split
  · rename_i hconn
    split
    · exact sends_fail _
    · have hsyn : ∀ d : Connection F, d.state = .connecting →
          AllSends w d.core (d.sendSynAgain now).core :=
        fun d hd => .single (.syn hd (says_packetOf now .syn (d.seqNr - 1) [] d))
      refine ReflTransGen.trans ?_ (hsyn _ hconn)
      cases hflight : c.inFlight with
      | nil =>
        rw [core, core, hflight]
        exact .refl
      | cons syn rest =>
        exact .single (@Sends.asked w c.core now _ _ hflight)
  · split
    · exact sends_fail _
    · exact @sends_loseAll w c.core [] _ rfl

theorem turns_onTick : ∃ w, AllSends w c.core (c.onTick now).core := by
  simp only [onTick]
  split
  · exact ⟨0, .refl⟩
  · split
    · exact ⟨0, sends_fail _⟩
    · apply Exists.intro
      refine ReflTransGen.trans (sends_ite fun _ => sends_onTimeout now)
        (ReflTransGen.trans (sends_ite fun h => ?_) (sends_flush now))
      exact sends_sendState now (by simp [h.1]) (by simp [h.1])

end

theorem turns_popAcked (ack : UInt16) (s : Core) (flight : List Sent) (tally : Tally) :
    Turns (s.found (flight, tally)) (s.found (popAcked now ack flight tally)) := by
  induction flight generalizing tally with
  | nil => exact .refl
  | cons p rest ih =>
    rw [popAcked]
    split
    · refine .head ?_ (ih _)
      exact Turn.popped (s := s.found (p :: rest, tally)) rfl
    · exact .refl

theorem exists_modify_findIdx {P : Sent → Bool} {flight : List Sent} {p : Sent}
    (h : flight.find? P = some p) (f : Sent → Sent) :
    ∃ before after, flight = before ++ p :: after ∧
      flight.modify (flight.findIdx P) f = before ++ f p :: after := by
  induction flight with
  | nil => cases h
  | cons q flight ih =>
    rw [find?_cons] at h
    cases hq : P q with
    | true =>
      rw [hq] at h
      cases h
      exact ⟨[], flight, rfl, by simp [findIdx_cons, hq]⟩
    | false =>
      rw [hq] at h
      obtain ⟨before, after, heq, hmodify⟩ := ih h
      refine ⟨q :: before, after, by rw [heq]; rfl, ?_⟩
      rw [findIdx_cons, hq]
      simpa using hmodify

theorem turns_sackOne (s : Core) (found : List Sent × Tally) (seq : UInt16) :
    Turns (s.found found) (s.found (sackOne now found seq)) := by
  rw [sackOne]
  split
  · exact .refl
  · rename_i p hfind
    split
    · exact .refl
    · obtain ⟨before, after, heq, hmodify⟩ :=
        exists_modify_findIdx hfind fun p => { p with sacked := true, lost := false }
      rw [hmodify]
      exact .single (.sacked (s := s.found found) heq)

theorem turns_sackAll (s : Core) (seqs : List UInt16) (found : List Sent × Tally) :
    Turns (s.found found) (s.found (seqs.foldl (sackOne now) found)) := by
  induction seqs generalizing found with
  | nil => exact .refl
  | cons seq seqs ih => exact (turns_sackOne now s found seq).trans (ih _)

section

variable [F64 F]

theorem core_cutWindow : (c.cutWindow now).core = c.core := by
  simp only [cutWindow]
  split <;> rfl

variable (packet : Packet)

theorem core_creditAck (tally : Tally) :
    (c.creditAck now packet tally).core = c.core := by
  simp only [creditAck]
  split
  · rfl
  · split <;> rfl

omit [F64 F] in
theorem core_noteAck (ack : UInt16) : (c.noteAck ack).core = c.core := by
  simp only [noteAck]
  split <;> rfl

theorem loses_loseFront : c.core.Loses (c.loseFront now).core := by
  simp only [loseFront]
  split
  · exact .inl rfl
  · rename_i front hfind
    split
    · rename_i hfirst
      obtain ⟨before, after, heq, hmodify⟩ :=
        exists_modify_findIdx hfind fun p => { p with lost := true }
      have hsacked : front.sacked = false := by simpa using find?_some hfind
      have hlost : front.lost = false := by simpa using hfirst.2
      refine .inr ⟨before, front, after, heq, by simp [inNetwork, hsacked, hlost], ?_⟩
      rw [core_cutWindow, hmodify]
      rfl
    · exact .inl rfl

theorem loses_processAck {packet : Packet}
    (hsent : ¬ ((!c.inFlight.isEmpty) = true ∧ (!seqLe packet.ackNr (c.seqNr - 1)) = true)) :
    (c.core.found (c.acknowledged now packet)).Loses (c.processAck now packet).core := by
  have hrtt : ∀ (sample : Option ℕ) (d : Connection F),
      (sample.elim d d.updateRtt).core = d.core := by
    rintro (_ | sample) d <;> rfl
  have htimer : ∀ d : Connection F, (d.restartTimer now).core = d.core := fun _ => rfl
  have hlose : ∀ {s : Core} (d : Connection F), d.core = s → s.Loses (d.loseFront now).core := by
    rintro s d rfl
    exact loses_loseFront now
  simp only [processAck, if_neg hsent, htimer]
  split
  · refine hlose _ ?_
    rw [core_noteAck, core_creditAck, hrtt]
    rfl
  · rw [core_noteAck, core_creditAck, hrtt]
    exact .inl rfl

theorem turns_processAck : Turns c.core (c.processAck now packet).core := by
  by_cases hsent : (!c.inFlight.isEmpty) = true ∧ (!seqLe packet.ackNr (c.seqNr - 1)) = true
  · rw [processAck, if_pos hsent]
  · have hfound : Turns c.core (c.core.found (c.acknowledged now packet)) :=
      (turns_popAcked now packet.ackNr c.core c.inFlight ⟨c.curWindow, c.finAcked, 0, none⟩).trans
        (turns_sackAll now c.core _ _)
    refine hfound.trans ?_
    rcases loses_processAck now hsent with heq | ⟨before, p, after, hflight, hin, heq⟩
    · rw [heq]
    · rw [heq]
      exact .single (.sends (w := 0) (.lost hflight hin))

end

/-- Only what is received changes, and whether an acknowledgement is owed. -/
def TakesIn (c d : Connection F) : Prop :=
  ∃ r bytes owed, d.core =
    { c.core with toReceiving := r, reorderBytes := bytes, ackPending := owed }

variable {e : Connection F}

theorem TakesIn.trans (h : TakesIn c d) (h' : TakesIn d e) : TakesIn c e := by
  obtain ⟨r, bytes, owed, hd⟩ := h
  obtain ⟨r', bytes', owed', he⟩ := h'
  exact ⟨r', bytes', owed', by rw [he, hd]⟩

theorem takesIn_ite {P : Prop} [Decidable P] (hd : TakesIn c d)
    (he : TakesIn c e) : TakesIn c (if P then d else e) := by
  split
  · exact hd
  · exact he

theorem takesIn_takeHeld (fuel : ℕ) : TakesIn c (takeHeld fuel c) := by
  induction fuel generalizing c with
  | zero => exact ⟨_, _, _, rfl⟩
  | succ fuel ih =>
    rw [takeHeld]
    split
    · exact ⟨_, _, _, rfl⟩
    · exact TakesIn.trans ⟨_, _, _, rfl⟩ ih

variable (packet : Packet)

theorem takesIn_receive : TakesIn c (c.receive packet) := by
  have hfin : ∀ d : Connection F, TakesIn d (d.noteFin packet) :=
    fun d => takesIn_ite ⟨_, _, _, rfl⟩ ⟨_, _, _, rfl⟩
  have hplace : ∀ (ahead : UInt16) (d : Connection F), TakesIn d (d.place ahead packet) :=
    fun ahead d => takesIn_ite (TakesIn.trans ⟨_, _, _, rfl⟩ (takesIn_takeHeld _))
      (takesIn_ite ⟨_, _, _, rfl⟩ ⟨_, _, _, rfl⟩)
  have hclosed : ∀ d : Connection F, TakesIn d d.noteClosed :=
    fun d => takesIn_ite ⟨_, _, _, rfl⟩ ⟨_, _, _, rfl⟩
  have howe : TakesIn c c.oweAck := ⟨_, _, _, rfl⟩
  refine takesIn_ite howe (takesIn_ite howe ?_)
  exact ((howe.trans (hfin _)).trans (hplace _ _)).trans (hclosed _)

theorem takesIn_onKind : TakesIn c (c.onKind packet) := by
  rw [onKind]
  split
  · exact takesIn_receive packet
  · exact takesIn_receive packet
  · exact ⟨_, _, _, rfl⟩
  · exact ⟨_, _, _, rfl⟩
  · exact ⟨_, _, _, rfl⟩

theorem toSending_onKind (c : Connection F) :
    ∃ owed, (c.onKind packet).streams.toSending =
      { c.streams.toSending with ackPending := owed } := by
  obtain ⟨r, bytes, owed, heq⟩ := takesIn_onKind (c := c) packet
  exact ⟨owed, congrArg (fun s : Core => s.streams.toSending) heq⟩

section

variable [F64 F]

theorem opened_of_ne {state : ConnState} (hend : state ≠ .ended) (hconn : state ≠ .connecting) :
    state = .opened := by
  cases state with
  | opened => rfl
  | ended => exact absurd rfl hend
  | connecting => exact absurd rfl hconn

variable (packet : Packet)

theorem turns_onAnswer (hconn : c.state = .connecting) :
    Turns c.core ((c.hear now packet).onAnswer now packet).core := by
  rw [onAnswer]
  split
  · exact .head (@Turn.opened c.core (packet.seqNr - 1) hconn)
      (turns_processAck (c := (c.hear now packet).openBy packet) now packet)
  · exact .refl

theorem state_processAck : (c.processAck now packet).state = c.state := by
  by_cases hsent : (!c.inFlight.isEmpty) = true ∧ (!seqLe packet.ackNr (c.seqNr - 1)) = true
  · rw [processAck, if_pos hsent]
  · rcases loses_processAck now hsent with heq | ⟨before, p, after, -, -, heq⟩
    all_goals exact congrArg Core.state heq

theorem turns_onOpen (hopen : c.state = .opened) :
    Turns c.core ((processAck now packet
      { c.hear now packet with peerWindow := packet.wndSize }).onKind packet).core := by
  obtain ⟨r, bytes, owed, heq⟩ := takesIn_onKind packet (c := processAck now packet
    { c.hear now packet with peerWindow := packet.wndSize })
  have hack := turns_processAck now packet
    (c := { c.hear now packet with peerWindow := packet.wndSize })
  rw [heq]
  exact hack.tail (.received ((state_processAck now packet).trans hopen))

theorem turns_onPacket : Turns c.core (c.onPacket now packet).core := by
  simp only [onPacket]
  split
  · rename_i hend
    exact (sends_ite (w := 0) fun h =>
      sends_sendState now (by simp [hend]) fun _ => h.1).turns
  · split
    · exact .head (.reset (s := c.core)) (sends_fail (w := 0)
        (c := { c.hear now packet with inFlight := [], curWindow := 0 }) _).turns
    · split
      · exact (turns_onAnswer now packet ‹_›).trans (sends_flush now).turns
      · exact (turns_onOpen now packet (opened_of_ne ‹_› ‹_›)).trans (sends_flush now).turns

omit [F64 F] in
theorem turns_abort : Turns c.core (c.abort now).core := by
  have hsays : Turns c.core
      (if c.state ≠ .ended then c.queue now .reset c.seqNr [] else c).core := by
    split
    · exact .single (.aborts (says_packetOf now .reset c.seqNr [] c))
    · exact .refl
  exact hsays.trans (sends_fail (w := 0) _).turns

end

section

variable [F64 F] (c : Connection F)

theorem moves_flush : Moves c.streams (c.flush now).streams :=
  (sends_flush now).moves

theorem moves_onTick : Moves c.streams (c.onTick now).streams := by
  obtain ⟨w, hsends⟩ := turns_onTick now (c := c)
  exact hsends.moves

end

theorem map_modify_eq {α : Type} (g : Sent → α) (f : Sent → Sent) (hf : ∀ p, g (f p) = g p)
    (flight : List Sent) (i : ℕ) : (flight.modify i f).map g = flight.map g := by
  apply ext_getElem?
  intro j
  simp only [getElem?_map, getElem?_modify]
  split
  · simp [Function.comp_def, hf]
  · simp

theorem popAcked_fst (ack : UInt16) (flight : List Sent) (tally : Tally) :
    (popAcked now ack flight tally).1 = flight.dropWhile fun p => seqLe p.seq ack := by
  induction flight generalizing tally with
  | nil => rfl
  | cons p rest ih =>
    simp only [popAcked, dropWhile_cons]
    split
    · exact ih _
    · rfl

theorem marked_sackOne (found : List Sent × Tally) (seq : UInt16) :
    Marked [seq] (found.1.map flying) ((sackOne now found seq).1.map flying) := by
  simp only [sackOne]
  split
  · exact .refl _ _
  · rename_i p hfind
    split
    · exact .refl _ _
    · refine ⟨?_, fun j x hx hsacked => ?_⟩
      · rw [List.map_map, List.map_map]
        exact map_modify_eq _ (fun p => { p with sacked := true, lost := false })
          (fun _ => rfl) _ _
      · rw [getElem?_map, getElem?_modify] at hx
        rw [getElem?_map]
        rcases hj : found.1[j]? with _ | q
        · simp [hj] at hx
        · refine ⟨q.flying, rfl, ?_⟩
          rw [hj] at hx
          by_cases hidx : found.1.findIdx (fun p => p.seq == seq) = j
          · -- the packet that was marked has that number
            have hq : (q.seq == seq) = true := by
              obtain ⟨hlt, rfl⟩ := List.getElem?_eq_some_iff.1 hj
              subst hidx
              exact findIdx_getElem (p := fun p : Sent => p.seq == seq) (w := hlt)
            right
            simp [hidx] at hx
            subst hx
            exact mem_singleton.2 (eq_of_beq hq)
          · left
            simp [hidx] at hx
            subst hx
            exact hsacked

theorem marked_sackAll (seqs : List UInt16) (found : List Sent × Tally) :
    Marked seqs (found.1.map flying) ((seqs.foldl (sackOne now) found).1.map flying) := by
  induction seqs generalizing found with
  | nil => exact .refl _ _
  | cons seq seqs ih => exact (marked_sackOne now found seq).trans (ih _)

theorem marked_acknowledged (c : Connection F) :
    Marked (sackedNumbers packet.ackNr packet.sack)
      (c.streams.flight.dropWhile fun x => seqLe x.seq packet.ackNr)
      ((c.acknowledged now packet).1.map flying) := by
  have hpop : (popAcked now packet.ackNr c.inFlight ⟨c.curWindow, c.finAcked, 0, none⟩).1.map
      flying = c.streams.flight.dropWhile fun x => seqLe x.seq packet.ackNr := by
    rw [popAcked_fst, streams, dropWhile_map]
    rfl
  rw [← hpop]
  exact marked_sackAll now _ _

section

variable [F64 F]

theorem streams_processAck (packet : Packet) (c : Connection F) :
    AckedBy packet c.streams (c.processAck now packet).streams := by
  have hempty : (!c.inFlight.isEmpty) = true ↔ c.streams.flight ≠ [] := by simp [streams]
  by_cases hnever : (!c.inFlight.isEmpty) = true ∧ (!seqLe packet.ackNr (c.seqNr - 1)) = true
  · rw [AckedBy, processAck, if_pos hnever, acked, if_pos ⟨hempty.1 hnever.1, hnever.2⟩]
    exact ⟨_, .refl _ _, rfl⟩
  · rw [AckedBy, acked, if_neg (by rwa [← hempty])]
    refine ⟨_, marked_acknowledged now packet c, ?_⟩
    exact (loses_processAck now hnever).streams

variable {packet : Packet} {c : Connection F}

theorem moves_onPacket_opened (hopen : c.state = .opened) (hreset : packet.kind ≠ .reset) :
    ∃ d : Connection F, AckedBy packet c.streams d.streams ∧
      Moves (d.onKind packet).streams (c.onPacket now packet).streams := by
  have hnot : (c.hear now packet).state ≠ .connecting := by
    rw [show (c.hear now packet).state = _ from hopen]
    simp
  refine ⟨_, streams_processAck now packet
    { c.hear now packet with peerWindow := packet.wndSize }, ?_⟩
  simp only [onPacket, if_neg (by simp [hopen] : ¬ c.state = .ended), if_neg hreset, if_neg hnot]
  exact moves_flush now _

theorem moves_onPacket_answer (hconn : c.state = .connecting) (hstate : packet.kind = .state) :
    ∃ s, AckedBy packet (c.openBy packet).streams s ∧ Moves s (c.onPacket now packet).streams := by
  have hsame : (c.hear now packet).state = .connecting := hconn
  refine ⟨_, streams_processAck now packet ((c.hear now packet).openBy packet), ?_⟩
  simp only [onPacket, if_neg (by simp [hconn] : ¬ c.state = .ended),
    if_neg (by simp [hstate] : ¬ packet.kind = .reset), if_pos hsame, onAnswer, if_pos hstate]
  exact moves_flush now _

theorem moves_onPacket_ignored (hconn : c.state = .connecting) (hreset : packet.kind ≠ .reset)
    (hstate : packet.kind ≠ .state) : Moves c.streams (c.onPacket now packet).streams := by
  have hsame : (c.hear now packet).state = .connecting := hconn
  simp only [onPacket, if_neg (by simp [hconn] : ¬ c.state = .ended), if_neg hreset,
    if_pos hsame, onAnswer, if_neg hstate]
  exact moves_flush now (c.hear now packet)

theorem moves_onPacket_ended
    (hend : c.state = .ended) : Moves c.streams (c.onPacket now packet).streams := by
  rw [onPacket, if_pos hend]
  exact (sends_ite (w := 0) fun h =>
    sends_sendState now (by simp [hend]) fun _ => h.1).moves

end

end Connection

end BitTorrent.Utp
