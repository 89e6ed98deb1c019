import BitTorrent.Utp.Calls

/-!
# Packets held out of order

What is held is at least two and at most sixty-four past the last packet received in order, and
there is room for it with what is readable.
-/

namespace BitTorrent.Utp.Connection

open Streams List

variable {F : Type} {c d : Connection F}

/-- The bytes held out of order. -/
def heldBytes (reorder : AList fun _ : UInt16 => List UInt8) : ℕ :=
  (reorder.entries.map fun e => e.2.length).sum

variable {payload : List UInt8} {seq : UInt16}

theorem heldBytes_insert {reorder : AList fun _ : UInt16 => List UInt8} (h : seq ∉ reorder) :
    heldBytes (reorder.insert seq payload) = payload.length + heldBytes reorder := by
  rw [heldBytes, AList.entries_insert_of_notMem h, map_cons, sum_cons, heldBytes]

theorem heldBytes_erase {reorder : AList fun _ : UInt16 => List UInt8}
    (h : reorder.lookup seq = some payload) :
    heldBytes reorder = payload.length + heldBytes (reorder.erase seq) := by
  have hmem : seq ∈ reorder := AList.lookup_isSome.1 (by rw [h]; rfl)
  obtain ⟨payload', before, after, -, hentries, herase⟩ := exists_of_kerase hmem
  have hsame : payload' = payload := by
    have hin : Sigma.mk seq payload' ∈ reorder.entries := by simp [hentries]
    have hlookup := AList.mem_lookup_iff.2 hin
    rw [h] at hlookup
    exact (Option.some.inj hlookup).symm
  have herase' : (reorder.erase seq).entries = before ++ after := herase
  rw [heldBytes, heldBytes, hentries, herase', hsame]
  simp only [map_append, map_cons, sum_append, sum_cons]
  omega

/-- **What is held is in order**, from `lo` past the last packet received
in order on. -/
structure HeldFrom (lo : ℕ) (c : Connection F) : Prop where
  near : ∀ key ∈ c.reorder.keys, lo ≤ (key - c.ackNr).toNat ∧ (key - c.ackNr).toNat ≤ 64
  bytes : c.reorderBytes = heldBytes c.reorder
  room : c.inbox.length + heldBytes c.reorder ≤ receiveBuffer

/-- Two states of a connection that hold the same. -/
structure SameHeld (c d : Connection F) : Prop where
  receiving : d.streams.toReceiving = c.streams.toReceiving
  bytes : d.reorderBytes = c.reorderBytes

namespace SameHeld

theorem refl (c : Connection F) : SameHeld c c := ⟨rfl, rfl⟩

theorem ite {P : Prop} [Decidable P] (h : SameHeld c d) : SameHeld c (if P then d else c) := by
  split
  · exact h
  · exact refl c

theorem ackNr (h : SameHeld c d) : d.ackNr = c.ackNr := congrArg Receiving.ackNr h.receiving

theorem reorder (h : SameHeld c d) : d.reorder = c.reorder := congrArg Receiving.reorder h.receiving

variable {lo : ℕ}

theorem heldFrom (h : SameHeld c d) (hc : HeldFrom lo c) : HeldFrom lo d := by
  have hinbox : d.inbox = c.inbox := congrArg Receiving.inbox h.receiving
  refine ⟨?_, ?_, ?_⟩
  · rw [h.reorder, h.ackNr]
    exact hc.near
  · rw [h.bytes, h.reorder]
    exact hc.bytes
  · rw [hinbox, h.reorder]
    exact hc.room

end SameHeld

theorem sameHeld_of_sends {w : ℕ} (h : Core.AllSends w c.core d.core) : SameHeld c d := by
  have hsame : ∀ t, Core.AllSends w c.core t →
      t.toReceiving = c.core.toReceiving ∧ t.reorderBytes = c.core.reorderBytes := by
    intro t ht
    induction ht with
    | refl => exact ⟨rfl, rfl⟩
    | tail _ hstep ih => cases hstep <;> exact ih
  exact ⟨(hsame _ h).1, (hsame _ h).2⟩

section

variable [F64 F]

theorem sameHeld_processAck (now : ℕ) (packet : Packet) : SameHeld c (c.processAck now packet) := by
  by_cases hsent : (!c.inFlight.isEmpty) = true ∧ (!seqLe packet.ackNr (c.seqNr - 1)) = true
  · rw [processAck, if_pos hsent]
    exact .refl c
  · rcases loses_processAck now hsent with heq | ⟨before, p, after, -, -, heq⟩
    all_goals exact ⟨congrArg Core.toReceiving heq, congrArg Core.reorderBytes heq⟩

end

variable {key ack : UInt16}

theorem near_succ {lo : ℕ} (hlo : lo + 1 ≤ (key - ack).toNat) (hhi : (key - ack).toNat ≤ 64) :
    lo ≤ (key - (ack + 1)).toNat ∧ (key - (ack + 1)).toNat ≤ 64 := by
  have := ack.toNat_lt
  have := key.toNat_lt
  simp only [UInt16.toNat_sub, UInt16.toNat_add] at hlo hhi ⊢
  change _ ≤ (65536 - (ack.toNat + 1) % 65536 + key.toNat) % 65536 ∧
    (65536 - (ack.toNat + 1) % 65536 + key.toNat) % 65536 ≤ 64
  omega

theorem eq_of_near_one (h : (key - ack).toNat = 1) : key = ack + 1 := by
  apply UInt16.toNat_inj.1
  have := ack.toNat_lt
  have := key.toNat_lt
  simp only [UInt16.toNat_sub] at h
  simp only [UInt16.toNat_add]
  change key.toNat = (ack.toNat + 1) % 65536
  omega

theorem HeldFrom.turn (h : HeldFrom 1 c) (hlookup : c.reorder.lookup (c.ackNr + 1) = some payload) :
    HeldFrom 1 { c with
      reorder := c.reorder.erase (c.ackNr + 1)
      reorderBytes := c.reorderBytes - payload.length
      inbox := c.inbox ++ payload
      ackNr := c.ackNr + 1 } := by
  have hbytes := heldBytes_erase hlookup
  refine ⟨fun key hkey => ?_, ?_, ?_⟩
  · obtain ⟨hne, hmem⟩ := AList.mem_erase.1 (AList.mem_keys.2 hkey)
    obtain ⟨hlo, hhi⟩ := h.near key hmem
    refine near_succ ?_ hhi
    rcases Nat.lt_or_ge 1 (key - c.ackNr).toNat with hlt | hge
    · exact hlt
    · exact absurd (eq_of_near_one (by omega)) hne
  · show c.reorderBytes - payload.length = heldBytes (c.reorder.erase (c.ackNr + 1))
    rw [h.bytes, hbytes]
    push_cast
    omega
  · have hroom := h.room
    show (c.inbox ++ payload).length + heldBytes (c.reorder.erase (c.ackNr + 1)) ≤ receiveBuffer
    rw [length_append]
    omega

theorem HeldFrom.takeHeld {fuel : ℕ} (h : HeldFrom 1 c) (hfuel : c.reorder.keys.length ≤ fuel) :
    HeldFrom 2 (takeHeld fuel c) := by
  induction fuel generalizing c with
  | zero =>
    have hnone : c.reorder.keys = [] := length_eq_zero_iff.1 (by omega)
    exact ⟨fun key hkey => absurd hkey (by simp [takeHeld, hnone]), h.bytes, h.room⟩
  | succ fuel ih =>
    rw [takeHeld]
    split
    · rename_i hnone
      refine ⟨fun key hkey => ?_, h.bytes, h.room⟩
      obtain ⟨hlo, hhi⟩ := h.near key hkey
      refine ⟨?_, hhi⟩
      by_contra hlt
      have heq : key = c.ackNr + 1 := eq_of_near_one (by omega)
      rw [heq] at hkey
      exact AList.lookup_eq_none.1 hnone hkey
    · rename_i payload hlookup
      refine ih (h.turn hlookup) ?_
      have hmem : c.ackNr + 1 ∈ c.reorder.keys := AList.lookup_isSome.1 (by rw [hlookup]; rfl)
      rw [AList.keys_erase, length_erase_of_mem hmem]
      omega

variable {packet : Packet}

theorem HeldFrom.room_of_fits (h : HeldFrom lo c)
    (hfits : ¬ c.receiveWindow.toNat < packet.payload.length) :
    c.inbox.length + heldBytes c.reorder + packet.payload.length ≤ receiveBuffer := by
  have hroom := h.room
  rw [receiveWindow, h.bytes, UInt32.toNat_ofNat'] at hfits
  rw [receiveBuffer] at hfits hroom ⊢
  omega

theorem HeldFrom.place {ahead : UInt16} (h : HeldFrom 2 c)
    (hahead : ahead = packet.seqNr - c.ackNr) (hne : ahead ≠ 0) (hle : ¬ reorderWindow < ahead)
    (hfits : ¬ c.receiveWindow.toNat < packet.payload.length) :
    HeldFrom 2 (c.place ahead packet) := by
  have hroom := h.room_of_fits hfits
  rw [Connection.place]
  split
  · rename_i hone
    -- the packet follows on, so what is held is one nearer
    have hseq : packet.seqNr = c.ackNr + 1 := eq_of_near_one (by rw [← hahead, hone]; rfl)
    refine HeldFrom.takeHeld ⟨fun key hkey => ?_, h.bytes, ?_⟩ (Nat.le_refl _)
    · obtain ⟨hlo, hhi⟩ := h.near key hkey
      show 1 ≤ (key - packet.seqNr).toNat ∧ (key - packet.seqNr).toNat ≤ 64
      rw [hseq]
      exact near_succ hlo hhi
    · show (c.inbox ++ packet.payload).length + heldBytes c.reorder ≤ receiveBuffer
      rw [length_append]
      omega
  · rename_i hone
    split
    · rename_i hnone
      have hfresh : packet.seqNr ∉ c.reorder :=
        AList.lookup_eq_none.1 (Option.isNone_iff_eq_none.1 hnone)
      refine ⟨fun key hkey => ?_, ?_, ?_⟩
      · rcases AList.mem_insert .. |>.1 (AList.mem_keys.2 hkey) with rfl | hmem
        · show 2 ≤ (packet.seqNr - c.ackNr).toNat ∧ (packet.seqNr - c.ackNr).toNat ≤ 64
          rw [← hahead]
          rw [reorderWindow, UInt16.lt_iff_toNat_lt] at hle
          have hzero : ahead.toNat ≠ 0 := fun h => hne (UInt16.toNat_inj.1 h)
          have hne_one : ahead.toNat ≠ 1 := fun h => hone (UInt16.toNat_inj.1 h)
          change ¬ 64 < ahead.toNat at hle
          omega
        · exact h.near key hmem
      · show c.reorderBytes + packet.payload.length = _
        rw [heldBytes_insert hfresh, h.bytes]
        push_cast
        omega
      · show c.inbox.length + heldBytes (c.reorder.insert packet.seqNr packet.payload) ≤ _
        rw [heldBytes_insert hfresh]
        omega
    · exact h

theorem HeldFrom.receive (h : HeldFrom 2 c) : HeldFrom 2 (c.receive packet) := by
  have hfin : HeldFrom 2 (c.oweAck.noteFin packet) := by
    rw [noteFin]
    split <;> exact ⟨h.near, h.bytes, h.room⟩
  have hsame : (c.oweAck.noteFin packet).ackNr = c.ackNr ∧
      (c.oweAck.noteFin packet).receiveWindow = c.receiveWindow := by
    rw [noteFin]
    split <;> exact ⟨rfl, rfl⟩
  simp only [Connection.receive]
  split
  · exact ⟨h.near, h.bytes, h.room⟩
  · rename_i hahead
    rw [not_or] at hahead
    split
    · exact ⟨h.near, h.bytes, h.room⟩
    · rename_i hfits
      have hplace : HeldFrom 2 ((c.oweAck.noteFin packet).place (packet.seqNr - c.ackNr) packet) :=
        hfin.place (by rw [hsame.1]) hahead.1 hahead.2 (by rw [hsame.2]; exact hfits)
      rw [noteClosed]
      split
      · exact ⟨hplace.near, hplace.bytes, hplace.room⟩
      · exact hplace

theorem HeldFrom.onKind (h : HeldFrom 2 c) : HeldFrom 2 (c.onKind packet) := by
  rw [Connection.onKind]
  split
  · exact h.receive
  · exact h.receive
  · exact ⟨h.near, h.bytes, h.room⟩
  · exact h
  · exact h

/-- What holds of what is held, whatever is called. -/
structure Orderly (c : Connection F) : Prop where
  held : HeldFrom 2 c
  /-- Nothing is held before the connection is open. -/
  connecting : c.state = .connecting → c.reorder.keys = []

theorem SameHeld.orderly (h : SameHeld c d) (hc : c.Orderly)
    (hstate : d.state = .connecting → c.state = .connecting) : d.Orderly := by
  refine ⟨h.heldFrom hc.held, fun hconn => ?_⟩
  rw [h.reorder]
  exact hc.connecting (hstate hconn)

section

variable [F64 F]

omit [F64 F] in
theorem connecting_of_moves (h : Moves c.streams d.streams) (hd : d.state = .connecting) :
    c.state = .connecting := by
  by_contra hne
  exact h.state_ne_connecting hne hd

theorem Orderly.onPacket {now : ℕ} (h : c.Orderly) :
    (c.onPacket now packet).Orderly := by
  cases hstate : c.state with
  | ended =>
    have hmoves : Moves c.streams (c.onPacket now packet).streams := moves_onPacket_ended now hstate
    refine SameHeld.orderly ?_ h (connecting_of_moves hmoves)
    rw [Connection.onPacket, if_pos hstate]
    exact .ite ⟨rfl, rfl⟩
  | connecting =>
    have hne : c.state ≠ .ended := by simp [hstate]
    have hhear : (c.hear now packet).state = .connecting := hstate
    simp only [Connection.onPacket, if_neg hne, if_pos hhear]
    split
    · exact ⟨⟨h.held.near, h.held.bytes, h.held.room⟩, fun hconn => by simp [fail] at hconn⟩
    · have hnone := h.connecting hstate
      have hheld : HeldFrom 2 ((c.hear now packet).onAnswer now packet) := by
        rw [onAnswer]
        split
        · refine (sameHeld_processAck now packet).heldFrom ⟨fun key hkey => ?_, h.held.bytes,
            h.held.room⟩
          exact absurd hkey (by simp [openBy, hear, hnone])
        · exact ⟨h.held.near, h.held.bytes, h.held.room⟩
      have hkeys : ((c.hear now packet).onAnswer now packet).reorder.keys = [] := by
        rw [onAnswer]
        split
        · rw [(sameHeld_processAck now packet).reorder]
          exact hnone
        · exact hnone
      refine ⟨(sameHeld_of_sends (sends_flush now)).heldFrom hheld, fun _ => ?_⟩
      rw [(sameHeld_of_sends (sends_flush now)).reorder, hkeys]
  | opened =>
    have hne : c.state ≠ .ended := by simp [hstate]
    have hhear : (c.hear now packet).state ≠ .connecting := by
      rw [show (c.hear now packet).state = _ from hstate]
      simp
    by_cases hreset : packet.kind = .reset
    · simp only [Connection.onPacket, if_neg hne, if_pos hreset]
      exact ⟨⟨h.held.near, h.held.bytes, h.held.room⟩, fun hconn => by simp [fail] at hconn⟩
    · refine ⟨?_, fun hconn => ?_⟩
      · simp only [Connection.onPacket, if_neg hne, if_neg hreset, if_neg hhear]
        refine (sameHeld_of_sends (sends_flush now)).heldFrom (HeldFrom.onKind ?_)
        exact (sameHeld_processAck now packet).heldFrom ⟨h.held.near, h.held.bytes, h.held.room⟩
      · obtain ⟨e, hack, hmoves⟩ := moves_onPacket_opened now hstate hreset
        have hkind := connecting_of_moves hmoves hconn
        obtain ⟨owed, howed⟩ := toSending_onKind packet e
        obtain ⟨flight, -, heq⟩ := hack.eq
        have hsame : (e.onKind packet).streams.state = c.streams.state := by
          rw [show (e.onKind packet).streams.state = _ from congrArg Sending.state howed, heq]
        exact absurd (hsame.symm.trans hkind) (by simp [streams, hstate])

theorem Orderly.call (h : c.Orderly) (call : Call) : (c.call call).Orderly := by
  cases call with
  | write data =>
    have hsame : SameHeld c (c.write data).1 := by
      rw [write]
      split <;> exact ⟨rfl, rfl⟩
    refine hsame.orderly h ?_
    simp only [write]
    split <;> exact id
  | read len =>
    refine ⟨⟨h.held.near, h.held.bytes, ?_⟩, h.connecting⟩
    have hroom := h.held.room
    show (c.inbox.drop (min len c.inbox.length)).length + heldBytes c.reorder ≤ receiveBuffer
    rw [length_drop]
    omega
  | abort now =>
    have hsame : SameHeld c (c.abort now) := by
      rw [abort]
      split <;> exact ⟨rfl, rfl⟩
    exact hsame.orderly h fun hconn => by simp [abort, fail] at hconn
  | flush now =>
    exact (sameHeld_of_sends (sends_flush now)).orderly h (connecting_of_moves (moves_flush now c))
  | tick now =>
    obtain ⟨w, hsends⟩ := turns_onTick now (c := c)
    exact (sameHeld_of_sends hsends).orderly h (connecting_of_moves hsends.moves)
  | packet now p => exact h.onPacket
  | close | takeOutgoing => exact ⟨⟨h.held.near, h.held.bytes, h.held.room⟩, h.connecting⟩

theorem orderly_of_starts (h : c.Starts) : c.Orderly := by
  have hnone : ∀ d : Connection F, d.reorder = ∅ → d.reorderBytes = 0 → d.inbox = [] →
      d.Orderly := by
    intro d hreorder hbytes hinbox
    refine ⟨⟨fun key hkey => ?_, ?_, ?_⟩, fun _ => ?_⟩
    · rw [hreorder] at hkey
      exact absurd hkey not_mem_nil
    · rw [hbytes, hreorder]
      rfl
    · rw [hinbox, hreorder]
      decide
    · rw [hreorder]
      rfl
  cases h with
  | connect | accept => exact hnone _ rfl rfl rfl

end

/-- A packet that is sent where the receiving half is `q`. -/
def Tells (q : Receiving) (p : Packet) : Prop :=
  p.ackNr = q.ackNr ∧ (p.kind = .state → p.sack = sackMask q.ackNr q.reorder.keys)

theorem tells_of_stamps {s : Streams} {item : Item} {p : Packet}
    (h : s.Stamps seq item p) : Tells s.toReceiving p := by
  refine ⟨h.ackNr, fun hstate => ?_⟩
  rw [h.sack, if_pos (h.kind ▸ hstate)]

/-- Packets are put out that tell of the receiving half, and that is left
as it is. -/
def PutsOut (s t : Streams) : Prop :=
  t.toReceiving = s.toReceiving ∧
    ∃ new, t.outgoing = s.outgoing ++ new ∧ ∀ p ∈ new, Tells s.toReceiving p

theorem putsOut_of_moves {s t : Streams} (h : Moves s t) : PutsOut s t := by
  refine h.invariant (P := PutsOut s) (fun u v hu hmove => ?_) ⟨rfl, [], by simp, by simp⟩
  obtain ⟨hreceiving, new, hout, htells⟩ := hu
  refine ⟨hmove.toReceiving.trans hreceiving, ?_⟩
  have hone : ∀ {seq item} {p : Packet}, u.Stamps seq item p →
      u.outgoing ++ [p] = s.outgoing ++ (new ++ [p]) ∧ ∀ q ∈ new ++ [p], Tells s.toReceiving q := by
    intro seq item p hp
    refine ⟨by rw [hout, append_assoc], forall_mem_append.2 ⟨htells, forall_mem_singleton.2 ?_⟩⟩
    rw [← hreceiving]
    exact tells_of_stamps hp
  cases hmove with
  | again hx hp | data hopen hne hp | fin hopen hne hpending hsent hp | state hconn hend hp
  | syn hconn hp => exact ⟨_, hone hp⟩
  | ended herror => exact ⟨new, hout, htells⟩

section

variable [F64 F]

/-- The packets that a call puts out. -/
def sends (c : Connection F) (call : Call) : List Packet :=
  (c.call call).outgoing.drop c.outgoing.length

theorem putsOut_onPacket (now : ℕ) (packet : Packet) :
    ∃ new, (c.onPacket now packet).outgoing = c.outgoing ++ new ∧
      ∀ p ∈ new, Tells (c.onPacket now packet).streams.toReceiving p := by
  have hmoves : ∀ s : Streams, s.outgoing = c.outgoing → Moves s (c.onPacket now packet).streams →
      ∃ new, (c.onPacket now packet).outgoing = c.outgoing ++ new ∧
        ∀ p ∈ new, Tells (c.onPacket now packet).streams.toReceiving p := by
    intro s hs h
    obtain ⟨hreceiving, new, hout, htells⟩ := putsOut_of_moves h
    rw [hs] at hout
    rw [hreceiving]
    exact ⟨new, hout, htells⟩
  by_cases hend : c.state = .ended
  · exact hmoves _ rfl (moves_onPacket_ended now hend)
  by_cases hreset : packet.kind = .reset
  · refine ⟨[], ?_, by simp⟩
    simp only [onPacket, if_neg hend, if_pos hreset, fail, hear, append_nil]
  cases hstate : c.state with
  | ended => exact absurd hstate hend
  | connecting =>
    by_cases hkind : packet.kind = .state
    · obtain ⟨s, hack, h⟩ := moves_onPacket_answer now hstate hkind
      obtain ⟨flight, -, rfl⟩ := hack.eq
      exact hmoves _ rfl h
    · exact hmoves _ rfl (moves_onPacket_ignored now hstate hreset hkind)
  | opened =>
    obtain ⟨d, hack, h⟩ := moves_onPacket_opened now hstate hreset
    obtain ⟨flight, -, heq⟩ := hack.eq
    obtain ⟨owed, howed⟩ := toSending_onKind packet d
    refine hmoves _ ?_ h
    rw [show (d.onKind packet).streams.outgoing = _ from congrArg Sending.outgoing howed, heq]
    rfl

theorem putsOut_call {call : Call} (hcall : call ≠ .takeOutgoing) :
    (c.call call).outgoing = c.outgoing ++ c.sends call ∧
      ∀ p ∈ c.sends call, Tells (c.call call).streams.toReceiving p := by
  suffices h : ∃ new, (c.call call).outgoing = c.outgoing ++ new ∧
      ∀ p ∈ new, Tells (c.call call).streams.toReceiving p by
    obtain ⟨new, hout, htells⟩ := h
    rw [sends, hout, drop_left]
    exact ⟨rfl, htells⟩
  have hmoves : ∀ d : Connection F, Moves c.streams d.streams →
      ∃ new, d.outgoing = c.outgoing ++ new ∧ ∀ p ∈ new, Tells d.streams.toReceiving p := by
    intro d h
    obtain ⟨hreceiving, new, hout, htells⟩ := putsOut_of_moves h
    rw [hreceiving]
    exact ⟨new, hout, htells⟩
  cases call with
  | write data =>
    refine ⟨[], ?_, by simp⟩
    simp only [call, write, append_nil]
    split <;> rfl
  | read len => exact ⟨[], by simp [call, read], by simp⟩
  | close => exact ⟨[], by simp [call, close], by simp⟩
  | abort now =>
    simp only [call, abort]
    split
    · refine ⟨[c.packetOf now .reset c.seqNr []], rfl, fun p hp => ?_⟩
      rw [mem_singleton.1 hp]
      exact ⟨rfl, fun hstate => PacketType.noConfusion hstate⟩
    · exact ⟨[], by simp [fail], by simp⟩
  | flush now => exact hmoves _ (moves_flush now c)
  | tick now => exact hmoves _ (moves_onTick now c)
  | packet now p => exact putsOut_onPacket now p
  | takeOutgoing => exact absurd rfl hcall

end

/-- **A state packet says what a connection holds**, also once it has been
encoded. -/
def Acknowledges (c : Connection F) (p : Packet) : Prop :=
  p.kind = .state → Packet.decode p.encode = .ok p ∧ p.ackNr = c.ackNr ∧
    ∀ i : UInt16, HasBit p.sack i.toNat ↔ c.ackNr + 2 + i ∈ c.reorder.keys

theorem HeldFrom.acknowledges {p : Packet} (h : HeldFrom 2 c)
    (hp : Tells c.streams.toReceiving p) : c.Acknowledges p := by
  intro hstate
  have hsack := hp.2 hstate
  refine ⟨?_, hp.1, fun i => ?_⟩
  · have hwritten : p.sackWritten = p.sack := by
      rw [Packet.sackWritten, hsack]
      exact take_of_length_le (length_sackMask_le _ _)
    rw [Packet.decode_encode, hwritten]
  · rw [hsack]
    exact hasBit_sackMask_iff h.near i

/-- **No index and no subtraction is out of range**: every packet held has
a place in the mask, and what the loop of `receive` takes out is counted
among the bytes held. -/
structure WithinRange (c : Connection F) : Prop where
  mask : ∀ key ∈ c.reorder.keys,
    2 ≤ (key - c.ackNr).toNat ∧ ((key - c.ackNr).toNat - 2) / 8 < c.selectiveAck.length
  taken : ∀ (packet : Packet) (turns : ℕ) (payload : List UInt8) (d : Connection F),
    packet.seqNr = c.ackNr + 1 → packet.payload.length ≤ c.receiveWindow.toNat →
    d = takeHeld turns { c with inbox := c.inbox ++ packet.payload, ackNr := packet.seqNr } →
    d.reorder.lookup (d.ackNr + 1) = some payload → (payload.length : ℤ) ≤ d.reorderBytes

theorem HeldFrom.turns {turns : ℕ} (h : HeldFrom 1 c) :
    HeldFrom 1 (Connection.takeHeld turns c) := by
  induction turns generalizing c with
  | zero => exact h
  | succ turns ih =>
    rw [Connection.takeHeld]
    split
    · exact h
    · exact ih (h.turn ‹_›)

theorem HeldFrom.withinRange (h : HeldFrom 2 c) : c.WithinRange := by
  refine ⟨fun key hkey => ⟨(h.near key hkey).1, ?_⟩, ?_⟩
  · exact lt_length_sackMask (fun key hkey => (h.near key hkey).2) hkey
  · intro packet turns payload d hseq hfits hd hlookup
    have hroom := h.room_of_fits (Nat.not_lt.2 hfits)
    have hnear : HeldFrom 1
        { c with inbox := c.inbox ++ packet.payload, ackNr := packet.seqNr } := by
      refine ⟨fun key hkey => ?_, h.bytes, ?_⟩
      · show 1 ≤ (key - packet.seqNr).toNat ∧ (key - packet.seqNr).toNat ≤ 64
        rw [hseq]
        exact near_succ (h.near key hkey).1 (h.near key hkey).2
      · show (c.inbox ++ packet.payload).length + heldBytes c.reorder ≤ receiveBuffer
        rw [length_append]
        omega
    have hturns : HeldFrom 1 d := hd ▸ hnear.turns
    rw [hturns.bytes, heldBytes_erase hlookup]
    push_cast
    omega

/-- **What a connection holds out of order**, in every state of it: it is
near, there is room for it, every state packet sent says exactly what it
is, and nothing that is worked out from it is out of range. -/
theorem held_of_run [F64 F] {c₀ : Connection F} {calls : List Call} (hstart : c₀.Starts)
    (hrun : (calling F).Run c₀ calls c) :
    (∀ key ∈ c.reorder.keys, 2 ≤ (key - c.ackNr).toNat ∧ (key - c.ackNr).toNat ≤ 64) ∧
      c.reorderBytes = heldBytes c.reorder ∧
      c.inbox.length + heldBytes c.reorder ≤ receiveBuffer ∧
      (∀ p ∈ c₀.outgoing, c₀.Acknowledges p) ∧
      (∀ call, ∀ p ∈ c.sends call, (c.call call).Acknowledges p) ∧ c.WithinRange := by
  have horderly : c.Orderly :=
    invariant_of_run (fun _ => orderly_of_starts) (fun _ call h => h.call call) hstart hrun
  refine ⟨horderly.held.near, horderly.held.bytes, horderly.held.room, fun p hp => ?_,
    fun call p hp => ?_, horderly.held.withinRange⟩
  · refine (orderly_of_starts hstart).held.acknowledges ?_
    cases hstart with
    | connect now recvId initialSeq =>
      rw [mem_singleton.1 hp]
      exact ⟨rfl, fun hstate => PacketType.noConfusion hstate⟩
    | accept now syn initialSeq =>
      rw [mem_singleton.1 hp]
      exact ⟨rfl, fun _ => rfl⟩
  · have hcall : call ≠ .takeOutgoing := by
      rintro rfl
      simp [sends, Connection.call, takeOutgoing] at hp
    exact (horderly.call call).held.acknowledges ((putsOut_call hcall).2 p hp)

/-- Two packets arrive before the one they wait for. -/
def twoEarly : List Call :=
  [.packet 0 ⟨.data, 8, 0, 0, 10000, 3, 0, [], [1, 2]⟩,
    .packet 0 ⟨.data, 8, 0, 0, 10000, 65, 0, [], [3]⟩]

theorem held_of_run_sample :
    ∃ c : Connection ℚ,
      (calling ℚ).Run (accept 0 ⟨.syn, 7, 0, 0, 10000, 1, 0, [], []⟩ 9) twoEarly c ∧
      c.reorder.keys = [65, 3] ∧ c.reorderBytes = 3 ∧
      ∀ key ∈ c.reorder.keys, 2 ≤ (key - c.ackNr).toNat ∧ (key - c.ackNr).toNat ≤ 64 := by
  refine ⟨_, run_foldl _ _, ?_, ?_, ?_⟩
  · decide +kernel
  · decide +kernel
  · exact (held_of_run (.accept 0 _ 9) (run_foldl _ _)).1

end BitTorrent.Utp.Connection
