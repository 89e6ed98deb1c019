import BitTorrent.Utp.Flight

/-!
# The send buffer and the windows

What is queued is limited as it is written, and what is in the network as it is flushed: a packet
goes out if the windows have room for it, or if nothing else is in the network.
-/

namespace BitTorrent.Utp.Connection

open Utp.Core List

variable {F : Type} {c d : Connection F} {s t : Core} {w : ℕ}

/-- The lengths of the packets in flight. -/
def lengths (s : Core) : List ℕ := s.inFlight.map fun p => p.payload.length

/-- **What is queued and in flight fits.** -/
structure Buffered (s : Core) : Prop where
  counted : Counted s.inFlight s.curWindow
  short : ∀ n ∈ lengths s, n ≤ maxPayload
  total : s.outbox.length + (lengths s).sum ≤ sendBuffer

theorem lengths_change {before after : List Sent} {p q : Sent} {n : ℤ}
    (h : s.inFlight = before ++ p :: after) (hq : q.payload = p.payload) :
    lengths (s.change before q after n) = lengths s := by
  simp [lengths, change, h, hq]

theorem Buffered.of_lengths (h : Buffered s) (hcounted : Counted t.inFlight t.curWindow)
    (hlengths : lengths t = lengths s) (houtbox : t.outbox = s.outbox) : Buffered t := by
  refine ⟨hcounted, ?_, ?_⟩
  · rw [hlengths]
    exact h.short
  · rw [hlengths, houtbox]
    exact h.total

theorem Buffered.of_launch (h : Buffered s) (hcounted : Counted t.inFlight t.curWindow) {now : ℕ}
    {seq : UInt16} {kind : PacketType} {payload : List UInt8}
    (hflight : t.inFlight = s.inFlight ++ [Sent.first now seq kind payload])
    (hshort : payload.length ≤ maxPayload)
    (hmoved : t.outbox.length + payload.length ≤ s.outbox.length) : Buffered t := by
  have hlengths : lengths t = lengths s ++ [payload.length] := by
    simp [lengths, hflight, Sent.first]
  have htotal := h.total
  refine ⟨hcounted, ?_, ?_⟩
  · rw [hlengths]
    exact forall_mem_append.2 ⟨h.short, forall_mem_singleton.2 (by assumption)⟩
  · rw [hlengths, sum_append, sum_singleton]
    omega

theorem buffered_turn (h : Buffered s) (hturn : Turn s t) : Buffered t := by
  have hcounted := counted_turn h.counted hturn
  have hshort := h.short
  have htotal := h.total
  cases hturn with
  | sends hsends =>
    cases hsends with
    | lost hflight | resent hflight => exact h.of_lengths hcounted (lengths_change hflight rfl) rfl
    | @asked now after p hflight =>
      have hfront : s.inFlight = [] ++ p :: after := hflight
      exact h.of_lengths hcounted (lengths_change hfront rfl) rfl
    | @data now n _ hopen hne hn hroom hp =>
      -- the bytes move from the queue into a packet
      have hlen : (s.outbox.take n).length = n := by
        rw [length_take]
        omega
      refine h.of_launch hcounted rfl (by omega) ?_
      show (s.outbox.drop n).length + _ ≤ _
      rw [hlen, length_drop]
      omega
    | fin hopen hne hpending hsent hp => exact h.of_launch hcounted rfl (Nat.zero_le _) le_rfl
    | again | state | syn | ended => exact h.of_lengths hcounted rfl rfl
  | @popped p rest hflight =>
    have hlengths : lengths s = p.payload.length :: rest.map fun q => q.payload.length := by
      rw [lengths, hflight, map_cons]
    rw [hlengths] at hshort htotal
    rw [sum_cons] at htotal
    refine ⟨hcounted, fun n hn => hshort n (mem_cons_of_mem _ hn), ?_⟩
    show s.outbox.length + (rest.map fun q => q.payload.length).sum ≤ sendBuffer
    omega
  | sacked hflight => exact h.of_lengths hcounted (lengths_change hflight rfl) rfl
  | reset =>
    refine ⟨hcounted, fun n hn => absurd hn not_mem_nil, ?_⟩
    exact Nat.le_trans (Nat.le_add_right _ _) htotal
  | received | opened | aborts => exact h.of_lengths hcounted rfl rfl

theorem buffered_owns (h : Buffered s) (howns : Owns s t) : Buffered t := by
  cases howns with
  | wrote hopen hpending hroom =>
    refine ⟨h.counted, h.short, ?_⟩
    rcases hroom with hroom | rfl
    · show (_ ++ _ : List UInt8).length + (lengths s).sum ≤ sendBuffer
      rw [length_append]
      have : s.outbox.length + (lengths s).sum + _ ≤ sendBuffer := hroom
      omega
    · simpa using h.total
  | read | closed | taken => exact h.of_lengths h.counted rfl rfl

theorem buffered_of_starts [F64 F] (h : c.Starts) : Buffered c.core := by
  refine ⟨counted_of_starts h, ?_, ?_⟩
  · cases h <;> simp [lengths, core, connectFrom, accept, sendSyn, sendState, queue, new,
      Sent.first]
  · cases h <;>
      simp [lengths, core, connectFrom, accept, sendSyn, sendState, queue, new, Sent.first]

theorem curWindow_le_of_sends {b : ℤ} (hs : Buffered s) (hb : s.curWindow ≤ b) (hw : w ≤ b)
    (hone : maxPayload ≤ b) (h : AllSends w s t) : Buffered t ∧ t.curWindow ≤ b := by
  induction h with
  | refl => exact ⟨hs, hb⟩
  | @tail u v _ hstep ih =>
    obtain ⟨hu, hle⟩ := ih
    refine ⟨buffered_turn hu (.sends hstep), ?_⟩
    cases hstep with
    | @lost _ _ p hflight hin =>
      show u.curWindow - p.payload.length ≤ b
      omega
    | @resent _ _ _ p hflight hlost hroom =>
      show u.curWindow + p.payload.length ≤ b
      have hshort := hu.short p.payload.length (by simp [lengths, hflight])
      omega
    | @data now n _ hopen hne hn hroom hp =>
      show u.curWindow + n ≤ b
      omega
    | asked | again | fin | state | syn | ended => exact hle

theorem bytesInNetwork_flush_le [F64 F] (now : ℕ) (h : Buffered d.core) :
    bytesInNetwork (d.flush now).inFlight ≤
      max (bytesInNetwork d.inFlight) (max d.allowed maxPayload) := by
  have hbefore : d.curWindow = bytesInNetwork d.inFlight := h.counted.window
  obtain ⟨hafter, hle⟩ := curWindow_le_of_sends
    (b := (max (bytesInNetwork d.inFlight) (max d.allowed maxPayload) : ℕ)) h
    (by show d.curWindow ≤ _; omega) (by omega) (by omega) (sends_flush now)
  have hcount : (d.flush now).curWindow = bytesInNetwork (d.flush now).inFlight :=
    hafter.counted.window
  have hle' : (d.flush now).curWindow ≤ _ := hle
  omega

/-- **The connection that a call flushes**, if it flushes it, and when. -/
def flushed [F64 F] (c : Connection F) : Call → Option (ℕ × Connection F)
  | .flush now => some (now, c)
  | .tick now =>
    if c.state = .ended ∨ deadAfter ≤ now - c.lastHeard then none
    else
      let c := if c.rtoDeadline.any (· ≤ now) then c.onTimeout now else c
      some (now, if c.state = .opened ∧ keepalive ≤ now - c.lastSent then c.sendState now else c)
  | .packet now p =>
    if c.state = .ended ∨ p.kind = .reset then none
    else if c.state = .connecting then some (now, (c.hear now p).onAnswer now p)
    else some (now, ({ c.hear now p with peerWindow := p.wndSize }.processAck now p).onKind p)
  | _ => none

theorem call_of_flushed [F64 F] {call : Call} {now : ℕ} (h : c.flushed call = some (now, d)) :
    c.call call = d.flush now ∧ Turns c.core d.core := by
  cases call with
  | flush now' =>
    obtain ⟨rfl, rfl⟩ := Prod.mk.inj (Option.some.inj h)
    exact ⟨rfl, .refl⟩
  | tick now' =>
    simp only [flushed] at h
    split at h
    · cases h
    · rename_i halive
      obtain ⟨rfl, rfl⟩ := Prod.mk.inj (Option.some.inj h)
      rw [not_or] at halive
      refine ⟨?_, ?_⟩
      · simp only [call, onTick, if_neg halive.1, if_neg halive.2]
      · refine AllSends.turns (w := 0) (Relation.ReflTransGen.trans
          (sends_ite fun _ => sends_onTimeout now') (sends_ite fun h => ?_))
        exact sends_sendState now' (by simp [h.1]) (by simp [h.1])
  | packet now' p =>
    simp only [flushed] at h
    split at h
    · cases h
    · rename_i hlive
      rw [not_or] at hlive
      split at h
      · rename_i hconn
        obtain ⟨rfl, rfl⟩ := Prod.mk.inj (Option.some.inj h)
        refine ⟨?_, turns_onAnswer now' p hconn⟩
        simp only [call, onPacket, if_neg hlive.1, if_neg hlive.2]
        exact if_pos hconn
      · rename_i hconn
        obtain ⟨rfl, rfl⟩ := Prod.mk.inj (Option.some.inj h)
        refine ⟨?_, turns_onOpen now' p (opened_of_ne hlive.1 hconn)⟩
        simp only [call, onPacket, if_neg hlive.1, if_neg hlive.2]
        exact if_neg hconn
  | write | read | close | abort | takeOutgoing => cases h

/-- **What is queued and in flight fits the send buffer, and a flush
overfills no window.** In every state of a connection, whatever it is
called with: the bytes queued and in flight are at most `sendBuffer`; and
after any flush that a call makes, the bytes in the network are at most
those before it, what both windows allow, or one packet. -/
theorem within_buffers_of_run [F64 F] {c₀ : Connection F} {calls : List Call} (hc₀ : c₀.Starts)
    (hrun : (calling F).Run c₀ calls c) :
    c.queued ≤ sendBuffer ∧ ∀ call now d, c.flushed call = some (now, d) →
      c.call call = d.flush now ∧ bytesInNetwork (d.flush now).inFlight ≤
        max (bytesInNetwork d.inFlight)
          (max (min (F64.toUsize d.maxWindow) d.peerWindow.toNat) maxPayload) := by
  have hbuffered : Buffered c.core := core_of_run (fun _ => buffered_of_starts)
    (fun _ _ => buffered_turn) (fun _ _ => buffered_owns) hc₀ hrun
  refine ⟨hbuffered.total, fun call now d hd => ?_⟩
  obtain ⟨hcall, hturns⟩ := call_of_flushed hd
  have hd' : Buffered d.core := hturns.invariant (fun _ _ => buffered_turn) hbuffered
  exact ⟨hcall, bytesInNetwork_flush_le now hd'⟩

/-- A connection that has been accepted, and given three thousand bytes. -/
def given : Connection ℚ :=
  ((accept 0 ⟨.syn, 7, 0, 0, 50000, 1, 0, [], []⟩ 5).write (replicate 3000 7)).1

/-- `within_buffers_of_run` for a connection with three thousand bytes to
send, of which the windows allow two packets. -/
theorem within_buffers_of_run_sample :
    given.queued = 3000 ∧ given.queued ≤ sendBuffer ∧
      bytesInNetwork (given.flush 0).inFlight = 2760 ∧
      bytesInNetwork (given.flush 0).inFlight ≤ max (bytesInNetwork given.inFlight)
        (max (min (F64.toUsize given.maxWindow) given.peerWindow.toNat) maxPayload) := by
  have hrun : (calling ℚ).Run (accept 0 ⟨.syn, 7, 0, 0, 50000, 1, 0, [], []⟩ 5)
      [.write (replicate 3000 7)] given := run_foldl _ _
  obtain ⟨hbuffer, hflush⟩ := within_buffers_of_run (.accept 0 _ 5) hrun
  exact ⟨by decide +kernel, hbuffer, by decide +kernel, (hflush (.flush 0) 0 _ rfl).2⟩

end BitTorrent.Utp.Connection
