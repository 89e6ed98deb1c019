import BitTorrent.Seeder.ServeLoop
import BitTorrent.Worker.Hand
import BitTorrent.Worker.UnchokeWait

/-!
# Timeouts that are sat out

Four loops take a read that timed out for a quiet spell and read on: the serving loop, the wait
for an unchoke, and in `fetch_from` the wait for a piece that is wanted and the wait in the middle
of a piece while the peer chokes us.
-/

namespace BitTorrent

open Option Message

namespace Connection

variable {c t : Connection} {w : World} {out : Output} {f : Fetch} {minDepth : ℕ}

/-- Where `fetch_from` sits a timeout out. -/
def sitsOut (c : Connection) (w : World) : Bool :=
  match c.phase with
  | .waiting =>
    (!c.peer.peerChoking || w.writes 0) && decide (c.irrelevantCycles + 1 < c.budget)
  | .reading f =>
    c.peer.peerChoking && decide (f.chokedTimeouts + 1 < maxUnchokeWaitTimeouts) && w.writes 0
  | _ => false

theorem choose_heard (c : Connection) (w : World) : (c.choose w).2.heard = none := by
  unfold choose
  split
  · rfl
  split
  · rfl
  split
  · rfl
  split <;> rfl

theorem begin_heard (c : Connection) (w : World) (minDepth : ℕ) (f : Fetch) :
    (c.begin w minDepth f).2.heard = none := by
  unfold begin
  split
  · rfl
  split
  · rfl
  split <;> rfl

theorem lookAhead_heard (c : Connection) (f : Fetch) (depth : ℕ) :
    (c.lookAhead f depth).2.heard = none := by
  unfold lookAhead
  split
  · rfl
  split <;> rfl

variable {r : Connection × Output}

theorem ask_heard {depth : ℕ} (h : c.ask w f depth = some r) : r.2.heard = none := by
  unfold ask at h
  split at h
  · cases h
    rfl
  obtain ⟨asked, -, h⟩ := bind_eq_some_iff.1 h
  split at h
  · cases h
    exact lookAhead_heard _ _ _
  · dsimp only at h
    split at h
    · cases h
      rfl
    · obtain ⟨salvaged, -, h⟩ := bind_eq_some_iff.1 h
      cases h
      rfl

theorem finish_heard [Digests] (c : Connection) (f : Fetch) : (c.finish f).2.heard = none := by
  unfold finish
  split
  · rfl
  split <;> rfl

theorem store_heard (c : Connection) (w : World) (work : PieceWork) (data : List UInt8) :
    (c.store w work data).2.heard = none := by
  unfold store
  split <;> rfl

theorem releaseNext_heard (c : Connection) (result : Option (Except WorkerError Unit)) :
    (c.releaseNext result).2.heard = none := by
  unfold releaseNext
  split
  · rfl
  split <;> rfl

theorem takeOther_heard (c : Connection) (w : World) (f : Fetch) (m : Message) :
    (c.takeOther w f m).2.heard = some (.ok m) := by
  unfold takeOther
  dsimp only
  split <;> rfl

theorem hear_heard {m : Message} (h : c.hear w f m = some r) : r.2.heard = some (.ok m) := by
  unfold hear at h
  split at h
  · split at h
    · cases h
      rfl
    · obtain ⟨received, -, h⟩ := bind_eq_some_iff.1 h
      cases h
      rfl
  · split at h
    · obtain ⟨current, -, h⟩ := bind_eq_some_iff.1 h
      split at h <;> cases h <;> rfl
    split at h
    · unfold refuseAhead at h
      split at h
      · cases h
        rfl
      · obtain ⟨refused, -, h⟩ := bind_eq_some_iff.1 h
        split at h <;> cases h <;> rfl
    · cases h
      exact takeOther_heard _ _ _ _
  · cases h
    exact takeOther_heard _ _ _ _

theorem ending_cycle (c : Connection) (cycles : ℕ) :
    cycles < c.budget ∨ (c.cycle cycles).phase.Ending := by
  unfold cycle
  by_cases hbudget : c.budget ≤ cycles
  · rw [if_pos hbudget]
    exact .inr trivial
  · exact .inl (Nat.not_le.1 hbudget)

variable {e : WireError}

theorem wait_fails (hphase : c.phase = .waiting) (he : (c.wait w).2.heard = some (.error e)) :
    (e = .io .timedOut ∧ c.sitsOut w = true) ∨ (c.wait w).1.phase.Ending := by
  have hcycle := ending_cycle c (c.irrelevantCycles + 1)
  unfold wait at he ⊢
  split at he
  · dsimp only at he
    split at he <;> cases he
  · split at he
    · rename_i hchoking
      cases he
      rw [if_pos hchoking]
      refine hcycle.imp_left fun hbudget => ⟨rfl, ?_⟩
      rw [sitsOut, hphase]
      simpa [hchoking] using hbudget
    rename_i hchoking
    rw [if_neg hchoking]
    split at he
    · rename_i hwrites
      cases he
      rw [if_pos hwrites]
      refine hcycle.imp_left fun hbudget => ⟨rfl, ?_⟩
      rw [sitsOut, hphase]
      simpa [hwrites] using hbudget
    · rename_i hwrites
      rw [if_neg hwrites]
      exact .inr trivial
  · exact .inr trivial

theorem readFails_fails {e' : WireError} (hphase : c.phase = .reading f)
    (he : (c.readFails w f e).2.heard = some (.error e')) :
    (e' = .io .timedOut ∧ c.sitsOut w = true) ∨ (c.readFails w f e).1.phase.Ending := by
  unfold readFails at he ⊢
  dsimp only at he ⊢
  split at he
  · rename_i hquiet
    rw [if_pos hquiet]
    split at he
    · rename_i hmany
      rw [if_pos hmany]
      exact .inr trivial
    rename_i hfew
    rw [if_neg hfew]
    split at he
    · rename_i hwrites
      cases he
      refine .inl ⟨hquiet.2, ?_⟩
      rw [sitsOut, hphase]
      simpa [hquiet.1, hwrites] using hfew
    · rename_i hwrites
      rw [if_neg hwrites]
      exact .inr trivial
  · rename_i hquiet
    rw [if_neg hquiet]
    exact .inr trivial

theorem step_fails [Digests] (h : c.step minDepth w = some (t, out))
    (he : out.heard = some (.error e)) :
    (e = .io .timedOut ∧ c.sitsOut w = true) ∨ t.phase.Ending := by
  have hnone : ∀ {r : Connection × Output}, some r = some (t, out) → r.2.heard ≠ none := by
    rintro r hr hheard
    cases hr
    rw [hheard] at he
    cases he
  unfold step at h
  split at h
  · exact absurd (choose_heard c w) (hnone h)
  · exact absurd rfl (hnone h)
  · rename_i hphase
    obtain ⟨rfl, rfl⟩ := Prod.mk.inj (some_inj.1 h)
    exact wait_fails hphase he
  · exact absurd (begin_heard c w _ _) (hnone h)
  · exact absurd (ask_heard h) (hnone rfl)
  · exact absurd rfl (hnone h)
  · rename_i f hphase
    unfold read at h
    split at h
    · exact absurd (finish_heard c f) (hnone h)
    split at h
    · rw [hear_heard h] at he
      cases he
    · obtain ⟨rfl, rfl⟩ := Prod.mk.inj (some_inj.1 h)
      exact readFails_fails hphase he
  · exact absurd (store_heard c w _ _) (hnone h)
  · exact absurd (releaseNext_heard c _) (hnone h)
  · cases h

/-- **`fetch_from` as a reader.** -/
def reader [Digests] (minDepth : ℕ) : Reader Connection ConnectionEvent where
  system := connection minDepth
  read e :=
    match e with
    | .own _ out => out.heard
    | _ => none
  sitsOut c e :=
    match e with
    | .own w _ => c.sitsOut w = true
    | _ => False
  ended c := c.phase.Ending
  fails c e t error h hread := by
    cases e with
    | own w out => exact step_fails h hread
    | other | noted => cases hread
  stops c e t h hended := by
    cases e with
    | own w out => exact ending_step hended h
    | other call =>
      obtain ⟨q, -, rfl⟩ := h
      exact ⟨rfl, hended⟩
    | noted held =>
      obtain rfl : t = { c with queue := c.queue.noteBitfield held } := h
      exact ⟨rfl, hended⟩

end Connection

/-- **The messages handled are the messages sent.** For every stream of
messages and every pattern of timeouts among its bytes: in every run of the
serving loop, of the wait for an unchoke and of `fetch_from` in which no
timeout that is sat out falls inside a message, what is handled is what the
stream begins with; while the loop goes on no other bytes are gone from the
stream, and once all are gone all messages are handled. -/
theorem messages_handled [Digests] (minDepth : ℕ) {ms : List Message} {wire wire' : Wire}
    (hfits : ∀ m ∈ ms, m.Fits) (hwire : wire.bytes = ms.flatMap toBytes) :
    (∀ dialed total adoption es t,
      (ServeLoop.reader.overWire.restrict ServeLoop.reader.Uncut).Run
        (.start dialed total adoption, wire) es (t, wire') →
      ServeLoop.reader.Intact ms wire es t wire') ∧
    (∀ peer queue es t,
      (UnchokeWait.reader.overWire.restrict UnchokeWait.reader.Uncut).Run
        (.start peer queue, wire) es (t, wire') →
      UnchokeWait.reader.Intact ms wire es t wire') ∧
    ∀ peer queue es t,
      ((Connection.reader minDepth).overWire.restrict (Connection.reader minDepth).Uncut).Run
        (.start peer queue, wire) es (t, wire') →
      (Connection.reader minDepth).Intact ms wire es t wire' :=
  ⟨fun _ _ _ _ _ hrun => Reader.intact_of_run hfits hwire hrun,
    fun _ _ _ _ hrun => Reader.intact_of_run hfits hwire hrun,
    fun _ _ _ _ hrun => Reader.intact_of_run hfits hwire hrun⟩

/-- A turn of the wait in which nothing else fails. -/
def UnchokeWait.calmTurn (u : UnchokeWait) (reading : Except WireError Message) :
    (World × Output) × UnchokeWait :=
  ((.calm reading, (u.turn (.calm reading)).2), (u.turn (.calm reading)).1)

theorem messages_handled_sample :
    let _ := Digests.zero
    ∃ es t, (UnchokeWait.reader.overWire.restrict UnchokeWait.reader.Uncut).Run
        (.start .new (.bytes 1), .timeout :: unchoke.toBytes.map .byte) es (t, []) ∧
      t.result = none ∧ UnchokeWait.reader.handled es = [.unchoke] := by
  let _ := Digests.zero
  have hfits : ∀ m ∈ [unchoke], m.Fits := by
    simp [Message.Fits, payload, maxMessageLen]
  have hwhole : Wire.cut (unchoke.toBytes.map .byte) = false := by decide +kernel
  let first := (UnchokeWait.start .new (.bytes 1)).calmTurn (.error (.io .timedOut))
  let second := first.2.calmTurn (.ok .unchoke)
  have hrun : (UnchokeWait.reader.overWire.restrict UnchokeWait.reader.Uncut).Run
      (.start .new (.bytes 1), .timeout :: unchoke.toBytes.map .byte)
      ([] ++ [first.1] ++ [second.1]) (second.2, []) := by
    refine (LTS.Run.nil.snoc (u := (first.2, unchoke.toBytes.map Arrival.byte)) ?_).snoc ?_
    · exact ⟨⟨⟨rfl, rfl⟩, rfl⟩, fun _ _ => rfl⟩
    · exact ⟨⟨⟨rfl, rfl⟩, rfl⟩, fun _ _ => hwhole⟩
  have hgoing : second.2.result = none := rfl
  refine ⟨_, _, hrun, hgoing, ?_⟩
  refine ((messages_handled 0 hfits rfl).2.1 _ _ _ _ hrun).all ?_ rfl
  simp [UnchokeWait.reader, hgoing]

/-- **A message that was not sent.** A bitfield whose payload happens to be
the bytes of an unchoke arrives with a pause after its id. The wait for an
unchoke sits the pause out, and then has an unchoke. -/
theorem unchoke_not_sent :
    ∃ ms wire es t, (∀ m ∈ ms, m.Fits) ∧ Wire.bytes wire = ms.flatMap toBytes ∧
      UnchokeWait.reader.overWire.Run (.start .new (.bytes 1), wire) es (t, []) ∧
      ms = [.bitfield unchoke.toBytes] ∧
      UnchokeWait.reader.handled es = [.unchoke] := by
  let first := (UnchokeWait.start .new (.bytes 1)).calmTurn (.error (.io .timedOut))
  let second := first.2.calmTurn (.ok .unchoke)
  refine ⟨_, [0, 0, 0, 6, 5].map .byte ++ .timeout :: unchoke.toBytes.map .byte,
    [] ++ [first.1] ++ [second.1], second.2, ?_, ?_, ?_, rfl, rfl⟩
  · simp [Message.Fits, payload, maxMessageLen, toBytes, be32Bytes, Message.id]
  · rfl
  · refine (LTS.Run.nil.snoc (u := (first.2, unchoke.toBytes.map Arrival.byte)) ?_).snoc ?_
    all_goals exact ⟨⟨rfl, rfl⟩, rfl⟩

end BitTorrent
