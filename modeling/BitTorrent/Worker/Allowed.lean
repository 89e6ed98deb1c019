import BitTorrent.Worker.Sound

/-!
# Requests that the peer takes

A request goes out for the piece being fetched or for one taken ahead.
-/

namespace BitTorrent

open List PeerState

/-- The message says that the peer has a piece. -/
def Message.offers (m : Message) (i : UInt32) : Bool :=
  match m with
  | .haveOne pieceIndex => pieceIndex == i
  | .bitfield bits => (bytesToBitfield bits).getD i.toNat false
  | .haveAll => true
  | _ => false

/-- The peer has said that it has a piece: before the run, or in it. -/
def Said (peer : PeerState) (es : List ConnectionEvent) (i : UInt32) : Prop :=
  peer.hasPiece i = true ∨ ∃ m ∈ es.flatMap ConnectionEvent.messages, m.offers i = true

variable {peer : PeerState}

theorem Said.mono {es : List ConnectionEvent} {i : UInt32}
    (h : Said peer es i) (e : ConnectionEvent) : Said peer (es ++ [e]) i := by
  refine h.imp_right fun ⟨m, hm, hi⟩ => ⟨m, ?_, hi⟩
  rw [flatMap_append]
  exact mem_append_left _ hm

theorem hasPiece_absorb {m : Message} {i : UInt32}
    (h : (peer.absorb m).2.hasPiece i = true) : peer.hasPiece i = true ∨ m.offers i = true := by
  unfold hasPiece at h ⊢
  cases m with
  | haveOne pieceIndex =>
    by_cases hi : pieceIndex = i
    · exact .inr (beq_iff_eq.2 hi)
    · have hne : pieceIndex.toNat ≠ i.toNat := fun hnat => hi (UInt32.toNat_inj.1 hnat)
      simp only [absorb, applyMessage_haveOne] at h
      split at h
      · exact .inl h
      · left
        rw [getD_eq_getElem?_getD, getElem?_set_ne hne, ensureCapacity, getElem?_append] at h
        split at h
        · rwa [getD_eq_getElem?_getD]
        · rw [getElem?_replicate] at h
          split at h <;> cases h
  | bitfield bits =>
    right
    change ((bytesToBitfield bits).take peer.pieceLimit).getD _ _ = true at h
    rw [getD_eq_getElem?_getD, getElem?_take] at h
    split at h
    · exact (getD_eq_getElem?_getD ..).trans h
    · cases h
  | haveAll => exact .inr rfl
  | haveNone => cases h
  | extended id payload =>
    left
    rw [absorb] at h
    split at h
    · unfold hearHandshake at h
      split at h <;> exact h
    · exact h
  | allowedFast pieceIndex =>
    left
    simp only [absorb, applyMessage_allowedFast] at h
    split at h <;> exact h
  | _ => exact .inl h

namespace Connection

variable {c t : Connection} {w : World} {out : Output} {peer : PeerState} {queue : WorkQueue}
  {es : List ConnectionEvent} {minDepth : ℕ}

theorem Effect.request (h : Effect c w out t) {r : BlockRequest} (hr : .request r ∈ out.sent) :
    ∃ f depth, c.phase = .asking f depth ∧ ∃ work ∈ c.works, r.1 = work.index.toNat := by
  cases h with
  | sends hphase hc _ hindex _ | sendFails hphase hc _ hindex _ _ =>
    obtain ⟨r', hr', heq⟩ := mem_map.1 hr
    cases heq
    exact ⟨_, _, hphase, _, by simp [Connection.works, hc], hindex r hr'⟩
  | rests _ hsent _ _ | fails _ _ hsent _ _ _ => cases hsent _ hr
  | abandons _ _ _ _ _ _ =>
    obtain ⟨r', -, heq⟩ := mem_map.1 hr
    cases heq
  | _ => cases hr

/-- **The pieces taken ahead may be requested** when the requests are
made. -/
def AheadAllowed (c : Connection) (_ : ConnectionEvent) (_ : Connection) : Prop :=
  ∀ f depth, c.phase = .asking f depth →
    ∀ next ∈ c.ahead, c.peer.mayRequest next.work.index = true

/-- What the peer says of pieces, along a run: of what it has, and of
what is in hand. -/
structure Offered (peer : PeerState) (es : List ConnectionEvent) (c : Connection) : Prop where
  sound : c.Sound
  has : ∀ i, c.peer.hasPiece i = true → Said peer es i
  works : ∀ work ∈ c.works, Said peer es work.index

theorem offered_event [Digests] {e : ConnectionEvent} (hc : Offered peer es c)
    (h : (connection minDepth).step c e t) : Offered peer (es ++ [e]) t := by
  have hsound := sound_event hc.sound h
  cases e with
  | own w out =>
    have heffect := hc.sound.effect h
    refine ⟨hsound, fun i hi => ?_, fun work hwork => ?_⟩
    · rcases (step_leads hc.sound.waiting h).peer with hpeer | ⟨m, hm, hpeer⟩
      · exact (hc.has i (hpeer ▸ hi)).mono _
      · rcases hasPiece_absorb (hpeer ▸ hi) with hi | hi
        · exact (hc.has i hi).mono _
        · have hm' : out.heard = some (.ok m) := hm
          refine .inr ⟨m, ?_, hi⟩
          rw [flatMap_append]
          exact mem_append_right _ (by simp [ConnectionEvent.messages, Output.messages, hm'])
    · rcases mem_append.1 (heffect.works.mem hwork) with hwork | hwork
      · exact (hc.works work hwork).mono _
      · have hwants := (heffect.took work hwork).1
        simp only [wants, Bool.and_eq_true] at hwants
        exact (hc.has _ hwants.1.1).mono _
  | other call =>
    obtain ⟨q, -, rfl⟩ := h
    exact ⟨hsound, fun i hi => (hc.has i hi).mono _, fun work hwork => (hc.works work hwork).mono _⟩
  | noted held =>
    obtain rfl : t = { c with queue := c.queue.noteBitfield held } := h
    exact ⟨hsound, fun i hi => (hc.has i hi).mono _, fun work hwork => (hc.works work hwork).mono _⟩

theorem offered_run [Digests] (h : (connection minDepth).Run (start peer queue) es c) :
    Offered peer es c := by
  have hstart : Offered peer [] (start peer queue) := ⟨sound_start peer queue, fun _ hi => .inl hi,
      by simp [start, works, view, hand, Phase.hand]⟩
  refine LTS.Run.history (I := Offered peer) ?_ h hstart
  exact fun _ _ _ _ hc hstep => offered_event hc hstep

/-- **Every request is one the peer takes.** In every run in which the
pieces taken ahead may be requested whenever requests are made, a request
is sent at a moment when the peer has not choked us or allows the piece
regardless, and for a piece that the peer has said it has. -/
theorem requests_allowed [Digests]
    (hrun : ((connection minDepth).restrict AheadAllowed).Run (start peer queue) es c)
    (hstep : ((connection minDepth).restrict AheadAllowed).step c (.own w out) t) :
    ∀ (r : BlockRequest) (i : UInt32), .request r ∈ out.sent → r.1 = i.toNat →
      c.peer.mayRequest i = true ∧ Said peer es i := by
  intro r i hr hi
  have hc := offered_run hrun.of_restrict
  obtain ⟨f, depth, hphase, work, hwork, hindex⟩ := (hc.sound.effect hstep.1).request hr
  obtain rfl : work.index = i := UInt32.toNat_inj.1 (hindex.symm.trans hi)
  refine ⟨?_, hc.works work hwork⟩
  rw [works_eq, hand_of_phase hphase, Phase.hand, map_cons] at hwork
  rcases mem_cons.1 hwork with rfl | hwork
  · exact (hc.sound.asks f depth (Or.inl hphase)).1
  · obtain ⟨next, hnext, rfl⟩ := mem_map.1 hwork
    exact hstep.2 f depth hphase next hnext

/-- The condition, evaluated. -/
def aheadAllowed (c : Connection) (_ : World) : Bool :=
  match c.phase with
  | .asking _ _ => c.ahead.all fun next => c.peer.mayRequest next.work.index
  | _ => true

theorem aheadAllowed_spec (c : Connection) (w : World) (out : Output) (t : Connection)
    (h : c.aheadAllowed w = true) : AheadAllowed c (.own w out) t := by
  intro f depth hphase
  simpa [aheadAllowed, hphase] using h

theorem requests_allowed_sample :
    let _ := Digests.zero
    ∃ es c out t,
      ((connection 2).restrict AheadAllowed).Run (start (.seed 2) (.bytes 2)) es c ∧
      ((connection 2).restrict AheadAllowed).step c (.own .silence out) t ∧
      .request (1, 0, 1) ∈ out.sent ∧ c.peer.mayRequest 1 = true ∧ Said (.seed 2) es 1 := by
  let _ := Digests.zero
  have hdrive : ∃ r ∈ drive 2 aheadAllowed (start (.seed 2) (.bytes 2)) (List.replicate 6 .silence),
      aheadAllowed r.2 .silence = true ∧
        ∃ s ∈ r.2.step 2 .silence, .request (1, 0, 1) ∈ s.2.sent := by
    decide +kernel
  obtain ⟨⟨es, c⟩, hdrive, hallowed, ⟨t, out⟩, hstep, hmem⟩ := hdrive
  have hrun := run_of_drive aheadAllowed_spec hdrive
  have hstep := And.intro hstep (aheadAllowed_spec c .silence out t hallowed)
  exact ⟨es, c, out, t, hrun, hstep, hmem, requests_allowed hrun hstep _ 1 hmem rfl⟩

/-- **A request that the peer does not take.** While both pieces are asked
for the peer chokes us, and refuses the request for piece 1, which it does
not allow. As it allows piece 0, the worker goes on, and asks for piece 1
again. -/
theorem request_while_choked :
    let _ := Digests.zero
    ∃ es c w out t, (connection 2).Run (start (.seed 2) (.bytes 2)) es c ∧
      (connection 2).step c (.own w out) t ∧ .request (1, 0, 1) ∈ out.sent ∧
      c.peer.mayRequest 1 = false := by
  let _ := Digests.zero
  have hdrive : ∃ r ∈ drive 2 (fun _ _ => true) (start (.seed 2) (.bytes 2))
      (List.replicate 8 .silence ++ [.calm (.ok .choke), .silence, .silence,
        .calm (.ok (.rejectRequest 1 0 1)), .silence]),
      ∃ s ∈ r.2.step 2 .silence, .request (1, 0, 1) ∈ s.2.sent ∧
        r.2.peer.mayRequest 1 = false := by
    decide +kernel
  obtain ⟨⟨es, c⟩, hdrive, ⟨t, out⟩, hstep, hmem, hmay⟩ := hdrive
  have hrun := run_of_drive (G := fun _ _ _ => True) (fun _ _ _ _ _ => trivial) hdrive
  exact ⟨es, c, .silence, out, t, hrun.of_restrict, hstep, hmem, hmay⟩

end Connection

end BitTorrent
