import BitTorrent.Session.Dials

/-!
# How often an address is handed out

Each address waits for a first dial once, and for another one after each failure for which its
policy has a delay.
-/

namespace BitTorrent.Session

open List

variable {c : Punching} {s t : Dialing} {e : DialEvent} {es : List DialEvent}
  {allowIpv6 : Bool} {policy : RetryPolicy}

theorem waits_start (a : SocketAddr) : (Dialing.start allowIpv6 policy).pool.waits a ≤ 1 := by
  simpa [Dialing.start, PeerPool.withPolicy, PeerPool.waits, PeerPool.firsts] using Bool.toNat_le _

/-- **An address is handed out a bounded number of times**, whatever is
added, handed out and recorded: once, and once more for each delay of the
policy; and no more addresses wait for a first dial than are known. -/
theorem handedOut_le (hrun : (dialing c).Run (.start allowIpv6 policy) es s) :
    (∀ a, (es.flatMap DialEvent.handedOut).count a ≤
      1 + policy.afterDrop.length + policy.afterUnreachable.length) ∧
    s.pool.dialed + s.pool.reserve.length = s.pool.known.card := by
  have hknown : ∀ a ∈ s.pool.reserve, a ∈ s.pool.known :=
    hrun.invariant (I := fun s => ∀ a ∈ s.pool.reserve, a ∈ s.pool.known)
      (fun s e t h hstep => (moves_step hstep).known h) nofun
  have hinv (a : SocketAddr) : s.pool.firsts a ≤ 1 ∧ (es.flatMap DialEvent.handedOut).count a +
      s.pool.waits a + s.pool.policy.delaysLeft (s.pool.record a) ≤
        1 + policy.afterDrop.length + policy.afterUnreachable.length := by
    refine LTS.Run.history (I := fun es s => s.pool.firsts a ≤ 1 ∧ (es.flatMap _).count a +
      s.pool.waits a + s.pool.policy.delaysLeft (s.pool.record a) ≤ _) ?_ hrun
      ⟨(Nat.le_add_right ..).trans (waits_start a), ?_⟩
    · rintro es s e t ⟨hfirsts, hle⟩ hstep
      have hmoves := moves_step hstep
      have hwaits := hmoves.waits a
      have hdelays := hmoves.delays a
      refine ⟨(hmoves.firsts a).trans hfirsts, ?_⟩
      rw [flatMap_append, count_append, flatMap_singleton]
      omega
    · have hwaits : (Dialing.start allowIpv6 policy).pool.waits a ≤ 1 := waits_start a
      change 0 + _ + (policy.afterDrop.length + policy.afterUnreachable.length) ≤ _
      omega
  refine ⟨fun a => ?_, Nat.sub_add_cancel ?_⟩
  · have := (hinv a).2
    omega
  · have hnodup : s.pool.reserve.Nodup :=
      nodup_iff_count_le_one.2 fun a => (Nat.le_add_right ..).trans (hinv a).1
    rw [← toFinset_card_of_nodup hnodup]
    exact Finset.card_le_card fun a ha => hknown a (mem_toFinset.1 ha)

/-- A peer drops, then cannot be reached, and is dialed a third time. -/
def dialedThrice : List DialEvent :=
  [.adds [somePeer], .dials 0 (some somePeer), .records somePeer .dropped 0,
    .dials 20 (some somePeer), .records somePeer .unreachable 20, .dials 100000 (some somePeer)]

theorem handedOut_le_sample : ∃ s,
    (dialing onePunch).Run (.start false (.withBase 15)) dialedThrice s ∧
    (dialedThrice.flatMap DialEvent.handedOut).count somePeer = 3 ∧
    (dialedThrice.flatMap DialEvent.handedOut).count somePeer ≤ 1 + 3 + 2 ∧
    s.pool.dialed + s.pool.reserve.length = s.pool.known.card := by
  have hruns : ∃ s ∈ dialedThrice.foldlM (nextDialing onePunch) (.start false (.withBase 15)),
      True := by
    decide +kernel
  obtain ⟨s, hs, -⟩ := hruns
  have hrun := LTS.run_of_foldlM (step_of_nextDialing onePunch) hs
  exact ⟨s, hrun, by decide, (handedOut_le hrun).1 somePeer, (handedOut_le hrun).2⟩

/-- **When an address waits once**: a failure is recorded of an address that
the pool knows or does not take, that does not wait, and for which none was
given up on, unless it is banned. -/
def Orderly (s : Dialing) : DialEvent → Dialing → Prop
  | .records addr .dropped _, _ | .records addr .unreachable _, _ =>
    s.pool.waits addr = 0 ∧
      (s.pool.isBanned addr = true ∨ ¬s.pool.policy.Spent (s.pool.record addr))
  | _, _ => True

/-- Only one that does not wait and was not given up on is made to wait. -/
theorem Orderly.again_cases (h : Orderly s e t) (a : SocketAddr) : e.again s a = 0 ∨
    (e.again s a = 1 ∧ s.pool.waits a = 0 ∧ ¬s.pool.policy.Spent (s.pool.record a)) := by
  cases e with
  | records addr outcome now =>
    cases outcome with
    | dropped | unreachable =>
      refine ((s.pool.recorded_recordOutcome addr _ now).again a).imp_right ?_
      rintro ⟨hone, rfl, hbanned⟩
      exact ⟨hone, h.1, h.2.resolve_left (by simp [hbanned])⟩
    | finished | isLocal | badData => exact .inl rfl
  | _ => exact .inl rfl

/-- **An address waits once, and is not dialed again once it is given up**,
in every run in which failures are recorded in order. -/
theorem waits_once_of_orderly
    (hrun : ((dialing c).restrict Orderly).Run (.start allowIpv6 policy) es s) :
    (s.pool.reserve ++ s.pool.retry.map Prod.fst).Nodup ∧
    ∀ addr outcome now es' t, (s.pool.recordOutcome addr outcome now).1 = .giveUp →
      ((dialing c).restrict Orderly).Run s ([.records addr outcome now] ++ es') t →
        ∀ e ∈ es', addr ∉ e.handedOut := by
  constructor
  · refine nodup_iff_count_le_one.2 fun a => ?_
    have hle : s.pool.waits a ≤ 1 := by
      refine hrun.invariant (I := fun s => s.pool.waits a ≤ 1) ?_ (waits_start a)
      intro s e t hle hstep
      have hwaits := (moves_step hstep.1).waits a
      rcases hstep.2.again_cases a with hagain | ⟨hagain, hnone, -⟩ <;> omega
    rw [count_append]
    unfold PeerPool.waits PeerPool.firsts at hle
    omega
  · intro addr outcome now es' t hgive hrun'
    obtain ⟨u, hfirst, hrest⟩ := hrun'.split
    have hstep := hfirst.step_of_singleton
    have hnone : s.pool.waits addr = 0 := by
      cases outcome with
      | dropped | unreachable => exact hstep.2.1
      | finished | isLocal | badData => cases hgive
    have hwaits : u.pool.waits addr = 0 := by
      have hwaits := (moves_step hstep.1).waits addr
      rw [DialEvent.again, hgive, hnone] at hwaits
      exact Nat.le_zero.1 ((Nat.le_add_left ..).trans hwaits)
    have hspent : u.pool.policy.Spent (u.pool.record addr) := by
      obtain rfl := hstep.1
      exact (s.pool.recorded_recordOutcome addr outcome now).spent hgive
    refine (hrest.history (I := fun es s => (s.pool.waits addr = 0 ∧
      s.pool.policy.Spent (s.pool.record addr)) ∧ ∀ e ∈ es, addr ∉ e.handedOut) ?_
      ⟨⟨hwaits, hspent⟩, nofun⟩).2
    rintro es s e t ⟨⟨hwaits, hspent⟩, hnot⟩ hstep
    have hmoves := moves_step hstep.1
    have hwaits' := hmoves.waits addr
    have hagain := (hstep.2.again_cases addr).resolve_right fun h => h.2.2 hspent
    refine ⟨⟨by omega, hmoves.spent addr hspent⟩, forall_mem_append.2 ⟨hnot, ?_⟩⟩
    exact forall_mem_singleton.2 (count_eq_zero.1 (by omega))

instance (s : Dialing) (e : DialEvent) (t : Dialing) : Decidable (Orderly s e t) := by
  unfold Orderly RetryPolicy.Spent
  split <;> infer_instance

/-- A peer cannot be reached twice, and is dialed a third time. -/
def unreachedTwice : List DialEvent :=
  [.adds [somePeer], .dials 0 (some somePeer), .records somePeer .unreachable 0,
    .dials 1000 (some somePeer), .records somePeer .unreachable 1000,
    .dials 100000 (some somePeer)]

/-- The third time it is given up. -/
theorem waits_once_of_orderly_sample : ∃ s t,
    ((dialing onePunch).restrict Orderly).Run (.start false (.withBase 15)) unreachedTwice s ∧
    (s.pool.reserve ++ s.pool.retry.map Prod.fst).Nodup ∧
    (s.pool.recordOutcome somePeer .unreachable 100000).1 = .giveUp ∧
    ((dialing onePunch).restrict Orderly).Run s [.records somePeer .unreachable 100000,
      .adds [somePeer], .dials 1000000 none] t ∧
    ∀ e ∈ [.adds [somePeer], .dials 1000000 none], somePeer ∉ DialEvent.handedOut e := by
  have hruns : ∃ s ∈ unreachedTwice.foldlM (LTS.guarded Orderly (nextDialing onePunch))
      (.start false (.withBase 15)),
      (s.pool.recordOutcome somePeer .unreachable 100000).1 = .giveUp ∧
      ∃ t ∈ [.records somePeer .unreachable 100000, .adds [somePeer], .dials 1000000 none].foldlM
        (LTS.guarded Orderly (nextDialing onePunch)) s, True := by
    decide +kernel
  obtain ⟨s, hs, hgive, t, ht, -⟩ := hruns
  have hrun := LTS.run_of_guarded (step_of_nextDialing onePunch) hs
  have hrest := LTS.run_of_guarded (step_of_nextDialing onePunch) ht
  have honce := waits_once_of_orderly hrun
  exact ⟨s, t, hrun, honce.1, hgive, hrest, honce.2 _ _ _ _ t hgive hrest⟩

/-- **An address waits three times over, and is handed out again after it
was given up**: it is dialed once, and for three `connect`s as well, and
drops them all. -/
theorem handed_out_after_giveUp : ∃ s t : Dialing,
    (dialing onePunch).Run (.start false (.withBase 15)) [.adds [somePeer],
      .dials 0 (some somePeer), .records somePeer .dropped 0, .records somePeer .dropped 0,
      .records somePeer .dropped 0] s ∧
    (dialing onePunch).step s (.records somePeer .dropped 0) t ∧
    (s.pool.recordOutcome somePeer .dropped 0).1 = .giveUp ∧
    t.pool.retry.map Prod.fst = [somePeer, somePeer, somePeer] ∧
    (t.pool.nextToDial 1000).1 = some somePeer := by
  have hruns : ∃ s ∈ [.adds [somePeer], .dials 0 (some somePeer), .records somePeer .dropped 0,
      .records somePeer .dropped 0, .records somePeer .dropped 0].foldlM (nextDialing onePunch)
      (.start false (.withBase 15)), ∃ t ∈ nextDialing onePunch s (.records somePeer .dropped 0),
      (s.pool.recordOutcome somePeer .dropped 0).1 = .giveUp ∧
      t.pool.retry.map Prod.fst = [somePeer, somePeer, somePeer] ∧
      (t.pool.nextToDial 1000).1 = some somePeer := by
    decide +kernel
  obtain ⟨s, hs, t, ht, hend⟩ := hruns
  exact ⟨s, t, LTS.run_of_foldlM (step_of_nextDialing onePunch) hs,
    step_of_nextDialing onePunch s _ t ht, hend⟩

end BitTorrent.Session
