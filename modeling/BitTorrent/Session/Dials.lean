import BitTorrent.Common.Run
import BitTorrent.Session.PeerPool

/-!
# Whom a session dials

A session dials what its pool hands out, and what a `connect` of the hole-punch extension names.
-/

namespace BitTorrent.Session

open List

variable {addr a : SocketAddr} {held : ℕ}

/-- What `spawn_holepunch_dials` reads of the workers: the most peers there
may be, and whether there is a uTP socket of either family. -/
structure Punching where
  maxPeers : ℕ
  utp : Bool
  utp6 : Bool

/-- Whether there is a socket for an address. -/
def Punching.socket (c : Punching) (addr : SocketAddr) : Bool :=
  if addr.isIpv6 then c.utp6 else c.utp

/-- The loop of `spawn_holepunch_dials`, with as many peers held as there
are: the targets that are dialed. -/
def punchDials (c : Punching) : ℕ → List SocketAddr → List SocketAddr
  | _, [] => []
  | held, addr :: targets =>
    if c.maxPeers ≤ held then punchDials c held targets
    else if c.socket addr then addr :: punchDials c (held + 1) targets
    else punchDials c held targets

theorem mem_of_mem_punchDials {c : Punching} {targets : List SocketAddr}
    (h : a ∈ punchDials c held targets) : a ∈ targets := by
  induction targets generalizing held with
  | nil => cases h
  | cons addr targets ih =>
    rw [punchDials] at h
    split at h
    · exact mem_cons_of_mem _ (ih h)
    · split at h
      · rcases mem_cons.1 h with rfl | h
        · exact mem_cons_self
        · exact mem_cons_of_mem _ (ih h)
      · exact mem_cons_of_mem _ (ih h)

/-- The pool, and the targets that `connect` messages have named
(`dial_targets` of `HolepunchHub`). -/
structure Dialing where
  pool : PeerPool
  targets : List SocketAddr

/-- What happens to them. -/
inductive DialEvent
  /-- `add`, from any source. -/
  | adds (addrs : List SocketAddr)
  /-- `next_to_dial`, and what it hands out to be dialed. -/
  | dials (now : ℕ) (dialed : Option SocketAddr)
  /-- `record_outcome`. -/
  | records (addr : SocketAddr) (outcome : Outcome) (now : ℕ)
  /-- A `connect` names an address, which is connected or not. -/
  | connects (endpoint : SocketAddr) (connected : Bool)
  /-- `spawn_holepunch_dials`, with so many peers held, and whom it dials. -/
  | punches (held : ℕ) (dialed : List SocketAddr)

/-- The addresses that are dialed. -/
def DialEvent.dialed : DialEvent → List SocketAddr
  | .dials _ dialed => dialed.toList
  | .punches _ dialed => dialed
  | _ => []

/-- **The system.** -/
def dialing (c : Punching) : LTS Dialing DialEvent where
  step s e t := match e with
    | .adds addrs => t = { s with pool := (s.pool.add addrs).2 }
    | .dials now dialed => s.pool.nextToDial now = (dialed, t.pool) ∧ t.targets = s.targets
    | .records addr outcome now => t = { s with pool := (s.pool.recordOutcome addr outcome now).2 }
    | .connects endpoint connected =>
        t = if connected then s else { s with targets := s.targets ++ [endpoint] }
    | .punches held dialed => dialed = punchDials c held s.targets ∧ t = { s with targets := [] }

/-- Where an event leads, if it can happen. -/
def nextDialing (c : Punching) (s : Dialing) : DialEvent → Option Dialing
  | .adds addrs => some { s with pool := (s.pool.add addrs).2 }
  | .dials now dialed =>
    if (s.pool.nextToDial now).1 = dialed then
      some { s with pool := (s.pool.nextToDial now).2 }
    else none
  | .records addr outcome now => some { s with pool := (s.pool.recordOutcome addr outcome now).2 }
  | .connects endpoint connected =>
    some (if connected then s else { s with targets := s.targets ++ [endpoint] })
  | .punches held dialed =>
    if dialed = punchDials c held s.targets then some { s with targets := [] } else none

theorem step_of_nextDialing (c : Punching) (s : Dialing) (e : DialEvent) (t : Dialing)
    (h : nextDialing c s e = some t) : (dialing c).step s e t := by
  cases e with
  | dials now dialed =>
    obtain ⟨rfl, ht⟩ := Option.ite_none_right_eq_some.1 h
    cases ht
    exact ⟨rfl, rfl⟩
  | punches held dialed =>
    obtain ⟨hdialed, ht⟩ := Option.ite_none_right_eq_some.1 h
    cases ht
    exact ⟨hdialed, rfl⟩
  | _ =>
    cases h
    rfl

/-- Nothing is known. -/
def Dialing.start (allowIpv6 : Bool) (policy : RetryPolicy) : Dialing :=
  ⟨.withPolicy allowIpv6 policy, []⟩

/-- **Never again**: what has been recorded as having sent bad data is not
dialed after that. -/
def NeverAgain (es : List DialEvent) : Prop :=
  ∀ es₁ addr now es₂, es = es₁ ++ [.records addr .badData now] ++ es₂ →
    ∀ e ∈ es₂, addr ∉ e.dialed

/-- **When that is so**: bad data is recorded of an address that has been
handed out, which the pool knows and which waits for no first dial, or of one
that the pool does not take; and no target of a `connect` is banned when
the targets are dialed. -/
def Heeded (s : Dialing) : DialEvent → Dialing → Prop
  | .records addr .badData _, _ =>
    addr ∉ s.pool.reserve ∧ (addr ∈ s.pool.known ∨ ¬s.pool.Takes addr)
  | .punches _ _, _ => ∀ addr ∈ s.targets, s.pool.isBanned addr = false
  | _, _ => True

/-- The address that `next_to_dial` hands out. -/
def DialEvent.handedOut : DialEvent → List SocketAddr
  | .dials _ dialed => dialed.toList
  | _ => []

/-- How often a step has an address wait once more. -/
def DialEvent.again (s : Dialing) : DialEvent → SocketAddr → ℕ
  | .records addr outcome now => PeerPool.again (s.pool.recordOutcome addr outcome now).1 addr
  | _ => fun _ => 0

variable {c : Punching} {s t : Dialing} {e : DialEvent} {es : List DialEvent}

/-- **What a step does to who waits.** -/
theorem moves_step (hstep : (dialing c).step s e t) :
    s.pool.Moves t.pool e.handedOut (e.again s) := by
  cases e with
  | adds addrs =>
    obtain rfl := hstep
    exact s.pool.moves_add addrs
  | dials now dialed =>
    have hmoves := s.pool.moves_nextToDial now
    rwa [hstep.1] at hmoves
  | records addr outcome now =>
    obtain rfl := hstep
    exact (s.pool.recorded_recordOutcome addr outcome now).moves
  | connects endpoint connected =>
    obtain rfl := hstep
    split <;>
      exact .of_records rfl rfl id (fun a => le_rfl) fun a => by simp [DialEvent.handedOut]
  | punches held dialed =>
    obtain ⟨-, rfl⟩ := hstep
    exact .of_records rfl rfl id (fun a => le_rfl) fun a => by simp [DialEvent.handedOut]

/-- A banned address that does not wait, and is not taken again. -/
def Barred (p : PeerPool) (addr : SocketAddr) : Prop := p.isBanned addr = true ∧ p.waits addr = 0

theorem Barred.step (h : Barred s.pool addr) (hstep : (dialing c).step s e t)
    (hheeded : Heeded s e t) : Barred t.pool addr ∧ addr ∉ e.dialed := by
  obtain ⟨hbanned, hnone⟩ := h
  have hmoves := moves_step hstep
  have hwaits := hmoves.waits addr
  have hagain : e.again s addr = 0 := by
    cases e with
    | records a outcome now =>
      refine ((s.pool.recorded_recordOutcome a outcome now).again addr).resolve_right fun h => ?_
      simp [hbanned] at h
    | _ => rfl
  refine ⟨⟨hmoves.banned addr hbanned, by omega⟩, ?_⟩
  cases e with
  | dials now dialed =>
    have hnot : (DialEvent.dials now dialed).handedOut.count addr = 0 := by omega
    exact count_eq_zero.1 hnot
  | punches held dialed =>
    obtain ⟨rfl, -⟩ := hstep
    intro hmem
    have hfree := hheeded addr (mem_of_mem_punchDials hmem)
    rw [hbanned] at hfree
    cases hfree
  | _ => exact not_mem_nil

theorem barred_of_badData {p : PeerPool} (now : ℕ) (hreserve : addr ∉ p.reserve)
    (hknown : addr ∈ p.known ∨ ¬p.Takes addr) :
    Barred (p.recordOutcome addr .badData now).2 addr := by
  have hold : p.isNew addr = false :=
    decide_eq_false fun hnew => hknown.elim hnew.1 fun hnot => hnot hnew.2
  refine ⟨by simp [PeerPool.recordOutcome, PeerPool.isBanned], ?_⟩
  have hretry : addr ∉ (p.retry.filter fun x => x.1 != addr).map Prod.fst := by simp
  have hfirsts : (p.recordOutcome addr .badData now).2.firsts addr = p.firsts addr := rfl
  rw [PeerPool.waits, hfirsts, PeerPool.firsts, count_eq_zero.2 hreserve, hold]
  exact (Nat.zero_add _).trans (count_eq_zero.2 hretry)

/-- What has been recorded is barred. -/
structure DialInv (es : List DialEvent) (s : Dialing) : Prop where
  barred : ∀ addr now, .records addr .badData now ∈ es → Barred s.pool addr
  neverAgain : NeverAgain es

theorem DialInv.step (h : DialInv es s) (hstep : (dialing c).step s e t)
    (hheeded : Heeded s e t) : DialInv (es ++ [e]) t := by
  refine ⟨fun addr now hmem => ?_, fun es₁ addr now es₂ heq e' he' => ?_⟩
  · rcases mem_append.1 hmem with hmem | hmem
    · exact ((h.barred addr now hmem).step hstep hheeded).1
    · obtain rfl := (mem_singleton.1 hmem).symm
      obtain rfl := hstep
      exact barred_of_badData now hheeded.1 hheeded.2
  · -- the last event is the new one, or nothing came after the bad data
    rcases eq_nil_or_concat es₂ with rfl | ⟨es₃, e₃, rfl⟩
    · cases he'
    · rw [concat_eq_append, ← append_assoc] at heq
      obtain ⟨rfl, rfl⟩ := append_singleton_inj.1 heq
      rw [concat_eq_append, mem_append, mem_singleton] at he'
      rcases he' with he' | rfl
      · exact h.neverAgain es₁ addr now es₃ rfl e' he'
      · exact ((h.barred addr now (by simp)).step hstep hheeded).2

/-- **Bad data is heeded**: in every run in which it is recorded of
addresses that were handed out, and in which no banned address is named by
a `connect`, an address that has sent it is never dialed again. -/
theorem neverAgain_of_heeded {allowIpv6 : Bool} {policy : RetryPolicy}
    (hrun : ((dialing c).restrict Heeded).Run (.start allowIpv6 policy) es s) : NeverAgain es := by
  refine (LTS.Run.history (I := DialInv) ?_ hrun ⟨nofun, ?_⟩).neverAgain
  · exact fun _ _ _ _ h hstep => h.step hstep.1 hstep.2
  · intro es₁ addr now es₂ heq
    simp at heq

/-- A peer, and a session with a uTP socket. -/
def somePeer : SocketAddr := ⟨.v4 (.replicate 4 10), 6881⟩

def onePunch : Punching := ⟨1, true, false⟩

instance (s : Dialing) (e : DialEvent) (t : Dialing) : Decidable (Heeded s e t) := by
  unfold Heeded PeerPool.Takes
  split <;> infer_instance

theorem neverAgain_of_heeded_sample :
    NeverAgain [.adds [somePeer], .dials 0 (some somePeer), .records somePeer .badData 0,
      .adds [somePeer], .dials 0 none] := by
  have hruns : ∃ s ∈ [.adds [somePeer], .dials 0 (some somePeer), .records somePeer .badData 0,
      .adds [somePeer], .dials 0 none].foldlM (LTS.guarded Heeded (nextDialing onePunch))
      (Dialing.start false (.withBase 15)), True := by
    decide +kernel
  obtain ⟨s, hs, -⟩ := hruns
  exact neverAgain_of_heeded (LTS.run_of_guarded (step_of_nextDialing onePunch) hs)

/-- Bad data of an address that waits for a first dial, as after a dial for
a `connect`. -/
def recordedInReserve : List DialEvent :=
  [.adds [somePeer], .records somePeer .badData 0, .dials 0 (some somePeer)]

/-- Bad data of an address that is announced only after it. -/
def recordedUnknown : List DialEvent :=
  [.records somePeer .badData 0, .adds [somePeer], .dials 0 (some somePeer)]

/-- Bad data of an address that a `connect` names after it. -/
def recordedTarget : List DialEvent :=
  [.adds [somePeer], .dials 0 (some somePeer), .records somePeer .badData 0,
    .connects somePeer false, .punches 0 [somePeer]]

/-- **A peer that has sent bad data is dialed again**, in each of these. -/
theorem dialed_again :
    (∃ s, (dialing onePunch).Run (.start false (.withBase 15)) recordedInReserve s) ∧
    ¬NeverAgain recordedInReserve ∧
    (∃ s, (dialing onePunch).Run (.start false (.withBase 15)) recordedUnknown s) ∧
    ¬NeverAgain recordedUnknown ∧
    (∃ s, (dialing onePunch).Run (.start false (.withBase 15)) recordedTarget s) ∧
    ¬NeverAgain recordedTarget := by
  have hrun (es : List DialEvent) (h : ∃ s ∈ es.foldlM (nextDialing onePunch)
      (.start false (.withBase 15)), True) :
      ∃ s, (dialing onePunch).Run (.start false (.withBase 15)) es s := by
    obtain ⟨s, hs, -⟩ := h
    exact ⟨s, LTS.run_of_foldlM (step_of_nextDialing onePunch) hs⟩
  refine ⟨hrun _ (by decide +kernel), fun h => ?_, hrun _ (by decide +kernel), fun h => ?_,
    hrun _ (by decide +kernel), fun h => ?_⟩
  · exact h [.adds [somePeer]] somePeer 0 _ rfl _ mem_cons_self (by simp [DialEvent.dialed])
  · exact h [] somePeer 0 [_, .dials 0 (some somePeer)] rfl (.dials 0 (some somePeer)) (by simp)
      (by simp [DialEvent.dialed])
  · exact h [_, _] somePeer 0 [_, .punches 0 [somePeer]] rfl (.punches 0 [somePeer]) (by simp)
      (by simp [DialEvent.dialed])

end BitTorrent.Session
