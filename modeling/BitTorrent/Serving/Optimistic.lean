import BitTorrent.Serving.Choker

/-!
# Whose turn it is

The optimistic slot goes round: each move of it is a turn of the peer that gets it.
-/

namespace BitTorrent.Serving

open List

/-- **A move of the optimistic slot**: who was interested, in the order they
connected, and who got it. -/
structure Turn where
  interested : List PeerId
  increasing : interested.Pairwise (· < ·)
  holder : Option PeerId

/-- The first after a peer, going round. -/
def firstAfter (last : Option PeerId) (ids : List PeerId) : Option PeerId :=
  (ids.find? fun id => last.all fun a => decide (a < id)).or ids.head?

/-- **The turns are taken in order**: each goes to the first interested peer
after the last that had one. -/
def InTurn : Option PeerId → List Turn → Prop
  | _, [] => True
  | last, t :: ts => t.holder = firstAfter last t.interested ∧ InTurn (t.holder.or last) ts

instance decidableInTurn : ∀ last ts, Decidable (InTurn last ts)
  | _, [] => isTrue trivial
  | last, t :: ts =>
    have := decidableInTurn (t.holder.or last) ts
    inferInstanceAs (Decidable (_ ∧ _))

/-- **Every peer gets its turn**: between two turns of one, every other that
is interested throughout has one. -/
def Fair (turns : List Turn) : Prop :=
  ∀ before t mid t' after p q, turns = before ++ t :: (mid ++ t' :: after) →
    t.holder = some p → t'.holder = some p → q ≠ p →
    (∀ u ∈ mid ++ [t'], q ∈ u.interested) → ∃ u ∈ mid, u.holder = some q

variable {p q l h : ℕ} {ids : List PeerId} {last : Option PeerId} {t : Turn}
  {ts us : List Turn}

theorem firstAfter_some (hids : ids.Pairwise (· < ·)) (h' : firstAfter (some l) ids = some h) :
    (l < h ∧ ∀ id ∈ ids, l < id → h ≤ id) ∨ ((∀ id ∈ ids, id ≤ l) ∧ ∀ id ∈ ids, h ≤ id) := by
  unfold firstAfter at h'
  rcases Option.or_eq_some_iff.1 h' with hfind | ⟨hnone, hhead⟩
  · obtain ⟨hlt, before, after, rfl, hbefore⟩ := find?_eq_some_iff_append.1 hfind
    refine .inl ⟨by simpa using hlt, fun id hid hl => ?_⟩
    rcases mem_append.1 hid with hid | hid
    · exact absurd hl (by simpa using hbefore id hid)
    · rcases mem_cons.1 hid with rfl | hid
      · exact le_rfl
      · exact ((pairwise_cons.1 (pairwise_append.1 hids).2.1).1 id hid).le
  · refine .inr ⟨fun id hid => by simpa using find?_eq_none.1 hnone id hid, fun id hid => ?_⟩
    obtain ⟨rest, rfl⟩ := head?_eq_some_iff.1 hhead
    rcases mem_cons.1 hid with rfl | hid
    · exact le_rfl
    · exact ((pairwise_cons.1 hids).1 id hid).le

theorem eq_nil_of_firstAfter (h' : firstAfter last ids = none) : ids = [] :=
  head?_eq_none_iff.1 (Option.or_eq_none_iff.1 h').2

/-- A peer on the way from one to another, going round. -/
def OnTheWay (p q x : ℕ) : Prop := if p < q then p ≤ x ∧ x < q else p ≤ x ∨ x < q

theorem OnTheWay.next (hl : OnTheWay p q l) (hq : q ∈ ids)
    (hids : ids.Pairwise (· < ·)) (hnext : firstAfter (some l) ids = some h) :
    h = q ∨ (OnTheWay p q h ∧ h ≠ p) := by
  unfold OnTheWay at *
  rcases firstAfter_some hids hnext with ⟨hlt, hleast⟩ | ⟨hall, hleast⟩
  · have hle : l < q → h ≤ q := hleast q hq
    split_ifs at hl ⊢ <;> omega
  · have hle : h ≤ q := hleast q hq
    have hback : q ≤ l := hall q hq
    split_ifs at hl ⊢ <;> omega

/-- Who has had the slot last, after these turns. -/
def lastHolder (last : Option PeerId) (ts : List Turn) : Option PeerId :=
  ts.foldl (fun last t => t.holder.or last) last

theorem inTurn_append : ∀ (last : Option PeerId) (ts us : List Turn),
    InTurn last (ts ++ us) ↔ InTurn last ts ∧ InTurn (lastHolder last ts) us
  | _, [], us => by simp [InTurn, lastHolder]
  | last, t :: ts, us => by
    rw [cons_append, InTurn, InTurn, inTurn_append (t.holder.or last) ts us, and_assoc]
    rfl

theorem InTurn.reaches {mid : List Turn} (hne : q ≠ p) (hl : OnTheWay p q l)
    (hturn : InTurn (some l) (mid ++ [t])) (hq : ∀ u ∈ mid ++ [t], q ∈ u.interested)
    (hp : t.holder = some p) : ∃ u ∈ mid, u.holder = some q := by
  induction mid generalizing l with
  | nil =>
    rcases hl.next (hq t mem_cons_self) t.increasing (hturn.1.symm.trans hp) with heq | ⟨-, hne'⟩
    · exact absurd heq.symm hne
    · exact absurd rfl hne'
  | cons u mid ih =>
    obtain ⟨hnext, hturn⟩ := hturn
    have hmem := hq u mem_cons_self
    cases hu : u.holder with
    | none =>
      rw [eq_nil_of_firstAfter (hnext.symm.trans hu)] at hmem
      cases hmem
    | some h =>
      rcases hl.next hmem u.increasing (hnext.symm.trans hu) with rfl | ⟨hl', -⟩
      · exact ⟨u, mem_cons_self, hu⟩
      · rw [hu] at hturn
        obtain ⟨v, hv, hvq⟩ := ih hl' hturn fun v hv => hq v (mem_cons_of_mem _ hv)
        exact ⟨v, mem_cons_of_mem _ hv, hvq⟩

theorem InTurn.fair (hturn : InTurn none ts) : Fair ts := by
  rintro before t mid t' after p q rfl hp hp' hne hq
  obtain ⟨-, -, hturn⟩ := (inTurn_append ..).1 hturn
  rw [hp, append_cons, inTurn_append] at hturn
  exact hturn.1.reaches hne (by unfold OnTheWay; split_ifs <;> omega) hq hp'

theorem Choker.increasing_interestedIds (c : Choker) : c.interestedIds.Pairwise (· < ·) :=
  pairwise_map.2 (c.peers.increasing.filter _)

/-- The turn that an operation makes. -/
def ChokerEvent.turns (c : Choker) : ChokerEvent → List Turn
  | .rechoke => if c.movesOn (c.round + 1) then
      [⟨c.interestedIds, c.increasing_interestedIds, c.rechoke.optimistic⟩] else []
  | _ => []

/-- **The choker with the turns** that there have been. -/
def turning : LTS (Choker × List Turn) ChokerEvent where
  step s e t := choking.step s.1 e t.1 ∧ t.2 = s.2 ++ e.turns s.1

/-- **When the slot keeps its place**: the peer that has it does not leave,
and when it moves on from one, there is another that is interested. -/
def KeepsPlace (s : Choker × List Turn) : ChokerEvent → Choker × List Turn → Prop
  | .unregister id, _ => s.1.optimistic ≠ some id
  | .rechoke, _ => s.1.movesOn (s.1.round + 1) = true →
      s.1.optimistic = none ∨ s.1.interestedIds ≠ []
  | _, _ => True

/-- The choker knows who has had the slot last. -/
structure TurnsInv (s : Choker × List Turn) : Prop where
  last : s.1.optimistic = lastHolder none s.2
  inTurn : InTurn none s.2

theorem TurnsInv.step {s s' : Choker × List Turn} {e : ChokerEvent} (h : TurnsInv s)
    (hstep : (turning.restrict KeepsPlace).step s e s') : TurnsInv s' := by
  obtain ⟨⟨hstep, hturns⟩, hkeeps⟩ := hstep
  have hsame (hnone : e.turns s.1 = []) (hlast : s'.1.optimistic = s.1.optimistic) :
      TurnsInv s' := by
    rw [hnone, append_nil] at hturns
    exact ⟨by rw [hlast, hturns, h.last], hturns ▸ h.inTurn⟩
  cases e with
  | rechoke =>
    have hrechoke : s'.1 = s.1.rechoke := hstep
    by_cases hmoves : s.1.movesOn (s.1.round + 1) = true
    · have hnext : s.1.rechoke.optimistic = firstAfter s.1.optimistic s.1.interestedIds :=
        if_pos hmoves
      rw [ChokerEvent.turns, if_pos hmoves] at hturns
      rw [h.last] at hnext
      refine ⟨?_, ?_⟩
      · rw [hrechoke, hturns, lastHolder, foldl_append]
        change _ = s.1.rechoke.optimistic.or (lastHolder none s.2)
        cases hnone : s.1.rechoke.optimistic with
        | some id => rfl
        | none =>
          rw [Option.none_or, ← h.last]
          refine ((hkeeps hmoves).resolve_right fun hsome => hsome ?_).symm
          exact eq_nil_of_firstAfter (hnext.symm.trans hnone)
      · rw [hturns, inTurn_append]
        exact ⟨h.inTurn, hnext, trivial⟩
    · refine hsame (if_neg hmoves) ?_
      rw [hrechoke]
      exact if_neg hmoves
  | unregister id =>
    refine hsame rfl ?_
    rw [show s'.1 = s.1.unregister id from hstep]
    exact if_neg hkeeps
  | register id => exact hsame rfl (congrArg (fun r => r.2.optimistic) hstep).symm
  | setInterested id interested | recordUpload id bytes | recordDownload id bytes =>
    refine hsame rfl ?_
    rw [show s'.1 = _ from hstep]
    rfl
  | grantIfFree id granted =>
    refine hsame rfl ?_
    have hgrant : (s.1.grantIfFree id).2 = s'.1 := congrArg Prod.snd hstep
    rw [← hgrant, Choker.grantIfFree]
    split
    · rfl
    · split_ifs <;> rfl

/-- **The optimistic slot goes round**, and every peer that stays interested
gets its turn, in every run in which the slot keeps its place. -/
theorem inTurn_of_keepsPlace {slots : ℕ} {es : List ChokerEvent} {s : Choker × List Turn}
    (hrun : (turning.restrict KeepsPlace).Run (.new slots, []) es s) :
    InTurn none s.2 ∧ Fair s.2 := by
  have hinv : TurnsInv s := hrun.invariant (fun _ _ _ h hstep => h.step hstep) ⟨rfl, trivial⟩
  exact ⟨hinv.inTurn, hinv.inTurn.fair⟩

/-- Where an operation leads, if it answers so. -/
def nextTurning (s : Choker × List Turn) (e : ChokerEvent) : Option (Choker × List Turn) :=
  Option.map (fun c => (c, s.2 ++ e.turns s.1)) <| match e with
    | .register id => if s.1.register.1 = id then some s.1.register.2 else none
    | .unregister id => some (s.1.unregister id)
    | .setInterested id interested => some (s.1.setInterested id interested)
    | .grantIfFree id granted =>
      if (s.1.grantIfFree id).1 = granted then some (s.1.grantIfFree id).2 else none
    | .recordUpload id bytes => some (s.1.recordUpload id bytes)
    | .recordDownload id bytes => some (s.1.recordDownload id bytes)
    | .rechoke => some s.1.rechoke

theorem step_of_nextTurning (s : Choker × List Turn) (e : ChokerEvent) (s' : Choker × List Turn)
    (h : nextTurning s e = some s') : turning.step s e s' := by
  obtain ⟨c, hc, rfl⟩ := Option.map_eq_some_iff.1 h
  refine ⟨?_, rfl⟩
  cases e with
  | register id | grantIfFree id granted =>
    obtain ⟨rfl, hleft⟩ := Option.ite_none_right_eq_some.1 hc
    exact Prod.ext rfl (Option.some_inj.1 hleft)
  | _ => exact (Option.some_inj.1 hc).symm

instance (s : Choker × List Turn) (e : ChokerEvent) (s' : Choker × List Turn) :
    Decidable (KeepsPlace s e s') := by
  unfold KeepsPlace
  split <;> infer_instance

/-- Three peers stay interested for thirteen rounds. -/
def threeInterested : List ChokerEvent :=
  [.register 0, .register 1, .register 2, .setInterested 0 true, .setInterested 1 true,
    .setInterested 2 true] ++ replicate 13 .rechoke

theorem inTurn_of_keepsPlace_sample : ∃ s,
    (turning.restrict KeepsPlace).Run (.new 2, []) threeInterested s ∧
    s.2.map Turn.holder = [some 0, some 1, some 2, some 0, some 1] ∧
    InTurn none s.2 ∧ Fair s.2 := by
  have hruns : ∃ s ∈ threeInterested.foldlM (LTS.guarded KeepsPlace nextTurning) (.new 2, []),
      s.2.map Turn.holder = [some 0, some 1, some 2, some 0, some 1] := by
    decide +kernel
  obtain ⟨s, hs, hholders⟩ := hruns
  have hrun := LTS.run_of_guarded step_of_nextTurning hs
  exact ⟨s, hrun, hholders, inTurn_of_keepsPlace hrun⟩

/-- **The slot does not go on from a peer that has left**: of peers 0, 1 and
2 the second has it and leaves, and it goes to the first. -/
theorem turn_after_leaving : ∃ es s, turning.Run (.new 2, []) es s ∧
    s.2.map (fun t => (t.interested, t.holder)) = [([1, 2], some 1), ([0, 2], some 0)] ∧
    ¬InTurn none s.2 := by
  have hruns : ∃ s ∈ [.register 0, .register 1, .register 2, .setInterested 1 true,
      .setInterested 2 true, .rechoke, .setInterested 0 true, .unregister 1, .rechoke].foldlM
      nextTurning (.new 2, []),
      s.2.map (fun t => (t.interested, t.holder)) = [([1, 2], some 1), ([0, 2], some 0)] ∧
      ¬InTurn none s.2 := by
    decide +kernel
  obtain ⟨s, hs, hturns⟩ := hruns
  exact ⟨_, s, LTS.run_of_foldlM step_of_nextTurning hs, hturns⟩

end BitTorrent.Serving
