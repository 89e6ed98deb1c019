import BitTorrent.Worker.Sound

/-!
# What the peer still owes

A request that went out is owed until the peer answers or refuses it, or chokes us, or until it is
cancelled.
-/

namespace BitTorrent

open List ConnectionEvent Pipeline PeerState

/-- What is still owed after a message of the peer. -/
def Message.settles (owed : List BlockRequest) : Message → List BlockRequest
  | .piece index start _ => owed.eraseP fun r => r.1 == index.toNat && r.2.1 == start.toNat
  | .rejectRequest index start length => owed.erase (index.toNat, start.toNat, length.toNat)
  | .choke => []
  | _ => owed

/-- What is owed after something was written. -/
def Sent.owes (owed : List BlockRequest) : Sent → List BlockRequest
  | .request r => owed ++ [r]
  | .cancel r => owed.erase r
  | .keepAlive => owed

/-- **What is owed after an event.** What `salvage_after_failed_write` reads
does not count: the connection is over by then. -/
def owes (owed : List BlockRequest) : ConnectionEvent → List BlockRequest
  | .own _ out => out.sent.foldl Sent.owes (out.messages.foldl Message.settles owed)
  | _ => owed

/-- **What is owed after a history**: the requests sent that the peer has
not answered, not refused and not discarded by a choke, and that were not
cancelled. -/
def unanswered (es : List ConnectionEvent) : List BlockRequest := es.foldl owes []

/-- The piece and the offset that a request is for. -/
def BlockRequest.key (r : BlockRequest) : ℕ × ℕ := (r.1, r.2.1)

/-- The message answers a request, or refuses it. -/
def Message.Answers (r : BlockRequest) : Message → Prop
  | .piece index start _ => r.key = (index.toNat, start.toNat)
  | .rejectRequest index start length => r = (index.toNat, start.toNat, length.toNat)
  | _ => False

section Account

variable {owed : List BlockRequest} {r : BlockRequest} {m : Message} {sent : List Sent}

theorem settles_sublist (owed : List BlockRequest) (m : Message) :
    (m.settles owed).Sublist owed := by
  cases m with
  | piece index start block => exact eraseP_sublist
  | rejectRequest index start length => exact erase_sublist
  | choke => exact nil_sublist owed
  | _ => exact List.Sublist.refl owed

theorem not_mem_eraseP {p : BlockRequest → Bool} {k : ℕ × ℕ} (hp : ∀ r, p r = true ↔ r.key = k)
    (hnodup : (owed.map BlockRequest.key).Nodup) (hr : r ∈ owed.eraseP p) : r.key ≠ k := by
  induction owed with
  | nil => cases hr
  | cons q owed ih =>
    rw [map_cons, nodup_cons] at hnodup
    by_cases hq : p q = true
    · rw [eraseP_cons_of_pos hq] at hr
      rintro rfl
      exact hnodup.1 ((hp q).1 hq ▸ mem_map_of_mem hr)
    · rw [eraseP_cons_of_neg hq] at hr
      rcases mem_cons.1 hr with rfl | hr
      · exact fun h => hq ((hp r).2 h)
      · exact ih hnodup.2 hr

theorem not_answers_of_mem_settles (hnodup : (owed.map BlockRequest.key).Nodup)
    (hr : r ∈ m.settles owed) : ¬ m.Answers r := by
  cases m with
  | piece index start block => exact not_mem_eraseP (by simp [BlockRequest.key]) hnodup hr
  | rejectRequest index start length =>
    rintro rfl
    exact (hnodup.of_map _).not_mem_erase hr
  | _ => exact id

theorem owes_requests (owed reqs : List BlockRequest) :
    (reqs.map Sent.request).foldl Sent.owes owed = owed ++ reqs := by
  induction reqs generalizing owed with
  | nil => simp
  | cons r reqs ih => simp [Sent.owes, ih]

theorem owes_spec (owed : List BlockRequest) (hnone : ∀ r, .request r ∉ sent) :
    (sent.foldl Sent.owes owed).Sublist owed ∧
      (owed.Nodup → ∀ r ∈ sent.foldl Sent.owes owed, .cancel r ∉ sent) := by
  induction sent generalizing owed with
  | nil => simp
  | cons s sent ih =>
    have hrest : ∀ r, .request r ∉ sent := fun r hr => hnone r (mem_cons_of_mem _ hr)
    cases s with
    | request r => exact absurd (mem_cons_self ..) (hnone r)
    | cancel q =>
      obtain ⟨hsub, hcancel⟩ := ih (owed.erase q) hrest
      refine ⟨hsub.trans erase_sublist, fun hnodup r hr => ?_⟩
      have hne : r ≠ q := fun h => hnodup.not_mem_erase (h ▸ hsub.mem hr)
      simpa [hne] using hcancel (hnodup.erase q) r hr
    | keepAlive =>
      obtain ⟨hsub, hcancel⟩ := ih owed hrest
      exact ⟨hsub, fun hnodup r hr => by simpa using hcancel hnodup r hr⟩

theorem event_owes_spec (owed : List BlockRequest) (w : World) {out : Output}
    (hnone : ∀ r, .request r ∉ out.sent) :
    (owes owed (.own w out)).Sublist owed ∧
      ((owed.map BlockRequest.key).Nodup → ∀ r ∈ owes owed (.own w out),
        .cancel r ∉ out.sent ∧ ∀ m ∈ out.messages, ¬ m.Answers r) := by
  obtain ⟨hsub, hcancel⟩ := owes_spec (out.messages.foldl Message.settles owed) hnone
  have hheard : (out.messages.foldl Message.settles owed).Sublist owed ∧
      ((owed.map BlockRequest.key).Nodup → ∀ r ∈ out.messages.foldl Message.settles owed,
        ∀ m ∈ out.messages, ¬ m.Answers r) := by
    unfold Output.messages
    split
    · rename_i m _
      refine ⟨settles_sublist owed m, fun hnodup r hr m' hm' => ?_⟩
      obtain rfl := mem_singleton.1 hm'
      exact not_answers_of_mem_settles hnodup hr
    · exact ⟨List.Sublist.refl owed, fun _ _ _ _ hm => by cases hm⟩
  refine ⟨hsub.trans hheard.1, fun hnodup r hr => ⟨?_, hheard.2 hnodup r (hsub.mem hr)⟩⟩
  exact hcancel ((hnodup.of_map _).sublist hheard.1) r hr

end Account

/-- The requests in flight for a piece. -/
def requestsOf (v : PieceWork × List (ℕ × ℕ)) : List BlockRequest :=
  v.2.map fun r => (v.1.index.toNat, r)

theorem requestsOf_append (work : PieceWork) (flight more : List (ℕ × ℕ)) :
    requestsOf (work, flight ++ more) = requestsOf (work, flight) ++ requestsOf (work, more) :=
  map_append

variable {work : PieceWork}

theorem requestsOf_map_snd {reqs : List BlockRequest}
    (hindex : ∀ r ∈ reqs, r.1 = work.index.toNat) :
    requestsOf (work, reqs.map Prod.snd) = reqs := by
  rw [requestsOf, map_map]
  conv_rhs => rw [← map_id reqs]
  exact map_congr_left fun r hr => Prod.ext (hindex r hr).symm rfl

namespace Lookahead

/-- The requests in flight for a piece in hand. -/
def requests (la : Lookahead) : List BlockRequest := requestsOf la.view

variable {la : Lookahead}

theorem Ok.requests_nodup (h : la.Ok) : (la.requests.map BlockRequest.key).Nodup := by
  have hnodup := h.nodup.map (Prod.mk_right_injective la.work.index.toNat)
  simpa [requests, requestsOf, view, BlockRequest.key, Function.comp_def] using hnodup

end Lookahead

namespace Connection

variable {c t : Connection} {w : World} {out : Output} {peer : PeerState} {queue : WorkQueue}
  {es : List ConnectionEvent} {minDepth : ℕ} {owed : List BlockRequest} {r : BlockRequest}

/-- The requests in flight for the pieces in hand. -/
def counted (c : Connection) : List BlockRequest := c.view.flatMap requestsOf

theorem length_counted (c : Connection) :
    c.counted.length = (c.view.map fun v => v.2.length).sum := by
  simp [counted, length_flatMap, requestsOf]

theorem counted_nodup (hc : c.Sound) : (c.counted.map BlockRequest.key).Nodup := by
  have hcounted : c.counted.map BlockRequest.key =
      c.hand.flatMap fun la => la.requests.map BlockRequest.key := by
    rw [counted, view, flatMap_map, map_flatMap]
    rfl
  rw [hcounted, nodup_flatMap]
  refine ⟨fun la hla => (hc.ok la hla).requests_nodup, ?_⟩
  have hnodup := hc.nodup
  rw [works_eq, map_map, List.Nodup, pairwise_map] at hnodup
  refine hnodup.imp fun {la la'} hne => ?_
  -- what is asked for two pieces differs in the piece
  have hindex : ∀ {la : Lookahead} {k : ℕ × ℕ}, k ∈ la.requests.map BlockRequest.key →
      k.1 = la.work.index.toNat := by
    intro la k hk
    simp only [Lookahead.requests, requestsOf, map_map, mem_map] at hk
    obtain ⟨q, -, rfl⟩ := hk
    rfl
  exact fun k hk hk' => hne (UInt32.toNat_inj.1 ((hindex hk).symm.trans (hindex hk')))

/-- **The requests that a step drops from the count** with neither an
answer nor a cancel. -/
def forgets (c : Connection) (w : World) : List BlockRequest :=
  match c.phase with
  | .fetching f =>
    if !w.serves then []
    else if c.queue.isDone f.work.index then
      -- those whose cancel is not written
      f.requests.filter fun r => !(w.sendEach f.inFlight).contains r.2
    else if !c.peer.mayRequest f.work.index then c.counted
    else []
  | .reading f =>
    if f.assembler.isComplete then f.requests
    else
      match w.reading with
      | .ok (.rejectRequest index start length) =>
        -- the piece is given up on, with what else is in flight for it
        let given := c.hand.filter fun la => la.work.index == index &&
          la.inFlightHas start length && decide (maxRefusalsPerPiece ≤ la.refusals + 1)
        (given.flatMap Lookahead.requests).filter (· != (index.toNat, start.toNat, length.toNat))
      | _ => []
  | .releasing none => (c.ahead.take 1).flatMap Lookahead.requests
  | _ => []

theorem mem_counted : r ∈ c.counted ↔ ∃ v ∈ c.view, r ∈ requestsOf v := mem_flatMap

theorem mem_counted_or {l k : List (PieceWork × List (ℕ × ℕ))} {v : PieceWork × List (ℕ × ℕ)}
    (hc : c.view = l ++ v :: k) (ht : ∀ u ∈ l ++ k, u ∈ t.view) (hr : r ∈ c.counted) :
    r ∈ t.counted ∨ r ∈ requestsOf v := by
  obtain ⟨u, hu, hr⟩ := mem_counted.1 hr
  rw [hc, mem_append, mem_cons] at hu
  rcases hu with hu | rfl | hu
  · exact .inl (mem_counted.2 ⟨u, ht u (mem_append_left _ hu), hr⟩)
  · exact .inr hr
  · exact .inl (mem_counted.2 ⟨u, ht u (mem_append_right _ hu), hr⟩)

/-- **Why a request leaves the count**: it is dropped, or cancelled, or the
peer has answered it. -/
def Leaves (c : Connection) (w : World) (out : Output) (r : BlockRequest) : Prop :=
  r ∈ c.forgets w ∨ .cancel r ∈ out.sent ∨ ∃ m ∈ out.messages, m.Answers r

theorem settled_requests (hc : c.Sound) {m : Message}
    {before rest : List (PieceWork × List (ℕ × ℕ))} {flight : List (ℕ × ℕ)} {start : UInt32}
    (hm : (∃ block, m = .piece work.index start block) ∨
      ∃ length, m = .rejectRequest work.index start length ∧ (start.toNat, length.toNat) ∈ flight)
    (hview : c.view = before ++ (work, flight) :: rest)
    (hview' : t.view = before ++ (work, flight.filter fun r => r.1 != start.toNat) :: rest)
    (hr : r ∈ requestsOf (work, flight)) : r ∈ t.counted ∨ m.Answers r := by
  have hcounted : r ∈ c.counted := mem_counted.2 ⟨_, by rw [hview]; exact mem_append_cons_self, hr⟩
  obtain ⟨q, hq, rfl⟩ := mem_map.1 hr
  by_cases hstart : q.1 = start.toNat
  · right
    rcases hm with ⟨block, rfl⟩ | ⟨length, rfl, hin⟩
    · simp [Message.Answers, BlockRequest.key, hstart]
    · -- at the offset refused there is only the request refused
      have hrefused : (work.index.toNat, start.toNat, length.toNat) ∈ c.counted :=
        mem_counted.2 ⟨(work, flight), by simp [hview], mem_map_of_mem hin⟩
      exact inj_on_of_nodup_map (counted_nodup hc) hcounted hrefused
        (by simp [BlockRequest.key, hstart])
  · have hleft : q ∈ flight.filter fun r => r.1 != start.toNat :=
      mem_filter.2 ⟨hq, by simpa using hstart⟩
    exact .inl (mem_counted.2 ⟨(work, flight.filter fun r => r.1 != start.toNat),
      by simp [hview'], mem_map_of_mem hleft⟩)

theorem refused_requests {la : Lookahead} {f : Fetch} {start length : UInt32}
    (hphase : c.phase = .reading f) (hcomplete : f.assembler.isComplete = false)
    (hreading : w.reading = .ok (.rejectRequest la.work.index start length))
    (hla : la ∈ c.hand) (hin : (start.toNat, length.toNat) ∈ la.inFlight)
    (hmax : maxRefusalsPerPiece ≤ la.refusals + 1) (hheard : out.heard = some w.reading)
    (hr : r ∈ la.requests) : c.Leaves w out r := by
  by_cases hrefused : r = (la.work.index.toNat, start.toNat, length.toNat)
  · refine .inr (.inr ⟨.rejectRequest la.work.index start length, ?_, hrefused⟩)
    simp [Output.messages, hheard, hreading]
  · left
    simp only [forgets, hphase, hcomplete, hreading, Bool.false_eq_true, if_false]
    refine mem_filter.2 ⟨mem_flatMap.2 ⟨la, mem_filter.2 ⟨hla, ?_⟩, hr⟩, ?_⟩
    · simpa [Lookahead.inFlightHas] using ⟨hin, hmax⟩
    · simpa using hrefused

theorem Effect.counted (hc : c.Sound) (h : Effect c w out t) (hending : ¬ t.phase.Ending)
    (hr : r ∈ c.counted) : r ∈ t.counted ∨ c.Leaves w out r := by
  cases h with
  | rests hview _ _ _ => exact .inl (by rwa [Connection.counted, hview])
  | takes hview _ _ =>
    obtain ⟨v, hv, hr⟩ := mem_counted.1 hr
    exact .inl (mem_counted.2 ⟨v, by simp [hview, hv], hr⟩)
  | sends _ hview hview' _ _ =>
    rcases mem_counted_or (t := t) hview (by simp +contextual [hview', or_imp]) hr with hr | hr
    · exact .inl hr
    · refine .inl (mem_counted.2 ⟨_, by rw [hview']; exact mem_append_cons_self, ?_⟩)
      rw [requestsOf_append]
      exact mem_append_left _ hr
  | sendFails _ _ _ _ _ hend | fails _ _ _ _ _ hend => exact absurd hend hending
  | settles hm hview hview' =>
    rename_i m before rest work flight start
    rcases mem_counted_or (t := t) hview (by simp +contextual [hview', or_imp]) hr with hr | hr
    · exact .inl hr
    · refine (settled_requests hc hm hview hview' hr).imp_right fun hanswers => ?_
      exact .inr (.inr ⟨m, mem_singleton_self m, hanswers⟩)
  | clears hphase hserves hdone hmay _ =>
    exact .inr (.inl (by simpa [forgets, hphase, hserves, hdone, hmay] using hr))
  | resets hphase hcomplete hview hview' =>
    rename_i f rest
    rcases mem_counted_or (t := t) (l := []) hview (by simp +contextual [hview']) hr with hr | hr
    · exact .inl hr
    · have hr : r ∈ f.requests := hr
      exact .inr (.inl (by simpa [forgets, hphase, hcomplete] using hr))
  | refuses hphase hcomplete hreading hin hmax hview hview' _ =>
    refine (mem_counted_or (t := t) (l := []) hview (by simp [hview']) hr).imp_right fun hr => ?_
    have hcurrent := hand_of_phase hphase
    exact refused_requests hphase hcomplete hreading (by simp [hcurrent, Phase.hand]) hin hmax
        rfl hr
  | declines hphase hcomplete hreading hla hin hmax hview hview' =>
    refine (mem_counted_or (t := t) hview (by simp [hview']) hr).imp_right fun hr => ?_
    have hcurrent := hand_of_phase hphase
    exact refused_requests hphase hcomplete hreading (by simp [hcurrent, Phase.hand, hla]) hin hmax
      rfl hr
  | releases hphase hphase' hview hview' =>
    rename_i result work flight rest
    refine (mem_counted_or (t := t) (l := []) hview (by simp [hview']) hr).imp_right fun hr => ?_
    cases result with
    | some result => exact absurd (by rw [hphase']; trivial) hending
    | none =>
      left
      have hviews : c.ahead.map Lookahead.view = (work, flight) :: rest :=
        (view_of_phase hphase).symm.trans hview
      obtain ⟨next, ahead, hahead, hnext, -⟩ := map_eq_cons_iff.1 hviews
      simpa [forgets, hphase, hahead, Lookahead.requests, hnext] using hr
  | stores _ hview hview' _ =>
    refine (mem_counted_or (t := t) (l := []) hview (by simp [hview']) hr).imp_right fun hr => ?_
    cases hr
  | abandons hphase hserves hdone hdone' hview hview' =>
    rename_i f rest
    refine (mem_counted_or (t := t) (l := []) hview (by simp [hview']) hr).imp_right fun hr => ?_
    have hr' : r ∈ f.requests := hr
    obtain ⟨q, hq, rfl⟩ := mem_map.1 hr
    by_cases hsent : q ∈ w.sendEach f.inFlight
    · exact .inr (.inl (mem_map_of_mem hsent))
    · have hdone : c.queue.isDone f.work.index = true := by simpa [WorkQueue.isDone] using hdone
      exact .inl (by simpa [forgets, hphase, hserves, hdone, hsent] using hr')

theorem Effect.requests (hc : c.Sound) (ht : t.Sound) (h : Effect c w out t) :
    (∀ r, .request r ∉ out.sent) ∨
    ∃ reqs, out = { sent := reqs.map .request, gave := out.gave } ∧ ¬ c.phase.Ending ∧
      c.counted.length + reqs.length ≤ cap c.peer.peerRequestLimit ∧
      (¬ t.phase.Ending → ((c.counted ++ reqs).map BlockRequest.key).Nodup ∧
        c.counted ++ reqs ⊆ t.counted) := by
  have hroom : ∀ {f depth} {reqs : List BlockRequest}, c.phase = .asking f depth →
      c.outstanding f + reqs.length ≤ depth →
      c.counted.length + reqs.length ≤ cap c.peer.peerRequestLimit := by
    intro f depth reqs hphase hfits
    rw [length_counted, ← outstanding_eq (hand_of_phase hphase)]
    exact hfits.trans (hc.asks f depth (.inl hphase)).2
  cases h with
  | sends hphase hview hview' hindex hfits =>
    rename_i f depth before rest work flight reqs
    refine .inr ⟨reqs, rfl, by rw [hphase]; exact id, hroom hphase hfits, fun _ => ?_⟩
    have hperm : t.counted.Perm (c.counted ++ reqs) := by
      simp only [Connection.counted, hview, hview', flatMap_append, flatMap_cons,
        requestsOf_append, requestsOf_map_snd hindex, append_assoc]
      exact (perm_append_comm.append_left _).append_left _
    exact ⟨(hperm.map _).nodup_iff.1 (counted_nodup ht), hperm.symm.subset⟩
  | sendFails hphase hview _ hindex hfits hend =>
    exact .inr ⟨_, rfl, by rw [hphase]; exact id, hroom hphase hfits, fun h => absurd hend h⟩
  | rests _ hsent _ _ | fails _ _ hsent _ _ _ => exact .inl fun r hr => by cases hsent _ hr
  | abandons _ _ _ _ _ _ => exact .inl fun r hr => by simp at hr
  | _ => exact .inl fun r hr => by cases hr

/-- **Nothing owed is forgotten**: no request that the step drops from the
count is owed; and where the peer says anew how many it takes, they are no
fewer than before. -/
structure Remembers (s : Connection × List BlockRequest) (e : ConnectionEvent)
    (_ : Connection × List BlockRequest) : Prop where
  forgets : ∀ w out, e = .own w out → ∀ r ∈ s.1.forgets w, r ∉ s.2
  limit : ∀ payload handshake, .extended 0 payload ∈ e.messages →
    ExtendedHandshake.parse payload = .ok handshake →
    cap s.1.peer.peerRequestLimit ≤ cap handshake.reqq

/-- A connection, with what the peer owes beside it. -/
def tallied [Digests] (minDepth : ℕ) : LTS (Connection × List BlockRequest) ConnectionEvent :=
  (connection minDepth).withGhost owes

/-- **The invariant**: what is owed keeps to the limit, and while the
connection goes on it is counted. -/
structure Covered (c : Connection) (owed : List BlockRequest) : Prop where
  sound : c.Sound
  bound : owed.length ≤ cap c.peer.peerRequestLimit
  counted : ¬ c.phase.Ending → (owed.map BlockRequest.key).Nodup ∧ owed ⊆ c.counted

theorem covered_start (peer : PeerState) (queue : WorkQueue) : Covered (start peer queue) [] where
  sound := sound_start peer queue
  bound := Nat.zero_le _
  counted _ := ⟨.nil, nil_subset _⟩

theorem peerRequestLimit_absorb (peer : PeerState) (m : Message) :
    (peer.absorb m).2.peerRequestLimit = peer.peerRequestLimit ∨
      ∃ payload handshake, m = .extended 0 payload ∧
        ExtendedHandshake.parse payload = .ok handshake ∧
        (peer.absorb m).2.peerRequestLimit = handshake.reqq := by
  cases m with
  | extended id payload =>
    rw [absorb]
    split
    · rename_i hid
      unfold hearHandshake
      split
      · rename_i handshake hparse
        exact .inr ⟨payload, handshake, by rw [hid], hparse, rfl⟩
      · exact .inl rfl
    · exact .inl rfl
  | haveOne pieceIndex =>
    simp only [absorb, applyMessage_haveOne]
    split <;> exact .inl rfl
  | allowedFast pieceIndex =>
    simp only [absorb, applyMessage_allowedFast]
    split <;> exact .inl rfl
  | _ => exact .inl rfl

variable {s s' : Connection × List BlockRequest}

theorem bound_of_length_le [Digests] (hbound : s.2.length ≤ cap s.1.peer.peerRequestLimit)
    (hleads : s.1.Leads w (t, out)) (hG : Remembers s (.own w out) s')
    (hlen : owed.length ≤ s.2.length) : owed.length ≤ cap t.peer.peerRequestLimit := by
  rcases hleads.peer with hpeer | ⟨m, hm, hpeer⟩
  · have hpeer : t.peer = s.1.peer := hpeer
    rw [hpeer]
    exact hlen.trans hbound
  · have hpeer : t.peer = (s.1.peer.absorb m).2 := hpeer
    have hm : out.heard = some (.ok m) := hm
    rcases peerRequestLimit_absorb s.1.peer m with
      hlimit | ⟨payload, handshake, rfl, hparse, hlimit⟩
    · rw [hpeer, hlimit]
      exact hlen.trans hbound
    · rw [hpeer, hlimit]
      refine (hlen.trans hbound).trans (hG.limit payload handshake ?_ hparse)
      simp [messages, Output.messages, hm]

theorem covered_step [Digests] (hs : Covered s.1 s.2)
    (hG : Remembers s (.own w out) s') (h : s.1.step minDepth w = some (t, out)) :
    Covered t (owes s.2 (.own w out)) := by
  have hsound := sound_step hs.sound h
  have heffect := hs.sound.effect h
  have hleads := step_leads hs.sound.waiting h
  rcases heffect.requests hs.sound hsound with hnone | ⟨reqs, hout, hlive, hroom, hnew⟩
  · obtain ⟨hsub, hgone⟩ := event_owes_spec s.2 w hnone
    refine ⟨hsound, bound_of_length_le hs.bound hleads hG hsub.length_le, fun hending => ?_⟩
    obtain ⟨hnodup, hcounted⟩ := hs.counted fun hc => hending (ending_step hc h).2
    refine ⟨hnodup.sublist (hsub.map _), fun r hr => ?_⟩
    obtain ⟨hcancel, hanswer⟩ := hgone hnodup r hr
    have hr' : r ∈ s.2 := hsub.mem hr
    rcases heffect.counted hs.sound hending (hcounted hr') with hr | hr | hr | ⟨m, hm, hr⟩
    · exact hr
    · exact absurd hr' (hG.forgets w out rfl r hr)
    · exact absurd hr hcancel
    · exact absurd hr (hanswer m hm)
  · obtain ⟨hnodup, hcounted⟩ := hs.counted hlive
    have howed : owes s.2 (.own w out) = s.2 ++ reqs := by
      rw [hout]
      exact owes_requests s.2 reqs
    have hpeer : t.peer = s.1.peer := by
      rcases hleads.peer with hpeer | ⟨m, hm, -⟩
      · exact hpeer
      · rw [hout] at hm
        cases hm
    have hlen : s.2.length ≤ s.1.counted.length :=
      (subperm_of_subset (hnodup.of_map _) hcounted).length_le
    rw [howed]
    refine ⟨hsound, ?_, fun hending => ?_⟩
    · rw [hpeer, length_append]
      exact (Nat.add_le_add_right hlen _).trans hroom
    · obtain ⟨hkeys, hsubset⟩ := hnew hending
      rw [map_append, nodup_append] at hkeys ⊢
      refine ⟨⟨hnodup, hkeys.2.1, fun a ha => hkeys.2.2 a (map_subset _ hcounted ha)⟩, ?_⟩
      exact fun r hr => hsubset (mem_append.2 ((mem_append.1 hr).imp_left (hcounted ·)))

theorem covered_event [Digests] {e : ConnectionEvent}
    (hs : Covered s.1 s.2) (h : ((tallied minDepth).restrict Remembers).step s e s') :
    Covered s'.1 s'.2 := by
  obtain ⟨⟨h, howed⟩, hG⟩ := h
  rw [howed]
  cases e with
  | own w out => exact covered_step hs hG h
  | other call =>
    have hsound := sound_event hs.sound h
    obtain ⟨q, -, heq⟩ := h
    rw [heq] at hsound ⊢
    exact ⟨hsound, hs.bound, hs.counted⟩
  | noted held =>
    have hsound := sound_event hs.sound h
    have heq : s'.1 = { s.1 with queue := s.1.queue.noteBitfield held } := h
    rw [heq] at hsound ⊢
    exact ⟨hsound, hs.bound, hs.counted⟩

/-- **No more is owed than the peer allows.** In every run in which no
request that is owed is dropped from the count, the requests sent that the
peer has neither answered nor refused nor discarded, and that were not
cancelled, are never more than the peer takes. -/
theorem unanswered_le_cap [Digests] {owed : List BlockRequest}
    (hrun : ((tallied minDepth).restrict Remembers).Run (start peer queue, []) es (c, owed)) :
    owed = unanswered es ∧ owed.length ≤ cap c.peer.peerRequestLimit := by
  have hcovered : Covered c owed := by
    refine LTS.Run.invariant (I := fun s => Covered s.1 s.2) ?_ hrun (covered_start peer queue)
    exact fun _ _ _ hs hstep => covered_event hs hstep
  exact ⟨hrun.of_restrict.ghost_eq, hcovered.bound⟩

/-- The condition on a step of the worker, evaluated. -/
def remembers (s : Connection × List BlockRequest) (w : World) (out : Output) : Bool :=
  (s.1.forgets w).all (fun r => decide (r ∉ s.2)) && out.messages.all fun m =>
    match m with
    | .extended _ payload =>
      match ExtendedHandshake.parse payload with
      | .ok handshake => decide (cap s.1.peer.peerRequestLimit ≤ cap handshake.reqq)
      | .error _ => true
    | _ => true

theorem remembers_spec (s' : Connection × List BlockRequest)
    (h : remembers s w out = true) : Remembers s (.own w out) s' := by
  simp only [remembers, Bool.and_eq_true, all_eq_true, decide_eq_true_eq] at h
  refine ⟨fun w' out' heq r hr => ?_, fun payload handshake hm hparse => ?_⟩
  · cases heq
    exact h.1 r hr
  · simpa [hparse] using h.2 _ hm

/-- A step of the worker in a world, with what is owed after it, if it is
allowed. -/
def nextTallied [Digests] (minDepth : ℕ)
    (allowed : Connection × List BlockRequest → World → Output → Bool)
    (s : Connection × List BlockRequest) (w : World) :
    Option (ConnectionEvent × (Connection × List BlockRequest)) :=
  match s.1.step minDepth w with
  | none => none
  | some (t, out) =>
    if allowed s w out then some (.own w out, t, owes s.2 (.own w out)) else none

theorem step_of_nextTallied [Digests]
    {allowed : Connection × List BlockRequest → World → Output → Bool}
    {G : Connection × List BlockRequest → ConnectionEvent → Connection × List BlockRequest → Prop}
    (hG : ∀ s w out s', allowed s w out = true → G s (.own w out) s')
    (s : Connection × List BlockRequest) (w : World) (e : ConnectionEvent)
    (s' : Connection × List BlockRequest) (h : nextTallied minDepth allowed s w = some (e, s')) :
    ((tallied minDepth).restrict G).step s e s' := by
  unfold nextTallied at h
  split at h
  · cases h
  · rename_i t out hstep
    split at h
    · rename_i hallowed
      cases h
      exact ⟨⟨hstep, rfl⟩, hG _ _ _ _ hallowed⟩
    · cases h

theorem unanswered_le_cap_sample :
    let _ := Digests.zero
    ∃ es c owed,
      ((tallied 2).restrict Remembers).Run (start (.seed 2) (.bytes 2), []) es (c, owed) ∧
      owed.length = 2 ∧ owed = unanswered es ∧
      owed.length ≤ cap c.peer.peerRequestLimit := by
  let _ := Digests.zero
  have hdrive : ∃ r ∈ LTS.drive (nextTallied 2 remembers) (start (.seed 2) (.bytes 2), [])
      (List.replicate 8 .silence), r.2.2.length = 2 := by
    decide +kernel
  obtain ⟨⟨es, c, owed⟩, hdrive, hlen⟩ := hdrive
  have hrun := LTS.run_of_drive (step_of_nextTallied fun _ _ _ s' h => remembers_spec s' h) hdrive
  exact ⟨es, c, owed, hrun, hlen, unanswered_le_cap hrun⟩

/-- **More is owed than the peer allows.** Pieces 0 and 1 are asked for of
a peer that takes two requests. It refuses the request for piece 0 each of
the eight times it is made, and the worker gives both pieces back. The
request for piece 1 is owed still, and it is made again, and one for
piece 2. -/
theorem unanswered_above_cap :
    let _ := Digests.zero
    ∃ es c, (connection 2).Run (start (.seed 3) (.bytes 3)) es c ∧
      (unanswered es).length = 3 ∧ cap c.peer.peerRequestLimit = 2 := by
  let _ := Digests.zero
  have hdrive : ∃ r ∈ drive 2 (fun _ _ => true) (start (.seed 3) (.bytes 3))
      (List.replicate 8 .silence ++
        (List.replicate 7 [.calm (.ok (.rejectRequest 0 0 1)), .silence, .silence,
          .silence]).flatten ++
        .calm (.ok (.rejectRequest 0 0 1)) :: List.replicate 10 .silence),
      (unanswered r.1).length = 3 ∧ cap r.2.peer.peerRequestLimit = 2 := by
    decide +kernel
  obtain ⟨⟨es, c⟩, hdrive, hlen, hcap⟩ := hdrive
  have hrun := run_of_drive (G := fun _ _ _ => True) (fun _ _ _ _ _ => trivial) hdrive
  exact ⟨es, c, hrun.of_restrict, hlen, hcap⟩

/-- **Nothing held as in flight is asked for again.** In every run no piece
is in hand twice, the requests that the worker holds as in flight are of
different blocks, and what a step asks for is not held as in flight, unless
the connection ends with it. On the wire a block can be asked for again: what
the worker has dropped is no longer held (`unanswered_above_cap`). -/
theorem asked_once [Digests] (hrun : (connection minDepth).Run (start peer queue) es c) :
    (c.works.map PieceWork.index).Nodup ∧ (c.counted.map BlockRequest.key).Nodup ∧
      ∀ w out t, c.step minDepth w = some (t, out) → ¬ t.phase.Ending →
        ∀ r, .request r ∈ out.sent → r.key ∉ c.counted.map BlockRequest.key := by
  have hc : c.Sound :=
    hrun.invariant (fun _ _ _ h hstep => sound_event h hstep) (sound_start peer queue)
  refine ⟨hc.nodup, counted_nodup hc, fun w out t hstep hends r hr hflying => ?_⟩
  rcases (hc.effect hstep).requests hc (sound_step hc hstep) with hnone | ⟨reqs, hout, -, -, hnew⟩
  · exact hnone r hr
  · rw [hout] at hr
    obtain ⟨r', hr', heq⟩ := mem_map.1 hr
    cases heq
    have hnodup := (hnew hends).1
    rw [map_append] at hnodup
    exact disjoint_of_nodup_append hnodup hflying (mem_map_of_mem hr')

theorem asked_once_sample :
    let _ := Digests.zero
    ∃ es c t out, (connection 2).Run (start (.seed 2) (.bytes 2)) es c ∧
      c.step 2 .silence = some (t, out) ∧ c.counted = [⟨0, 0, 1⟩] ∧
      .request ⟨1, 0, 1⟩ ∈ out.sent ∧ (1, 0) ∉ c.counted.map BlockRequest.key := by
  let _ := Digests.zero
  have hdrive : ∃ r ∈ drive 2 (fun _ _ => true) (start (.seed 2) (.bytes 2))
      (List.replicate 6 .silence), r.2.counted = [⟨0, 0, 1⟩] ∧
        ∃ p ∈ r.2.step 2 .silence, ¬ p.1.phase.Ending ∧ .request ⟨1, 0, 1⟩ ∈ p.2.sent := by
    decide +kernel
  obtain ⟨⟨es, c⟩, hdrive, hcounted, ⟨t, out⟩, hstep, hends, hsent⟩ := hdrive
  have hrun := run_of_drive (G := fun _ _ _ => True) (fun _ _ _ _ _ => trivial) hdrive
  have honce := (asked_once hrun.of_restrict).2.2 .silence out t hstep hends _ hsent
  exact ⟨es, c, t, out, hrun.of_restrict, hstep, hcounted, hsent, honce⟩

end Connection

end BitTorrent
