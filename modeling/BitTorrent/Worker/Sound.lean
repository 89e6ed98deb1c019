import BitTorrent.Worker.Hand

/-!
# What every step of a connection keeps

The invariant of a connection among other workers: the pieces in hand are different ones, their
assemblers are in order, requests are made at a depth the peer allows and of a peer that takes
them, and a wait holds nothing.
-/

namespace BitTorrent

open List Option WorkQueue

/-- The pieces that `take` hands out. -/
def Take.pieces : Take → List PieceWork
  | .piece work => [work]
  | _ => []

namespace WorkQueue

variable {q q' q'' : WorkQueue} {took gave : List PieceWork}

/-- A piece is in nobody's hands: pending, or done. -/
def Back (q : WorkQueue) (i : UInt32) : Prop := q.At i .pending ∨ q.At i .done

/-- **What calls of the queue keep**, by which some pieces are taken and
some given back: a piece that is done stays so, one that is back stays so
unless it is taken, and what is given back is back. -/
structure Keeps (q : WorkQueue) (took gave : List PieceWork) (q' : WorkQueue) : Prop where
  done : q.done ⊆ q'.done
  back : ∀ i, q.Back i → q'.Back i ∨ i ∈ took.map PieceWork.index
  gave : ∀ work ∈ gave, q'.Back work.index

theorem Keeps.of_eq (h : (q'.pending, q'.done) = (q.pending, q.done)) : q.Keeps [] [] q' where
  done := by rw [(Prod.mk.inj h).2]
  back i hi := .inl (by simp_all [Back, At])
  gave := by simp

theorem Keeps.trans (h : q.Keeps [] [] q') (h' : q'.Keeps took gave q'') :
    q.Keeps took gave q'' where
  done := h.done.trans h'.done
  back i hi := h'.back i ((h.back i hi).resolve_right (by simp))
  gave := h'.gave

theorem Moved.back {j : UInt32} {dest : Place} (h : q.Moved q' j dest) (hdest : dest ≠ .claimed) :
    q'.Back j ∧ ∀ i, q.Back i → q'.Back i := by
  have hj : q'.Back j := by
    cases dest with
    | pending => exact .inl ((h j .pending).2 (by simp))
    | claimed => exact absurd rfl hdest
    | done => exact .inr ((h j .done).2 (by simp))
  refine ⟨hj, fun i hi => ?_⟩
  by_cases hij : i = j
  · exact hij ▸ hj
  · exact hi.imp (fun hp => (h i .pending).2 (by rwa [if_neg hij]))
      (fun hd => (h i .done).2 (by rwa [if_neg hij]))

theorem keeps_pushBack (q : WorkQueue) (work : PieceWork) :
    q.Keeps [] [work] (q.pushBack work) := by
  by_cases hdone : work.index ∈ q.done
  · rw [pushBack, if_pos hdone]
    exact ⟨subset_rfl, fun _ hi => .inl hi, by simpa [Back, At] using .inr hdone⟩
  · obtain ⟨hwork, hback⟩ := (moved_pushBack hdone).back (by simp)
    refine ⟨?_, fun i hi => .inl (hback i hi), by simpa using hwork⟩
    rw [pushBack, if_neg hdone]

theorem keeps_markDone (q : WorkQueue) (i : UInt32) : q.Keeps [] [] (q.markDone i).2 := by
  obtain ⟨-, hback⟩ := (moved_markDone q i).back (by simp)
  exact ⟨Finset.subset_insert i q.done, fun j hj => .inl (hback j hj), by simp⟩

theorem keeps_release (q : WorkQueue) (la : Lookahead) : q.Keeps [] [la.work] (q.release la) := by
  have hstash : q.Keeps [] [] (q.stash la) := by
    unfold stash
    split
    · rename_i part _
      obtain ⟨kept, heq⟩ := stashPartial_eq q la.work.index part
      rw [heq]
      exact .of_eq rfl
    · exact .of_eq rfl
  exact hstash.trans (keeps_pushBack _ _)

variable {has : UInt32 → Bool}

theorem keeps_take {dup : Bool} {r : Take} (h : q.take has dup = (r, q')) :
    q.Keeps r.pieces [] q' := by
  rcases take_cases h with ⟨work, rest, rfl, -, hperm, rfl⟩ | ⟨rfl, -⟩ | ⟨rfl, -⟩
  · refine ⟨subset_rfl, fun i hi => ?_, by simp⟩
    rcases hi with hi | hi
    · rcases mem_cons.1 ((hperm.map PieceWork.index).mem_iff.1 hi) with hi | hi
      · exact .inr (by simpa [Take.pieces] using hi)
      · exact .inl (.inl hi)
    · exact .inl (.inr hi)
  · exact ⟨subset_rfl, fun _ hi => .inl hi, by simp⟩
  · exact ⟨subset_rfl, fun _ hi => .inl hi, by simp⟩

theorem keeps_takePendingFor {r : Option PieceWork}
    (h : q.takePendingFor has = (r, q')) : q.Keeps r.toList [] q' := by
  obtain ⟨r', hr', hiff⟩ := takePendingFor_eq h
  have hpieces : r'.pieces = r.toList := by
    cases r with
    | none =>
      cases r' with
      | piece work => exact absurd ((hiff work).2 rfl) (by simp)
      | nothingForThisPeer | done => rfl
    | some work => rw [(hiff work).1 rfl, Take.pieces, toList]
  exact hpieces ▸ keeps_take hr'

theorem keeps_call {call : QueueCall ℕ} (h : QueueCall.Queue q call q') :
    q.Keeps (call.handedOut.map Prod.snd) [] q' := by
  cases call with
  | takeFor w has r =>
    have hpieces : (QueueCall.takeFor w has r).handedOut.map Prod.snd = r.pieces := by
      cases r <;> rfl
    exact hpieces ▸ keeps_take h
  | takePendingFor w has r =>
    have hpieces : (QueueCall.takePendingFor w has r).handedOut.map Prod.snd = r.toList := by
      cases r <;> rfl
    exact hpieces ▸ keeps_takePendingFor h
  | pushBack w work =>
    obtain rfl : q' = q.pushBack work := h
    have hkeeps := keeps_pushBack q work
    exact ⟨hkeeps.done, hkeeps.back, by simp⟩
  | markDone w i first =>
    obtain rfl : (q.markDone i).2 = q' := (Prod.mk.inj h).2
    exact keeps_markDone q i
  | stashPartial w i part =>
    obtain ⟨kept, heq⟩ := stashPartial_eq q i part
    obtain rfl : q' = { q with partials := kept } := heq ▸ h
    exact .of_eq rfl
  | takePartial w i r =>
    obtain rfl : (q.takePartial i).2 = q' := (Prod.mk.inj h).2
    exact .of_eq rfl
  | noteHave w i =>
    obtain rfl : q' = q.noteHave i := h
    exact .of_eq rfl

theorem keeps_hear (q : WorkQueue) (m : Message) : q.Keeps [] [] (q.hear m) := by
  unfold hear
  split <;> exact .of_eq rfl

end WorkQueue

/-- The worker is in the loop of requests. -/
def Phase.Asks (p : Phase) (f : Fetch) (depth : ℕ) : Prop :=
  p = .asking f depth ∨ ∃ work, p = .openingAhead f depth work

namespace Connection

variable {c t : Connection} {w : World} {out : Output} {f : Fetch}

/-- **What is known where a step arrives**: the loop of requests is gone
on with, or entered where the piece may be asked for; a wait holds
nothing; and so does a return, but for those at the top of the loop. -/
def Arrives (c : Connection) (w : World) (t : Connection) : Prop :=
  match t.phase with
  | .asking f depth | .openingAhead f depth _ =>
    t.peer = c.peer ∧ ((∃ f', c.phase.Asks f' depth) ∨
      c.peer.mayRequest f.work.index = true ∧ depth ≤ Pipeline.cap c.peer.peerRequestLimit)
  | .waiting => t.ahead = []
  | .returned _ => t.ahead = [] ∨
      c.phase = .choosing ∧ (w.serves = false ∨ w.relays = false) ∧ t.ahead = c.ahead
  | _ => True

/-- **What a step does beyond the pieces in hand.** -/
structure Leads (c : Connection) (w : World) (r : Connection × Output) : Prop where
  peer : r.1.peer = c.peer ∨ ∃ m, r.2.heard = some (.ok m) ∧ r.1.peer = (c.peer.absorb m).2
  queue : c.queue.Keeps r.2.took r.2.gave r.1.queue
  arrives : c.Arrives w r.1

theorem take_eq (w : World) (m : Message) (peer : PeerState) (queue : WorkQueue) :
    (w.take m peer queue).2 = (peer, queue) ∨
      (w.take m peer queue).2 = ((peer.absorb m).2, queue.hear m) := by
  unfold World.take
  split
  · exact .inl rfl
  · exact .inr rfl

theorem take_spec (w : World) (c : Connection) (m : Message) :
    ((w.take m c.peer c.queue).2.1 = c.peer ∨
      ∃ m', some (Except.ok (ε := WireError) m) = some (.ok m') ∧
        (w.take m c.peer c.queue).2.1 = (c.peer.absorb m').2) ∧
    c.queue.Keeps [] [] (w.take m c.peer c.queue).2.2 := by
  rcases take_eq w m c.peer c.queue with h | h <;> rw [h]
  · exact ⟨.inl rfl, .of_eq rfl⟩
  · exact ⟨.inr ⟨m, rfl, rfl⟩, keeps_hear _ _⟩

theorem choose_leads (hphase : c.phase = .choosing) : c.Leads w (c.choose w) := by
  unfold choose
  split
  · rename_i hserves
    exact ⟨.inl rfl, .of_eq rfl, .inr ⟨hphase, .inl (by simpa using hserves), rfl⟩⟩
  split
  · rename_i hrelays
    exact ⟨.inl rfl, .of_eq rfl, .inr ⟨hphase, .inr (by simpa using hrelays), rfl⟩⟩
  split
  · exact ⟨.inl rfl, .of_eq rfl, trivial⟩
  · rename_i hahead
    split
    · rename_i htake
      exact ⟨.inl rfl, keeps_take htake, trivial⟩
    · rename_i htake
      exact ⟨.inl rfl, keeps_take htake, .inl hahead⟩
    · rename_i htake
      exact ⟨.inl rfl, keeps_take htake, hahead⟩

variable (work : PieceWork)

variable {heard : Connection}

theorem arrives_cycle (hahead : heard.ahead = []) (cycles : ℕ) :
    c.Arrives w (heard.cycle cycles) := by
  unfold Arrives cycle
  dsimp only
  split
  · rename_i hphase
    split at hphase <;> cases hphase
  · rename_i hphase
    split at hphase <;> cases hphase
  · rename_i hphase
    split at hphase <;> cases hphase
  · exact .inl hahead
  · trivial

theorem wait_leads (hahead : c.ahead = []) : c.Leads w (c.wait w) := by
  unfold wait
  split
  · rename_i m _
    obtain ⟨hheard, hqueue⟩ := take_spec w c m
    dsimp only
    split
    · exact ⟨hheard, hqueue, arrives_cycle (by exact hahead) _⟩
    · exact ⟨hheard, hqueue, .inl hahead⟩
  · split
    · exact ⟨.inl rfl, .of_eq rfl, arrives_cycle hahead _⟩
    split
    · exact ⟨.inl rfl, .of_eq rfl, arrives_cycle hahead _⟩
    · exact ⟨.inl rfl, .of_eq rfl, .inl hahead⟩
  · exact ⟨.inl rfl, .of_eq rfl, .inl hahead⟩

theorem fail_leads {stage : Stage}
    (hpeer : heard.peer = c.peer ∨ ∃ m, out.heard = some (.ok m) ∧ heard.peer = (c.peer.absorb m).2)
    (hqueue : c.queue.Keeps [] [] heard.queue) (htook : out.took = []) :
    c.Leads w (heard.fail f stage out) := by
  refine ⟨hpeer, ?_, trivial⟩
  rw [show (heard.fail f stage out).2.took = [] from htook]
  exact hqueue.trans (keeps_release _ _)

theorem begin_leads (minDepth : ℕ) (f : Fetch) : c.Leads w (c.begin w minDepth f) := by
  unfold begin
  split
  · exact fail_leads (.inl rfl) (.of_eq rfl) rfl
  split
  · exact ⟨.inl rfl, .of_eq rfl, trivial⟩
  split
  · exact ⟨.inl rfl, .of_eq rfl, trivial⟩
  · rename_i hmay
    exact ⟨.inl rfl, .of_eq rfl, rfl,
      .inr ⟨by simpa using hmay, Pipeline.depthFor_le_cap _ _ _⟩⟩

variable {r : Connection × Output} {depth : ℕ}

theorem ask_leads (hphase : c.phase = .asking f depth)
    (h : c.ask w f depth = some r) : c.Leads w r := by
  have hasks : ∃ f', c.phase.Asks f' depth := ⟨f, .inl hphase⟩
  unfold ask at h
  split at h
  · cases h
    exact ⟨.inl rfl, .of_eq rfl, trivial⟩
  obtain ⟨asked, -, h⟩ := bind_eq_some_iff.1 h
  split at h
  · cases h
    unfold lookAhead
    split
    · exact ⟨.inl rfl, .of_eq rfl, trivial⟩
    split
    · rename_i htake
      exact ⟨.inl rfl, keeps_takePendingFor htake, rfl, .inl hasks⟩
    · rename_i htake
      exact ⟨.inl rfl, keeps_takePendingFor htake, trivial⟩
  · dsimp only at h
    split at h
    · cases h
      exact ⟨.inl rfl, .of_eq rfl, rfl, .inl hasks⟩
    · obtain ⟨salvaged, -, h⟩ := bind_eq_some_iff.1 h
      cases h
      exact fail_leads (.inl rfl) (.of_eq rfl) rfl

theorem takeOther_leads (f : Fetch) (m : Message) : c.Leads w (c.takeOther w f m) := by
  obtain ⟨hheard, hqueue⟩ := take_spec w c m
  unfold takeOther
  dsimp only
  split
  · exact ⟨hheard, hqueue, trivial⟩
  · exact fail_leads hheard hqueue rfl

theorem hear_leads {m : Message} (h : c.hear w f m = some r) : c.Leads w r := by
  unfold hear at h
  split at h
  · split at h
    · cases h
      exact ⟨.inl rfl, .of_eq rfl, trivial⟩
    · obtain ⟨received, -, h⟩ := bind_eq_some_iff.1 h
      cases h
      exact ⟨.inl rfl, .of_eq rfl, trivial⟩
  · split at h
    · obtain ⟨current, hrefuse, h⟩ := bind_eq_some_iff.1 h
      split at h <;> obtain rfl := some_inj.1 h
      · have hwork : current.work = f.work := (Prod.mk.inj (Lookahead.refuse_spec hrefuse).1).1
        exact ⟨.inl rfl, hwork ▸ keeps_release c.queue current, trivial⟩
      · exact ⟨.inl rfl, .of_eq rfl, trivial⟩
    split at h
    · unfold refuseAhead at h
      split at h
      · cases h
        exact ⟨.inl rfl, .of_eq rfl, trivial⟩
      · rename_i next _ _
        obtain ⟨refused, hrefuse, h⟩ := bind_eq_some_iff.1 h
        split at h <;> obtain rfl := some_inj.1 h
        · have hwork : refused.work = next.work :=
            (Prod.mk.inj (Lookahead.refuse_spec hrefuse).1).1
          exact ⟨.inl rfl, hwork ▸ keeps_release c.queue refused, trivial⟩
        · exact ⟨.inl rfl, .of_eq rfl, trivial⟩
    · cases h
      exact takeOther_leads f _
  · cases h
    exact takeOther_leads f m

theorem readFails_leads (f : Fetch) (e : WireError) : c.Leads w (c.readFails w f e) := by
  unfold readFails
  dsimp only
  split
  · split
    · exact fail_leads (.inl rfl) (.of_eq rfl) rfl
    split
    · exact ⟨.inl rfl, .of_eq rfl, trivial⟩
    · exact fail_leads (.inl rfl) (.of_eq rfl) rfl
  · exact fail_leads (.inl rfl) (.of_eq rfl) rfl

theorem finish_leads [Digests] (f : Fetch) : c.Leads w (c.finish f) := by
  unfold finish
  split
  · exact ⟨.inl rfl, .of_eq rfl, trivial⟩
  split
  · exact ⟨.inl rfl, .of_eq rfl, trivial⟩
  · exact ⟨.inl rfl, keeps_pushBack _ _, trivial⟩

theorem store_leads (data : List UInt8) : c.Leads w (c.store w work data) := by
  unfold store
  split
  · exact ⟨.inl rfl, keeps_markDone _ _, trivial⟩
  · exact ⟨.inl rfl, keeps_pushBack _ _, trivial⟩

theorem releaseNext_leads {result : Option (Except WorkerError Unit)}
    (hphase : c.phase = .releasing result) : c.Leads w (c.releaseNext result) := by
  unfold releaseNext
  split
  · refine ⟨.inl rfl, keeps_release _ _, ?_⟩
    simp [Arrives, hphase]
  · rename_i hahead
    split
    · exact ⟨.inl rfl, .of_eq rfl, .inl hahead⟩
    · exact ⟨.inl rfl, .of_eq rfl, trivial⟩

variable {minDepth : ℕ}

theorem step_leads [Digests] (hwaiting : c.phase = .waiting → c.ahead = [])
    (h : c.step minDepth w = some (t, out)) : c.Leads w (t, out) := by
  unfold step at h
  split at h
  · rename_i hphase
    exact some_inj.1 h ▸ choose_leads hphase
  · exact some_inj.1 h ▸ ⟨.inl rfl, .of_eq rfl, trivial⟩
  · rename_i hphase
    exact some_inj.1 h ▸ wait_leads (hwaiting hphase)
  · exact some_inj.1 h ▸ begin_leads _ _
  · rename_i hphase
    exact ask_leads hphase h
  · rename_i hphase
    exact some_inj.1 h ▸ ⟨.inl rfl, .of_eq rfl, rfl, .inl ⟨_, .inr ⟨_, hphase⟩⟩⟩
  · unfold read at h
    split at h
    · exact some_inj.1 h ▸ finish_leads _
    split at h
    · exact hear_leads h
    · exact some_inj.1 h ▸ readFails_leads _ _
  · exact some_inj.1 h ▸ store_leads _ _
  · rename_i hphase
    exact some_inj.1 h ▸ releaseNext_leads hphase
  · cases h

/-- The pieces in hand. -/
def works (c : Connection) : List PieceWork := c.view.map Prod.fst

theorem works_eq (c : Connection) : c.works = c.hand.map Lookahead.work := by
  rw [works, view, List.map_map]
  rfl

section

variable (h : Effect c w out t)

include h

theorem Effect.works : t.works.Sublist (c.works ++ out.took) := by
  unfold Connection.works
  cases h with
  | rests hview _ htook _ => rw [hview, htook, append_nil]
  | takes hview _ _ => rw [hview, map_append, map_singleton]
  | sends _ hc ht | settles _ hc ht | resets _ _ hc ht | refuses _ _ _ _ _ hc ht
  | declines _ _ _ _ _ _ hc ht | releases _ _ hc ht | stores _ hc ht | abandons _ _ _ _ hc ht =>
    simp [hc, ht]
  | sendFails _ hc ht _ _ _ =>
    have hfst := congrArg (map Prod.fst) ht
    rw [map_append, map_cons, map_cons] at hfst
    rw [hc, map_append, map_cons, append_nil, hfst]
    exact sublist_cons_self _ _
  | clears _ _ _ _ ht => simp [ht, Function.comp_def]
  | fails hc ht _ htook _ _ => simp [hc, ht, htook]

theorem Effect.took :
    ∀ work ∈ out.took, c.wants work.index = true ∧ ∀ held ∈ c.works, held.index ≠ work.index := by
  cases h with
  | takes _ hwants hne =>
    intro work hwork
    obtain rfl := mem_singleton.1 hwork
    refine ⟨hwants, fun held hheld => ?_⟩
    obtain ⟨v, hv, rfl⟩ := List.mem_map.1 hheld
    exact hne v hv
  | rests _ _ htook _ | fails _ _ _ htook _ _ => simp [htook]
  | _ => simp

theorem Effect.took_nodup : (out.took.map PieceWork.index).Nodup := by
  cases h with
  | rests _ _ htook _ | fails _ _ _ htook _ _ => simp [htook]
  | _ => simp

theorem Effect.current {f' : Fetch} {depth' : ℕ}
    (hc : c.phase.Asks f depth) (ht : t.phase.Asks f' depth') : f'.work = f.work := by
  have hhead : ∀ {c : Connection} {f : Fetch} {depth : ℕ}, c.phase.Asks f depth →
      c.works.head? = some f.work := by
    rintro c f depth (hphase | ⟨work, hphase⟩) <;> rw [works_eq, hand, hphase] <;> rfl
  have hc' := hhead hc
  have ht' := hhead ht
  have hending : ¬ t.phase.Ending := by
    rcases ht with hphase | ⟨work, hphase⟩ <;> rw [hphase] <;> exact id
  suffices hsame : t.works.head? = c.works.head? by
    rw [hsame, hc', some_inj] at ht'
    exact ht'.symm
  unfold Connection.works at hc' ⊢
  cases h with
  | rests hview _ _ _ => rw [hview]
  | takes hview _ _ =>
    rw [hview, map_append, head?_append, hc']
    rfl
  | sends _ hv hv' | settles _ hv hv' | resets _ _ hv hv' => simp [hv, hv']
  | clears _ _ _ _ hv' => simp [hv', Function.comp_def]
  | sendFails _ _ _ _ _ hend | fails _ _ _ _ _ hend => exact absurd hend hending
  | refuses hphase _ _ _ _ _ _ _ | declines hphase _ _ _ _ _ _ _ | releases hphase _ _ _
  | stores hphase _ _ _ | abandons hphase _ _ _ _ _ =>
    rw [hphase] at hc
    rcases hc with hc | ⟨_, hc⟩ <;> cases hc

end

/-- **The invariant of a connection.** -/
structure Sound (c : Connection) : Prop where
  ok : ∀ la ∈ c.hand, la.Ok
  nodup : (c.works.map PieceWork.index).Nodup
  asks : ∀ f depth, c.phase.Asks f depth →
    c.peer.mayRequest f.work.index = true ∧ depth ≤ Pipeline.cap c.peer.peerRequestLimit
  waiting : c.phase = .waiting → c.ahead = []

theorem sound_start (peer : PeerState) (queue : WorkQueue) : (start peer queue).Sound where
  ok := by simp [start, hand, Phase.hand]
  nodup := by simp [start, works, view, hand, Phase.hand]
  asks := by simp [start, Phase.Asks]
  waiting := by simp [start]

theorem Sound.effect [Digests] (hc : c.Sound)
    (h : c.step minDepth w = some (t, out)) : Effect c w out t := by
  have hnodup := hc.nodup
  rw [works_eq, List.map_map] at hnodup
  exact (step_effect hc.ok hnodup h).1

theorem sound_step [Digests] (hc : c.Sound) (h : c.step minDepth w = some (t, out)) : t.Sound := by
  have heffect := hc.effect h
  have hleads := step_leads hc.waiting h
  have hnodup := hc.nodup
  rw [works_eq, List.map_map] at hnodup
  refine ⟨(step_effect hc.ok hnodup h).2, ?_, fun f depth hasks => ?_, fun hwaiting => ?_⟩
  · refine (heffect.works.map PieceWork.index).nodup ?_
    rw [map_append, nodup_append]
    refine ⟨hc.nodup, heffect.took_nodup, fun i hi j hj hij => ?_⟩
    obtain ⟨held, hheld, rfl⟩ := List.mem_map.1 hi
    obtain ⟨work, hwork, rfl⟩ := List.mem_map.1 hj
    exact (heffect.took work hwork).2 held hheld hij
  · have harrives : t.peer = c.peer ∧ ((∃ f', c.phase.Asks f' depth) ∨
        c.peer.mayRequest f.work.index = true ∧ depth ≤ Pipeline.cap c.peer.peerRequestLimit) := by
      have h := hleads.arrives
      rcases hasks with hphase | ⟨work, hphase⟩ <;> simpa only [Arrives, hphase] using h
    obtain ⟨hpeer, ⟨f', hf'⟩ | hmay⟩ := harrives
    · rw [hpeer, heffect.current hf' hasks]
      exact hc.asks f' depth hf'
    · rwa [hpeer]
  · have h := hleads.arrives
    simpa only [Arrives, hwaiting] using h

theorem sound_event [Digests] {e : ConnectionEvent} (hc : c.Sound)
    (h : (connection minDepth).step c e t) : t.Sound := by
  cases e with
  | own w out => exact sound_step hc h
  | other call =>
    obtain ⟨q, -, rfl⟩ := h
    exact ⟨hc.ok, hc.nodup, hc.asks, hc.waiting⟩
  | noted held =>
    obtain rfl : t = { c with queue := c.queue.noteBitfield held } := h
    exact ⟨hc.ok, hc.nodup, hc.asks, hc.waiting⟩

end Connection

end BitTorrent
