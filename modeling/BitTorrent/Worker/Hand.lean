import BitTorrent.Worker.Lookahead

/-!
# The pieces in hand

What a worker has taken from the queue and not yet given back: the piece being fetched and the
ones taken ahead, each with the requests in flight for it.
-/

namespace BitTorrent

open List Option Lookahead WorkQueue

namespace World

theorem sendAll_sublist {α : Type*} (w : World) (l : List α) : (w.sendAll l).Sublist l := by
  have hsub : (w.sendAll l).Sublist (l.zipIdx.map Prod.fst) :=
    (takeWhile_sublist fun p : α × ℕ => w.writes p.2).map Prod.fst
  rwa [zipIdx_map_fst] at hsub

end World

/-- The pieces in hand: the one a worker is at, the ones taken ahead and
the one just taken. -/
def Phase.hand : Phase → List Lookahead → List Lookahead
  | .opening work, ahead | .writing work _, ahead => .again work :: ahead
  | .fetching f, ahead | .asking f _, ahead | .reading f, ahead => f.toLookahead :: ahead
  | .openingAhead f _ work, ahead => f.toLookahead :: (ahead ++ [.again work])
  | .choosing, ahead | .waiting, ahead | .releasing _, ahead | .returned _, ahead => ahead

/-- The connection is about to be left. -/
def Phase.Ending : Phase → Prop
  | .releasing (some _) | .returned _ => True
  | _ => False

instance (p : Phase) : Decidable p.Ending := by
  unfold Phase.Ending
  split <;> infer_instance

namespace Connection

variable {c t : Connection} {w : World} {out : Output} {f : Fetch}

/-- **The pieces in hand**, in the order they will be fetched. -/
def hand (c : Connection) : List Lookahead := c.phase.hand c.ahead

/-- What counts of the pieces in hand. -/
def view (c : Connection) : List (PieceWork × List (ℕ × ℕ)) := c.hand.map Lookahead.view

/-- **What a step can do to the pieces in hand**, and why. -/
inductive Effect (c : Connection) (w : World) : Output → Connection → Prop
  /-- Nothing. -/
  | rests {out : Output} {t : Connection} :
      t.view = c.view → (∀ s ∈ out.sent, s = .keepAlive) → out.took = [] → out.gave = [] →
      Effect c w out t
  /-- Another piece is taken. -/
  | takes {work : PieceWork} {t : Connection} :
      t.view = c.view ++ [(work, [])] → c.wants work.index = true →
      (∀ v ∈ c.view, v.1.index ≠ work.index) → Effect c w { took := [work] } t
  /-- Requests go out for one of the pieces. -/
  | sends {f : Fetch} {depth : ℕ} {before rest : List (PieceWork × List (ℕ × ℕ))}
      {work : PieceWork} {flight : List (ℕ × ℕ)} {reqs : List BlockRequest} {t : Connection} :
      c.phase = .asking f depth → c.view = before ++ (work, flight) :: rest →
      t.view = before ++ (work, flight ++ reqs.map Prod.snd) :: rest →
      (∀ r ∈ reqs, r.1 = work.index.toNat) → c.outstanding f + reqs.length ≤ depth →
      Effect c w { sent := reqs.map .request } t
  /-- They do, but not all of them, and the connection fails. -/
  | sendFails {f : Fetch} {depth : ℕ} {before rest : List (PieceWork × List (ℕ × ℕ))}
      {work : PieceWork} {flight : List (ℕ × ℕ)} {reqs : List BlockRequest}
      {first : PieceWork × List (ℕ × ℕ)} {t : Connection} :
      c.phase = .asking f depth → c.view = before ++ (work, flight) :: rest →
      before ++ (work, flight ++ reqs.map Prod.snd) :: rest = first :: t.view →
      (∀ r ∈ reqs, r.1 = work.index.toNat) → c.outstanding f + reqs.length ≤ depth →
      t.phase.Ending → Effect c w { sent := reqs.map .request, gave := [first.1] } t
  /-- A block arrives, or a refusal. -/
  | settles {m : Message} {before rest : List (PieceWork × List (ℕ × ℕ))} {work : PieceWork}
      {flight : List (ℕ × ℕ)} {start : UInt32} {t : Connection} :
      ((∃ block, m = .piece work.index start block) ∨
        ∃ length, m = .rejectRequest work.index start length ∧
          (start.toNat, length.toNat) ∈ flight) →
      c.view = before ++ (work, flight) :: rest →
      t.view = before ++ (work, flight.filter fun r => r.1 != start.toNat) :: rest →
      Effect c w { heard := some (.ok m) } t
  /-- All that is in flight is forgotten: the peer has choked us. -/
  | clears {f : Fetch} {t : Connection} :
      c.phase = .fetching f → w.serves = true → c.queue.isDone f.work.index = false →
      c.peer.mayRequest f.work.index = false → t.view = c.view.map (fun v => (v.1, [])) →
      Effect c w {} t
  /-- The piece is complete, and what is in flight for it is forgotten. -/
  | resets {f : Fetch} {rest : List (PieceWork × List (ℕ × ℕ))} {t : Connection} :
      c.phase = .reading f → f.assembler.isComplete = true →
      c.view = (f.work, f.inFlight) :: rest → t.view = (f.work, []) :: rest → Effect c w {} t
  /-- The piece is given back, for the connection fails. -/
  | fails {work : PieceWork} {flight : List (ℕ × ℕ)} {rest : List (PieceWork × List (ℕ × ℕ))}
      {out : Output} {t : Connection} :
      c.view = (work, flight) :: rest → t.view = rest → (∀ s ∈ out.sent, s = .keepAlive) →
      out.took = [] → out.gave = [work] → t.phase.Ending → Effect c w out t
  /-- The piece is given back, for the peer keeps refusing it. -/
  | refuses {f : Fetch} {start length : UInt32} {rest : List (PieceWork × List (ℕ × ℕ))}
      {t : Connection} :
      c.phase = .reading f → f.assembler.isComplete = false →
      w.reading = .ok (.rejectRequest f.work.index start length) →
      (start.toNat, length.toNat) ∈ f.inFlight → maxRefusalsPerPiece ≤ f.refusals + 1 →
      c.view = (f.work, f.inFlight) :: rest → t.view = rest → t.phase = .releasing none →
      Effect c w { heard := some w.reading, gave := [f.work] } t
  /-- A piece taken ahead is. -/
  | declines {f : Fetch} {la : Lookahead} {start length : UInt32}
      {before rest : List (PieceWork × List (ℕ × ℕ))} {t : Connection} :
      c.phase = .reading f → f.assembler.isComplete = false →
      w.reading = .ok (.rejectRequest la.work.index start length) → la ∈ c.ahead →
      (start.toNat, length.toNat) ∈ la.inFlight → maxRefusalsPerPiece ≤ la.refusals + 1 →
      c.view = before ++ la.view :: rest → t.view = before ++ rest →
      Effect c w { heard := some w.reading, gave := [la.work] } t
  /-- A piece taken ahead is released. -/
  | releases {result : Option (Except WorkerError Unit)} {work : PieceWork}
      {flight : List (ℕ × ℕ)} {rest : List (PieceWork × List (ℕ × ℕ))} {t : Connection} :
      c.phase = .releasing result → t.phase = .releasing result →
      c.view = (work, flight) :: rest → t.view = rest → Effect c w { gave := [work] } t
  /-- The piece is written, and marked done. -/
  | stores {work : PieceWork} {data : List UInt8} {rest : List (PieceWork × List (ℕ × ℕ))}
      {reported : Option (UInt32 × List UInt8)} {t : Connection} :
      c.phase = .writing work data → c.view = (work, []) :: rest → t.view = rest →
      work.index ∈ t.queue.done → Effect c w { reported := reported } t
  /-- The piece is done elsewhere. -/
  | abandons {f : Fetch} {rest : List (PieceWork × List (ℕ × ℕ))} {t : Connection} :
      c.phase = .fetching f → w.serves = true → f.work.index ∈ c.queue.done →
      f.work.index ∈ t.queue.done →
      c.view = (f.work, f.inFlight) :: rest → t.view = rest →
      Effect c w { sent := (w.sendEach f.inFlight).map fun r => .cancel (f.work.index.toNat, r) } t

/-- What a step has to be shown to do. -/
def Steps (c : Connection) (w : World) (r : Connection × Output) : Prop :=
  Effect c w r.2 r.1 ∧ ∀ la ∈ r.1.hand, la.Ok

theorem ok_start {la : Lookahead} (h : la.Ok) : (Fetch.start la).toLookahead.Ok :=
  ⟨h.work_eq, h.tracks⟩

theorem hand_of_phase {p : Phase} (h : c.phase = p) : c.hand = p.hand c.ahead := by rw [hand, h]

theorem view_of_phase {p : Phase} (h : c.phase = p) :
    c.view = (p.hand c.ahead).map Lookahead.view := by rw [view, hand_of_phase h]

theorem Steps.of_hand_eq (hok : ∀ la ∈ c.hand, la.Ok) (hhand : t.hand = c.hand)
    (hout : (∀ s ∈ out.sent, s = .keepAlive) ∧ out.took = [] ∧ out.gave = []) :
    c.Steps w (t, out) :=
  ⟨.rests (by rw [view, hhand, view]) hout.1 hout.2.1 hout.2.2, by rwa [hhand]⟩

theorem hand_cycle (c : Connection) (cycles : ℕ) : (c.cycle cycles).hand = c.ahead := by
  unfold cycle hand
  dsimp only
  split <;> rfl

theorem outstanding_eq (hhand : c.hand = f.toLookahead :: c.ahead) :
    c.outstanding f = (c.view.map fun v => v.2.length).sum := by
  rw [view, hhand, outstanding, List.map_map]
  rfl

variable {depth : ℕ}

theorem lookAhead_steps {asked : Connection}
    (hview : c.view = (f.toLookahead :: asked.ahead).map Lookahead.view)
    (hok : ∀ la ∈ f.toLookahead :: asked.ahead, la.Ok) (hpeer : asked.peer = c.peer)
    (hrefused : asked.refused = c.refused) : c.Steps w (asked.lookAhead f depth) := by
  unfold lookAhead
  split
  · exact ⟨.rests hview.symm (by simp) rfl rfl, hok⟩
  split
  · rename_i work queue htake
    obtain ⟨r, hr, hiff⟩ := takePendingFor_eq htake
    obtain rfl := (hiff work).1 rfl
    have hwants := has_of_take hr
    simp only [wantsAhead, Bool.and_eq_true, bne_iff_ne, ne_eq, Bool.not_eq_true',
      List.any_eq_false, beq_iff_eq] at hwants
    obtain ⟨⟨⟨hne, hahead⟩, hpiece⟩, -⟩ := hwants
    obtain ⟨hf, hok⟩ := forall_mem_cons.1 hok
    refine ⟨.takes ?_ ?_ ?_, ?_⟩
    · rw [hview]
      simp [view, hand, Phase.hand, Lookahead.view, again]
    · rwa [wants, hpeer, hrefused] at hpiece
    · rw [hview, List.forall_mem_map]
      exact forall_mem_cons.2 ⟨fun h => hne h.symm, hahead⟩
    · refine forall_mem_cons.2 ⟨hf, forall_mem_append.2 ⟨hok, ?_⟩⟩
      exact forall_mem_singleton.2 (ok_again work)
  · exact ⟨.rests hview.symm (by simp) rfl rfl, hok⟩

theorem send_steps {before rest : List (PieceWork × List (ℕ × ℕ))}
    {next : Lookahead} {reqs : List BlockRequest} {hand' : List Lookahead} (stage : Stage)
    (hphase : c.phase = .asking f depth) (hview : c.view = before ++ next.view :: rest)
    (hindex : ∀ r ∈ reqs, r.1 = next.work.index.toNat)
    (hfits : c.outstanding f + reqs.length ≤ depth)
    (hhand : hand'.map Lookahead.view = before ++ (next.send reqs).view :: rest)
    (hok : ∀ la ∈ hand', la.Ok) :
    c.Steps w ({ c with ahead := (f.regain hand').2, phase := .asking (f.regain hand').1 depth },
      { sent := reqs.map .request }) ∧
    c.Steps w ({ c with ahead := (f.regain hand').2 }.fail (f.regain hand').1 stage
      { sent := reqs.map .request }) := by
  cases hand' with
  | nil => simp at hhand
  | cons current ahead =>
    refine ⟨⟨.sends hphase hview hhand hindex hfits, hok⟩, ?_, (forall_mem_cons.1 hok).2⟩
    have hfirst : before ++ (next.send reqs).view :: rest = current.view ::
        ({ c with ahead := ahead }.fail { f with toLookahead := current } stage
          { sent := reqs.map .request }).1.view := hhand.symm
    exact .sendFails hphase hview hfirst hindex hfits trivial

section

variable (hok : ∀ la ∈ c.hand, la.Ok)

include hok

theorem choose_steps (hphase : c.phase = .choosing) : c.Steps w (c.choose w) := by
  have hhand : c.hand = c.ahead := hand_of_phase hphase
  have hview : c.view = c.ahead.map Lookahead.view := view_of_phase hphase
  unfold choose
  split
  · exact .of_hand_eq hok hhand.symm (by simp)
  split
  · exact .of_hand_eq hok hhand.symm (by simp)
  split
  · rename_i next rest hahead
    rw [hahead] at hview hhand
    rw [hhand] at hok
    obtain ⟨hnext, hrest⟩ := forall_mem_cons.1 hok
    exact ⟨.rests hview.symm (by simp) rfl rfl, forall_mem_cons.2 ⟨ok_start hnext, hrest⟩⟩
  · rename_i hahead
    split
    · rename_i work queue htake
      refine ⟨.takes ?_ (has_of_take htake) (by simp [hview, hahead]), ?_⟩
      · rw [hview, view, hand, hahead]
        rfl
      · rw [hand, hahead]
        exact forall_mem_singleton.2 (ok_again work)
    · exact .of_hand_eq hok hhand.symm (by simp)
    · exact .of_hand_eq hok hhand.symm (by simp)

variable {work : PieceWork}

theorem openPiece_steps (hphase : c.phase = .opening work) : c.Steps w (c.openPiece work) := by
  rw [hand_of_phase hphase] at hok
  obtain ⟨-, hahead⟩ := forall_mem_cons.1 hok
  unfold openPiece
  exact ⟨.rests (view_of_phase hphase).symm (by simp) rfl rfl,
    forall_mem_cons.2 ⟨ok_start (ok_opened work _), hahead⟩⟩

theorem wait_steps (hphase : c.phase = .waiting) : c.Steps w (c.wait w) := by
  have hhand : c.hand = c.ahead := hand_of_phase hphase
  have hcycle : ∀ (heard : Connection) cycles, heard.ahead = c.ahead →
      (heard.cycle cycles).hand = c.hand := fun heard cycles h => by rw [hand_cycle, h, hhand]
  unfold wait
  split
  · dsimp only
    split
    · exact .of_hand_eq hok (hcycle _ _ rfl) (by simp)
    · exact .of_hand_eq hok hhand.symm (by simp)
  · split
    · exact .of_hand_eq hok (hcycle _ _ rfl) (by simp)
    split
    · exact .of_hand_eq hok (hcycle _ _ rfl) (by simp)
    · exact .of_hand_eq hok hhand.symm (by simp)
  · exact .of_hand_eq hok hhand.symm (by simp)

theorem fail_steps {heard : Connection} {stage : Stage} (hhand : c.hand = f.toLookahead :: c.ahead)
    (hahead : heard.ahead = c.ahead) (hsent : ∀ s ∈ out.sent, s = .keepAlive)
    (htook : out.took = []) : c.Steps w (heard.fail f stage out) := by
  rw [hhand] at hok
  have hfail : (heard.fail f stage out).1.hand = c.ahead := hahead
  refine ⟨.fails (congrArg _ hhand) (congrArg _ hfail) hsent htook rfl trivial, ?_⟩
  rw [hfail]
  exact (forall_mem_cons.1 hok).2

variable {minDepth : ℕ}

theorem begin_steps (hphase : c.phase = .fetching f) : c.Steps w (c.begin w minDepth f) := by
  have hhand : c.hand = f.toLookahead :: c.ahead := hand_of_phase hphase
  obtain ⟨hf, hahead⟩ := forall_mem_cons.1 (hhand ▸ hok)
  unfold begin
  split
  · exact fail_steps hok hhand rfl (by simp) rfl
  rename_i hserves
  simp only [Bool.not_eq_true', Bool.not_eq_false] at hserves
  split
  · rename_i hdone
    have hdone' : f.work.index ∈ c.queue.done := by simpa [isDone] using hdone
    exact ⟨.abandons hphase hserves hdone' hdone' (view_of_phase hphase) rfl, hahead⟩
  rename_i hdone
  split
  · rename_i hmay
    refine ⟨.clears hphase hserves (by simpa using hdone) (by simpa using hmay) ?_, ?_⟩
    · rw [view_of_phase hphase]
      simp [view, hand, Phase.hand, Lookahead.view, forget]
    · refine forall_mem_cons.2 ⟨ok_forget hf, fun la hla => ?_⟩
      obtain ⟨la, hmem, rfl⟩ := List.mem_map.1 hla
      exact ok_forget (hahead la hmem)
  · exact .of_hand_eq hok hhand.symm (by simp)

variable {r : Connection × Output}

theorem ask_steps (hphase : c.phase = .asking f depth) (h : c.ask w f depth = some r) :
    c.Steps w r := by
  have hhand : c.hand = f.toLookahead :: c.ahead := hand_of_phase hphase
  have hview := view_of_phase hphase
  unfold ask at h
  split at h
  · cases h
    exact .of_hand_eq hok hhand.symm (by simp)
  rename_i hroom
  rw [hhand] at hok
  obtain ⟨⟨before, found⟩, hfirst, h⟩ := bind_eq_some_iff.1 h
  obtain ⟨hbefore, ⟨rfl, hsame⟩ | ⟨asked, la, reqs, next, rest, rfl, hsplit, hsame, hask⟩⟩ :=
    firstToAsk_spec hok hfirst
  · -- nothing to ask for: another piece may be taken
    cases h
    cases before with
    | nil => cases hsame
    | cons current ahead => exact lookAhead_steps (hview.trans hsame.symm) hbefore rfl rfl
  · obtain ⟨hnext, hlen, hindex, hsend⟩ := Lookahead.ask_spec (hok la (by simp [hsplit])) hask
    have hsub := w.sendAll_sublist reqs
    have hparts : c.view = before.map Lookahead.view ++ next.view :: rest.map Lookahead.view := by
      rw [view, hhand, hsplit, map_append, map_cons, hsame, hnext]
    have hwritten : ∀ r ∈ w.sendAll reqs, r.1 = next.work.index.toNat := fun r hr => by
      rw [hindex r (hsub.mem hr), (Prod.mk.inj hnext).1]
    have hfits : c.outstanding f + (w.sendAll reqs).length ≤ depth := by
      have := hsub.length_le
      omega
    have hoks : ∀ la ∈ before ++ next.send (w.sendAll reqs) :: rest, la.Ok := by
      rw [forall_mem_append, forall_mem_cons]
      exact ⟨hbefore, hsend.of_send hsub, fun la hla => hok la (by simp [hsplit, hla])⟩
    dsimp only at h
    split at h
    · cases h
      exact (send_steps .sendRequest hphase hparts hwritten hfits (by simp) hoks).1
    · obtain ⟨salvaged, hsalvaged, h⟩ := bind_eq_some_iff.1 h
      cases h
      obtain ⟨hsview, hsok⟩ := Lookahead.salvage_spec hsalvaged
      exact (send_steps _ hphase hparts hwritten hfits (hsview.trans (by simp)) (hsok hoks)).2

theorem openAhead_steps (hphase : c.phase = .openingAhead f depth work) :
    c.Steps w (c.openAhead f depth work) := by
  rw [hand_of_phase hphase] at hok
  obtain ⟨hf, hahead⟩ := forall_mem_cons.1 hok
  unfold openAhead
  refine ⟨.rests ?_ (by simp) rfl rfl, forall_mem_cons.2 ⟨hf, ?_⟩⟩
  · rw [view_of_phase hphase]
    simp [view, hand, Phase.hand, Lookahead.view, opened, again]
  · rw [forall_mem_append] at hahead ⊢
    exact ⟨hahead.1, forall_mem_singleton.2 (ok_opened work _)⟩

section

variable (hphase : c.phase = .reading f)

include hphase

theorem takeOther_steps (m : Message) : c.Steps w (c.takeOther w f m) := by
  have hhand : c.hand = f.toLookahead :: c.ahead := hand_of_phase hphase
  unfold takeOther
  dsimp only
  split
  · exact .of_hand_eq hok hhand.symm (by simp)
  · exact fail_steps hok hhand rfl (by simp) rfl

theorem readFails_steps (e : WireError) : c.Steps w (c.readFails w f e) := by
  have hhand : c.hand = f.toLookahead :: c.ahead := hand_of_phase hphase
  unfold readFails
  dsimp only
  split
  · split
    · exact fail_steps hok hhand rfl (by simp) rfl
    split
    · exact .of_hand_eq hok hhand.symm (by simp)
    · exact fail_steps hok hhand rfl (by simp) rfl
  · exact fail_steps hok hhand rfl (by simp) rfl

section

variable (hcomplete : f.assembler.isComplete = false)

include hcomplete

theorem refuseCurrent_steps {start length : UInt32}
    (hreading : w.reading = .ok (.rejectRequest f.work.index start length))
    (hin : (start.toNat, length.toNat) ∈ f.inFlight)
    (h : c.refuseCurrent f (.rejectRequest f.work.index start length) start = some r) :
    c.Steps w r := by
  have hview := view_of_phase hphase
  obtain ⟨hf, hahead⟩ := forall_mem_cons.1 (hand_of_phase hphase ▸ hok)
  obtain ⟨current, hrefuse, h⟩ := bind_eq_some_iff.1 h
  obtain ⟨hcurrent, hrefusals, hok'⟩ := Lookahead.refuse_spec hrefuse
  split at h
  · rename_i hmax
    cases h
    rw [hrefusals] at hmax
    rw [← hreading]
    exact ⟨.refuses hphase hcomplete hreading hin hmax hview rfl rfl, hahead⟩
  · cases h
    refine ⟨.settles (.inr ⟨length, rfl, hin⟩) (hview.trans (nil_append _).symm) ?_,
      forall_mem_cons.2 ⟨hok' hf, hahead⟩⟩
    exact congrArg (· :: _) hcurrent

theorem refuseAhead_steps {index start length : UInt32}
    (hnodup : (c.ahead.map fun la => la.work.index).Nodup)
    (hreading : w.reading = .ok (.rejectRequest index start length))
    (hin : ∃ la ∈ c.ahead, la.work.index = index ∧ (start.toNat, length.toNat) ∈ la.inFlight)
    (h : c.refuseAhead f (.rejectRequest index start length) index start = some r) :
    c.Steps w r := by
  have hhand : c.hand = f.toLookahead :: c.ahead := hand_of_phase hphase
  obtain ⟨hf, hahead⟩ := forall_mem_cons.1 (hhand ▸ hok)
  unfold refuseAhead at h
  split at h
  · cases h
    exact .of_hand_eq hok hhand.symm (by simp)
  rename_i before next rest hfind
  obtain ⟨hsplit, rfl⟩ := find_spec hfind
  have hmem : next ∈ c.ahead := by simp [hsplit]
  have hflight : (start.toNat, length.toNat) ∈ next.inFlight := by
    obtain ⟨la, hla, hindex, hin⟩ := hin
    obtain rfl := inj_on_of_nodup_map hnodup hla hmem hindex
    exact hin
  obtain ⟨refused, hrefuse, h⟩ := bind_eq_some_iff.1 h
  obtain ⟨hrefused, hrefusals, hok'⟩ := refuse_spec hrefuse
  have hview : c.view =
      (f.toLookahead :: before).map Lookahead.view ++ next.view :: rest.map Lookahead.view := by
    rw [view, hhand, hsplit, ← map_cons, ← map_append, cons_append]
  rw [hsplit, forall_mem_append, forall_mem_cons] at hahead
  obtain ⟨hbefore, hnext, hrest⟩ := hahead
  split at h
  · rename_i hmax
    cases h
    rw [hrefusals] at hmax
    rw [← hreading]
    have hleft : ((f.toLookahead :: before) ++ rest).map Lookahead.view =
        (f.toLookahead :: before).map Lookahead.view ++ rest.map Lookahead.view := map_append
    exact ⟨.declines hphase hcomplete hreading hmem hflight hmax hview hleft,
      forall_mem_cons.2 ⟨hf, forall_mem_append.2 ⟨hbefore, hrest⟩⟩⟩
  · cases h
    have hleft : ((f.toLookahead :: before) ++ refused :: rest).map Lookahead.view =
        (f.toLookahead :: before).map Lookahead.view ++
          (next.settle start).view :: rest.map Lookahead.view := by
      rw [map_append]
      exact congrArg (_ ++ · :: _) hrefused
    exact ⟨.settles (.inr ⟨length, rfl, hflight⟩) hview hleft, forall_mem_cons.2 ⟨hf,
      forall_mem_append.2 ⟨hbefore, forall_mem_cons.2 ⟨hok' hnext, hrest⟩⟩⟩⟩

theorem hear_steps {m : Message}
    (hnodup : (c.hand.map fun la => la.work.index).Nodup) (hreading : w.reading = .ok m)
    (h : c.hear w f m = some r) : c.Steps w r := by
  have hhand : c.hand = f.toLookahead :: c.ahead := hand_of_phase hphase
  unfold hear at h
  split at h
  · rename_i index start block
    split at h
    · cases h
      exact .of_hand_eq hok hhand.symm (by simp)
    rename_i before next rest hfind
    obtain ⟨hsplit, rfl⟩ := find_spec hfind
    obtain ⟨received, hreceive, h⟩ := bind_eq_some_iff.1 h
    cases h
    obtain ⟨hreceived, hok'⟩ := receive_spec hreceive
    have hview : c.view = before.map Lookahead.view ++ next.view :: rest.map Lookahead.view := by
      rw [view, hhand, hsplit, map_append, map_cons]
    rw [hhand, hsplit, forall_mem_append, forall_mem_cons] at hok
    obtain ⟨hbefore, hnext, hrest⟩ := hok
    have hoks : ∀ la ∈ before ++ received :: rest, la.Ok :=
      forall_mem_append.2 ⟨hbefore, forall_mem_cons.2 ⟨hok' hnext, hrest⟩⟩
    have hviews : (before ++ received :: rest).map Lookahead.view =
        before.map Lookahead.view ++ (next.settle start).view :: rest.map Lookahead.view := by
      rw [map_append, map_cons, hreceived]
    cases hhand' : before ++ received :: rest with
    | nil => simp at hhand'
    | cons current ahead =>
      rw [hhand'] at hoks hviews
      exact ⟨.settles (.inl ⟨block, rfl⟩) hview hviews, hoks⟩
  · rename_i index start length
    split at h
    · rename_i hcurrent
      obtain ⟨rfl, hin⟩ := hcurrent
      exact refuseCurrent_steps hok hphase hcomplete hreading (by simpa [inFlightHas] using hin) h
    split at h
    · rename_i hany
      rw [hhand, map_cons, nodup_cons] at hnodup
      exact refuseAhead_steps hok hphase hcomplete hnodup.2 hreading
        (by simpa [inFlightHas] using hany) h
    · cases h
      exact takeOther_steps hok hphase _
  · cases h
    exact takeOther_steps hok hphase m

end

theorem finish_steps [Digests] (hcomplete : f.assembler.isComplete = true) :
    c.Steps w (c.finish f) := by
  have hview := view_of_phase hphase
  obtain ⟨-, hahead⟩ := forall_mem_cons.1 (hand_of_phase hphase ▸ hok)
  have hagain : ∀ la ∈ again f.work :: c.ahead, la.Ok := forall_mem_cons.2 ⟨ok_again f.work, hahead⟩
  unfold finish
  split
  · exact ⟨.resets hphase hcomplete hview rfl, hagain⟩
  · split
    · exact ⟨.resets hphase hcomplete hview rfl, hagain⟩
    · exact ⟨.fails hview rfl (by simp) rfl rfl trivial, hahead⟩

end

theorem store_steps {data : List UInt8} (hphase : c.phase = .writing work data) :
    c.Steps w (c.store w work data) := by
  have hview := view_of_phase hphase
  obtain ⟨-, hahead⟩ := forall_mem_cons.1 (hand_of_phase hphase ▸ hok)
  unfold store
  split
  · exact ⟨.stores hphase hview rfl (Finset.mem_insert_self _ _), hahead⟩
  · exact ⟨.fails hview rfl (by simp) rfl rfl trivial, hahead⟩

theorem releaseNext_steps {result : Option (Except WorkerError Unit)}
    (hphase : c.phase = .releasing result) : c.Steps w (c.releaseNext result) := by
  have hview : c.view = c.ahead.map Lookahead.view := view_of_phase hphase
  have hhand : c.hand = c.ahead := hand_of_phase hphase
  unfold releaseNext
  split
  · rename_i next rest hahead
    rw [hhand, hahead] at hok
    rw [hahead] at hview
    have hleft : ({ c with queue := c.queue.release next, ahead := rest } : Connection).hand =
        rest := by
      rw [hand, hphase]
      rfl
    refine ⟨.releases hphase hphase hview (congrArg _ hleft), ?_⟩
    rw [hleft]
    exact (forall_mem_cons.1 hok).2
  · split <;> exact .of_hand_eq hok hhand.symm (by simp)

theorem step_effect [Digests] (hnodup : (c.hand.map fun la => la.work.index).Nodup)
    (h : c.step minDepth w = some (t, out)) : Effect c w out t ∧ ∀ la ∈ t.hand, la.Ok := by
  have hsteps : ∀ {r : Connection × Output}, some r = some (t, out) → c.Steps w r →
      Effect c w out t ∧ ∀ la ∈ t.hand, la.Ok := by
    intro r hr hs
    cases hr
    exact hs
  unfold step at h
  split at h
  · rename_i hphase
    exact hsteps h (choose_steps hok hphase)
  · rename_i hphase
    exact hsteps h (openPiece_steps hok hphase)
  · rename_i hphase
    exact hsteps h (wait_steps hok hphase)
  · rename_i hphase
    exact hsteps h (begin_steps hok hphase)
  · rename_i hphase
    exact ask_steps hok hphase h
  · rename_i hphase
    exact hsteps h (openAhead_steps hok hphase)
  · rename_i f hphase
    unfold read at h
    split at h
    · rename_i hcomplete
      exact hsteps h (finish_steps hok hphase hcomplete)
    rename_i hcomplete
    split at h
    · rename_i m hreading
      exact hear_steps hok hphase (by simpa using hcomplete) hnodup hreading h
    · exact hsteps h (readFails_steps hok hphase _)
  · rename_i hphase
    exact hsteps h (store_steps hok hphase)
  · rename_i hphase
    exact hsteps h (releaseNext_steps hok hphase)
  · cases h

end

theorem ending_step [Digests] (hc : c.phase.Ending)
    (h : c.step minDepth w = some (t, out)) : out.heard = none ∧ t.phase.Ending := by
  cases hphase : c.phase with
  | releasing result =>
    cases result with
    | none =>
      rw [hphase] at hc
      cases hc
    | some result =>
      rw [step, hphase] at h
      have hnext : c.releaseNext (some result) = (t, out) := some_inj.1 h
      unfold releaseNext at hnext
      split at hnext
      · cases hnext
        exact ⟨rfl, hc⟩
      · cases hnext
        exact ⟨rfl, trivial⟩
  | returned result =>
    rw [step, hphase] at h
    cases h
  | _ =>
    rw [hphase] at hc
    cases hc

end Connection

end BitTorrent
