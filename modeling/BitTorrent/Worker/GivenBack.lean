import BitTorrent.Worker.Sound

/-!
# What becomes of the pieces taken

A connection ends by a `return` at one of many places.
-/

namespace BitTorrent

open List PieceWork ConnectionEvent

namespace ConnectionEvent

/-- The pieces that the connection takes. -/
def took : ConnectionEvent → List PieceWork
  | .own _ out => out.took
  | _ => []

/-- The pieces that it gives back. -/
def gave : ConnectionEvent → List PieceWork
  | .own _ out => out.gave
  | _ => []

/-- The pieces that another worker is handed. -/
def handed : ConnectionEvent → List PieceWork
  | .other call => call.handedOut.map Prod.snd
  | _ => []

end ConnectionEvent

namespace Connection

variable {c t : Connection} {w : World} {out : Output} {peer : PeerState} {queue : WorkQueue}
  {es : List ConnectionEvent} {minDepth : ℕ} {work : PieceWork}

theorem Effect.conserves (h : Effect c w out t) (hwork : work ∈ c.works ∨ work ∈ out.took) :
    work ∈ t.works ∨ work ∈ out.gave ∨ work.index ∈ t.queue.done := by
  unfold Connection.works at hwork ⊢
  cases h with
  | rests hview _ htook _ =>
    rw [hview]
    exact .inl (hwork.resolve_right (by simp [htook]))
  | takes hview _ _ =>
    rw [hview, map_append, mem_append]
    exact .inl hwork
  | sends _ hc ht | settles _ hc ht | resets _ _ hc ht =>
    rw [hc] at hwork
    exact .inl (by simpa [ht] using hwork)
  | sendFails _ hc ht _ _ _ =>
    have hfst := congrArg (map Prod.fst) ht
    rw [map_append, map_cons, map_cons] at hfst
    rw [hc, map_append, map_cons, hfst] at hwork
    simp only [mem_cons, not_mem_nil, or_false] at hwork ⊢
    tauto
  | clears _ _ _ _ ht => exact .inl (by simpa [ht, Function.comp_def] using hwork)
  | fails hc ht _ htook hgave _ =>
    simp only [hc, ht, htook, hgave, map_cons, mem_cons, not_mem_nil, or_false] at hwork ⊢
    tauto
  | refuses _ _ _ _ _ hc ht _ | releases _ _ hc ht =>
    simp only [hc, ht, map_cons, mem_cons, not_mem_nil, or_false] at hwork ⊢
    tauto
  | declines _ _ _ _ _ _ hc ht =>
    simp only [hc, ht, map_append, map_cons, mem_append, mem_cons, not_mem_nil, or_false] at hwork ⊢
    rcases hwork with hwork | rfl | hwork
    · exact .inl (.inl hwork)
    · exact .inr (.inl rfl)
    · exact .inl (.inr hwork)
  | stores _ hc ht hdone | abandons _ _ _ hdone hc ht =>
    simp only [hc, ht, map_cons, mem_cons, not_mem_nil, or_false] at hwork ⊢
    rcases hwork with rfl | hwork
    · exact .inr (.inr hdone)
    · exact .inl hwork

theorem Effect.took_works (h : Effect c w out t) (hwork : work ∈ out.took) : work ∈ t.works := by
  cases h with
  | takes hview _ _ => simpa [Connection.works, hview] using .inr (by simpa using hwork)
  | rests _ _ htook _ | fails _ _ _ htook _ _ => simp [htook] at hwork
  | _ => simp at hwork

/-- **What has become of a piece** that was taken, by what happened
since. -/
structure Accounted (c : Connection) (since : List ConnectionEvent) (i : UInt32) : Prop where
  /-- It is in hand, or done, or was given back. -/
  held : i ∈ c.works.map PieceWork.index ∨ i ∈ c.queue.done ∨
    ∃ e ∈ since, i ∈ e.gave.map PieceWork.index
  /-- If nobody else was handed it, it is in hand, or pending or done. -/
  back : (∀ e ∈ since, i ∉ e.handed.map PieceWork.index) →
    i ∈ c.works.map PieceWork.index ∨ c.queue.Back i

variable {since : List ConnectionEvent}

theorem Accounted.own [Digests] {i : UInt32}
    (h : c.Accounted since i) (hc : c.Sound) (hstep : c.step minDepth w = some (t, out)) :
    t.Accounted (since ++ [.own w out]) i := by
  have heffect := hc.effect hstep
  have hqueue : c.queue.Keeps out.took out.gave t.queue := (step_leads hc.waiting hstep).queue
  -- what was in hand
  have hhand : i ∈ c.works.map index → i ∈ t.works.map index ∨
      i ∈ out.gave.map index ∨ i ∈ t.queue.done := by
    intro hi
    obtain ⟨work, hwork, rfl⟩ := mem_map.1 hi
    rcases heffect.conserves (.inl hwork) with hwork | hwork | hdone
    · exact .inl (mem_map_of_mem hwork)
    · exact .inr (.inl (mem_map_of_mem hwork))
    · exact .inr (.inr hdone)
  constructor
  · rcases h.held with hi | hi | ⟨e, he, hi⟩
    · rcases hhand hi with hi | hi | hi
      · exact .inl hi
      · exact .inr (.inr ⟨_, mem_append_right _ (mem_singleton_self _), hi⟩)
      · exact .inr (.inl hi)
    · exact .inr (.inl (hqueue.done hi))
    · exact .inr (.inr ⟨e, mem_append_left _ he, hi⟩)
  · intro hnone
    rcases h.back fun e he => hnone e (mem_append_left _ he) with hi | hi
    · rcases hhand hi with hi | hi | hi
      · exact .inl hi
      · obtain ⟨work, hwork, rfl⟩ := mem_map.1 hi
        exact .inr (hqueue.gave work hwork)
      · exact .inr (.inr hi)
    · rcases hqueue.back i hi with hi | hi
      · exact .inr hi
      · obtain ⟨work, hwork, rfl⟩ := mem_map.1 hi
        exact .inl (mem_map_of_mem (heffect.took_works hwork))

variable {e : ConnectionEvent}

theorem Accounted.others {i : UInt32}
    {q : WorkQueue} (h : c.Accounted since i) (hqueue : c.queue.Keeps e.handed [] q) :
    ({ c with queue := q } : Connection).Accounted (since ++ [e]) i := by
  constructor
  · rcases h.held with hi | hi | ⟨e, he, hi⟩
    · exact .inl hi
    · exact .inr (.inl (hqueue.done hi))
    · exact .inr (.inr ⟨e, mem_append_left _ he, hi⟩)
  · intro hnone
    refine (h.back fun e he => hnone e (mem_append_left _ he)).imp_right fun hi => ?_
    exact (hqueue.back i hi).resolve_right (hnone e (mem_append_right _ (mem_singleton_self _)))

/-- **The connection is not left with work to do**: where the upload side
or the relay fails at the top of the loop, each piece taken ahead is
done. -/
def LeavesNone (c : Connection) (e : ConnectionEvent) (_ : Connection) : Prop :=
  ∀ w out, e = .own w out → c.phase = .choosing → w.serves = false ∨ w.relays = false →
    ∀ next ∈ c.ahead, next.work.index ∈ c.queue.done

/-- Along a run: every piece taken is accounted for, and what is in hand
after a return is done. -/
structure Settled (es : List ConnectionEvent) (c : Connection) : Prop where
  sound : c.Sound
  accounted : ∀ before e since work, es = before ++ e :: since → work ∈ e.took →
    c.Accounted since work.index
  returned : ∀ result, c.phase = .returned result →
    ∀ work ∈ c.works, work.index ∈ c.queue.done

theorem accounted_snoc (h : ∀ before e since work, es = before ++ e :: since → work ∈ e.took →
      c.Accounted since work.index)
    (hstep : ∀ since i, c.Accounted since i → t.Accounted (since ++ [e]) i)
    (htook : ∀ work ∈ e.took, work ∈ t.works) :
    ∀ before e' since work, es ++ [e] = before ++ e' :: since → work ∈ e'.took →
      t.Accounted since work.index := by
  intro before e' since work heq hwork
  rcases eq_nil_or_concat' since with rfl | ⟨earlier, last, rfl⟩
  · obtain ⟨-, rfl⟩ := append_inj' heq rfl |>.imp_right singleton_inj.1
    have hmem := mem_map_of_mem (f := index) (htook work hwork)
    exact ⟨.inl hmem, fun _ => .inl hmem⟩
  · rw [← cons_append, ← append_assoc] at heq
    obtain ⟨hes, hlast⟩ := append_inj' heq rfl
    obtain rfl := singleton_inj.1 hlast
    exact hstep earlier _ (h before e' earlier work hes hwork)

theorem settled_event [Digests] (hc : Settled es c)
    (h : ((connection minDepth).restrict LeavesNone).step c e t) : Settled (es ++ [e]) t := by
  obtain ⟨h, hnone⟩ := h
  have hsound := sound_event hc.sound h
  cases e with
  | own w out =>
    have heffect := hc.sound.effect h
    refine ⟨hsound, accounted_snoc hc.accounted (fun _ _ ha => ha.own hc.sound h)
      fun work hwork => heffect.took_works hwork, fun result hreturned work hwork => ?_⟩
    rw [works_eq, hand_of_phase hreturned] at hwork
    obtain ⟨next, hnext, rfl⟩ := mem_map.1 hwork
    have hleads := step_leads hc.sound.waiting h
    have harrives := hleads.arrives
    simp only [Arrives, hreturned] at harrives
    rcases harrives with hahead | ⟨hphase, hfails, hahead⟩
    · rw [hahead] at hnext
      cases hnext
    · rw [hahead] at hnext
      exact hleads.queue.done (hnone w out rfl hphase hfails next hnext)
  | other call =>
    obtain ⟨q, hq, rfl⟩ := h
    have hkeeps : c.queue.Keeps (other call).handed [] q := WorkQueue.keeps_call hq
    have haccounted := accounted_snoc hc.accounted (fun _ _ ha => ha.others hkeeps) (by simp [took])
    exact ⟨hsound, haccounted,
      fun result hreturned work hwork => hkeeps.done (hc.returned result hreturned work hwork)⟩
  | noted held =>
    obtain rfl : t = { c with queue := c.queue.noteBitfield held } := h
    have hkeeps : c.queue.Keeps (noted held).handed [] (c.queue.noteBitfield held) := .of_eq rfl
    have haccounted := accounted_snoc hc.accounted (fun _ _ ha => ha.others hkeeps) (by simp [took])
    exact ⟨hsound, haccounted, hc.returned⟩

/-- **Every piece taken is done or given back when the connection ends.**
In every run in which the pieces still held are done where the upload
side or the relay fails at the top of the loop, when `fetch_from` has
returned each piece it took is done, or was given back since; and unless
another worker was handed it since, it is done or pending. -/
theorem taken_given_back [Digests] {result : Except WorkerError Unit}
    (hrun : ((connection minDepth).restrict LeavesNone).Run (start peer queue) es c)
    (hreturned : c.phase = .returned result) :
    ∀ before e since work, es = before ++ e :: since → work ∈ e.took →
      (work.index ∈ c.queue.done ∨ ∃ e' ∈ since, work.index ∈ e'.gave.map PieceWork.index) ∧
      ((∀ e' ∈ since, work.index ∉ e'.handed.map PieceWork.index) →
        c.queue.At work.index .done ∨ c.queue.At work.index .pending) := by
  have hstart : Settled [] (start peer queue) :=
    ⟨sound_start peer queue, by simp, by simp [start]⟩
  have hc : Settled es c := by
    refine LTS.Run.history (I := Settled) ?_ hrun hstart
    exact fun _ _ _ _ hc hstep => settled_event hc hstep
  intro before e since work heq hwork
  obtain ⟨hheld, hback⟩ := hc.accounted before e since work heq hwork
  have hdone : work.index ∈ c.works.map PieceWork.index → work.index ∈ c.queue.done := by
    intro hi
    obtain ⟨held, hmem, hindex⟩ := mem_map.1 hi
    exact hindex ▸ hc.returned result hreturned held hmem
  refine ⟨?_, fun hnone => ?_⟩
  · rcases hheld with hi | hi
    · exact Or.inl (hdone hi)
    · exact hi
  · rcases hback hnone with hi | hi | hi
    · exact Or.inl (hdone hi)
    · exact Or.inr hi
    · exact Or.inl hi

def hasReturned (c : Connection) : Bool :=
  c.phase matches .returned _

theorem exists_of_hasReturned (h : c.hasReturned = true) :
    ∃ result, c.phase = .returned result := by
  unfold hasReturned at h
  split at h
  · rename_i result hphase
    exact ⟨result, hphase⟩
  · cases h

/-- The condition, evaluated. -/
def leavesNone (c : Connection) (w : World) : Bool :=
  match c.phase with
  | .choosing =>
    (w.serves && w.relays) || c.ahead.all fun next => decide (next.work.index ∈ c.queue.done)
  | _ => true

theorem leavesNone_spec (c : Connection) (w : World) (out : Output) (t : Connection)
    (h : c.leavesNone w = true) : LeavesNone c (.own w out) t := by
  rintro w' out' heq hphase hfails next hnext
  cases heq
  simp only [leavesNone, hphase, Bool.or_eq_true, Bool.and_eq_true, all_eq_true,
    decide_eq_true_eq] at h
  rcases h with ⟨hserves, hrelays⟩ | h
  · simp [hserves, hrelays] at hfails
  · exact h next hnext

theorem taken_given_back_sample :
    let _ := Digests.zero
    ∃ es c result before e since,
      ((connection 2).restrict LeavesNone).Run (start (.seed 2) (.bytes 2)) es c ∧
      c.phase = .returned result ∧ es = before ++ e :: since ∧ .byte 1 ∈ e.took ∧
      (1 ∈ c.queue.done ∨ ∃ e' ∈ since, 1 ∈ e'.gave.map PieceWork.index) := by
  let _ := Digests.zero
  have hdrive : ∃ r ∈ drive 2 leavesNone (start (.seed 2) (.bytes 2)) (List.replicate 11 .silence),
      r.2.hasReturned = true ∧ ∃ e ∈ r.1, .byte 1 ∈ e.took := by
    decide +kernel
  obtain ⟨⟨es, c⟩, hdrive, hphase, e, he, htook⟩ := hdrive
  have hrun := run_of_drive leavesNone_spec hdrive
  obtain ⟨result, hreturned⟩ := exists_of_hasReturned hphase
  obtain ⟨before, since, heq⟩ := append_of_mem he
  exact ⟨es, c, result, before, e, since, hrun, hreturned, heq, htook,
    (taken_given_back hrun hreturned before e since (.byte 1) heq htook).1⟩

/-- **A piece that stays claimed.** Piece 1 is taken ahead while piece 0
is fetched. Piece 0 arrives, is written and done; then the upload side
fails, at the top of the loop. -/
theorem left_claimed :
    let _ := Digests.zero
    ∃ es c result, (connection 2).Run (start (.seed 2) (.bytes 2)) es c ∧
      c.phase = .returned result ∧ (∃ e ∈ es, .byte 1 ∈ e.took) ∧ (∀ e ∈ es, e.handed = []) ∧
      c.queue.At 1 .claimed ∧ ¬ c.queue.At 1 .done ∧ ¬ c.queue.At 1 .pending := by
  let _ := Digests.zero
  have hdrive : ∃ r ∈ drive 2 (fun _ _ => true) (start (.seed 2) (.bytes 2))
      (List.replicate 8 .silence ++ [.calm (.ok (.piece 0 0 [7]))] ++
        List.replicate 4 .silence ++ [{ World.silence with serves := false }]),
      r.2.hasReturned = true ∧ (∃ e ∈ r.1, .byte 1 ∈ e.took) ∧ (∀ e ∈ r.1, e.handed = []) ∧
        1 ∈ r.2.queue.claimed ∧ 1 ∉ r.2.queue.done ∧
        1 ∉ r.2.queue.pending.map PieceWork.index := by
    decide +kernel
  obtain ⟨⟨es, c⟩, hdrive, hphase, htook, hhanded, hclaimed, hdone, hpending⟩ := hdrive
  have hrun := run_of_drive (G := fun _ _ _ => True) (fun _ _ _ _ _ => trivial) hdrive
  obtain ⟨result, hreturned⟩ := exists_of_hasReturned hphase
  exact ⟨es, c, result, hrun.of_restrict, hreturned, htook, hhanded, hclaimed, hdone, hpending⟩

end Connection

end BitTorrent
