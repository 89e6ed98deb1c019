import BitTorrent.Piece.Requests
import BitTorrent.Worker.Connection

/-!
# A piece in hand

What each operation on a piece that a worker has taken does to it, and on several of them.
-/

namespace BitTorrent.Lookahead

open List Option PieceAssembler

variable {la la' : Lookahead} {room : ℕ} {reqs : List BlockRequest} {start : UInt32}

/-- The piece, and what is in flight for it. -/
def view (la : Lookahead) : PieceWork × List (ℕ × ℕ) := (la.work, la.inFlight)

/-- The assembler is the piece's, and tracks what is in flight. -/
structure Ok (la : Lookahead) : Prop where
  work_eq : la.assembler.work = la.work
  tracks : la.assembler.Tracks (la.inFlight.map Prod.fst)

theorem Ok.nodup (h : la.Ok) : (la.inFlight.map Prod.fst).Nodup := h.tracks.nodup

variable (work : PieceWork) (part : Option PartialPiece)

theorem openFrom_work : (openFrom work part).work = work := by
  cases part with
  | none => rfl
  | some part =>
    simp only [openFrom, resume]
    split <;> rfl

theorem ok_opened : (opened work part).Ok :=
  ⟨openFrom_work work part, .openFrom work part⟩

theorem ok_again : (again work).Ok := ⟨rfl, .new work⟩

theorem ok_forget (h : la.Ok) : la.forget.Ok := ⟨h.work_eq, .forgetRequests la.assembler⟩

theorem ask_spec (hok : la.Ok) (h : la.ask room = some (reqs, la')) :
    la'.view = la.view ∧ reqs.length ≤ room ∧ (∀ r ∈ reqs, r.1 = la.work.index.toNat) ∧
      (la'.send reqs).Ok := by
  obtain ⟨r, hnext, h⟩ := bind_eq_some_iff.1 h
  cases h
  obtain ⟨again, fresh, hnames, hlen, -, -, -, -, hwork⟩ := nextRequests_names hnext
  refine ⟨rfl, hlen, fun q hq => ?_, hwork.trans hok.work_eq, ?_⟩
  · rw [hnames.index q hq, hok.work_eq]
  · have htracks := hok.tracks.nextRequests hnext
    simpa [send, Function.comp_def] using htracks

theorem Ok.of_send (h : (la.send reqs).Ok) {written : List BlockRequest}
    (hsub : written.Sublist reqs) : (la.send written).Ok := by
  refine ⟨h.work_eq, h.tracks.sublist ?_⟩
  exact (List.Sublist.append_left (hsub.map Prod.snd) la.inFlight).map Prod.fst

theorem Ok.of_send_self (h : (la.send reqs).Ok) : la.Ok := by
  have hnone := h.of_send (nil_sublist reqs)
  rwa [send, map_nil, append_nil] at hnone

variable {block : List UInt8}

theorem record_spec (h : la.record start block = some la') :
    la'.view = la.view ∧ (la.Ok → la'.Ok) := by
  obtain ⟨r, hrecord, h⟩ := bind_eq_some_iff.1 h
  cases h
  refine ⟨rfl, fun hok => ⟨?_, hok.tracks.recordBlock hrecord⟩⟩
  obtain ⟨buf, received, heq⟩ := recordBlock_eq hrecord
  rw [heq]
  exact hok.work_eq

theorem map_settle (la : Lookahead) (start : UInt32) : (la.settle start).inFlight.map Prod.fst =
      (la.inFlight.map Prod.fst).filter (· != start.toNat) := by
  rw [settle, List.filter_map]
  rfl

theorem receive_spec (h : la.receive start block = some la') :
    la'.view = (la.settle start).view ∧ (la.Ok → la'.Ok) := by
  obtain ⟨recorded, hrecord, h⟩ := bind_eq_some_iff.1 h
  cases h
  obtain ⟨hview, hok'⟩ := record_spec hrecord
  obtain ⟨hwork, hflight⟩ := Prod.mk.inj hview
  refine ⟨by simp [view, settle, hwork, hflight], fun hok => ⟨(hok' hok).work_eq, ?_⟩⟩
  rw [map_settle]
  exact (hok' hok).tracks.sublist filter_sublist

theorem refuse_spec (h : la.refuse start = some la') :
    la'.view = (la.settle start).view ∧ la'.refusals = la.refusals + 1 ∧ (la.Ok → la'.Ok) := by
  obtain ⟨assembler, hrefuse, h⟩ := bind_eq_some_iff.1 h
  cases h
  refine ⟨rfl, rfl, fun hok => ⟨?_, ?_⟩⟩
  · rcases refuseRequest_eq hrefuse with rfl | ⟨k, -, -, -, rfl⟩ <;>
      exact hok.work_eq
  · have htracks := hok.tracks.refuseRequest hrefuse
    rwa [← map_settle] at htracks

variable {index : UInt32} {hand before rest : List Lookahead} {next : Lookahead}

theorem find_spec (h : find index hand = some (before, next, rest)) :
    hand = before ++ next :: rest ∧ next.work.index = index := by
  induction hand generalizing before with
  | nil => cases h
  | cons la hand ih =>
    rw [find] at h
    split at h
    · rename_i hindex
      cases h
      exact ⟨rfl, hindex⟩
    · obtain ⟨r, hr, h⟩ := map_eq_some_iff.1 h
      obtain ⟨rfl, heq⟩ := Prod.mk.inj h
      obtain ⟨hhand, hindex⟩ := @ih r.1 (by rw [hr, ← heq])
      exact ⟨by rw [hhand, cons_append], hindex⟩

theorem firstToAsk_spec {found : Option (List BlockRequest × Lookahead × List Lookahead)}
    (hok : ∀ la ∈ hand, la.Ok) (h : firstToAsk room hand = some (before, found)) :
    (∀ la ∈ before, la.Ok) ∧ ((found = none ∧ before.map view = hand.map view) ∨
        ∃ asked la reqs next rest, found = some (reqs, next, rest) ∧
          hand = asked ++ la :: rest ∧ before.map view = asked.map view ∧
          la.ask room = some (reqs, next)) := by
  induction hand generalizing before with
  | nil =>
    cases h
    exact ⟨by simp, .inl ⟨rfl, rfl⟩⟩
  | cons la hand ih =>
    rw [firstToAsk] at h
    obtain ⟨asked, hasked, h⟩ := bind_eq_some_iff.1 h
    have hla := ask_spec (hok la (by simp)) hasked
    split at h
    · obtain ⟨later, hlater, h⟩ := bind_eq_some_iff.1 h
      cases h
      obtain ⟨hbefore, hfound⟩ := ih (fun la hla => hok la (by simp [hla])) hlater
      refine ⟨forall_mem_cons.2 ⟨hla.2.2.2.of_send_self, hbefore⟩, ?_⟩
      rcases hfound with ⟨hnone, hview⟩ | ⟨asked', la', reqs, next, rest, hsome, hhand, hview, hask⟩
      · exact .inl ⟨hnone, by rw [map_cons, map_cons, hla.1, hview]⟩
      · exact .inr ⟨la :: asked', la', reqs, next, rest, hsome, by rw [hhand, cons_append],
          by rw [map_cons, map_cons, hla.1, hview], hask⟩
    · cases h
      exact ⟨by simp, .inr ⟨[], la, _, _, _, rfl, rfl, rfl, hasked⟩⟩

theorem salvage_spec {late : List Message} {hand' : List Lookahead}
    (h : salvage late hand = some hand') :
    hand'.map view = hand.map view ∧ ((∀ la ∈ hand, la.Ok) → ∀ la ∈ hand', la.Ok) := by
  fun_induction salvage late hand with
  | case1 hand =>
    cases h
    exact ⟨rfl, fun h => h⟩
  | case2 hand index start block late hnone ih | case4 hand m late hnot ih => exact ih h
  | case3 hand index start block late before next rest hfind ih =>
    obtain ⟨recorded, hrecord, h⟩ := bind_eq_some_iff.1 h
    obtain ⟨rfl, -⟩ := find_spec hfind
    obtain ⟨hview, hok⟩ := record_spec hrecord
    obtain ⟨hviews, hoks⟩ := ih recorded h
    refine ⟨by rw [hviews, map_append, map_append, map_cons, map_cons, hview], fun hall => hoks ?_⟩
    rw [forall_mem_append, forall_mem_cons] at hall ⊢
    exact ⟨hall.1, hok hall.2.1, hall.2.2⟩

end BitTorrent.Lookahead
