import BitTorrent.Piece.Record

/-!
# What an assembler asks for

The blocks whose requests `next_requests` returns are refused ones, from the top of the stack, and
fresh ones, from the cursor on.
-/

namespace BitTorrent.PieceAssembler

open List Option

variable {a a' : PieceAssembler} {out : List BlockRequest}

/-- The requests are those of the blocks, in order. -/
def Names (a : PieceAssembler) (blocks : List ℕ) (reqs : List BlockRequest) : Prop :=
  List.Forall₂ (fun k r => a.request k = some r) blocks reqs

theorem request_eq {k : ℕ} {r : BlockRequest} (h : a.request k = some r) :
    r.1 = a.work.index.toNat ∧ r.2.1 = k * blockSize := by
  obtain ⟨len, -, hr⟩ := bind_eq_some_iff.1 h
  cases hr
  exact ⟨rfl, rfl⟩

variable {blocks : List ℕ}

theorem Names.index (h : a.Names blocks out) : ∀ r ∈ out, r.1 = a.work.index.toNat := by
  intro r hr
  obtain ⟨i, hi, rfl⟩ := mem_iff_getElem.1 hr
  exact (request_eq (h.get (by rw [h.length_eq]; exact hi) hi)).1

theorem Names.offsets (h : a.Names blocks out) :
    out.map (fun r => r.2.1) = blocks.map (· * blockSize) := by
  induction h with
  | nil => rfl
  | cons hr _ ih => rw [map_cons, map_cons, ih, (request_eq hr).2]

theorem takeRefused_names {stack rest : List ℕ} :
    ∀ {room : ℕ} {out : List BlockRequest}, a.takeRefused room stack = some (out, rest) →
      ∃ blocks, a.Names blocks out ∧ out.length ≤ room ∧ (blocks ++ rest).Sublist stack := by
  induction stack with
  | nil =>
    intro room out h
    obtain ⟨rfl, rfl⟩ : out = [] ∧ rest = [] := by
      cases room <;> simpa [takeRefused, eq_comm] using h
    exact ⟨[], .nil, by simp, .refl _⟩
  | cons blockIdx stack ih =>
    intro room out h
    cases room with
    | zero =>
      cases h
      exact ⟨[], .nil, by simp, .refl _⟩
    | succ room =>
      rw [takeRefused] at h
      obtain ⟨received, -, h⟩ := bind_eq_some_iff.1 h
      cases received with
      | true =>
        obtain ⟨blocks, hnames, hlen, hsub⟩ := ih h
        exact ⟨blocks, hnames, hlen, hsub.cons blockIdx⟩
      | false =>
        obtain ⟨req, hreq, h⟩ := bind_eq_some_iff.1 h
        obtain ⟨later, hlater, h⟩ := bind_eq_some_iff.1 h
        cases h
        obtain ⟨blocks, hnames, hlen, hsub⟩ := ih hlater
        exact ⟨blockIdx :: blocks, .cons hreq hnames, by simpa using hlen, hsub.cons_cons blockIdx⟩

theorem takeFresh_names {left : ℕ} : ∀ {next room cursor : ℕ} {out : List BlockRequest},
      a.takeFresh left next room = some (out, cursor) →
      ∃ blocks, a.Names blocks out ∧ out.length ≤ room ∧ next ≤ cursor ∧ blocks.Nodup ∧
        ∀ k ∈ blocks, next ≤ k ∧ k < cursor := by
  induction left with
  | zero =>
    intro next room cursor out h
    cases h
    exact ⟨[], .nil, by simp, le_rfl, .nil, by simp⟩
  | succ left ih =>
    intro next room cursor out h
    cases room with
    | zero =>
      cases h
      exact ⟨[], .nil, by simp, le_rfl, .nil, by simp⟩
    | succ room =>
      rw [takeFresh] at h
      obtain ⟨received, -, h⟩ := bind_eq_some_iff.1 h
      cases received with
      | true =>
        obtain ⟨blocks, hnames, hlen, hle, hnodup, hrange⟩ := ih h
        exact ⟨blocks, hnames, hlen, by omega, hnodup, fun k hk => by have := hrange k hk; omega⟩
      | false =>
        obtain ⟨req, hreq, h⟩ := bind_eq_some_iff.1 h
        obtain ⟨later, hlater, h⟩ := bind_eq_some_iff.1 h
        cases h
        obtain ⟨blocks, hnames, hlen, hle, hnodup, hrange⟩ := ih hlater
        refine ⟨next :: blocks, .cons hreq hnames, by simpa using hlen, by omega,
          nodup_cons.2 ⟨fun hmem => ?_, hnodup⟩, fun k hk => ?_⟩
        · have := hrange next hmem
          omega
        · rcases mem_cons.1 hk with rfl | hk
          · omega
          · have := hrange k hk
            omega

variable {maxNew : ℕ}

theorem nextRequests_names (h : a.nextRequests maxNew = some (out, a')) :
    ∃ again fresh, a.Names (again ++ fresh) out ∧ out.length ≤ maxNew ∧
      (again ++ a'.refused).Sublist a.refused ∧ fresh.Nodup ∧
      (∀ k ∈ fresh, a.nextUnrequestedBlock ≤ k ∧ k < a'.nextUnrequestedBlock) ∧
      a.nextUnrequestedBlock ≤ a'.nextUnrequestedBlock ∧ a'.work = a.work := by
  obtain ⟨r, hagain, h⟩ := bind_eq_some_iff.1 h
  obtain ⟨s, hfresh, h⟩ := bind_eq_some_iff.1 h
  cases h
  obtain ⟨again, hnames, hlen, hsub⟩ := takeRefused_names hagain
  obtain ⟨fresh, hnames', hlen', hle, hnodup, hrange⟩ := takeFresh_names hfresh
  refine ⟨again, fresh, rel_append hnames hnames', ?_, hsub, hnodup, hrange, hle, rfl⟩
  rw [length_append]
  omega

variable {start : UInt32} {r : Except AssemblerError Unit} {data : List UInt8}

theorem recordBlock_eq (h : a.recordBlock start data = some (r, a')) :
    ∃ buf received, a' = { a with buf := buf, received := received } := by
  unfold recordBlock at h
  dsimp only at h
  split at h
  · cases h
    exact ⟨_, _, rfl⟩
  split at h
  · cases h
    exact ⟨_, _, rfl⟩
  split at h
  · cases h
    exact ⟨_, _, rfl⟩
  obtain ⟨expected, -, h⟩ := bind_eq_some_iff.1 h
  split at h
  · cases h
    exact ⟨_, _, rfl⟩
  obtain ⟨buf, -, h⟩ := bind_eq_some_iff.1 h
  obtain ⟨received, -, h⟩ := bind_eq_some_iff.1 h
  cases h
  exact ⟨_, _, rfl⟩

theorem refuseRequest_eq (h : a.refuseRequest start = some a') :
    a' = a ∨ ∃ k, start.toNat = k * blockSize ∧ k < a.nextUnrequestedBlock ∧ k ∉ a.refused ∧
      a' = { a with refused := k :: a.refused } := by
  unfold refuseRequest at h
  dsimp only at h
  split at h
  · rename_i hasked
    obtain ⟨received, -, h⟩ := bind_eq_some_iff.1 h
    split at h
    · rename_i hfree
      cases h
      simp only [Bool.and_eq_true, Bool.not_eq_true', contains_eq_mem,
        decide_eq_false_iff_not] at hfree
      exact .inr ⟨_, hasked.2.symm, hasked.1, hfree.2, rfl⟩
    · exact .inl (some_inj.1 h).symm
  · exact .inl (some_inj.1 h).symm

/-- **The offsets in flight** are of different blocks, each asked for and
not on the stack of refused ones. -/
structure Tracks (a : PieceAssembler) (offsets : List ℕ) : Prop where
  nodup : offsets.Nodup
  asked : ∀ o ∈ offsets, ∃ k, o = k * blockSize ∧ k < a.nextUnrequestedBlock ∧ k ∉ a.refused
  refused_nodup : a.refused.Nodup
  refused_lt : ∀ k ∈ a.refused, k < a.nextUnrequestedBlock

namespace Tracks

variable {offsets : List ℕ}

theorem sublist (h : a.Tracks offsets) {fewer : List ℕ} (hsub : fewer.Sublist offsets) :
    a.Tracks fewer :=
  ⟨h.nodup.sublist hsub, fun o ho => h.asked o (hsub.mem ho), h.refused_nodup, h.refused_lt⟩

variable (work : PieceWork)

theorem new : (PieceAssembler.new work).Tracks [] :=
  ⟨.nil, by simp, .nil, by simp [PieceAssembler.new]⟩

theorem openFrom (part : Option PartialPiece) :
    (PieceAssembler.openFrom work part).Tracks [] := by
  cases part with
  | none => exact new work
  | some part =>
    simp only [PieceAssembler.openFrom, resume]
    split
    · exact ⟨.nil, by simp, .nil, by simp [PieceAssembler.new]⟩
    · exact new work

theorem forgetRequests (a : PieceAssembler) : a.forgetRequests.Tracks [] :=
  ⟨.nil, by simp, .nil, by simp [PieceAssembler.forgetRequests]⟩

theorem nextRequests (h : a.Tracks offsets) (hnext : a.nextRequests maxNew = some (out, a')) :
    a'.Tracks (offsets ++ out.map fun r => r.2.1) := by
  obtain ⟨again, fresh, hnames, -, hsub, hnodup, hrange, hle, -⟩ := nextRequests_names hnext
  have hstack : (again ++ a'.refused).Nodup := h.refused_nodup.sublist hsub
  have hagain : ∀ k ∈ again, k ∈ a.refused := fun k hk => hsub.mem (by simp [hk])
  have hrefused : ∀ k ∈ a'.refused, k ∈ a.refused := fun k hk => hsub.mem (by simp [hk])
  have hdisjoint : ∀ k ∈ fresh, k ∉ a.refused := fun k hk hmem => by
    have h₁ := (hrange k hk).1
    have h₂ := h.refused_lt k hmem
    omega
  have hblocks : (again ++ fresh).Nodup := nodup_append.2 ⟨hstack.of_append_left, hnodup,
      fun k hk j hj hkj => hdisjoint j hj (hkj ▸ hagain k hk)⟩
  have hinj : Function.Injective (· * blockSize) := fun i j hij =>
    Nat.eq_of_mul_eq_mul_right (by decide) hij
  rw [hnames.offsets]
  refine ⟨nodup_append.2 ⟨h.nodup, hblocks.map hinj, fun o ho p hp hop => ?_⟩,
    fun o ho => ?_, hstack.of_append_right, fun k hk => ?_⟩
  · -- what is in flight is neither refused nor past the cursor
    subst hop
    obtain ⟨k, rfl, hlt, hnot⟩ := h.asked o ho
    obtain ⟨j, hj, hjk⟩ := List.mem_map.1 hp
    obtain rfl : j = k := hinj hjk
    rcases mem_append.1 hj with hj | hj
    · exact hnot (hagain j hj)
    · have := (hrange j hj).1
      omega
  · rcases mem_append.1 ho with ho | ho
    · obtain ⟨k, rfl, hlt, hnot⟩ := h.asked o ho
      exact ⟨k, rfl, by omega, fun hmem => hnot (hrefused k hmem)⟩
    · obtain ⟨k, hk, rfl⟩ := List.mem_map.1 ho
      rcases mem_append.1 hk with hk | hk
      · have := h.refused_lt k (hagain k hk)
        exact ⟨k, rfl, by omega, fun hmem => (nodup_append.1 hstack).2.2 k hk k hmem rfl⟩
      · exact ⟨k, rfl, (hrange k hk).2, fun hmem => hdisjoint k hk (hrefused k hmem)⟩
  · have := h.refused_lt k (hrefused k hk)
    omega

theorem recordBlock (h : a.Tracks offsets) (hrecord : a.recordBlock start data = some (r, a')) :
    a'.Tracks offsets := by
  obtain ⟨buf, received, rfl⟩ := recordBlock_eq hrecord
  exact ⟨h.nodup, h.asked, h.refused_nodup, h.refused_lt⟩

theorem refuseRequest (h : a.Tracks offsets) (hrefuse : a.refuseRequest start = some a') :
    a'.Tracks (offsets.filter (· != start.toNat)) := by
  have hfewer := h.sublist (filter_sublist (p := (· != start.toNat)))
  obtain rfl | ⟨k, hk, hlt, hnot, rfl⟩ := refuseRequest_eq hrefuse
  · exact hfewer
  refine ⟨hfewer.nodup, fun o ho => ?_, nodup_cons.2 ⟨hnot, h.refused_nodup⟩, fun j hj => ?_⟩
  · obtain ⟨j, rfl, hj, hjnot⟩ := hfewer.asked o ho
    have hne : j ≠ k := by
      rintro rfl
      simp [hk] at ho
    exact ⟨j, rfl, hj, not_mem_cons_of_ne_of_not_mem hne hjnot⟩
  · rcases mem_cons.1 hj with rfl | hj
    · exact hlt
    · exact h.refused_lt j hj

end Tracks

end BitTorrent.PieceAssembler
