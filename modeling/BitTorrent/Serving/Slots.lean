import BitTorrent.Serving.Choker

/-!
# How many are unchoked

The choker over any run of its operations: no more peers are unchoked than there are slots, each
of them is registered and wants data, and a round fills as many slots as it can.
-/

namespace BitTorrent.Serving

open List OrderedMap

variable {slots : ℕ} {es : List ChokerEvent} {e : ChokerEvent} {c d : Choker} {id : PeerId}

/-- Something has happened, and nothing of a kind since. -/
def HasHappened (es : List ChokerEvent) (e : ChokerEvent) (undone : ChokerEvent → Prop) : Prop :=
  ∃ before after, es = before ++ e :: after ∧ ∀ x ∈ after, ¬ undone x

variable {undone : ChokerEvent → Prop}

theorem HasHappened.snoc {e' : ChokerEvent}
    (h : HasHappened es e undone) (he' : ¬ undone e') : HasHappened (es ++ [e']) e undone := by
  obtain ⟨before, after, rfl, hafter⟩ := h
  exact ⟨before, after ++ [e'], by simp, forall_mem_append.2 ⟨hafter, forall_mem_singleton.2 he'⟩⟩

theorem hasHappened_last : HasHappened (es ++ [e]) e undone := ⟨es, [], rfl, nofun⟩

/-- **A peer is registered**: it has been given its id, and has not left. -/
def Registered (es : List ChokerEvent) (id : PeerId) : Prop :=
  HasHappened es (.register id) (· = .unregister id)

/-- **A peer is interested**: it has said so, and has not taken it back. -/
def Wants (es : List ChokerEvent) (id : PeerId) : Prop :=
  HasHappened es (.setInterested id true) (· = .setInterested id false)

/-- **What the choker keeps to**: the slots are enough, and the record of a
peer is what the peer has said. -/
structure SlotsInv (slots : ℕ) (es : List ChokerEvent) (c : Choker) : Prop where
  slots_eq : c.slots = slots
  held : c.unchokedCount ≤ slots
  registered : ∀ id slot, (id, slot) ∈ c.peers.entries → Registered es id
  wants : ∀ id slot, (id, slot) ∈ c.peers.entries → slot.interested = true → Wants es id
  unchoked : ∀ id slot, (id, slot) ∈ c.peers.entries → slot.unchoked = true →
    slot.interested = true

section

variable (h : SlotsInv slots es c)

include h

variable {f : Slot → Slot}

theorem SlotsInv.modify (he : ∀ id, e ≠ .unregister id)
    (hother : ∀ other, other ≠ id → e ≠ .setInterested other false)
    (hcount : (c.peers.modify id f).count Slot.unchoked ≤ slots)
    (hwants : ∀ slot, (id, slot) ∈ c.peers.entries → (f slot).interested = true →
      Wants (es ++ [e]) id)
    (hunchoked : ∀ slot, (id, slot) ∈ c.peers.entries → (f slot).unchoked = true →
      (f slot).interested = true) :
    SlotsInv slots (es ++ [e]) { c with peers := c.peers.modify id f } where
  slots_eq := h.slots_eq
  held := hcount
  registered other slot hmem := by
    rcases mem_modify.1 hmem with ⟨-, hmem⟩ | ⟨rfl, old, hmem, -⟩
    · exact (h.registered other slot hmem).snoc (he other)
    · exact (h.registered other old hmem).snoc (he other)
  wants other slot hmem hinterested := by
    rcases mem_modify.1 hmem with ⟨hne, hmem⟩ | ⟨rfl, old, hmem, hslot⟩
    · exact (h.wants other slot hmem hinterested).snoc (hother other hne)
    · dsimp only at hslot
      exact hwants old hmem (hslot ▸ hinterested)
  unchoked other slot hmem := by
    rcases mem_modify.1 hmem with ⟨-, hmem⟩ | ⟨rfl, old, hmem, hslot⟩
    · exact h.unchoked other slot hmem
    · dsimp only at hslot
      rw [hslot]
      exact hunchoked old hmem

theorem SlotsInv.recount
    (he : ∀ id, e ≠ .unregister id) (hinterest : ∀ id, e ≠ .setInterested id false)
    (hf : ∀ slot, (f slot).interested = slot.interested ∧ (f slot).unchoked = slot.unchoked) :
    SlotsInv slots (es ++ [e]) { c with peers := c.peers.modify id f } := by
  refine h.modify he (fun other _ => hinterest other) ?_ ?_ ?_
  · refine (count_modify_le fun slot _ hslot => ?_).trans h.held
    rwa [(hf slot).2] at hslot
  · intro slot hmem hinterested
    rw [(hf slot).1] at hinterested
    exact (h.wants id slot hmem hinterested).snoc (hinterest id)
  · intro slot hmem hunchoked
    rw [(hf slot).1]
    rw [(hf slot).2] at hunchoked
    exact h.unchoked id slot hmem hunchoked

theorem SlotsInv.setInterested {interested : Bool} :
    SlotsInv slots (es ++ [.setInterested id interested]) (c.setInterested id interested) := by
  refine h.modify nofun ?_ ?_ ?_ ?_
  · rintro other hne heq
    exact hne (ChokerEvent.setInterested.inj heq).1.symm
  · refine (count_modify_le fun slot _ hslot => ?_).trans h.held
    dsimp only at hslot
    split at hslot
    · exact hslot
    · cases hslot
  · rintro slot - (rfl : interested = true)
    exact hasHappened_last
  · intro slot hmem hslot
    dsimp only at hslot
    split at hslot
    · rename_i hinterested
      exact hinterested
    · cases hslot

theorem SlotsInv.grantIfFree {granted : Bool} (hgrant : c.grantIfFree id = (granted, d)) :
    SlotsInv slots (es ++ [.grantIfFree id granted]) d := by
  have hsame : SlotsInv slots (es ++ [.grantIfFree id granted]) c :=
    ⟨h.slots_eq, h.held, fun id slot hmem => (h.registered id slot hmem).snoc nofun,
      fun id slot hmem hslot => (h.wants id slot hmem hslot).snoc nofun, h.unchoked⟩
  unfold Choker.grantIfFree at hgrant
  dsimp only at hgrant
  split at hgrant
  · cases hgrant
    exact hsame
  · rename_i slot hslot
    split at hgrant
    · cases hgrant
      exact hsame
    · split at hgrant
      · rename_i hfree
        obtain ⟨hinterested, hheld⟩ := Bool.and_eq_true_iff.1 hfree
        have hheld := of_decide_eq_true hheld
        rw [h.slots_eq] at hheld
        cases hgrant
        have hone : ∀ other, (id, other) ∈ c.peers.entries → other = slot := by
          intro other hother
          exact Option.some_inj.1 ((get_eq_some_iff.2 hother).symm.trans hslot)
        refine h.modify nofun nofun (count_modify_le_succ.trans hheld) ?_ ?_
        · intro other hmem hwants
          exact (h.wants id other hmem hwants).snoc nofun
        · intro other hmem _
          rw [hone other hmem]
          exact hinterested
      · cases hgrant
        exact hsame

end

theorem countP_mem_eq_card {m : OrderedMap PeerId Slot} {s : Finset PeerId}
    (hs : s ⊆ (m.entries.map Prod.fst).toFinset) :
    (m.entries.countP fun x => decide (x.1 ∈ s)) = s.card := by
  have hset : ((m.entries.filter fun x => decide (x.1 ∈ s)).map Prod.fst).toFinset = s := by
    ext id
    rw [mem_toFinset, mem_map]
    constructor
    · rintro ⟨x, hx, rfl⟩
      exact of_decide_eq_true (mem_filter.1 hx).2
    · intro hid
      obtain ⟨x, hx, rfl⟩ := mem_map.1 (mem_toFinset.1 (hs hid))
      exact ⟨x, mem_filter.2 ⟨hx, decide_eq_true hid⟩, rfl⟩
  have hnodup : ((m.entries.filter fun x => decide (x.1 ∈ s)).map Prod.fst).Nodup :=
    (filter_sublist.map Prod.fst).nodup m.nodup_keys
  rw [countP_eq_length_filter, ← length_map Prod.fst, ← toFinset_card_of_nodup hnodup, hset]

/-- The number of the interested. -/
def Choker.interestedCount (c : Choker) : ℕ := c.peers.count Slot.interested

theorem ids_candidates (c : Choker) :
    c.candidates.map Candidate.id = c.peers.entries.map Prod.fst := by
  simp [Choker.candidates, Function.comp_def]

theorem nodup_candidates (c : Choker) : (c.candidates.map Candidate.id).Nodup := by
  rw [ids_candidates]
  exact c.peers.nodup_keys

theorem interestedOf_subset (c : Choker) :
    interestedOf c.candidates ⊆ (c.peers.entries.map Prod.fst).toFinset := by
  rw [← ids_candidates]
  intro id hid
  exact mem_toFinset.2 ((filter_sublist.map _).subset (mem_toFinset.1 hid))

theorem card_interestedOf (c : Choker) : (interestedOf c.candidates).card = c.interestedCount := by
  have hnodup := (filter_sublist (p := fun p => p.interested) |>.map Candidate.id).nodup
    (nodup_candidates c)
  rw [interestedOf, toFinset_card_of_nodup hnodup, length_map,
    ← countP_eq_length_filter, Choker.candidates, countP_map]
  rfl

theorem mem_rechoke {slot : Slot} :
    (id, slot) ∈ c.rechoke.peers.entries ↔ ∃ old, (id, old) ∈ c.peers.entries ∧
      slot = ⟨old.interested,
        decide (id ∈ choose c.candidates c.slots c.rechoke.optimistic), 0, 0⟩ :=
  mem_mapValues

theorem isUnchoked_rechoke :
    c.rechoke.isUnchoked id = true ↔ id ∈ choose c.candidates c.slots c.rechoke.optimistic := by
  unfold Choker.isUnchoked
  rw [Option.any_eq_true]
  constructor
  · rintro ⟨slot, hslot, hunchoked⟩
    obtain ⟨old, -, rfl⟩ := mem_rechoke.1 (get_eq_some_iff.1 hslot)
    exact of_decide_eq_true hunchoked
  · intro hchosen
    have hkey := interestedOf_subset c (choose_subset hchosen)
    obtain ⟨x, hx, rfl⟩ := mem_map.1 (mem_toFinset.1 hkey)
    refine ⟨_, get_eq_some_iff.2 (mem_rechoke.2 ⟨x.2, hx, rfl⟩), ?_⟩
    exact decide_eq_true hchosen

theorem unchokedCount_rechoke :
    c.rechoke.unchokedCount = min c.slots c.rechoke.interestedCount := by
  have hinterested : c.rechoke.interestedCount = c.interestedCount := by
    unfold Choker.interestedCount OrderedMap.count Choker.rechoke mapValues
    rw [countP_map]
    rfl
  have hcount : c.rechoke.unchokedCount =
      (choose c.candidates c.slots c.rechoke.optimistic).card := by
    rw [← countP_mem_eq_card (choose_subset.trans (interestedOf_subset c))]
    unfold Choker.unchokedCount OrderedMap.count Choker.rechoke mapValues
    rw [countP_map]
    rfl
  rw [hcount, hinterested, card_choose (nodup_candidates c), card_interestedOf]

theorem interested_of_chosen {old : Slot} (hmem : (id, old) ∈ c.peers.entries)
    (hchosen : id ∈ choose c.candidates c.slots c.rechoke.optimistic) : old.interested = true := by
  obtain ⟨p, hp, hpid⟩ := mem_map.1 (mem_toFinset.1 (choose_subset hchosen))
  obtain ⟨hp, hinterested⟩ := mem_filter.1 hp
  obtain ⟨x, hx, rfl⟩ := mem_map.1 hp
  obtain rfl : x = (id, old) := inj_on_of_nodup_map c.peers.nodup_keys hx hmem hpid
  exact hinterested

section

variable (h : SlotsInv slots es c)

include h

theorem SlotsInv.rechoke : SlotsInv slots (es ++ [.rechoke]) c.rechoke where
  slots_eq := h.slots_eq
  held := by
    rw [unchokedCount_rechoke, ← h.slots_eq]
    exact min_le_left _ _
  registered id slot hmem := by
    obtain ⟨old, hmem, -⟩ := mem_rechoke.1 hmem
    exact (h.registered id old hmem).snoc nofun
  wants id slot hmem hslot := by
    obtain ⟨old, hold, rfl⟩ := mem_rechoke.1 hmem
    exact (h.wants id old hold hslot).snoc nofun
  unchoked id slot hmem hslot := by
    obtain ⟨old, hold, rfl⟩ := mem_rechoke.1 hmem
    have hinterested : old.interested = true := interested_of_chosen hold (of_decide_eq_true hslot)
    exact hinterested

theorem SlotsInv.register : SlotsInv slots (es ++ [.register c.nextId]) c.register.2 where
  slots_eq := h.slots_eq
  held := (count_insert_le rfl).trans h.held
  registered id slot hmem := by
    rcases mem_insert.1 hmem with heq | ⟨-, hmem⟩
    · cases heq
      exact hasHappened_last
    · exact (h.registered id slot hmem).snoc nofun
  wants id slot hmem hslot := by
    rcases mem_insert.1 hmem with heq | ⟨-, hmem⟩
    · cases heq
      cases hslot
    · exact (h.wants id slot hmem hslot).snoc nofun
  unchoked id slot hmem := by
    rcases mem_insert.1 hmem with heq | ⟨-, hmem⟩
    · cases heq
      nofun
    · exact h.unchoked id slot hmem

theorem SlotsInv.unregister : SlotsInv slots (es ++ [.unregister id]) (c.unregister id) where
  slots_eq := h.slots_eq
  held := count_erase_le.trans h.held
  registered other slot hmem := by
    obtain ⟨hne, hmem⟩ := mem_erase.1 hmem
    exact (h.registered other slot hmem).snoc fun heq => hne (ChokerEvent.unregister.inj heq).symm
  wants other slot hmem hslot := (h.wants other slot (mem_erase.1 hmem).2 hslot).snoc nofun
  unchoked other slot hmem := h.unchoked other slot (mem_erase.1 hmem).2

theorem SlotsInv.step (hstep : choking.step c e d) : SlotsInv slots (es ++ [e]) d := by
  cases e with
  | register id =>
    cases hstep
    exact h.register
  | unregister id =>
    obtain rfl := hstep
    exact h.unregister
  | setInterested id interested =>
    obtain rfl := hstep
    exact h.setInterested
  | grantIfFree id granted => exact h.grantIfFree hstep
  | recordUpload | recordDownload =>
    obtain rfl := hstep
    exact h.recount nofun nofun fun _ => ⟨rfl, rfl⟩
  | rechoke =>
    obtain rfl := hstep
    exact h.rechoke

end

theorem slotsInv_of_run (hrun : choking.Run (Choker.new slots) es c) : SlotsInv slots es c := by
  refine LTS.Run.history (I := SlotsInv slots) ?_ hrun ?_
  · exact fun _ _ _ _ h hstep => h.step hstep
  · exact ⟨rfl, Nat.zero_le _, nofun, nofun, nofun⟩

/-- **Over any run of the choker** no more peers are unchoked than there are
slots, each of them is registered and interested, and a round unchokes as
many as there are slots or interested peers, whichever is less: those that
`choose` names, in whatever order it is given the peers. -/
theorem unchoked_within_slots (hrun : choking.Run (Choker.new slots) es c) :
    c.unchokedCount ≤ slots ∧
    (∀ id, c.isUnchoked id = true → Registered es id ∧ Wants es id) ∧
    ∀ d, choking.step c .rechoke d →
      d.unchokedCount = min slots d.interestedCount ∧
      ∀ others, others.Perm c.candidates →
        ∀ id, d.isUnchoked id = true ↔ id ∈ choose others slots d.optimistic := by
  have h := slotsInv_of_run hrun
  refine ⟨h.held, fun id hunchoked => ?_, ?_⟩
  · obtain ⟨slot, hslot, hunchoked⟩ := (Option.any_eq_true ..).1 hunchoked
    have hmem := OrderedMap.get_eq_some_iff.1 hslot
    exact ⟨h.registered id slot hmem, h.wants id slot hmem (h.unchoked id slot hmem hunchoked)⟩
  · rintro d rfl
    refine ⟨?_, fun others hperm id => ?_⟩
    · rw [unchokedCount_rechoke, h.slots_eq]
    · rw [isUnchoked_rechoke, choose_eq_of_perm hperm, h.slots_eq]

theorem unchoked_within_slots_sample :
    ((Choker.new 2).register.2.register.2.setInterested 1 true).rechoke.unchokedCount = 1 := by
  have hrun : choking.Run (Choker.new 2)
      ([] ++ [.register 0] ++ [.register 1] ++ [.setInterested 1 true])
      ((Choker.new 2).register.2.register.2.setInterested 1 true) :=
    ((LTS.Run.nil.snoc rfl).snoc rfl).snoc rfl
  exact ((unchoked_within_slots hrun).2.2 _ rfl).1

section

variable {ranking : List Candidate} {a b : Candidate} {n : ℕ} {optimistic : Option PeerId}
  (hsorted : ranking.Pairwise Candidate.before) (hmem : b ∈ ranking)
  (hsame : ∀ p ∈ ranking, p.id = a.id → p = a)

include hsorted hmem hsame

theorem before_of_take (ha : a.id ∈ ((ranking.take n).map Candidate.id).toFinset)
    (hb : b.id ∉ ((ranking.take n).map Candidate.id).toFinset) : a.before b := by
  obtain ⟨p, hp, hid⟩ := mem_map.1 (mem_toFinset.1 ha)
  obtain rfl := hsame p (mem_of_mem_take hp) hid
  rw [← take_append_drop n ranking] at hmem hsorted
  have hrest := (mem_append.1 hmem).resolve_left fun h => hb (mem_toFinset.2 (mem_map_of_mem h))
  exact (pairwise_append.1 hsorted).2.2 p hp b hrest

theorem before_of_fillLast (hopt : optimistic ≠ some a.id)
    (ha : a.id ∈ fillLast ranking ((ranking.take n).map Candidate.id).toFinset optimistic)
    (hb : b.id ∉ fillLast ranking ((ranking.take n).map Candidate.id).toFinset optimistic) :
    a.before b := by
  unfold fillLast at ha hb
  split at ha
  · rename_i id hid
    rw [hid] at hb
    rw [Finset.mem_insert] at ha hb
    refine before_of_take hsorted hmem hsame (ha.resolve_left fun h => hopt ?_) fun h => hb (.inr h)
    rw [h, (Option.filter_eq_some_iff.1 hid).1]
  · rename_i hnone
    rw [hnone] at hb
    dsimp only at hb
    split at ha
    · rename_i next hnext
      rw [hnext] at hb
      rcases Finset.mem_insert.1 ha with hid | ha
      · -- The slot goes to the first that has none: all before it in the ranking have theirs.
        obtain ⟨-, front, back, hcut, hfront⟩ := find?_eq_some_iff_append.1 hnext
        obtain rfl := hsame next (hcut ▸ mem_append_cons_self) hid.symm
        rw [hcut] at hmem hsorted
        rcases mem_append.1 hmem with h | h
        · have hin : b.id ∈ ((ranking.take n).map Candidate.id).toFinset := by
            simpa using hfront b h
          exact absurd (Finset.mem_insert_of_mem hin) hb
        · rcases mem_cons.1 h with rfl | h
          · exact absurd (Finset.mem_insert_self _ _) hb
          · exact (pairwise_cons.1 (pairwise_append.1 hsorted).2.1).1 b h
      · exact before_of_take hsorted hmem hsame ha fun h => hb (Finset.mem_insert_of_mem h)
    · rename_i hnext
      rw [hnext] at hb
      exact before_of_take hsorted hmem hsame ha hb

end

/-- **Those that gave most are served**: of two that want data, one that a
rechoke unchokes comes before one that it leaves choked, unless it has the
optimistic slot. -/
theorem before_of_rechoke {a b : Candidate} (ha : a ∈ c.candidates) (hb : b ∈ c.candidates)
    (hwants : b.interested = true) (hserved : c.rechoke.isUnchoked a.id = true)
    (hchoked : c.rechoke.isUnchoked b.id = false) (hopt : c.rechoke.optimistic ≠ some a.id) :
    a.before b := by
  have hperm := ranked_perm c.candidates
  have hmem := hperm.mem_iff.2 (mem_filter.2 ⟨hb, hwants⟩)
  have hsame : ∀ p ∈ ranked c.candidates, p.id = a.id → p = a := fun p hp =>
    inj_on_of_nodup_map (nodup_candidates c) (mem_filter.1 (hperm.subset hp)).1 ha
  have hsorted : (ranked c.candidates).Pairwise Candidate.before := pairwise_insertionSort _ _
  rw [isUnchoked_rechoke, choose] at hserved
  rw [← Bool.not_eq_true, isUnchoked_rechoke, choose] at hchoked
  dsimp only at hserved hchoked
  generalize (if c.slots = 1 then 1 else c.slots - 1) = regular at *
  split_ifs at hserved hchoked
  · cases hserved
  · exact before_of_fillLast hsorted hmem hsame hopt hserved hchoked
  · exact before_of_take hsorted hmem hsame hserved hchoked

theorem before_of_rechoke_sample :
    let c := (((Choker.new 1).register.2.register.2.setInterested 0 true).setInterested 1
      true).recordDownload 1 5
    c.rechoke.isUnchoked 1 = true ∧ (⟨1, true, 0, 5⟩ : Candidate).before ⟨0, true, 0, 0⟩ :=
  ⟨by decide, before_of_rechoke (c := (((Choker.new 1).register.2.register.2.setInterested 0
    true).setInterested 1 true).recordDownload 1 5) (by decide) (by decide) rfl (by decide)
    (by decide) (by decide)⟩

end BitTorrent.Serving
