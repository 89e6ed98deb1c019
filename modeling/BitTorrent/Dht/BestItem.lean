import BitTorrent.Dht.Answers

/-!
# The item a lookup returns

`get_item` keeps the best of the items it is sent.
-/

namespace BitTorrent.Dht

open List Option

section Runs

variable [Digests] [Ed25519] {target : NodeId} {salt : Option (List UInt8)}
  {best : Option StoredItem} {r : Response}

/-- **An item verifies against a target**: it is the hash of the value, or
of the key and the salt, and the key has signed the value. -/
def StoredItem.Verifies (target : NodeId) (salt : Option (List UInt8)) (item : StoredItem) : Prop :=
  match item.mutable with
  | none => immutableTarget item.v.encode = target
  | some (k, seq, sig) =>
    mutableTarget k salt = target ∧ verifyMutable k salt seq item.v.encode sig = true

/-- **A response carries a mutable item that verifies**, with that sequence
number. -/
def Response.CarriesMutable (target : NodeId) (salt : Option (List UInt8)) (r : Response)
    (seq : Int64) : Prop :=
  ∃ v k sig, r.v = some v ∧ r.k = some k ∧ r.seq = some seq ∧ r.sig = some sig ∧
    StoredItem.Verifies target salt ⟨v, some (k, seq, sig)⟩

omit [Digests] [Ed25519] in
/-- The best item so far is mutable, and at least as new. -/
def AtLeast (seq : Int64) (best : Option StoredItem) : Prop :=
  ∃ item top, best = some item ∧ item.seq = some top ∧ seq ≤ top

theorem verifies_of_verifiedItem {item : StoredItem} (h : verifiedItem target salt r = some item) :
    item.Verifies target salt := by
  unfold verifiedItem at h
  generalize r.v = v, r.k = k, r.seq = seq, r.sig = sig at h
  cases v with
  | none => cases h
  | some v =>
    cases k with
    | none =>
      cases seq with
      | none =>
        cases sig with
        | none =>
          obtain ⟨htarget, hitem⟩ := ite_none_right_eq_some.1 h
          cases hitem
          exact htarget
        | some sig => cases h
      | some seq => cases h
    | some k =>
      cases seq with
      | none => cases h
      | some seq =>
        cases sig with
        | none => cases h
        | some sig =>
          obtain ⟨hverified, hitem⟩ := ite_none_right_eq_some.1 h
          cases hitem
          exact hverified

variable {seq : Int64}

theorem verifiedItem_of_carriesMutable (h : r.CarriesMutable target salt seq) :
    ∃ item, verifiedItem target salt r = some item ∧ item.seq = some seq := by
  obtain ⟨v, k, sig, hv, hk, hseq, hsig, hverified⟩ := h
  refine ⟨⟨v, some (k, seq, sig)⟩, ?_, rfl⟩
  unfold verifiedItem
  rw [hv, hk, hseq, hsig]
  exact if_pos hverified

variable (target salt r best) in
theorem takeItem_cases : takeItem target salt r best = best ∨
    ∃ item, verifiedItem target salt r = some item ∧ takeItem target salt r best = some item ∧
      ∀ current top, best = some current → current.seq = some top →
        ∃ seq, item.seq = some seq ∧ top < seq := by
  unfold takeItem
  split
  · exact .inl rfl
  · rename_i item hitem
    split
    · rename_i hbetter
      refine .inr ⟨item, hitem, rfl, ?_⟩
      rintro current top rfl htop
      unfold betterItem at hbetter
      dsimp only at hbetter
      split at hbetter
      · rename_i seq hseq
        rw [htop, all_some] at hbetter
        exact ⟨seq, hseq, of_decide_eq_true hbetter⟩
      · cases hbetter
    · exact .inl rfl

theorem AtLeast.takeItem (h : AtLeast seq best) : AtLeast seq (takeItem target salt r best) := by
  obtain ⟨current, top, rfl, htop, hle⟩ := h
  rcases takeItem_cases target salt (some current) r with
    hsame | ⟨item, -, htaken, hnewer⟩
  · rw [hsame]
    exact ⟨current, top, rfl, htop, hle⟩
  · obtain ⟨seq', hseq', hlt⟩ := hnewer current top rfl htop
    exact ⟨item, seq', htaken, hseq', Int64.le_trans hle (Int64.le_of_lt hlt)⟩

theorem atLeast_of_carriesMutable (h : r.CarriesMutable target salt seq) :
    AtLeast seq (takeItem target salt r best) := by
  obtain ⟨item, hitem, hseq⟩ := verifiedItem_of_carriesMutable h
  unfold takeItem
  rw [hitem]
  dsimp only
  split
  · exact ⟨item, seq, rfl, hseq, Int64.le_refl seq⟩
  · -- an item that is refused is no newer than the one that is kept
    rename_i hworse
    cases best with
    | none => exact absurd rfl hworse
    | some current =>
      rw [betterItem, hseq] at hworse
      cases htop : current.seq with
      | none => exact absurd (by rw [htop]; rfl) hworse
      | some top =>
        dsimp only at hworse
        rw [htop, all_some, decide_eq_true_iff] at hworse
        exact ⟨current, top, rfl, htop, Int64.not_lt.1 hworse⟩

theorem verifies_foldl (hs : List (Response × SocketAddr)) :
    ∀ item, hs.foldl (fun best h => takeItem target salt h.1 best) none = some item →
      item.Verifies target salt := by
  refine foldlRecOn hs _ (motive := fun best : Option StoredItem =>
    ∀ item, best = some item → item.Verifies target salt) nofun fun best hbest h _ item hitem => ?_
  rcases takeItem_cases target salt best h.1 with
    hsame | ⟨taken, hverified, htaken, -⟩
  · exact hbest item (hsame ▸ hitem)
  · obtain rfl := some_inj.1 (htaken.symm.trans hitem)
    exact verifies_of_verifiedItem hverified

theorem atLeast_foldl {hs : List (Response × SocketAddr)} {h : Response × SocketAddr}
    (hmem : h ∈ hs) (hcarries : h.1.CarriesMutable target salt seq) :
    AtLeast seq (hs.foldl (fun best h => takeItem target salt h.1 best) best) := by
  obtain ⟨before, after, rfl⟩ := append_of_mem hmem
  rw [foldl_append, foldl_cons]
  exact foldlRecOn after _ (motive := AtLeast seq) (atLeast_of_carriesMutable hcarries)
    fun _ hbest _ _ => hbest.takeItem

/-- **The item that `get_item` would return verifies against the target,
and no response under an id that was waited for carried a newer one.** -/
theorem item_verifies_and_newest {d : Dht} {es : List LookupEvent}
    {l : Looking (Option StoredItem)}
    (hrun : (looking (itemPurpose target salt)).Run (beginItem d target) es l) :
    (∀ item, l.search.found = some item → item.Verifies target salt) ∧
    ∀ t r source asked seq, .hears t r source (some asked) ∈ es →
      r.CarriesMutable target salt seq →
      ∃ item top, l.search.found = some item ∧ item.seq = some top ∧ seq ≤ top := by
  have htracked := tracked_of_run hrun rfl
  rw [htracked.found]
  refine ⟨verifies_foldl _, fun t r source asked seq hmem hcarries => ?_⟩
  have hanswer : (r, source) ∈ es.filterMap LookupEvent.answer :=
    mem_filterMap.2 ⟨_, hmem, rfl⟩
  exact atLeast_foldl hanswer hcarries

end Runs

/-! A lookup that two nodes answer with a mutable item. -/

/-- A response under a transaction id, with an item of a sequence number. -/
def sampleItemReply (t : UInt8) (seq : String) : List UInt8 :=
  key "d1:rd2:id20:aaaaaaaaaaaaaaaaaaaa1:k32:" ++ .replicate 32 0 ++ key "3:seqi" ++ key seq ++
    key "e3:sig64:" ++ .replicate 64 0 ++ key "1:v1:xe1:t2:" ++ [0, t] ++ key "1:y1:re"

/-- The number 5 comes first, and 3 after it: the item with the number 5
is kept. -/
theorem item_verifies_and_newest_sample :
    let _ := Digests.zero
    let _ := Ed25519.lax
    ∃ es l item top, (looking (itemPurpose (.replicate 20 0) none)).Run
        (beginItem sampleNode (.replicate 20 0)) es l ∧
      (es.filterMap LookupEvent.answer).map (fun a => a.1.seq) = [some 5, some 3] ∧
      l.search.found = some item ∧ item.Verifies (.replicate 20 0) none ∧
      item.seq = some top ∧ 5 ≤ top := by
  let _ := Digests.zero
  let _ := Ed25519.lax
  have hdrive : ∃ r ∈ LTS.drive (nextLooking (itemPurpose (.replicate 20 0) none) fun _ _ => true)
      (beginItem sampleNode (.replicate 20 0))
      [.silence, .datagram (sampleItemReply 1 "5") (sampleAddr 1), .silence,
        .datagram (sampleItemReply 2 "3") (sampleAddr 2)],
      (r.1.filterMap LookupEvent.answer).map (fun a => a.1.seq) = [some 5, some 3] ∧
      ∃ e ∈ r.1, ∃ a ∈ e.answer, ∃ v ∈ a.1.v, ∃ k ∈ a.1.k, ∃ sig ∈ a.1.sig, a.1.seq = some 5 ∧
        mutableTarget k none = .replicate 20 0 ∧ verifyMutable k none 5 v.encode sig = true := by
    decide +kernel
  obtain ⟨⟨es, l⟩, hdrive, hseqs, e, he, a, ha, v, hv, k, hk, sig, hsig, hseq, hverifies⟩ := hdrive
  have hrun := (LTS.run_of_drive
    (step_of_nextLooking (G := fun _ _ _ => True) fun _ _ _ _ => trivial) hdrive).of_restrict
  obtain ⟨hall, hnewest⟩ := item_verifies_and_newest hrun
  have hheard : ∃ t asked, e = .hears t a.1 a.2 (some asked) := by
    unfold LookupEvent.answer at ha
    split at ha <;> cases ha
    exact ⟨_, _, rfl⟩
  obtain ⟨t, asked, rfl⟩ := hheard
  obtain ⟨item, top, hfound, htop⟩ :=
    hnewest t a.1 a.2 asked 5 he ⟨v, k, sig, hv, hk, hseq, hsig, hverifies⟩
  exact ⟨es, l, item, top, hrun, hseqs, hfound, hall item hfound, htop⟩

end BitTorrent.Dht
