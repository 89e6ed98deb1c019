import BitTorrent.Dht.Store

/-!
# How long a stored item stays as it is

The store of `dht/store.rs` over whole runs of puts and gets, at times that do not decrease.
-/

namespace BitTorrent.Dht

open List Option

/-- The put that an accepted call made of an item under a key. -/
def StoreEvent.Puts (e : StoreEvent) (target : Hash20) : Prop := e.answer = .put (.ok target)

/-- A key that both kinds of put have reached. -/
def Mixed (es : List StoreEvent) (target : Hash20) : Prop :=
  (∃ e ∈ es, e.Puts target ∧ ∃ v, e.call = .putImmutable v) ∧
    ∃ e ∈ es, e.Puts target ∧ ∃ p, e.call = .putMutable p

/-- **Every item comes from a put** of its kind under its key. -/
def Attributed (es : List StoreEvent) (s : Store) : Prop :=
  ∀ target item, s.items.lookup target = some item →
    ∃ e ∈ es, e.Puts target ∧
      ((item.mutable = none ∧ ∃ v, e.call = .putImmutable v) ∨
        (item.mutable.isSome ∧ ∃ p, e.call = .putMutable p))

variable {s t : Store × ℕ} {st : Store} {e : StoreEvent} {es : List StoreEvent} {start now : ℕ}
  {call : StoreCall}

theorem StoreCall.item_kind {item : Item} (h : call.item now = some item) :
    (item.mutable = none ∧ ∃ v, call = .putImmutable v) ∨
      (item.mutable.isSome ∧ ∃ p, call = .putMutable p) := by
  cases call with
  | putImmutable v =>
    cases h
    exact .inl ⟨rfl, v, rfl⟩
  | putMutable p =>
    cases h
    exact .inr ⟨rfl, p, rfl⟩
  | get target => cases h

variable {items : AList fun _ : Hash20 => Item} {target other : Hash20}

theorem lookup_insert_cases
    {item new : Item} (h : (items.insert other new).lookup target = some item) :
    (target = other ∧ item = new) ∨ (target ≠ other ∧ items.lookup target = some item) := by
  by_cases heq : target = other
  · subst heq
    rw [AList.lookup_insert] at h
    exact .inl ⟨rfl, (some_inj.1 h).symm⟩
  · rw [AList.lookup_insert_ne heq] at h
    exact .inr ⟨heq, h⟩

variable {item : Item}

theorem current_insert_self (hnow : item.storedAt = now) :
    (Store.mk (items.insert target item)).current target now = some item := by
  have hfresh : item.fresh now = true := by
    simp [Item.fresh, hnow, itemLifetime]
  rw [Store.current, AList.lookup_insert, filter_some, if_pos hfresh]

theorem lookup_of_current (h : st.current target now = some item) :
    st.items.lookup target = some item :=
  (filter_eq_some_iff.1 h).1

theorem immutable_of_not_mixed {v : Bencode}
    (hs : Attributed es s.1) (hmixed : ¬ Mixed (es ++ [e]) target)
    (hitem : s.1.items.lookup target = some item) (hcall : e.call = .putImmutable v)
    (hputs : e.Puts target) : item.mutable = none := by
  obtain ⟨e', hmem, hputs', hkind⟩ := hs target item hitem
  rcases hkind with ⟨hnone, -⟩ | ⟨-, p, hp⟩
  · exact hnone
  · exact absurd ⟨⟨e, by simp, hputs, v, hcall⟩, e', by simp [hmem], hputs', p, hp⟩ hmixed

variable [Digests] [Ed25519]

theorem attributed_step (hs : Attributed es s.1) (h : storing.step s e t) :
    Attributed (es ++ [e]) t.1 := by
  have hold : ∀ target item, s.1.items.lookup target = some item →
      ∃ e' ∈ es ++ [e], e'.Puts target ∧ ((item.mutable = none ∧ ∃ v, e'.call = .putImmutable v) ∨
          (item.mutable.isSome ∧ ∃ p, e'.call = .putMutable p)) := by
    intro target item hitem
    obtain ⟨e', hmem, hrest⟩ := hs target item hitem
    exact ⟨e', mem_append_left _ hmem, hrest⟩
  intro target item hlookup
  obtain ⟨call, now, answer⟩ := e
  obtain ⟨st, last⟩ := t
  cases called_of_step h with
  | stored _ hitem =>
    rcases lookup_insert_cases hlookup with ⟨rfl, rfl⟩ | ⟨-, hlookup⟩
    · exact ⟨_, mem_append_right _ (mem_singleton_self _), rfl, StoreCall.item_kind hitem⟩
    · exact hold target item hlookup
  | full | refused | got => exact hold target item hlookup

theorem attributed_of_run (hrun : storing.Run (Store.new, start) es s) : Attributed es s.1 := by
  refine LTS.Run.history (I := fun es s => Attributed es s.1) ?_ hrun ?_
  · exact fun _ _ _ _ hs hstep => attributed_step hs hstep
  · intro target item hitem
    cases hitem

/-- **An item is kept, or gives way to a newer one**: there is still one
under its key, its number has not fallen, and if the value is another, the
call was a well-signed put with a greater number. -/
def Kept (s : Store) (e : StoreEvent) (target : Hash20) (item : Item) : Prop :=
  ∃ item', s.current target e.now = some item' ∧
    Store.currentSeq item ≤ Store.currentSeq item' ∧
    (item'.v = item.v ∨ ∃ p, e.call = .putMutable p ∧ mutableTarget p.k p.salt = target ∧
      verifyMutable p.k p.salt p.seq p.v.encode p.sig = true ∧
      Store.currentSeq item < p.seq ∧ item' = p.item e.now)

/-- **A put that does not pass a different value for the same item**: where
it would be accepted over the item that is there, a mutable put with the
item's own number has the item's own value, and so has an immutable put. -/
def StoreCall.Renews (target : Hash20) (item : Item) : StoreCall → Prop
  | .putImmutable v => immutableTarget v.encode = target → v.encode.length ≤ maxValueLen →
      v = item.v
  | .putMutable p => mutableTarget p.k p.salt = target → p.wellSigned = true →
      p.passes item = true → p.seq = Store.currentSeq item → p.v = item.v
  | .get _ => True

theorem kept_of_current (h : st.current target e.now = some item) : Kept st e target item :=
  ⟨item, h, Int64.le_refl _, .inl rfl⟩

theorem kept_of_ne {new : Item} (hne : other ≠ target)
    (hitem : st.current target e.now = some item) :
    Kept ⟨st.items.insert other new⟩ e target item :=
  kept_of_current (by rwa [Store.current, AList.lookup_insert_ne hne.symm])

theorem kept_immutable_iff {v : Bencode}
    (hcall : e.call = .putImmutable v) (hlen : v.encode.length ≤ maxValueLen)
    (hnone : item.mutable = none) :
    Kept ⟨st.items.insert (immutableTarget v.encode) ⟨v, none, e.now⟩⟩ e
        (immutableTarget v.encode) item ↔
      e.call.Renews (immutableTarget v.encode) item := by
  have hseq : Store.currentSeq item = Int64.minValue := by
    rw [Store.currentSeq, hnone]
    rfl
  rw [Kept, hcall, current_insert_self rfl]
  simp [StoreCall.Renews, hlen, hseq]

theorem kept_mutable_iff {p : MutablePut}
    (hcall : e.call = .putMutable p) (hwell : p.wellSigned = true) (hpass : p.passes item = true) :
    Kept ⟨st.items.insert (mutableTarget p.k p.salt) (p.item e.now)⟩ e
        (mutableTarget p.k p.salt) item ↔
      e.call.Renews (mutableTarget p.k p.salt) item := by
  have hle : Store.currentSeq item ≤ p.seq := of_decide_eq_true (Bool.and_eq_true_iff.1 hpass).2
  have hverify : verifyMutable p.k p.salt p.seq p.v.encode p.sig = true :=
    (Bool.and_eq_true_iff.1 hwell).2
  have hself : (Store.mk (st.items.insert (mutableTarget p.k p.salt) (p.item e.now))).current
      (mutableTarget p.k p.salt) e.now = some (p.item e.now) := current_insert_self rfl
  rw [hcall, StoreCall.Renews]
  constructor
  · rintro ⟨item', hitem', -, hvalue⟩ - - - hseq
    obtain rfl := some_inj.1 (hself.symm.trans hitem')
    rcases hvalue with hvalue | ⟨q, hq, -, -, hlt, -⟩
    · exact hvalue
    · rw [hcall] at hq
      cases hq
      exact absurd hseq (Int64.ne_of_lt hlt).symm
  · intro hrenews
    refine ⟨p.item e.now, hself, hle, ?_⟩
    by_cases hseq : p.seq = Store.currentSeq item
    · exact .inl (hrenews rfl hwell hpass hseq)
    · exact .inr ⟨p, hcall, rfl, hverify, Int64.lt_of_le_of_ne hle (Ne.symm hseq), rfl⟩

theorem renews_of_refused (hrefused : call.Acceptable → call.Renewing st now → ¬ call.Passes st now)
    (hitem : st.current target now = some item) : call.Renews target item := by
  cases call with
  | putImmutable v =>
    rintro rfl hlen
    have hthere : immutableTarget v.encode ∈ st.items :=
      AList.lookup_isSome.1 (by rw [lookup_of_current hitem]; rfl)
    exact absurd trivial (hrefused hlen hthere)
  | putMutable p =>
    rintro rfl hwell hpass
    refine absurd (fun other hother => ?_) (hrefused hwell (isSome_of_eq_some hitem))
    obtain rfl := some_inj.1 (hitem.symm.trans hother)
    exact hpass
  | get target => exact trivial

/-- **Each step of each run keeps an item that has not expired, or replaces
it by a newer one, exactly where the call does not pass a different value
for the same item.** A put that is refused changes nothing. -/
theorem kept_iff_renews (hrun : storing.Run (Store.new, start) es s) (hstep : storing.step s e t) :
    (∀ err, e.answer = .put (.error err) → t.1 = s.1) ∧
    ∀ target item, ¬ Mixed (es ++ [e]) target → s.1.current target e.now = some item →
      (Kept t.1 e target item ↔ e.call.Renews target item) := by
  obtain ⟨call, now, answer⟩ := e
  obtain ⟨st, last⟩ := t
  cases called_of_step hstep with
  | stored hkey hput hacceptable hpasses =>
    refine ⟨nofun, fun target item hmixed hitem => ?_⟩
    cases call with
    | putImmutable v =>
      cases hkey
      cases hput
      by_cases htarget : immutableTarget v.encode = target
      · subst htarget
        exact kept_immutable_iff rfl hacceptable (immutable_of_not_mixed (attributed_of_run hrun)
          hmixed (lookup_of_current hitem) rfl rfl)
      · exact iff_of_true (kept_of_ne htarget hitem) fun h => absurd h htarget
    | putMutable p =>
      cases hkey
      cases hput
      by_cases htarget : mutableTarget p.k p.salt = target
      · subst htarget
        exact kept_mutable_iff rfl hacceptable (hpasses item hitem)
      · exact iff_of_true (kept_of_ne htarget hitem) fun h => absurd h htarget
    | get target => cases hkey
  | full _ hrenewing =>
    refine ⟨fun _ _ => rfl, fun target item _ hitem => iff_of_true (kept_of_current hitem) ?_⟩
    exact renews_of_refused (fun _ h => absurd h hrenewing) hitem
  | refused _ hrefused =>
    refine ⟨fun _ _ => rfl, fun target item _ hitem => iff_of_true (kept_of_current hitem) ?_⟩
    exact renews_of_refused (fun h _ => (hrefused h).2) hitem
  | got hcall =>
    refine ⟨fun _ _ => rfl, fun target item _ hitem => iff_of_true (kept_of_current hitem) ?_⟩
    subst hcall
    exact trivial

/-- A call as it happens: the event it makes and the state after it. -/
def Store.happens (s : Store) (now : ℕ) (call : StoreCall) : StoreEvent × Store :=
  (⟨call, now, (s.call now call).1⟩, (s.call now call).2)

theorem step_happens (st : Store) {before : ℕ} (hnow : before ≤ now) (call : StoreCall) :
    storing.step (st, before) (st.happens now call).1 ((st.happens now call).2, now) :=
  ⟨hnow, rfl, rfl⟩

/-- A mutable put under a key of zeros, with a number and a value. -/
def samplePut (seq value : Int64) : MutablePut :=
  ⟨.replicate 32 0, none, seq, .replicate 64 0, .int value, none⟩

/-- The store after one put, of the value 5 under the number 1. -/
def sampleStore : StoreEvent × Store := Store.new.happens 0 (.putMutable (samplePut 1 5))

omit [Digests] [Ed25519] in
theorem kept_iff_renews_sample :
    let _ := Digests.zero
    let _ := Ed25519.lax
    ∃ item, sampleStore.2.current (.replicate 20 0) 0 = some item ∧
      Kept (sampleStore.2.happens 7 (.putMutable (samplePut 2 6))).2
        (sampleStore.2.happens 7 (.putMutable (samplePut 2 6))).1 (.replicate 20 0) item := by
  intro _ _
  have hrun : storing.Run (Store.new, 0) ([] ++ [sampleStore.1]) (sampleStore.2, 0) :=
    LTS.Run.nil.snoc (step_happens _ le_rfl _)
  have hstep := step_happens sampleStore.2 (Nat.zero_le 7) (.putMutable (samplePut 2 6))
  have hmixed : ¬ Mixed ([] ++ [sampleStore.1] ++
      [(sampleStore.2.happens 7 (.putMutable (samplePut 2 6))).1]) (.replicate 20 0) := by
    rintro ⟨⟨e, he, -, v, hv⟩, -⟩
    simp only [nil_append, cons_append, mem_cons, not_mem_nil, or_false] at he
    rcases he with rfl | rfl <;> cases hv
  refine ⟨(samplePut 1 5).item 0, rfl, ?_⟩
  refine ((kept_iff_renews hrun hstep).2 _ _ hmixed rfl).2 ?_
  intro _ _ _ hseq
  exact absurd hseq (by decide)

omit [Digests] [Ed25519] in
/-- **A value gives way to another with its own number**: the second put
has the number of the first and another value, and is stored. -/
theorem value_replaced :
    let _ := Digests.zero
    let _ := Ed25519.lax
    ∃ es s e t target item, storing.Run (Store.new, 0) es s ∧ storing.step s e t ∧
      ¬ Mixed (es ++ [e]) target ∧ s.1.current target e.now = some item ∧
      ¬ Kept t.1 e target item := by
  intro _ _
  refine ⟨[] ++ [sampleStore.1], (sampleStore.2, 0), _, _, .replicate 20 0,
    (samplePut 1 5).item 0, LTS.Run.nil.snoc (step_happens _ le_rfl _),
    step_happens _ (Nat.zero_le 7) (.putMutable (samplePut 1 6)), ?_, rfl, ?_⟩
  · rintro ⟨⟨e, he, -, v, hv⟩, -⟩
    simp only [nil_append, cons_append, mem_cons, not_mem_nil, or_false] at he
    rcases he with rfl | rfl <;> cases hv
  · rintro ⟨item, hitem, -, hvalue⟩
    obtain rfl : (samplePut 1 6).item 7 = item := some_inj.1 hitem
    rcases hvalue with hvalue | ⟨p, hp, -, -, hlt, -⟩
    · exact absurd (Bencode.int.inj hvalue) (by decide)
    · cases hp
      exact absurd hlt (by decide)

end BitTorrent.Dht
