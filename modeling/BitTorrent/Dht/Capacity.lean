import BitTorrent.Common.BigEndian
import BitTorrent.Dht.Store

/-!
# When the store is full

`put_immutable` and `put_mutable` compare what is *physically* stored with `MAX_STORED_ITEMS`, and
nothing takes an expired item out.
-/

namespace BitTorrent.Dht

open List Option

section Runs

variable [Digests] [Ed25519] {s t : Store × ℕ} {e : StoreEvent} {es : List StoreEvent}
  {st : Store} {now start : ℕ}

/-- The items that have not expired. -/
def Store.live (s : Store) (now : ℕ) : List (Sigma fun _ : Hash20 => Item) :=
  s.items.entries.filter fun entry => entry.2.fresh now

variable {call : StoreCall}

theorem storeFull_iff {answer : StoreAnswer} {after : Store}
    (h : st.Called now call (answer, after)) : answer = .put (.error .storeFull) ↔
      call.Acceptable ∧ ¬ call.Renewing st now ∧ maxStoredItems ≤ st.items.entries.length := by
  cases h with
  | stored _ _ _ _ hroom =>
    refine iff_of_false nofun fun h => ?_
    exact hroom.elim h.2.1 fun hroom => absurd h.2.2 (Nat.not_le.2 hroom)
  | full hacceptable hrenewing hfull => exact iff_of_true rfl ⟨hacceptable, hrenewing, hfull⟩
  | refused he hrefused =>
    refine iff_of_false (fun h => ?_) fun h => h.2.1 (hrefused h.1).1
    cases h
    exact he rfl
  | got hcall =>
    subst hcall
    exact iff_of_false nofun fun h => h.1

variable {target : Hash20}

omit [Ed25519] in
theorem mem_of_renewing (hkey : call.key = some target)
    (h : call.Renewing st now) : target ∈ st.items := by
  cases call with
  | putImmutable v => exact some_inj.1 hkey ▸ h
  | putMutable p =>
    obtain ⟨item, hitem⟩ := isSome_iff_exists.1 h
    rw [← AList.lookup_isSome, ← some_inj.1 hkey, (filter_eq_some_iff.1 hitem).1]
    rfl
  | get target => cases hkey

variable {items : AList fun _ : Hash20 => Item}

omit [Digests] [Ed25519] in
theorem length_insert_of_mem {item : Item} (h : target ∈ items) :
    (items.insert target item).entries.length = items.entries.length := by
  obtain ⟨old, before, after, -, hentries, herased⟩ := exists_of_kerase h
  rw [AList.entries_insert, herased, hentries]
  simp only [length_cons, length_append]
  omega

omit [Digests] [Ed25519] in
theorem length_insert_le {item : Item} :
    (items.insert target item).entries.length ≤ items.entries.length + 1 := by
  by_cases hmem : target ∈ items
  · rw [length_insert_of_mem hmem]
    exact Nat.le_succ _
  · rw [AList.entries_insert_of_notMem hmem]
    exact le_rfl

theorem length_le_of_run (hrun : storing.Run (Store.new, start) es s) :
    s.1.items.entries.length ≤ maxStoredItems := by
  refine LTS.Run.invariant (I := fun s => s.1.items.entries.length ≤ maxStoredItems) ?_ hrun ?_
  · rintro s ⟨call, now, answer⟩ ⟨after, last⟩ hs hstep
    cases called_of_step hstep with
    | stored hkey _ _ _ hroom =>
      rcases hroom with hthere | hroom
      · exact (length_insert_of_mem (mem_of_renewing hkey hthere)).trans_le hs
      · exact length_insert_le.trans hroom
    | full | refused | got => exact hs
  · exact Nat.zero_le _

/-- **A put is refused as `StoreFull` only where the store is full**: it
holds its limit of items that have not expired, and the key is not among
them. -/
def FullWhenRefused (s : Store) (e : StoreEvent) : Prop :=
  e.answer = .put (.error .storeFull) →
    (s.live e.now).length = maxStoredItems ∧ ∀ entry ∈ s.live e.now, e.call.key ≠ some entry.1

/-- **Nothing that has expired is in the way**: the put fails by itself, or
renews an item, or there is room, or no item has expired. -/
def Unhindered (s : Store) (e : StoreEvent) : Prop :=
  e.call.Acceptable → ¬ e.call.Renewing s e.now → maxStoredItems ≤ s.items.entries.length →
    ∀ entry ∈ s.items.entries, entry.2.fresh e.now = true

omit [Ed25519] in
theorem key_ne_of_not_renewing (hrenewing : ¬ call.Renewing st now)
    {entry : Sigma fun _ : Hash20 => Item} (hentry : entry ∈ st.live now) :
    call.key ≠ some entry.1 := by
  obtain ⟨hentry, hfresh⟩ := mem_filter.1 hentry
  have hlookup : st.items.lookup entry.1 = some entry.2 := AList.mem_lookup_iff.2 hentry
  intro hkey
  cases call with
  | putImmutable v =>
    obtain hkey := some_inj.1 hkey
    refine hrenewing (AList.lookup_isSome.1 ?_)
    rw [hkey, hlookup]
    rfl
  | putMutable p =>
    obtain hkey := some_inj.1 hkey
    refine hrenewing ?_
    rw [StoreCall.Renewing, hkey, Store.current, hlookup, filter_some, if_pos hfresh]
    rfl
  | get target => cases hkey

/-- **Each refusal of each run means that the store is full exactly where no
expired item is in the way of the put.** -/
theorem fullWhenRefused_iff (hrun : storing.Run (Store.new, start) es s)
    (hstep : storing.step s e t) : FullWhenRefused s.1 e ↔ Unhindered s.1 e := by
  have hlength := length_le_of_run hrun
  unfold FullWhenRefused Unhindered
  rw [storeFull_iff (called_of_step hstep)]
  constructor
  · intro hfull hacceptable hrenewing hlimit
    have hlive := (hfull ⟨hacceptable, hrenewing, hlimit⟩).1
    refine length_filter_eq_length_iff.1 (hlive.trans ?_)
    exact le_antisymm hlimit hlength
  · rintro hfresh ⟨hacceptable, hrenewing, hlimit⟩
    have hlive : s.1.live e.now = s.1.items.entries :=
      filter_eq_self.2 (hfresh hacceptable hrenewing hlimit)
    refine ⟨?_, fun entry hentry => key_ne_of_not_renewing hrenewing hentry⟩
    rw [hlive]
    exact le_antisymm hlength hlimit

end Runs

/-- The two bytes of a number, as a value. -/
def numbered (n : ℕ) : Bencode := .bytes (be16Bytes (.ofNat n))

/-- The key of a numbered value. -/
def numberedKey (n : ℕ) : Hash20 := @immutableTarget .spread (numbered n).encode

theorem encode_numbered (n : ℕ) : (numbered n).encode = [50, 58] ++ be16Bytes (.ofNat n) := by
  have hnumeral : Decimal.numeral 2 = [50] := by decide +kernel
  rw [numbered, Bencode.encode, Bencode.encodeBytes]
  change Decimal.numeral 2 ++ _ = _
  rw [hnumeral]
  rfl

variable {n : ℕ}

theorem read_numberedKey (n : ℕ) : be16 (numberedKey n).toList 2 = UInt16.ofNat n := by
  rw [numberedKey, encode_numbered]
  exact be16_append [50, 58] (.ofNat n) (replicate 16 0)

/-- The store that the first numbered values fill at time 0. -/
def filled : ℕ → Store
  | 0 => .new
  | n + 1 => ⟨(filled n).items.insert (numberedKey n) ⟨numbered n, none, 0⟩⟩

theorem read_lt_of_mem_filled {target : Hash20} (h : target ∈ (filled n).items) :
    (be16 target.toList 2).toNat < n := by
  induction n with
  | zero => exact absurd h (AList.notMem_empty _)
  | succ n ih =>
    rcases (AList.mem_insert _).1 h with rfl | h
    · rw [read_numberedKey]
      exact Nat.lt_succ_of_le (Nat.mod_le _ _)
    · exact (ih h).trans n.lt_succ_self

theorem numberedKey_notMem_filled (hn : n ≤ maxStoredItems) : numberedKey n ∉ (filled n).items := by
  intro h
  have hlimit : maxStoredItems < 65536 := by decide
  have hread := read_lt_of_mem_filled h
  rw [read_numberedKey, UInt16.toNat_ofNat_of_lt' (hn.trans_lt hlimit)] at hread
  exact hread.false

theorem entries_filled (hn : n ≤ maxStoredItems) : (filled n).items.entries.length = n ∧
      ∀ entry ∈ (filled n).items.entries, entry.2.storedAt = 0 := by
  induction n with
  | zero => exact ⟨rfl, nofun⟩
  | succ n ih =>
    obtain ⟨hlength, hstored⟩ := ih (by omega)
    rw [filled, AList.entries_insert_of_notMem (numberedKey_notMem_filled (by omega))]
    refine ⟨congrArg (· + 1) hlength, ?_⟩
    rintro entry (_ | ⟨_, hentry⟩)
    · rfl
    · exact hstored entry hentry

/-- The put of a numbered value, and its answer. -/
def numberedPut (n now : ℕ) (result : Except PutError Hash20) : StoreEvent :=
  ⟨.putImmutable (numbered n), now, .put result⟩

theorem length_numbered (n : ℕ) : (numbered n).encode.length ≤ maxValueLen := by
  rw [encode_numbered]
  change 4 ≤ 1000
  decide

theorem filled_run (hn : n ≤ maxStoredItems) :
    ∃ es, (@storing .spread .lax).Run (Store.new, 0) es (filled n, 0) := by
  induction n with
  | zero => exact ⟨[], .nil⟩
  | succ n ih =>
    let _ := Digests.spread
    obtain ⟨es, hrun⟩ := ih (by omega)
    refine ⟨es ++ [numberedPut n 0 (.ok (numberedKey n))], hrun.snoc ⟨le_rfl, ?_, rfl⟩⟩
    have hroom : ¬ (immutableTarget (numbered n).encode ∉ (filled n).items ∧
        maxStoredItems ≤ (filled n).items.entries.length) := by
      rw [(entries_filled (by omega)).1]
      omega
    simp only [numberedPut, Store.call, Store.putImmutable,
      if_neg (Nat.not_lt.2 (length_numbered n)), if_neg hroom]
    rfl

theorem filled_refuses (now : ℕ) : (@storing .spread .lax).step (filled maxStoredItems, 0)
      (numberedPut maxStoredItems now (.error .storeFull)) (filled maxStoredItems, now) := by
  let _ := Digests.spread
  have hfull : immutableTarget (numbered maxStoredItems).encode ∉ (filled maxStoredItems).items ∧
      maxStoredItems ≤ (filled maxStoredItems).items.entries.length :=
    ⟨numberedKey_notMem_filled le_rfl, (entries_filled le_rfl).1.ge⟩
  refine ⟨Nat.zero_le _, ?_, rfl⟩
  simp only [numberedPut, Store.call, Store.putImmutable,
    if_neg (Nat.not_lt.2 (length_numbered _)), if_pos hfull]

theorem fullWhenRefused_iff_sample :
    @FullWhenRefused .spread (filled maxStoredItems)
      (numberedPut maxStoredItems 7 (.error .storeFull)) := by
  obtain ⟨es, hrun⟩ := filled_run le_rfl
  refine (@fullWhenRefused_iff .spread .lax _ _ _ _ _ hrun (filled_refuses 7)).2 ?_
  intro _ _ _ entry hentry
  rw [Item.fresh, (entries_filled le_rfl).2 entry hentry]
  decide

/-- **A put is refused by a store without one item that has not expired**:
two hours after it was filled, the store has nothing to return and no
room. -/
theorem refused_by_expired :
    let _ := Digests.spread
    let _ := Ed25519.lax
    ∃ es s e t, storing.Run (Store.new, 0) es s ∧ storing.step s e t ∧
      s.1.live e.now = [] ∧ e.call.Acceptable ∧ ¬ FullWhenRefused s.1 e := by
  intro _ _
  obtain ⟨es, hrun⟩ := filled_run le_rfl
  have hnone : (filled maxStoredItems).live itemLifetime = [] := by
    refine filter_eq_nil_iff.2 fun entry hentry => ?_
    rw [Item.fresh, (entries_filled le_rfl).2 entry hentry]
    decide
  refine ⟨es, _, _, _, hrun, filled_refuses itemLifetime, hnone, length_numbered _, fun h => ?_⟩
  have hlive := (h rfl).1
  rw [show (numberedPut maxStoredItems itemLifetime (.error .storeFull)).now = itemLifetime
    from rfl, hnone] at hlive
  cases hlive

end BitTorrent.Dht
