import BitTorrent.Bencode.Canonical

/-!
# Dicts that are built, and the lenient decoder

What is sent is built by inserting entries into a `BTreeMap`.
-/

namespace BitTorrent.Bencode

open List

variable {n : ℕ} {k l : List UInt8} {v : Bencode} {es : Entries}

/-- `BTreeMap::insert`. -/
def insertEntry (key : List UInt8) (value : Bencode) : Entries → Entries
  | [] => [(key, value)]
  | (k, v) :: es =>
    if key < k then (key, value) :: (k, v) :: es
    else if key = k then (key, value) :: es
    else (k, v) :: insertEntry key value es

/-- An `insert` of what there may be. -/
def insertSome (key : List UInt8) (value : Option Bencode) (es : Entries) :
    Entries :=
  match value with
  | some value => insertEntry key value es
  | none => es

theorem lookup_cons (k l : List UInt8) (v : Bencode) (es : Entries) :
    ((k, v) :: es).lookup l = if l = k then some v else es.lookup l := by
  rw [List.lookup_cons]
  by_cases h : l = k
  · simp [h]
  · simp [h, beq_eq_false_iff_ne.2 h]

theorem lookup_insertEntry (k l : List UInt8) (v : Bencode) (es : Entries) :
    (insertEntry k v es).lookup l = if l = k then some v else es.lookup l := by
  induction es with
  | nil => exact lookup_cons k l v []
  | cons e es ih =>
    obtain ⟨k', v'⟩ := e
    rw [insertEntry]
    split
    · exact lookup_cons k l v _
    · split
      · rename_i heq
        subst heq
        rw [lookup_cons, lookup_cons]
        split <;> rfl
      · rename_i hne
        rw [lookup_cons, lookup_cons, ih]
        by_cases hl : l = k'
        · rw [if_pos hl, if_pos hl, if_neg (fun h => hne (h.symm.trans hl))]
        · rw [if_neg hl, if_neg hl]

theorem lookup_insertSome (k l : List UInt8) (o : Option Bencode) (es : Entries) :
    (insertSome k o es).lookup l = if l = k then o.or (es.lookup l) else es.lookup l := by
  cases o with
  | none => simp [insertSome]
  | some v => exact lookup_insertEntry k l v es

/-- **A dict of the source** whose values are nested so deep at most. -/
structure IsDict (n : ℕ) (es : Entries) : Prop where
  increasing : (es.map Prod.fst).Pairwise (· < ·)
  ordered : OrderedEntries es
  depth_le : depthEntries es ≤ n

theorem IsDict.nil : IsDict n [] := ⟨.nil, trivial, Nat.zero_le n⟩

theorem IsDict.of_cons (h : IsDict n ((k, v) :: es)) :
    IsDict n es ∧ (∀ e ∈ es, k < e.1) ∧ v.Ordered ∧ v.depth ≤ n := by
  obtain ⟨hincreasing, hordered, hdepth⟩ := h
  rw [map_cons, pairwise_cons] at hincreasing
  rw [depthEntries] at hdepth
  exact ⟨⟨hincreasing.2, hordered.2, (le_max_right ..).trans hdepth⟩,
    fun e he => hincreasing.1 _ (mem_map_of_mem he), hordered.1,
    (le_max_left ..).trans hdepth⟩

theorem fst_of_mem_insertEntry {e : List UInt8 × Bencode} (h : e ∈ insertEntry k v es) :
    e.1 = k ∨ e ∈ es := by
  induction es with
  | nil =>
    obtain rfl := mem_singleton.1 h
    exact .inl rfl
  | cons e' es ih =>
    rw [insertEntry] at h
    split at h
    · rcases mem_cons.1 h with rfl | h
      · exact .inl rfl
      · exact .inr h
    · split at h
      · rcases mem_cons.1 h with rfl | h
        · exact .inl rfl
        · exact .inr (mem_cons_of_mem _ h)
      · rcases mem_cons.1 h with rfl | h
        · exact .inr mem_cons_self
        · exact (ih h).imp_right (mem_cons_of_mem _)

theorem lookup_of_lt (hk : ∀ e ∈ es, k < e.1) : es.lookup k = none := by
  rw [lookup_eq_none_iff]
  intro e he
  rw [bne_iff_ne]
  intro heq
  exact List.lt_irrefl _ (heq ▸ hk e he)

section

variable (h : IsDict n es)

include h

theorem IsDict.cons (hk : ∀ e ∈ es, k < e.1) (hord : v.Ordered) (hdepth : v.depth ≤ n) :
    IsDict n ((k, v) :: es) := by
  refine ⟨?_, ⟨hord, h.ordered⟩, max_le hdepth h.depth_le⟩
  rw [map_cons, pairwise_cons]
  refine ⟨fun l hl => ?_, h.increasing⟩
  obtain ⟨e, he, rfl⟩ := mem_map.1 hl
  exact hk e he

theorem IsDict.insertEntry (hord : v.Ordered) (hdepth : v.depth ≤ n) :
    IsDict n (insertEntry k v es) := by
  induction es with
  | nil => exact IsDict.nil.cons nofun hord hdepth
  | cons e es ih =>
    obtain ⟨k', v'⟩ := e
    obtain ⟨hes, habove, hord', hdepth'⟩ := h.of_cons
    rw [Bencode.insertEntry]
    split
    · rename_i hlt
      refine h.cons (fun e he => ?_) hord hdepth
      rcases mem_cons.1 he with rfl | he
      · exact hlt
      · exact List.lt_trans hlt (habove e he)
    · rename_i hnlt
      split
      · rename_i heq
        subst heq
        exact hes.cons habove hord hdepth
      · rename_i hne
        refine (ih hes).cons (fun e he => ?_) hord' hdepth'
        rcases fst_of_mem_insertEntry he with heq | he
        · rw [heq]
          by_contra hge
          exact hne (List.le_antisymm (List.not_lt.1 hge) (List.not_lt.1 hnlt))
        · exact habove e he

theorem IsDict.insertSome {o : Option Bencode} (ho : ∀ v ∈ o, v.Ordered ∧ v.depth ≤ n) :
    IsDict n (insertSome k o es) := by
  cases o with
  | none => exact h
  | some v => exact h.insertEntry (ho v rfl).1 (ho v rfl).2

theorem IsDict.insertBytes {b : List UInt8} : IsDict n (Bencode.insertEntry k (.bytes b) es) :=
  h.insertEntry trivial (Nat.zero_le n)

theorem IsDict.insertInt {i : Int64} : IsDict n (Bencode.insertEntry k (.int i) es) :=
  h.insertEntry trivial (Nat.zero_le n)

theorem IsDict.insertSomeBytes {α : Type} {o : Option α} {f : α → List UInt8} :
    IsDict n (Bencode.insertSome k (o.map fun a => .bytes (f a)) es) := by
  cases o with
  | none => exact h
  | some a => exact h.insertBytes

theorem IsDict.insertSomeInt {o : Option Int64} :
    IsDict n (Bencode.insertSome k (o.map .int) es) := by
  cases o with
  | none => exact h
  | some i => exact h.insertInt

theorem IsDict.ordered_dict : (dict es).Ordered := ⟨h.increasing, h.ordered⟩

theorem IsDict.depth_dict : (dict es).depth ≤ n + 1 := Nat.succ_le_succ h.depth_le

/-- `or_insert` inserts where the key has no entry. -/
theorem IsDict.orInsert_eq :
    orInsert k v es = if (es.lookup k).isSome then es else Bencode.insertEntry k v es := by
  induction es with
  | nil => rfl
  | cons e es ih =>
    obtain ⟨k', v'⟩ := e
    obtain ⟨hes, habove, -⟩ := h.of_cons
    rw [orInsert, Bencode.insertEntry]
    by_cases hlt : k < k'
    · have hnone : ((k', v') :: es).lookup k = none := by
        apply lookup_of_lt
        intro e he
        rcases mem_cons.1 he with rfl | he
        · exact hlt
        · exact List.lt_trans hlt (habove e he)
      simp [hlt, hnone]
    · rw [if_neg hlt, if_neg hlt, ih hes, lookup_cons]
      by_cases heq : k = k'
      · simp [heq]
      · rw [if_neg heq, if_neg heq, if_neg heq]
        split <;> rfl

end

theorem length_encodeEntries_insertEntry_le (k : List UInt8) (v : Bencode) (es : Entries) :
    (encodeEntries (insertEntry k v es)).length ≤
      (encodeEntries [(k, v)]).length + (encodeEntries es).length := by
  induction es with
  | nil => simp [insertEntry, encodeEntries]
  | cons e es ih =>
    simp only [encodeEntries, length_append, length_nil] at ih
    rw [insertEntry]
    split_ifs <;> simp only [encodeEntries, length_append, length_nil] <;> omega

mutual

theorem kept_spec : ∀ w : Bencode, w.kept.Ordered ∧ w.kept.depth ≤ w.depth ∧
    (encode w.kept).length ≤ (encode w).length
  | int _ | bytes _ => ⟨trivial, le_rfl, le_rfl⟩
  | list ws => by
    obtain ⟨hord, hdepth, hlength⟩ := keptItems_spec ws
    refine ⟨hord, Nat.succ_le_succ hdepth, ?_⟩
    simpa [kept, encode] using hlength
  | dict es => by
    obtain ⟨hdict, hlength, -⟩ := keptEntries_spec IsDict.nil es le_rfl
    refine ⟨hdict.ordered_dict, hdict.depth_dict, ?_⟩
    simpa [kept, encode, encodeEntries] using hlength

theorem keptItems_spec : ∀ ws : List Bencode, OrderedItems (keptItems ws) ∧
    depthItems (keptItems ws) ≤ depthItems ws ∧
    (encodeItems (keptItems ws)).length ≤ (encodeItems ws).length
  | [] => ⟨trivial, le_rfl, le_rfl⟩
  | w :: ws => by
    obtain ⟨hord, hdepth, hlength⟩ := kept_spec w
    obtain ⟨hords, hdepths, hlengths⟩ := keptItems_spec ws
    refine ⟨⟨hord, hords⟩, max_le_max hdepth hdepths, ?_⟩
    simpa [keptItems, encodeItems] using Nat.add_le_add hlength hlengths

/-- The entries that are kept make a dict, with the first value that is
written for each key. -/
theorem keptEntries_spec {m : ℕ} {map : Entries} (hmap : IsDict m map) :
    ∀ es : Entries, depthEntries es ≤ m → IsDict m (keptEntries map es) ∧
      (encodeEntries (keptEntries map es)).length ≤
        (encodeEntries map).length + (encodeEntries es).length ∧
      ∀ l, (keptEntries map es).lookup l = (map.lookup l).or ((es.lookup l).map kept)
  | [], _ => ⟨hmap, le_rfl, by simp [keptEntries]⟩
  | (k, w) :: es, h => by
    rw [depthEntries] at h
    obtain ⟨hord, hdepth, hlength⟩ := kept_spec w
    have horInsert : IsDict m (orInsert k w.kept map) := by
      rw [hmap.orInsert_eq]
      split
      · exact hmap
      · exact hmap.insertEntry hord (by omega)
    obtain ⟨hdict, hle, hlookup⟩ := keptEntries_spec horInsert es (by omega)
    refine ⟨hdict, hle.trans ?_, fun l => (hlookup l).trans ?_⟩
    · rw [hmap.orInsert_eq]
      have hinsert := length_encodeEntries_insertEntry_le k w.kept map
      simp only [encodeEntries, length_append, length_nil] at hinsert ⊢
      split <;> omega
    · rw [hmap.orInsert_eq, lookup_cons]
      by_cases hl : l = k
      · subst hl
        cases hm : map.lookup l <;> simp [lookup_insertEntry, hm]
      · rw [if_neg hl]
        split
        · rfl
        · rw [lookup_insertEntry, if_neg hl]

end

theorem decodeTopLevel_encode (hord : v.Ordered) (hdepth : v.depth ≤ maxDepth)
    (hlength : (encode v).length < 2 ^ 63) : decodeTopLevel false (encode v) = .ok v :=
  (decodeTopLevel_eq_ok_iff false ⟨encode v, hlength⟩ v).2
    ⟨v, rfl, hdepth, fun _ => hord, (kept_of_ordered v hord).symm⟩

/-- **The lenient decoder.** It gives what the strict one gives; it
succeeds on the encodings with entries in any order and any number, and
gives what is kept of them, which the strict one decodes from its own
encoding; and what is kept of a dict has, for each key, what is kept of
the first value that is written for it. -/
theorem decodeLenient_iff_kept :
    (∀ (x : Slice) (v : Bencode), decode x = .ok v → decodeLenient x = .ok v) ∧
    (∀ (x : Slice) (v : Bencode), decodeLenient x = .ok v →
      ∃ h, decode ⟨encode v, h⟩ = .ok v) ∧
    (∀ (x : Slice) (v : Bencode), decodeLenient x = .ok v ↔
      ∃ w, x.1 = encode w ∧ w.depth ≤ maxDepth ∧ v = w.kept) ∧
    ∀ (es : List (List UInt8 × Bencode)) (key : List UInt8),
      (dict es).kept.get key = ((dict es).get key).map kept := by
  have hiff : ∀ (x : Slice) (v : Bencode), decodeLenient x = .ok v ↔
      ∃ w, x.1 = encode w ∧ w.depth ≤ maxDepth ∧ v = w.kept := by
    intro x v
    simp [decodeLenient, decodeTopLevel_eq_ok_iff]
  refine ⟨?_, ?_, hiff, ?_⟩
  · intro x v h
    obtain ⟨hx, hdepth, hord⟩ := (decode_eq_ok_iff x v).1 h
    exact (hiff x v).2 ⟨v, hx, hdepth, (kept_of_ordered v hord).symm⟩
  · intro x v h
    obtain ⟨w, hx, hdepth, rfl⟩ := (hiff x v).1 h
    obtain ⟨hord, hle, hlength⟩ := kept_spec w
    exact ⟨hlength.trans_lt (hx ▸ x.2), (decode_eq_ok_iff _ _).2 ⟨rfl, hle.trans hdepth, hord⟩⟩
  · intro es key
    obtain ⟨-, -, hlookup⟩ := keptEntries_spec IsDict.nil es le_rfl
    exact hlookup key

end BitTorrent.Bencode
