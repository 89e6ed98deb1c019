import BitTorrent.Dht.Routing

/-!
# The routing table

The buckets through every insert and recentre, what `closest` gives, and
what recentring does to when a node was last seen.
-/

namespace BitTorrent.Dht

open List

/-- The bits of a byte, the highest first. -/
def byteBits (b : UInt8) : List Bool := (range 8).map b.toBitVec.getMsbD

/-- The number of leading bits that two ids share, where they differ. -/
def commonPrefix (a b : NodeId) : Option ℕ :=
  (zipWith (· != ·) (a.toList.flatMap byteBits) (b.toList.flatMap byteBits)).findIdx? id

theorem byteBits_xor (a b : UInt8) :
    byteBits (a ^^^ b) = zipWith (· != ·) (byteBits a) (byteBits b) := by
  refine ext_getElem (by simp [byteBits]) fun i hi hi' => ?_
  simp [byteBits]

theorem findIdx?_byteBits (b : UInt8) :
    (byteBits b).findIdx? id = if b = 0 then none else some (leadingZeros b) := by
  have h : ∀ n : Fin 256, (byteBits (.ofNat n)).findIdx? id =
      if UInt8.ofNat n = 0 then none else some (leadingZeros (.ofNat n)) := by decide +kernel
  simpa using h ⟨b.toNat, b.toNat_lt⟩

theorem findIdx?_bits (d : List UInt8) : (d.flatMap byteBits).findIdx? id =
    (d.findIdx? (· != 0)).map fun i => i * 8 + leadingZeros (d.getD i 0) := by
  induction d with
  | nil => rfl
  | cons b d ih =>
    rw [flatMap_cons, findIdx?_append, findIdx?_byteBits, ih, findIdx?_cons]
    by_cases hb : b = 0
    · simp only [hb, byteBits, length_map, length_range, Option.map_map, bne_self_eq_false,
        if_true, Option.none_or, Bool.false_eq_true, if_false]
      congr 1
      funext i
      simp only [Function.comp_apply, getD_cons_succ]
      omega
    · simp [hb]

theorem bits_zipWith_xor {l m : List UInt8} (h : l.length = m.length) :
    (zipWith (· ^^^ ·) l m).flatMap byteBits =
      zipWith (· != ·) (l.flatMap byteBits) (m.flatMap byteBits) := by
  induction l generalizing m with
  | nil => simp
  | cons x l ih =>
    cases m with
    | nil => cases h
    | cons y m =>
      rw [zipWith_cons_cons, flatMap_cons, flatMap_cons, flatMap_cons,
        zipWith_append (by simp [byteBits]), byteBits_xor, ih (Nat.succ.inj h)]

theorem bucketIndex_eq_commonPrefix (a b : NodeId) : bucketIndex a b = commonPrefix a b := by
  have hxor : (xorDistance a b).toList = zipWith (· ^^^ ·) a.toList b.toList := by
    refine ext_getElem (by simp) fun i hi hi' => ?_
    rw [getElem_zipWith]
    simp only [xorDistance, List.Vector.toList_ofFn, List.getElem_ofFn,
      List.Vector.get_eq_get_toList]
    rfl
  rw [bucketIndex, ← findIdx?_bits, hxor, bits_zipWith_xor (by simp), commonPrefix]

theorem bucketIndex_self (a : NodeId) : bucketIndex a a = none := by
  simp [bucketIndex_eq_commonPrefix, commonPrefix, zipWith_self]

namespace RoutingTable

variable {t : RoutingTable} {node : CompactNode} {now : ℕ} {clock : ℕ → ℕ} {newId : NodeId}
  {P : ℕ → Prop}

/-- The ids of entries. -/
def ids (bucket : List Entry) : List NodeId := bucket.map fun e => e.node.id

/-- **What putting a node in a bucket does**: the bucket holds what it held,
but for the node, seen now. -/
theorem insertInto_spec (bucket : List Entry) (node : CompactNode) (now : ℕ) :
    (bucket.length ≤ bucketSize → (insertInto bucket node now).length ≤ bucketSize) ∧
    ((ids bucket).Nodup → (ids (insertInto bucket node now)).Nodup) ∧
    ∀ e ∈ insertInto bucket node now, e ∈ bucket ∨ e.node.id = node.id ∧ e.lastSeen = now := by
  unfold insertInto
  split
  · rename_i i hfound
    obtain ⟨hi, hid, -⟩ := findIdx?_eq_some_iff_getElem.1 hfound
    refine ⟨fun h => by rwa [length_modify], fun h => ?_, fun e he => ?_⟩
    · have hsame : ids (bucket.modify i fun e => ⟨⟨e.node.id, node.addr⟩, now⟩) = ids bucket :=
        ext_getElem (by simp [ids]) fun j hj hj' => by
          simp only [ids, getElem_map, getElem_modify]
          split <;> rfl
      rwa [hsame]
    · obtain ⟨j, hj, rfl⟩ := mem_iff_getElem.1 he
      rw [getElem_modify]
      split_ifs with hij
      · subst hij
        exact .inr ⟨beq_iff_eq.1 hid, rfl⟩
      · exact .inl (getElem_mem _)
  · rename_i hnone
    have hnew : node.id ∉ ids bucket := by
      intro hmem
      obtain ⟨e, he, hid⟩ := mem_map.1 hmem
      exact absurd hid (by simpa using findIdx?_eq_none_iff.1 hnone e he)
    split_ifs with hroom
    · refine ⟨fun _ => by simpa using hroom, fun h => ?_, fun e he => ?_⟩
      · rw [ids, map_append]
        exact h.append (nodup_singleton _) (by simpa using hnew)
      · exact (mem_append.1 he).imp_right fun he => by simp [mem_singleton.1 he]
    · split
      · refine ⟨fun h => by rwa [length_set], fun h => ?_, fun e he => ?_⟩
        · rw [ids, map_set]
          exact h.set hnew
        · exact (mem_or_eq_of_mem_set he).imp_right fun heq => by simp [heq]
      · exact ⟨id, id, fun e he => .inl he⟩

/-- **Every bucket is in order**: it is not over its size, has no id twice,
and holds the nodes that share so many bits with the table's own id, seen
at such times. -/
def Sound (P : ℕ → Prop) (t : RoutingTable) : Prop :=
  ∀ i b, t.buckets[i]? = some b → b.length ≤ bucketSize ∧ (ids b).Nodup ∧
    ∀ e ∈ b, bucketIndex t.selfId e.node.id = some i ∧ P e.lastSeen

theorem Sound.of_empty (h : ∀ b ∈ t.buckets, b = []) : t.Sound P := by
  intro i b hb
  rw [h b (mem_of_getElem? hb)]
  exact ⟨Nat.zero_le _, nodup_nil, nofun⟩

theorem Sound.insert (h : t.Sound P) (hnow : P now) : (t.insert node now).Sound P := by
  unfold RoutingTable.insert
  split
  · exact h
  · rename_i i hi
    intro j b hb
    simp only [getElem?_modify, Option.map_eq_map, Option.map_eq_some_iff] at hb
    obtain ⟨old, hold, rfl⟩ := hb
    obtain ⟨hfew, hnodup, hplace⟩ := h j old hold
    split_ifs with hij
    · subst hij
      obtain ⟨hlen, hids, hmem⟩ := insertInto_spec old node now
      refine ⟨hlen hfew, hids hnodup, fun e he => ?_⟩
      rcases hmem e he with he | ⟨hid, hseen⟩
      · exact hplace e he
      · rw [hid, hseen]
        exact ⟨hi, hnow⟩
    · exact ⟨hfew, hnodup, hplace⟩

theorem Sound.recentre (hclock : ∀ n, P (clock n)) : (t.recentre newId clock).Sound P := by
  refine foldlRecOn (motive := Sound P) _ _ (.of_empty fun b hb => ?_)
    fun t ht p _ => ht.insert (hclock p.2)
  obtain ⟨-, -, rfl⟩ := mem_map.1 hb
  rfl

/-- What is done to a table. -/
inductive Op
  | insert (node : CompactNode) (now : ℕ)
  | recentre (newId : NodeId) (clock : ℕ → ℕ)

def apply (t : RoutingTable) : Op → RoutingTable
  | .insert node now => t.insert node now
  | .recentre newId clock => t.recentre newId clock

def len (t : RoutingTable) : ℕ := (t.buckets.map length).sum

theorem Sound.of_ops (id : NodeId) (ops : List Op) :
    (ops.foldl apply (new id)).Sound fun _ => True := by
  refine foldlRecOn (motive := Sound _) _ _ (.of_empty fun b hb => (mem_replicate.1 hb).2)
    fun t ht op _ => ?_
  cases op with
  | insert => exact ht.insert trivial
  | recentre => exact .recentre fun _ => trivial

theorem Sound.nodup_ids (h : t.Sound P) : (ids t.buckets.flatten).Nodup := by
  rw [ids, map_flatten, nodup_flatten]
  constructor
  · intro l hl
    obtain ⟨b, hb, rfl⟩ := mem_map.1 hl
    obtain ⟨i, hi⟩ := mem_iff_getElem?.1 hb
    exact (h i b hi).2.1
  · rw [pairwise_map, pairwise_iff_getElem]
    intro i j hi hj hij x hx hx'
    obtain ⟨e, he, rfl⟩ := mem_map.1 hx
    obtain ⟨e', he', hid⟩ := mem_map.1 hx'
    have hplace := ((h i _ (getElem?_eq_getElem hi)).2.2 e he).1
    rw [← hid, ((h j _ (getElem?_eq_getElem hj)).2.2 e' he').1] at hplace
    exact hij.ne' (Option.some.inj hplace)

/-- How far a node is from a target. -/
def distance (target : NodeId) (node : CompactNode) : List UInt8 :=
  (xorDistance node.id target).toList

/-- **The nodes of the table nearest to a target**, in order, as many as
there are up to `n`. -/
def Nearest (t : RoutingTable) (target : NodeId) (n : ℕ) (found : List CompactNode) : Prop :=
  found.length = min n t.len ∧
    found.Pairwise (fun a b => distance target a ≤ distance target b) ∧
    ∃ rest, found ++ rest ~ t.buckets.flatten.map Entry.node ∧
      ∀ a ∈ found, ∀ b ∈ rest, distance target a ≤ distance target b

theorem nearest_closest (t : RoutingTable) (target : NodeId) (n : ℕ) :
    t.Nearest target n (t.closest target n) := by
  let r : Entry → Entry → Prop := fun a b => distance target a.node ≤ distance target b.node
  have htotal : Std.Total r := ⟨fun _ _ => List.le_total ..⟩
  have htrans : IsTrans Entry r := ⟨fun _ _ _ h h' => List.le_trans h h'⟩
  obtain ⟨l, hl⟩ : ∃ l, l = (insertionSort r t.buckets.flatten).map Entry.node := ⟨_, rfl⟩
  have hclosest : t.closest target n = l.take n := by
    rw [hl, ← map_take]
    rfl
  have horder : (l.take n ++ l.drop n).Pairwise
      fun a b => distance target a ≤ distance target b := by
    rw [take_append_drop, hl]
    exact pairwise_map.2 (pairwise_insertionSort r t.buckets.flatten)
  obtain ⟨htake, -, hrest⟩ := pairwise_append.1 horder
  rw [hclosest]
  refine ⟨?_, htake, l.drop n, ?_, hrest⟩
  · rw [length_take, hl, length_map, length_insertionSort, length_flatten, len]
  · rw [take_append_drop, hl]
    exact (perm_insertionSort r t.buckets.flatten).map _

/-- **The table after any inserts and recentres**: no bucket is over its
size, every node is in the bucket of the bits it shares with the table's own
id, no id is there twice, nor the table's own; and `closest` gives the nodes
nearest to a target. -/
theorem table_of_ops (id : NodeId) (ops : List Op) :
    let t := ops.foldl apply (new id)
    (∀ i b, t.buckets[i]? = some b → b.length ≤ bucketSize ∧
      ∀ e ∈ b, commonPrefix t.selfId e.node.id = some i) ∧
    (ids t.buckets.flatten).Nodup ∧ t.selfId ∉ ids t.buckets.flatten ∧
    ∀ target n, t.Nearest target n (t.closest target n) := by
  intro t
  have h := Sound.of_ops id ops
  refine ⟨fun i b hb => ?_, h.nodup_ids, fun hmem => ?_, t.nearest_closest⟩
  · obtain ⟨hfew, -, hplace⟩ := h i b hb
    refine ⟨hfew, fun e he => ?_⟩
    rw [← bucketIndex_eq_commonPrefix]
    exact (hplace e he).1
  · obtain ⟨e, he, hid⟩ := mem_map.1 hmem
    obtain ⟨b, hb, he⟩ := mem_flatten.1 he
    obtain ⟨i, hi⟩ := mem_iff_getElem?.1 hb
    have hplace := ((h i b hi).2.2 e he).1
    rw [hid, bucketIndex_self] at hplace
    cases hplace

theorem recentre_eq_of_own (h : ∀ e ∈ t.buckets.flatten, bucketIndex newId e.node.id = none) :
    t.recentre newId clock = ⟨newId, t.buckets.map fun _ => []⟩ := by
  refine foldlRecOn (motive := fun t' : RoutingTable => t' = ⟨newId, t.buckets.map fun _ => []⟩)
    _ _ rfl ?_
  rintro _ rfl p hp
  rw [insert, h p.1 (fst_mem_of_mem_zipIdx hp)]

/-- **A bucket keeps the nodes most recently seen**, as many as fit, and
when each was seen. -/
def KeepsRecent (known kept : List Entry) : Prop :=
  ∃ dropped, kept ++ dropped ~ known ∧ kept.length = min bucketSize known.length ∧
    ∀ e ∈ dropped, ∀ e' ∈ kept, e.lastSeen < e'.lastSeen

theorem KeepsRecent.eq_nil {known kept : List Entry} (h : KeepsRecent known kept)
    (hnew : ∀ e ∈ kept, e ∉ known) : known = [] := by
  obtain ⟨dropped, hperm, hlen, -⟩ := h
  have hkept : kept = [] := eq_nil_iff_forall_not_mem.2 fun e he =>
    hnew e he (hperm.subset (mem_append_left _ he))
  rw [hkept, length_nil] at hlen
  exact length_eq_zero_iff.1 (by simpa [bucketSize] using hlen.symm)

/-- Recentring leaves in each bucket the nodes of that bucket most
recently seen. -/
def RecentreKeeps (t : RoutingTable) (newId : NodeId) (clock : ℕ → ℕ) : Prop :=
  ∀ i, KeepsRecent (t.buckets.flatten.filter fun e => bucketIndex newId e.node.id = some i)
    ((t.recentre newId clock).buckets.getD i [])

/-- **Recentring keeps the nodes most recently seen, and when they were
seen, exactly where there is none to move.** -/
theorem recentreKeeps_iff (hclock : ∀ e ∈ t.buckets.flatten, ∀ n, e.lastSeen < clock n) :
    t.RecentreKeeps newId clock ↔
      ∀ e ∈ t.buckets.flatten, bucketIndex newId e.node.id = none := by
  constructor
  · intro h e he
    by_contra hsome
    obtain ⟨i, hi⟩ := Option.ne_none_iff_exists'.1 hsome
    have hnil := (h i).eq_nil fun e' he' hmem => by
      rw [getD_eq_getElem?_getD] at he'
      cases hb : (t.recentre newId clock).buckets[i]? with
      | none => simp [hb] at he'
      | some b =>
        rw [hb, Option.getD_some] at he'
        have hsound :=
          Sound.recentre (P := fun seen => ∃ n, seen = clock n) (fun n => ⟨n, rfl⟩) i b hb
        obtain ⟨n, hn⟩ := (hsound.2.2 e' he').2
        exact (hclock e' (mem_of_mem_filter hmem) n).ne hn
    exact not_mem_nil (hnil ▸ mem_filter.2 ⟨he, decide_eq_true hi⟩)
  · intro h i
    have hnone : (t.buckets.flatten.filter fun e => bucketIndex newId e.node.id = some i) = [] :=
      filter_eq_nil_iff.2 fun e he => by simp [h e he]
    have hempty : (t.buckets.map fun _ => ([] : List Entry)).getD i [] = [] := by
      rw [getD_eq_getElem?_getD, getElem?_map]
      cases t.buckets[i]? <;> rfl
    rw [hnone, recentre_eq_of_own h, hempty]
    exact ⟨[], .nil, rfl, nofun⟩

/-- A node, and the table of another that has seen it at time 1. -/
def oneSeen : CompactNode := ⟨.replicate 20 1, ⟨.v4 ⟨[10, 0, 0, 2], rfl⟩, 6881⟩⟩

def seenOnce : RoutingTable := (new (.replicate 20 0)).insert oneSeen 1

set_option maxRecDepth 2000 in
theorem flatten_seenOnce : seenOnce.buckets.flatten = [⟨oneSeen, 1⟩] := rfl

theorem recentreKeeps_iff_sample : seenOnce.RecentreKeeps oneSeen.id (· + 2) := by
  refine (recentreKeeps_iff fun e he n => ?_).2 fun e he => ?_
  all_goals obtain rfl := mem_singleton.1 (flatten_seenOnce ▸ he)
  · exact Nat.lt_add_left n Nat.one_lt_two
  · rfl

set_option maxRecDepth 2000 in
/-- **A node seen at time 1 is moved, and was seen at time 2.** -/
theorem seen_when_moved : ¬ seenOnce.RecentreKeeps (.replicate 20 2) (· + 2) := by
  have hkept : (seenOnce.recentre (.replicate 20 2) (· + 2)).buckets.getD 6 [] =
    [⟨oneSeen, 2⟩] := rfl
  intro h
  have hsix := h 6
  rw [hkept, flatten_seenOnce] at hsix
  cases hsix.eq_nil (by simp)

end RoutingTable

end BitTorrent.Dht
