import BitTorrent.Create.Hashing
import BitTorrent.Create.Tree

/-!
# What `create_v2` builds

The loop of `create_v2` over the files of a source: each is hashed into a tree of its own, put
into the tree of files, and its piece layer, where it has one, is kept by its root.
-/

namespace BitTorrent

open List V2

open Bencode (insertEntry insertSome IsDict IsValue isValue_bytes isValue_int lookup_insertEntry)

section

variable [Digests] {reader : List UInt8}

theorem V2.le_length_of_hashPieces {pieceLength : ℕ} {fuel : ℕ} {left : ℕ}
    {layer : List Hash32} (hfuel : left ≤ fuel) (hpos : 0 < pieceLength)
    (h : hashPieces pieceLength fuel reader left = some layer) : left ≤ reader.length := by
  induction fuel generalizing reader left layer with
  | zero => omega
  | succ fuel ih =>
    rw [hashPieces] at h
    split at h
    · omega
    · dsimp only at h
      split at h
      · cases h
      · obtain ⟨rest, hrest, -⟩ := Option.bind_eq_some_iff.1 h
        have := ih (by omega) hrest
        rw [length_drop] at this
        omega

namespace Create

/-- The root of a file, if it has any bytes. -/
def contentRoot (content : List UInt8) : Option Hash32 :=
  if content = [] then none else some (V2.fileRoot content)

/-- The hashes of a file, for pieces of `2 ^ k` bytes. -/
def hashesOf (k : ℕ) (content : List UInt8) : V2.FileHashes :=
  ⟨contentRoot content, if content.length ≤ 2 ^ k then [] else V2.fileLayer content (k - 14)⟩

variable {k : ℕ} {e : Entry} {hashes : V2.FileHashes}

theorem length_le_of_hashFile {length : ℕ}
    (h : hashFile reader length (2 ^ k) = some hashes) : length ≤ reader.length := by
  unfold hashFile at h
  split at h
  · omega
  · split at h
    · split at h
      · cases h
      · omega
    · obtain ⟨layer, hlayer, -⟩ := Option.bind_eq_some_iff.1 h
      exact le_length_of_hashPieces le_rfl (Nat.two_pow_pos k) hlayer

theorem hashEntryV2_spec (hk : 14 ≤ k) (h : hashEntryV2 (2 ^ k) e = .ok hashes) :
    e.file.Whole ∧ hashes = hashesOf k e.file.content := by
  unfold hashEntryV2 at h
  split at h
  · cases h
  · rename_i bytes hbytes
    have hcontent : e.file.content = bytes := by
      rw [DiskFile.content, hbytes]
      rfl
    split at h
    · cases h
    · rename_i hashes' hhashes
      rw [check_eq_ok_iff, not_lt] at h
      obtain ⟨hle, h⟩ := h
      cases h
      have hlen : bytes.length = e.length := Nat.le_antisymm hle (length_le_of_hashFile hhashes)
      refine ⟨⟨by rw [hcontent, hbytes], by rw [hcontent]; exact hlen⟩, ?_⟩
      rw [← hlen] at hhashes
      rw [hcontent]
      by_cases hnil : bytes = []
      · subst hnil
        cases hhashes
        rfl
      · rw [hashFile_pow hnil hk] at hhashes
        cases hhashes
        rw [hashesOf, contentRoot, if_neg hnil]

omit [Digests] in
/-- A layer as it is written. -/
def layerBytes (layer : List Hash32) : Bencode := .bytes (layer.map List.Vector.toList).flatten

theorem insertLayerOf_hashesOf (content : List UInt8) (layers : Entries) :
    insertLayerOf (hashesOf k content) layers = if content.length ≤ 2 ^ k then layers
      else insertEntry (fileRoot content).toList
        (layerBytes (fileLayer content (k - 14))) layers := by
  rw [hashesOf, insertLayerOf]
  by_cases hlong : content.length ≤ 2 ^ k
  · simp only [if_pos hlong, if_true]
    cases contentRoot content <;> rfl
  · have hne : content ≠ [] := by
      rintro rfl
      exact hlong (Nat.zero_le _)
    have hlayer : fileLayer content (k - 14) ≠ [] := by
      refine ne_nil_of_length_pos ?_
      rw [length_fileLayer]
      refine (lt_ceil_iff (pieceLength_pos _)).2 ?_
      rw [Nat.zero_mul]
      exact length_pos_of_ne_nil hne
    rw [contentRoot, if_neg hne, if_neg hlong, if_neg hlong]
    dsimp only
    rw [if_neg hlayer]
    rfl

omit [Digests] in
theorem mem_insertEntry {es : Entries} {key : List UInt8} {v : Bencode}
    {kv : List UInt8 × Bencode} (h : kv ∈ insertEntry key v es) : kv = (key, v) ∨ kv ∈ es := by
  induction es with
  | nil => exact .inl (mem_singleton.1 h)
  | cons e es ih =>
    rw [insertEntry] at h
    split at h
    · exact mem_cons.1 h
    · split at h
      · exact (mem_cons.1 h).imp_right (mem_cons_of_mem _)
      · rcases mem_cons.1 h with rfl | h
        · exact .inr mem_cons_self
        · exact (ih h).imp_right (mem_cons_of_mem _)

/-- **The layers that are kept** of some files. -/
structure LayersOf (k : ℕ) (done : List Entry) (layers : Entries) : Prop where
  isDict : IsDict 0 layers
  layered : ∀ kv ∈ layers, ∃ (root : Hash32) (layer : List Hash32),
    kv = (root.toList, layerBytes layer)
  /-- For a file longer than a piece there is a layer under its root: that
  of a file with this root. -/
  held : ∀ e ∈ done, 2 ^ k < e.file.content.length → ∃ g ∈ done,
    2 ^ k < g.file.content.length ∧ V2.fileRoot g.file.content = V2.fileRoot e.file.content ∧
      layers.lookup (V2.fileRoot e.file.content).toList =
        some (layerBytes (V2.fileLayer g.file.content (k - 14)))

variable {done : List Entry}

theorem LayersOf.step {layers : Entries} (h : LayersOf k done layers) :
    LayersOf k (done ++ [e]) (insertLayerOf (hashesOf k e.file.content) layers) := by
  rw [insertLayerOf_hashesOf]
  split
  · rename_i hshort
    refine ⟨h.isDict, h.layered, fun d hd hlong => ?_⟩
    rcases mem_append.1 hd with hd | hd
    · obtain ⟨g, hg, hheld⟩ := h.held d hd hlong
      exact ⟨g, mem_append_left _ hg, hheld⟩
    · rw [mem_singleton.1 hd] at hlong
      omega
  · rename_i hlong
    refine ⟨h.isDict.insertValue (isValue_bytes _), fun kv hkv => ?_, fun d hd hdlong => ?_⟩
    · rcases mem_insertEntry hkv with rfl | hkv
      · exact ⟨_, _, rfl⟩
      · exact h.layered kv hkv
    · by_cases hroot : fileRoot e.file.content = fileRoot d.file.content
      · -- the later layer is kept
        refine ⟨e, by simp, not_le.1 hlong, hroot, ?_⟩
        rw [lookup_insertEntry, if_pos (by rw [hroot])]
      · have hne : (fileRoot d.file.content).toList ≠ (fileRoot e.file.content).toList :=
          fun heq => hroot (List.Vector.toList_injective heq).symm
        rw [lookup_insertEntry, if_neg hne]
        rcases mem_append.1 hd with hd | hd
        · obtain ⟨g, hg, hheld⟩ := h.held d hd hdlong
          exact ⟨g, mem_append_left _ hg, hheld⟩
        · exact absurd (by rw [mem_singleton.1 hd]) hroot

/-- **What is built of the files so far.** -/
structure BuiltOf (k : ℕ) (done : List Entry) (b : Building) : Prop where
  directory : IsDirectory b.tree
  files : treeFilesIn b.tree =
    done.map fun e => (e.path, leafOf e.length (contentRoot e.file.content))
  depth : ∀ n, (∀ e ∈ done, 1 + e.path.length ≤ n) → IsDict n b.tree
  layers : LayersOf k done b.layers

variable {b b' : Building}

theorem BuiltOf.nil : BuiltOf k [] ⟨[], [], 0⟩ :=
  ⟨trivial, rfl, fun _ _ => IsDict.nil, IsDict.nil, by simp, by simp⟩

omit [Digests] in
theorem isValue_leafOf (length : ℕ) (root : Option Hash32) : IsValue 1 (leafOf length root) := by
  refine ((IsDict.nil.insertValue (isValue_int _)).insertSomeValue fun v hv => ?_).isValue
  obtain ⟨r, -, rfl⟩ := Option.map_eq_some_iff.1 hv
  exact isValue_bytes _

omit [Digests] in
theorem ne_nil_of_nameable {path : List Name} (h : Nameable path) : ∀ c ∈ path, c ≠ [] := by
  rintro c hc rfl
  exact absurd (h [] hc).2 (by decide)

theorem BuiltOf.step (hk : 14 ≤ k) (h : BuiltOf k done b)
    (hok : buildEntry (2 ^ k) b e = .ok b') (hpath : e.path ≠ [] ∧ Nameable e.path)
    (hafter : ∀ d ∈ done, After d.found e.found) :
    e.file.Whole ∧ BuiltOf k (done ++ [e]) b' := by
  rw [buildEntry, bind_eq_ok_iff] at hok
  obtain ⟨hashes, hhashes, hok⟩ := hok
  obtain ⟨hwhole, rfl⟩ := hashEntryV2_spec hk hhashes
  cases hok
  have hlisted : ∀ f ∈ treeFilesIn b.tree, f.1 < e.path ∧ Apart f.1 e.path := by
    intro f hf
    rw [h.files] at hf
    obtain ⟨d, hd, rfl⟩ := mem_map.1 hf
    exact hafter d hd
  obtain ⟨hdir, hfiles⟩ := insertPath_spec hpath.1 (ne_nil_of_nameable hpath.2) h.directory hlisted
  refine ⟨hwhole, hdir, ?_, fun n hn => ?_, h.layers.step⟩
  · rw [map_append, ← h.files]
    exact hfiles
  · rw [forall_mem_append, forall_mem_singleton] at hn
    exact isDict_insertPath (isValue_leafOf _ _) hn.2 (h.depth n hn.1)

theorem BuiltOf.foldlM (hk : 14 ≤ k) : ∀ (entries : List Entry) {done : List Entry} {b : Building},
    BuiltOf k done b → entries.foldlM (buildEntry (2 ^ k)) b = .ok b' →
    (∀ e ∈ entries, e.path ≠ [] ∧ Nameable e.path) →
    ((done ++ entries).map Entry.found).Pairwise After →
      (∀ e ∈ entries, e.file.Whole) ∧ BuiltOf k (done ++ entries) b'
  | [], done, b, h, hok, _, _ => by
    cases hok
    rw [append_nil]
    exact ⟨by simp, h⟩
  | e :: entries, done, b, h, hok, hnames, hafter => by
    rw [foldlM_cons, bind_eq_ok_iff] at hok
    obtain ⟨mid, hmid, hok⟩ := hok
    rw [forall_mem_cons] at hnames
    have hbefore : ∀ d ∈ done, After d.found e.found := by
      intro d hd
      rw [map_append, pairwise_append] at hafter
      exact hafter.2.2 _ (mem_map_of_mem hd) _ (mem_map_of_mem mem_cons_self)
    obtain ⟨hwhole, hstep⟩ := h.step hk hmid hnames.1 hbefore
    rw [append_cons] at hafter ⊢
    obtain ⟨hwholes, hbuilt⟩ := BuiltOf.foldlM hk entries hstep hok hnames.2 hafter
    exact ⟨forall_mem_cons.2 ⟨hwhole, hwholes⟩, hbuilt⟩

end Create

end

end BitTorrent
