import BitTorrent.Create.Written

/-!
# The tree that is written, and walked

`create_v2` puts each file into a tree of dictionaries by the components of its path.
-/

namespace BitTorrent

open List V2

open Bencode (insertEntry insertSome IsDict IsValue)

namespace Create

mutual

/-- **The files of a node**, each by its path from there and with its
description, in the order of a walk. -/
def treeFiles : Bencode → List (List Name × Bencode)
  | .dict entries =>
    match entries.lookup [] with
    | some leaf => [([], leaf)]
    | none => treeFilesIn entries
  | _ => []

/-- Those of the entries of a directory. -/
def treeFilesIn : Entries → List (List Name × Bencode)
  | [] => []
  | (name, child) :: entries =>
    ((treeFiles child).map fun f => (name :: f.1, f.2)) ++ treeFilesIn entries

end

mutual

/-- **A node of a tree**: a file, or a directory with something in it. -/
def IsNode : Bencode → Prop
  | .dict entries => (∃ leaf, entries = [([], leaf)]) ∨ entries ≠ [] ∧ IsDirectory entries
  | _ => False

/-- **A directory**: nodes under names in increasing order. -/
def IsDirectory : Entries → Prop
  | [] => True
  | (name, child) :: entries =>
    name ≠ [] ∧ (∀ e ∈ entries, name < e.1) ∧ IsNode child ∧ IsDirectory entries

end

variable {es : Entries} {k : List UInt8} {v w leaf : Bencode}

theorem treeFilesIn_append_singleton : treeFilesIn (es ++ [(k, v)]) =
    treeFilesIn es ++ (treeFiles v).map fun f => (k :: f.1, f.2) := by
  induction es with
  | nil => simp [treeFilesIn]
  | cons e es ih => rw [cons_append, treeFilesIn, treeFilesIn, ih, append_assoc]

theorem isDirectory_append_singleton : IsDirectory (es ++ [(k, v)]) ↔
      IsDirectory es ∧ (∀ e ∈ es, e.1 < k) ∧ k ≠ [] ∧ IsNode v := by
  induction es with
  | nil => simp [IsDirectory]
  | cons e es ih =>
    rw [cons_append, IsDirectory, IsDirectory, ih, forall_mem_append,
      forall_mem_singleton, forall_mem_cons]
    tauto

theorem lookup_nil_of_isDirectory (h : IsDirectory es) : es.lookup [] = none := by
  induction es with
  | nil => rfl
  | cons e es ih =>
    rw [IsDirectory] at h
    rw [Bencode.lookup_cons, if_neg (Ne.symm h.1), ih h.2.2.2]

theorem treeFiles_of_isDirectory (h : IsDirectory es) : treeFiles (.dict es) = treeFilesIn es := by
  rw [treeFiles, lookup_nil_of_isDirectory h]

mutual

theorem treeFiles_ne_nil : ∀ v : Bencode, IsNode v → treeFiles v ≠ []
  | .dict es, h => by
    rw [IsNode] at h
    rcases h with ⟨leaf, rfl⟩ | ⟨hne, hdir⟩
    · exact cons_ne_nil _ _
    · rw [treeFiles_of_isDirectory hdir]
      exact treeFilesIn_ne_nil es hne hdir
  | .int _, h => by cases h
  | .bytes _, h => by cases h
  | .list _, h => by cases h

theorem treeFilesIn_ne_nil : ∀ es : Entries, es ≠ [] → IsDirectory es → treeFilesIn es ≠ []
  | [], hne, _ => absurd rfl hne
  | (name, child) :: es, _, h => by
    rw [IsDirectory] at h
    have := treeFiles_ne_nil child h.2.2.1
    rw [treeFilesIn]
    simp [this]

end

theorem insertEntry_append (h : ∀ e ∈ es, e.1 < k) (rest : Entries) :
    insertEntry k v (es ++ rest) = es ++ insertEntry k v rest ∧
      (es ++ rest).lookup k = rest.lookup k := by
  induction es with
  | nil => exact ⟨rfl, rfl⟩
  | cons e es ih =>
    rw [forall_mem_cons] at h
    have hne : k ≠ e.1 := fun heq => List.lt_irrefl k (heq ▸ h.1)
    rw [cons_append, insertEntry, if_neg (List.lt_asymm h.1), if_neg hne, Bencode.lookup_cons,
      if_neg hne, (ih h.2).1, (ih h.2).2]
    exact ⟨rfl, rfl⟩

variable {path : List Name}

theorem insertPath_nil (hnames : ∀ c ∈ path, c ≠ []) :
    IsNode (.dict (insertPath leaf path [])) ∧
      treeFiles (.dict (insertPath leaf path [])) = [(path, leaf)] := by
  induction path with
  | nil => exact ⟨.inl ⟨leaf, rfl⟩, rfl⟩
  | cons part rest ih =>
    rw [forall_mem_cons] at hnames
    obtain ⟨hnode, hfiles⟩ := ih hnames.2
    have hdir : IsDirectory [(part, .dict (insertPath leaf rest []))] :=
      ⟨hnames.1, by simp, hnode, trivial⟩
    refine ⟨.inr ⟨cons_ne_nil _ _, hdir⟩, ?_⟩
    rw [show insertPath leaf (part :: rest) [] = [(part, .dict (insertPath leaf rest []))] from rfl,
      treeFiles_of_isDirectory hdir, treeFilesIn, hfiles]
    rfl

theorem insertPath_of_lt {part : Name} {rest : List Name} (h : ∀ e ∈ es, e.1 < part) :
    insertPath leaf (part :: rest) es = es ++ [(part, .dict (insertPath leaf rest []))] := by
  obtain ⟨hinsert, hlookup⟩ := insertEntry_append (v := .dict (insertPath leaf rest [])) h []
  rw [append_nil] at hinsert hlookup
  rw [insertPath, hlookup]
  exact hinsert

theorem insertPath_last {part : Name} {rest : List Name}
    {inner : Entries} (h : ∀ e ∈ es, e.1 < part) :
    insertPath leaf (part :: rest) (es ++ [(part, .dict inner)]) =
      es ++ [(part, .dict (insertPath leaf rest inner))] := by
  rw [insertPath, (insertEntry_append (v := leaf) h _).2, (insertEntry_append h _).1,
    lookup_cons_self, insertEntry, if_neg (List.lt_irrefl _), if_pos rfl]
  rfl

variable {f : List Name × Bencode}

theorem mem_treeFilesIn_last (hf : f ∈ treeFiles v) :
    (k :: f.1, f.2) ∈ treeFilesIn (es ++ [(k, v)]) := by
  rw [treeFilesIn_append_singleton]
  exact mem_append_right _ (mem_map.2 ⟨f, hf, rfl⟩)

theorem insertPath_spec (hne : path ≠ []) (hnames : ∀ c ∈ path, c ≠ [])
    (hdir : IsDirectory es)
    (hafter : ∀ f ∈ treeFilesIn es, f.1 < path ∧ Apart f.1 path) :
    IsDirectory (insertPath leaf path es) ∧
      treeFilesIn (insertPath leaf path es) = treeFilesIn es ++ [(path, leaf)] := by
  induction path generalizing es with
  | nil => exact absurd rfl hne
  | cons part rest ih =>
    rw [forall_mem_cons] at hnames
    by_cases hlt : ∀ e ∈ es, e.1 < part
    · obtain ⟨hnode, hfiles⟩ :
          IsNode (.dict (insertPath leaf rest [])) ∧ _ := insertPath_nil hnames.2
      rw [insertPath_of_lt hlt, isDirectory_append_singleton, treeFilesIn_append_singleton, hfiles]
      exact ⟨⟨hdir, hlt, hnames.1, hnode⟩, rfl⟩
    · -- a name that is not before this one is the last, and the same
      obtain rfl | ⟨es, ⟨last, child⟩, rfl⟩ := eq_nil_or_concat' es
      · exact absurd (by simp) hlt
      obtain ⟨hdir', hbelow, hlast, hnode⟩ := isDirectory_append_singleton.1 hdir
      obtain ⟨f, hf⟩ := exists_mem_of_ne_nil _ (treeFiles_ne_nil child hnode)
      obtain ⟨rfl, hbefore⟩ : last = part ∧ f.1 < rest := by
        rcases cons_lt_cons_iff.1 (hafter _ (mem_treeFilesIn_last hf)).1 with hlast' | h
        · exact absurd (forall_mem_append.2 ⟨fun e he => List.lt_trans (hbelow e he) hlast',
            forall_mem_singleton.2 hlast'⟩) hlt
        · exact h
      have hrest : rest ≠ [] := by
        rintro rfl
        exact not_lt_nil _ hbefore
      cases child with
      | dict inner =>
        rcases hnode with ⟨leaf', rfl⟩ | ⟨-, hinner⟩
        · -- a file would be above this one
          have happart := (hafter _ (mem_treeFilesIn_last mem_cons_self)).2
          exact absurd (cons_prefix_cons.2 ⟨rfl, nil_prefix⟩) happart.1
        · have hafter' : ∀ f ∈ treeFilesIn inner, f.1 < rest ∧ Apart f.1 rest := by
            intro f hf
            rw [← treeFiles_of_isDirectory hinner] at hf
            obtain ⟨hlt', happart⟩ := hafter _ (mem_treeFilesIn_last hf)
            refine ⟨?_, by simpa [Apart, cons_prefix_cons] using happart⟩
            exact (cons_lt_cons_iff.1 hlt').elim (fun h => absurd h (List.lt_irrefl _)) And.right
          obtain ⟨hinner', hfiles⟩ := ih hrest hnames.2 hinner hafter'
          have hsome : insertPath leaf rest inner ≠ [] := by
            intro hnil
            rw [hnil] at hfiles
            exact append_ne_nil_of_right_ne_nil _ (cons_ne_nil _ _) hfiles.symm
          rw [insertPath_last hbelow, isDirectory_append_singleton, treeFilesIn_append_singleton,
            treeFilesIn_append_singleton, treeFiles_of_isDirectory hinner',
            treeFiles_of_isDirectory hinner, hfiles, map_append, append_assoc]
          exact ⟨⟨hdir', hbelow, hlast, .inr ⟨hsome, hinner'⟩⟩, rfl⟩
      | int | bytes | list => cases hnode

theorem isValue_of_lookup {n : ℕ} (h : IsDict n es) (hv : es.lookup k = some v) : IsValue n v := by
  induction es with
  | nil => cases hv
  | cons e es ih =>
    obtain ⟨hes, -, hord, hdepth⟩ := h.of_cons
    rw [Bencode.lookup_cons] at hv
    split at hv
    · cases hv
      exact ⟨hord, hdepth⟩
    · exact ih hes hv

theorem isDict_subtree {n : ℕ} {o : Option Bencode} (h : ∀ v, o = some v → IsValue (n + 1) v) :
    IsDict n (subtree o) := by
  unfold subtree
  split
  · obtain ⟨hord, hdepth⟩ := h _ rfl
    rw [Bencode.Ordered] at hord
    rw [Bencode.depth] at hdepth
    exact ⟨hord.1, hord.2, by omega⟩
  · exact IsDict.nil

theorem isDict_insertPath {m n : ℕ} (hleaf : IsValue m leaf)
    (hn : m + path.length ≤ n) (h : IsDict n es) : IsDict n (insertPath leaf path es) := by
  induction path generalizing n es with
  | nil => exact h.insertValue (hleaf.mono hn)
  | cons part rest ih =>
    obtain ⟨n, rfl⟩ : ∃ n', n = n' + 1 := ⟨n - 1, by rw [length_cons] at hn; omega⟩
    have hsub : IsDict n (subtree (es.lookup part)) :=
      isDict_subtree fun v hv => isValue_of_lookup h hv
    exact h.insertValue (ih (by rw [length_cons] at hn; omega) hsub).isValue

/-- **Files that the walk takes**: with names it allows, not too deep, and
with descriptions that it reads. -/
def Readable (read : List Name → Bencode → V2.V2File) (path : List Name)
    (files : List (List Name × Bencode)) : Prop :=
  ∀ f ∈ files, Nameable f.1 ∧ path.length + f.1.length ≤ maxTreeDepth ∧
    leafFile (path ++ f.1) f.2 = .ok (read (path ++ f.1) f.2)

variable {read : List Name → Bencode → V2.V2File} {path : List Name} {name : Name} {child : Bencode}

theorem Readable.under (h : Readable read path (treeFilesIn ((name, child) :: es))) :
    Readable read (path ++ [name]) (treeFiles child) := by
  intro f hf
  obtain ⟨hnames, hlen, hleaf⟩ := h (name :: f.1, f.2) (mem_append_left _ (mem_map.2 ⟨f, hf, rfl⟩))
  rw [append_assoc, length_append, length_singleton]
  rw [length_cons] at hlen
  exact ⟨fun c hc => hnames c (mem_cons_of_mem _ hc), by omega, hleaf⟩

theorem Readable.rest (h : Readable read path (treeFilesIn ((name, child) :: es))) :
    Readable read path (treeFilesIn es) :=
  fun f hf => h f (mem_append_right _ hf)

theorem ne_nil_of_mem_treeFilesIn (hf : f ∈ treeFilesIn es) : f.1 ≠ [] := by
  induction es with
  | nil => cases hf
  | cons e es ih =>
    rw [treeFilesIn] at hf
    rcases mem_append.1 hf with hf | hf
    · obtain ⟨g, -, rfl⟩ := mem_map.1 hf
      exact cons_ne_nil _ _
    · exact ih hf

mutual

theorem walk_node {path : List Name} (hpath : path ≠ []) (files : List V2.V2File) :
    ∀ node : Bencode, IsNode node → Readable read path (treeFiles node) →
      files.length + (treeFiles node).length ≤ maxFiles →
      walk path files node = .ok (files ++ (treeFiles node).map fun f => read (path ++ f.1) f.2)
  | .dict es, hnode, hread, hcount => by
    rw [IsNode] at hnode
    rcases hnode with ⟨leaf, rfl⟩ | ⟨hne, hdir⟩
    · have hleaf := (hread ([], leaf) mem_cons_self).2.2
      rw [append_nil] at hleaf
      have hroom : ¬ maxFiles ≤ files.length := by
        have : files.length + 1 ≤ maxFiles := hcount
        omega
      rw [walk, Bencode.lookup_cons, if_pos rfl]
      dsimp only
      rw [if_neg (by simp [hpath]), if_neg hroom, hleaf]
      simp [treeFiles, bind, Except.bind, pure, Except.pure]
    · rw [treeFiles_of_isDirectory hdir] at hread hcount ⊢
      obtain ⟨f, hf⟩ := exists_mem_of_ne_nil _ (treeFilesIn_ne_nil es hne hdir)
      have hdepth : ¬ maxTreeDepth ≤ path.length := by
        have := (hread f hf).2.1
        have := length_pos_of_ne_nil (ne_nil_of_mem_treeFilesIn hf)
        omega
      rw [walk, lookup_nil_of_isDirectory hdir]
      dsimp only
      rw [if_neg hdepth]
      exact walkEntries_directory path files es hdir hread hcount
  | .int _, h, _, _ => by cases h
  | .bytes _, h, _, _ => by cases h
  | .list _, h, _, _ => by cases h

theorem walkEntries_directory (path : List Name) (files : List V2.V2File) :
    ∀ es : Entries, IsDirectory es → Readable read path (treeFilesIn es) →
      files.length + (treeFilesIn es).length ≤ maxFiles →
      walkEntries path files es =
        .ok (files ++ (treeFilesIn es).map fun f => read (path ++ f.1) f.2)
  | [], _, _, _ => by rw [walkEntries, treeFilesIn, map_nil, append_nil]
  | (name, child) :: es, hdir, hread, hcount => by
    rw [IsDirectory] at hdir
    obtain ⟨-, -, hnode, hdir⟩ := hdir
    obtain ⟨f, hf⟩ := exists_mem_of_ne_nil _ (treeFiles_ne_nil child hnode)
    obtain ⟨hvalid, hsafe⟩ := (hread (name :: f.1, f.2)
      (mem_append_left _ (mem_map.2 ⟨f, hf, rfl⟩))).1 name mem_cons_self
    rw [treeFilesIn, length_append, length_map] at hcount
    rw [walkEntries, hvalid, hsafe, walk_node (by simp) files child hnode hread.under (by omega)]
    simp only [Bool.not_true, Bool.false_eq_true, ↓reduceIte, bind, Except.bind]
    rw [walkEntries_directory path _ es hdir hread.rest
      (by rw [length_append, length_map]; omega), treeFilesIn]
    simp [Function.comp_def]

end

/-- **What the limits of a walk allow.** -/
structure Within (files : List V2.V2File) : Prop where
  count : files.length ≤ maxFiles
  depth : ∀ f ∈ files, f.path.length ≤ maxTreeDepth

theorem parseFileTree_within {tree : Bencode} {files : List V2.V2File}
    (h : parseFileTree tree = .ok files) : Within files := by
  refine walk_rule (fun path files leaf f hpath hroom hfile hfiles => ⟨?_, ?_⟩) (Nat.zero_le _)
    ⟨Nat.zero_le _, by simp⟩ tree files h
  · rw [length_append, length_singleton]
    omega
  · refine forall_mem_append.2 ⟨hfiles.depth, forall_mem_singleton.2 ?_⟩
    rw [(leafFile_spec hfile).1]
    exact hpath

end Create

namespace DiskNode

mutual

theorem prefix_of_mem_files {path : List Name} :
    ∀ (node : DiskNode) {f : List Name × DiskFile}, f ∈ node.files path → path <+: f.1
  | file _, f, hf => by
    rw [files, mem_singleton] at hf
    rw [hf]
  | dir entries, f, hf => by
    obtain ⟨name, -, hname⟩ := prefix_of_mem_filesOf entries hf
    exact (prefix_append path [name]).trans hname
  | other, f, hf => by cases hf
  | failing _, f, hf => by cases hf

theorem prefix_of_mem_filesOf {path : List Name} :
    ∀ (entries : List (Name × DiskNode)) {f : List Name × DiskFile}, f ∈ filesOf path entries →
      ∃ name ∈ entries.map Prod.fst, path ++ [name] <+: f.1
  | [], f, hf => by cases hf
  | (name, node) :: entries, f, hf => by
    rw [filesOf] at hf
    rcases mem_append.1 hf with hf | hf
    · exact ⟨name, mem_cons_self, prefix_of_mem_files node hf⟩
    · obtain ⟨name', hmem, hname'⟩ := prefix_of_mem_filesOf entries hf
      exact ⟨name', mem_cons_of_mem _ hmem, hname'⟩

end

mutual

theorem pairwise_files (path : List Name) : ∀ node : DiskNode, node.Distinct →
    (node.files path).Pairwise fun f g => Apart f.1 g.1
  | file _, _ => pairwise_singleton _ _
  | dir entries, h => by
    rw [Distinct] at h
    exact pairwise_filesOf path entries h.1 h.2
  | other, _ => List.Pairwise.nil
  | failing _, _ => List.Pairwise.nil

theorem pairwise_filesOf (path : List Name) : ∀ entries : List (Name × DiskNode),
    (entries.map Prod.fst).Nodup → DistinctIn entries →
      (filesOf path entries).Pairwise fun f g => Apart f.1 g.1
  | [], _, _ => List.Pairwise.nil
  | (name, node) :: entries, hnodup, h => by
    rw [map_cons, nodup_cons] at hnodup
    rw [DistinctIn] at h
    rw [filesOf, pairwise_append]
    refine ⟨pairwise_files _ node h.1, pairwise_filesOf path entries hnodup.2 h.2, ?_⟩
    intro f hf g hg
    obtain ⟨name', hmem, hname'⟩ := prefix_of_mem_filesOf entries hg
    have hne : name ≠ name' := by
      rintro rfl
      exact hnodup.1 hmem
    exact apart_of_ne hne (prefix_of_mem_files node hf) hname'

end

end DiskNode

instance : Std.Total pathBefore where
  total f g := by
    rcases List.le_total f.1 g.1 with h | h
    · exact .inl (List.not_lt.2 h)
    · exact .inr (List.not_lt.2 h)

instance : IsTrans (List Name × DiskFile) pathBefore where
  trans _ _ _ h h' := List.not_lt.2 (List.le_trans (List.not_lt.1 h) (List.not_lt.1 h'))

/-- One path after another, and apart from it. -/
def After (f g : List Name × DiskFile) : Prop := f.1 < g.1 ∧ Apart f.1 g.1

theorem Source.pairwise_files {source : Source} {root : SourceRoot} (hroot : source.root = .ok root)
    (name : Name) : (root.files name).Pairwise After := by
  cases root with
  | file f => exact pairwise_singleton _ _
  | dir nodes =>
    have hdistinct := source.distinct nodes hroot
    rw [DiskNode.Distinct] at hdistinct
    have hapart : (SourceRoot.files name (.dir nodes)).Pairwise fun f g => Apart f.1 g.1 :=
      ((perm_insertionSort pathBefore _).pairwise_iff fun h => h.symm).2
        (DiskNode.pairwise_filesOf [] nodes hdistinct.1 hdistinct.2)
    have hsorted : (SourceRoot.files name (.dir nodes)).Pairwise pathBefore :=
      pairwise_insertionSort pathBefore _
    refine (hsorted.and hapart).imp fun ⟨hbefore, hap⟩ => ⟨?_, hap⟩
    rcases List.le_iff_lt_or_eq.1 (List.not_lt.1 hbefore) with hlt | heq
    · exact hlt
    · exact absurd (heq ▸ prefix_refl _) hap.1

end BitTorrent
