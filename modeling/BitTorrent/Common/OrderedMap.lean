import Mathlib.Data.List.Sort

/-!
# Maps in the order of their keys

A map as the list of its entries, whose keys increase.
-/

namespace BitTorrent

open List

/-- **A map that lists its entries in the order of the keys.** -/
structure OrderedMap (κ ν : Type*) [LinearOrder κ] where
  entries : List (κ × ν)
  increasing : entries.Pairwise fun x y => x.1 < y.1

namespace OrderedMap

variable {κ ν : Type*} [LinearOrder κ] {m : OrderedMap κ ν} {k l : κ} {v w : ν} {f : ν → ν}

/-- The map with no entries. -/
def empty : OrderedMap κ ν := ⟨[], .nil⟩

/-- The value under a key. -/
def get (m : OrderedMap κ ν) (k : κ) : Option ν :=
  (m.entries.find? fun x => decide (x.1 = k)).map Prod.snd

/-- The entries with other keys. -/
def erase (m : OrderedMap κ ν) (k : κ) : OrderedMap κ ν where
  entries := m.entries.filter fun x => decide (x.1 ≠ k)
  increasing := m.increasing.filter _

/-- A value under a key, in the place of the one there. -/
def insert (m : OrderedMap κ ν) (k : κ) (v : ν) : OrderedMap κ ν where
  entries := (m.entries.filter fun x => decide (x.1 < k)) ++
    (k, v) :: m.entries.filter fun x => decide (k < x.1)
  increasing := by
    refine pairwise_append.2 ⟨m.increasing.filter _, ?_, ?_⟩
    · refine pairwise_cons.2 ⟨fun y hy => ?_, m.increasing.filter _⟩
      exact of_decide_eq_true (mem_filter.1 hy).2
    · intro x hx y hy
      have hlt : x.1 < k := of_decide_eq_true (mem_filter.1 hx).2
      rcases mem_cons.1 hy with rfl | hy
      · exact hlt
      · exact hlt.trans (of_decide_eq_true (mem_filter.1 hy).2)

/-- Every value changed, as its key says. -/
def mapValues (m : OrderedMap κ ν) (f : κ → ν → ν) : OrderedMap κ ν where
  entries := m.entries.map fun x => (x.1, f x.1 x.2)
  increasing := pairwise_map.2 m.increasing

/-- The value under a key changed. -/
def modify (m : OrderedMap κ ν) (k : κ) (f : ν → ν) : OrderedMap κ ν :=
  m.mapValues fun l v => if l = k then f v else v

/-- How many values are of a kind. -/
def count (m : OrderedMap κ ν) (p : ν → Bool) : ℕ := m.entries.countP fun x => p x.2

theorem nodup_keys (m : OrderedMap κ ν) : (m.entries.map Prod.fst).Nodup :=
  pairwise_map.2 (m.increasing.imp fun h => ne_of_lt h)

theorem get_eq_some_iff : m.get k = some v ↔ (k, v) ∈ m.entries := by
  have hkey : ∀ {x}, m.entries.find? (fun x => decide (x.1 = k)) = some x → x.1 = k := by
    intro x hx
    simpa using find?_some hx
  unfold get
  rw [Option.map_eq_some_iff]
  constructor
  · rintro ⟨x, hx, rfl⟩
    rw [← hkey hx]
    exact mem_of_find?_eq_some hx
  · intro hmem
    cases hfind : m.entries.find? fun x => decide (x.1 = k) with
    | none => exact absurd (decide_eq_true rfl) (find?_eq_none.1 hfind (k, v) hmem)
    | some x =>
      have hsame := inj_on_of_nodup_map m.nodup_keys (mem_of_find?_eq_some hfind) hmem (hkey hfind)
      exact ⟨x, rfl, by rw [hsame]⟩

variable {x : κ × ν}

theorem mem_insert : x ∈ (m.insert k v).entries ↔ x = (k, v) ∨ (x.1 ≠ k ∧ x ∈ m.entries) := by
  unfold insert
  simp only [mem_append, mem_cons, mem_filter, decide_eq_true_eq]
  constructor
  · rintro (⟨hx, hlt⟩ | rfl | ⟨hx, hlt⟩)
    · exact .inr ⟨hlt.ne, hx⟩
    · exact .inl rfl
    · exact .inr ⟨hlt.ne', hx⟩
  · rintro (rfl | ⟨hne, hx⟩)
    · exact .inr (.inl rfl)
    · rcases lt_or_gt_of_ne hne with hlt | hlt
      · exact .inl ⟨hx, hlt⟩
      · exact .inr (.inr ⟨hx, hlt⟩)

theorem mem_erase : x ∈ (m.erase k).entries ↔ x.1 ≠ k ∧ x ∈ m.entries := by
  simp [erase, and_comm]

theorem mem_mapValues {g : κ → ν → ν} :
    x ∈ (m.mapValues g).entries ↔ ∃ v, (x.1, v) ∈ m.entries ∧ x.2 = g x.1 v := by
  simp only [mapValues, mem_map, Prod.exists]
  constructor
  · rintro ⟨l, w, hmem, rfl⟩
    exact ⟨w, hmem, rfl⟩
  · rintro ⟨w, hmem, hvalue⟩
    exact ⟨x.1, w, hmem, by rw [← hvalue]⟩

theorem mem_modify : x ∈ (m.modify k f).entries ↔
      (x.1 ≠ k ∧ x ∈ m.entries) ∨ (x.1 = k ∧ ∃ v, (k, v) ∈ m.entries ∧ x.2 = f v) := by
  unfold modify
  rw [mem_mapValues]
  by_cases hkey : x.1 = k
  · simp only [hkey, if_true, ne_eq, not_true_eq_false, false_and, true_and, false_or]
  · simp only [hkey, if_false, ne_eq, not_false_eq_true, true_and, false_and, or_false]
    constructor
    · rintro ⟨v, hmem, hvalue⟩
      rwa [← hvalue] at hmem
    · intro hmem
      exact ⟨x.2, hmem, rfl⟩

variable {p : ν → Bool}

theorem count_insert_le (hv : p v = false) : (m.insert k v).count p ≤ m.count p := by
  have hsplit : ((m.entries.filter fun x => decide (x.1 < k)) ++
      m.entries.filter fun x => decide (k < x.1)).Subperm m.entries := by
    refine subperm_of_subset ?_ ?_
    · refine nodup_append.2 ⟨?_, ?_, ?_⟩
      · exact (m.nodup_keys.of_map _).filter _
      · exact (m.nodup_keys.of_map _).filter _
      · intro x hx y hy heq
        have hlt := of_decide_eq_true (mem_filter.1 hx).2
        have hgt := of_decide_eq_true (mem_filter.1 hy).2
        rw [heq] at hlt
        exact lt_asymm hlt hgt
    · intro x hx
      rcases mem_append.1 hx with hx | hx <;> exact mem_of_mem_filter hx
  have hcount := hsplit.countP_le fun x : κ × ν => p x.2
  unfold count insert
  rw [countP_append] at hcount ⊢
  rwa [countP_cons_of_neg (by simp [hv])]

theorem count_erase_le : (m.erase k).count p ≤ m.count p := filter_sublist.countP_le

theorem count_modify_le (hf : ∀ v, m.get k = some v → p (f v) = true → p v = true) :
    (m.modify k f).count p ≤ m.count p := by
  unfold count modify mapValues
  rw [countP_map]
  refine countP_mono_left fun x hx hp => ?_
  dsimp only [Function.comp] at hp
  split at hp
  · rename_i hkey
    exact hf x.2 (get_eq_some_iff.2 (hkey ▸ hx)) hp
  · exact hp

theorem count_modify_le_succ : (m.modify k f).count p ≤ m.count p + 1 := by
  have hsplit : ∀ entries : List (κ × ν), (entries.map Prod.fst).Nodup →
      (entries.countP fun x => p (if x.1 = k then f x.2 else x.2)) ≤
        (entries.countP fun x => p x.2) + 1 := by
    intro entries hnodup
    induction entries with
    | nil => exact Nat.zero_le _
    | cons x xs ih =>
      obtain ⟨hnot, hnodup⟩ := nodup_cons.1 hnodup
      rw [countP_cons, countP_cons]
      by_cases hx : x.1 = k
      · -- nothing after this one is changed
        have hrest : (xs.countP fun x => p (if x.1 = k then f x.2 else x.2)) =
            xs.countP fun x => p x.2 := by
          refine countP_congr fun y hy => ?_
          rw [if_neg]
          rintro rfl
          exact hnot (hx ▸ mem_map_of_mem hy)
        rw [hrest]
        split <;> split <;> omega
      · rw [if_neg hx]
        have := ih hnodup
        omega
  have := hsplit m.entries m.nodup_keys
  unfold count modify mapValues
  rw [countP_map]
  exact this

end OrderedMap

end BitTorrent
