import BitTorrent.Common.Splice

/-!
# Lists in blocks

The whole blocks at the beginning of a list, of one size, and what is left after them.
-/

namespace BitTorrent

open List

variable {α : Type*} {n : ℕ} {l xs ys : List α}

/-- The whole blocks of `n` elements that a list begins with. -/
def wholeBlocks (n : ℕ) (l : List α) : List (List α) :=
  (List.range (l.length / n)).map fun i => slice l (i * n) n

/-- What is left of a list after its whole blocks. -/
def blockRest (n : ℕ) (l : List α) : List α :=
  l.drop (l.length / n * n)

theorem length_blockRest (n : ℕ) (l : List α) : (blockRest n l).length = l.length % n := by
  rw [blockRest, length_drop, Nat.mod_eq_sub_div_mul]

theorem length_blockRest_lt (hn : 0 < n) (l : List α) : (blockRest n l).length < n := by
  rw [length_blockRest]
  exact Nat.mod_lt _ hn

theorem wholeBlocks_of_lt (h : l.length < n) : wholeBlocks n l = [] := by
  rw [wholeBlocks, Nat.div_eq_of_lt h]
  rfl

theorem blockRest_of_lt (h : l.length < n) : blockRest n l = l := by
  rw [blockRest, Nat.div_eq_of_lt h, Nat.zero_mul, drop_zero]

theorem wholeBlocks_append_of_length (hn : 0 < n) (h : xs.length = n) :
    wholeBlocks n (xs ++ ys) = xs :: wholeBlocks n ys := by
  have hcount : (xs ++ ys).length / n = ys.length / n + 1 := by
    rw [length_append, h, Nat.add_div_left _ hn]
  rw [wholeBlocks, hcount, range_succ_eq_map, map_cons, map_map]
  congr 1
  · rw [slice, Nat.zero_mul, drop_zero, take_left' h]
  · refine map_congr_left fun i _ => ?_
    show ((xs ++ ys).drop ((i + 1) * n)).take n = (ys.drop (i * n)).take n
    rw [Nat.succ_mul, Nat.add_comm, ← drop_drop, drop_left' h]

theorem blockRest_append_of_length (hn : 0 < n) (h : xs.length = n) :
    blockRest n (xs ++ ys) = blockRest n ys := by
  have hcount : (xs ++ ys).length / n = ys.length / n + 1 := by
    rw [length_append, h, Nat.add_div_left _ hn]
  rw [blockRest, hcount, Nat.succ_mul, Nat.add_comm, ← drop_drop, drop_left' h]
  rfl

theorem wholeBlocks_of_length (hn : 0 < n) (h : l.length = n) :
    wholeBlocks n l = [l] ∧ blockRest n l = [] := by
  have hblocks : wholeBlocks n (l ++ []) = l :: wholeBlocks n [] :=
    wholeBlocks_append_of_length hn h
  have hrest : blockRest n (l ++ []) = blockRest n [] := blockRest_append_of_length hn h
  rw [append_nil] at hblocks hrest
  rw [hblocks, hrest, wholeBlocks_of_lt hn, blockRest_of_lt hn]
  exact ⟨rfl, rfl⟩

theorem flatten_wholeBlocks_append_blockRest (n : ℕ) (l : List α) :
    (wholeBlocks n l).flatten ++ blockRest n l = l := by
  rcases Nat.eq_zero_or_pos n with rfl | hn
  · simp [wholeBlocks, blockRest]
  induction hlen : l.length using Nat.strong_induction_on generalizing l with
  | _ len ih =>
    rcases Nat.lt_or_ge l.length n with hlt | hge
    · rw [wholeBlocks_of_lt hlt, blockRest_of_lt hlt]
      rfl
    · have hblock : (l.take n).length = n := by simpa using hge
      have hrest := ih (l.drop n).length (by rw [length_drop]; omega) (l.drop n) rfl
      rw [← take_append_drop n l, wholeBlocks_append_of_length hn hblock,
        blockRest_append_of_length hn hblock, flatten_cons, append_assoc, hrest]

theorem length_of_mem_wholeBlocks {b : List α} (h : b ∈ wholeBlocks n l) : b.length = n := by
  obtain ⟨i, hi, rfl⟩ := mem_map.1 h
  have hfits : (i + 1) * n ≤ l.length :=
    (Nat.mul_le_mul_right n (mem_range.1 hi)).trans (Nat.div_mul_le_self _ _)
  rw [Nat.succ_mul] at hfits
  rw [length_slice]
  omega

theorem wholeBlocks_flatten_append (hn : 0 < n) {blocks : List (List α)}
    (h : ∀ b ∈ blocks, b.length = n) (l : List α) :
    wholeBlocks n (blocks.flatten ++ l) = blocks ++ wholeBlocks n l ∧
      blockRest n (blocks.flatten ++ l) = blockRest n l := by
  induction blocks with
  | nil => exact ⟨rfl, rfl⟩
  | cons b blocks ih =>
    obtain ⟨hblocks, hrest⟩ := ih fun x hx => h x (mem_cons_of_mem b hx)
    have hb := h b mem_cons_self
    rw [flatten_cons, append_assoc, wholeBlocks_append_of_length hn hb,
      blockRest_append_of_length hn hb, hblocks, hrest]
    exact ⟨rfl, rfl⟩

theorem wholeBlocks_append (hn : 0 < n) (xs ys : List α) :
    wholeBlocks n (xs ++ ys) = wholeBlocks n xs ++ wholeBlocks n (blockRest n xs ++ ys) ∧
      blockRest n (xs ++ ys) = blockRest n (blockRest n xs ++ ys) := by
  have hsplit := wholeBlocks_flatten_append hn
    (fun b (hb : b ∈ wholeBlocks n xs) => length_of_mem_wholeBlocks hb) (blockRest n xs ++ ys)
  rwa [← append_assoc, flatten_wholeBlocks_append_blockRest] at hsplit

end BitTorrent
