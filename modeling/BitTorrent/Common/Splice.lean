import Mathlib.Data.List.Basic
import Mathlib.Tactic.Linarith

/-!
# Ranges of a list, read and overwritten

`slice` reads a range and `splice` writes one, over lists of any type.
-/

namespace BitTorrent

open List

variable {α : Type*}

/-- The `n` elements from `off` on, fewer where the list ends first. -/
def slice (l : List α) (off n : ℕ) : List α := (l.drop off).take n

/-- The list with the range that starts at `off` replaced by `xs`. -/
def splice (l : List α) (off : ℕ) (xs : List α) : List α :=
  l.take off ++ xs ++ l.drop (off + xs.length)

@[simp] theorem length_slice (l : List α) (off n : ℕ) :
    (slice l off n).length = min n (l.length - off) := by
  simp [slice]

theorem getElem?_slice (l : List α) (off n i : ℕ) :
    (slice l off n)[i]? = if i < n then l[off + i]? else none := by
  simp only [slice, getElem?_take, getElem?_drop]

theorem slice_slice {l : List α} {a m j k : ℕ} (h : j + k ≤ m) :
    slice (slice l a m) j k = slice l (a + j) k := by
  apply ext_getElem?
  intro i
  rw [getElem?_slice, getElem?_slice, getElem?_slice]
  split
  · rw [if_pos (by omega), Nat.add_assoc]
  · rfl

variable (f : ℕ → α)

theorem slice_map_range {n a m : ℕ} (h : a + m ≤ n) :
    slice ((range n).map f) a m = (range m).map fun i => f (a + i) := by
  refine ext_getElem? fun i => ?_
  rw [getElem?_slice, getElem?_map, getElem?_map]
  by_cases hi : i < m
  · rw [if_pos hi, getElem?_range hi, getElem?_range (by omega)]
    rfl
  · have hnone : (range m)[i]? = none := getElem?_eq_none (by simpa using hi)
    rw [if_neg hi, hnone]
    rfl

theorem getD_map_range_of_lt {n i : ℕ} (h : i < n) (d : α) :
    ((range n).map f).getD i d = f i := by
  rw [getD_eq_getElem?_getD, getElem?_map, getElem?_range h]
  rfl

variable {l xs : List α} {off : ℕ}

theorem length_splice (h : off + xs.length ≤ l.length) : (splice l off xs).length = l.length := by
  simp only [splice, length_append, length_take, length_drop]
  omega

theorem getElem?_splice (h : off ≤ l.length) (i : ℕ) : (splice l off xs)[i]? =
      if i < off then l[i]? else if i < off + xs.length then xs[i - off]? else l[i]? := by
  have hlen : (l.take off).length = off := by simp [h]
  unfold splice
  rw [append_assoc]
  split
  · rename_i hi
    rw [getElem?_append_left (by omega), getElem?_take, if_pos hi]
  · rename_i hi
    rw [getElem?_append_right (by omega), hlen]
    split
    · rename_i hi'
      rw [getElem?_append_left (by omega)]
    · rename_i hi'
      rw [getElem?_append_right (by omega), getElem?_drop]
      congr 1
      omega

theorem slice_splice_self (h : off + xs.length ≤ l.length) :
    slice (splice l off xs) off xs.length = xs := by
  apply ext_getElem?
  intro i
  rw [getElem?_slice, getElem?_splice (by omega)]
  split
  · rename_i hi
    rw [if_neg (by omega), if_pos (by omega), Nat.add_sub_cancel_left]
  · rename_i hi
    rw [getElem?_eq_none (by omega)]

theorem slice_splice_of_disjoint {a n : ℕ} (h : off ≤ l.length)
    (hd : a + n ≤ off ∨ off + xs.length ≤ a) : slice (splice l off xs) a n = slice l a n := by
  apply ext_getElem?
  intro i
  rw [getElem?_slice, getElem?_slice]
  split
  · rename_i hi
    rw [getElem?_splice h]
    rcases hd with hd | hd
    · rw [if_pos (by omega)]
    · rw [if_neg (by omega), if_neg (by omega)]
  · rfl

theorem eq_of_slice_eq {l' : List α} (hlen : l.length = l'.length)
    (h : ∀ i < l.length, ∃ off n, off ≤ i ∧ i < off + n ∧ slice l off n = slice l' off n) :
    l = l' := by
  apply ext_getElem?
  intro i
  rcases Nat.lt_or_ge i l.length with hi | hi
  · obtain ⟨off, n, h₁, h₂, heq⟩ := h i hi
    have := congrArg (fun x => x[i - off]?) heq
    simp only [getElem?_slice] at this
    rwa [if_pos (by omega), if_pos (by omega), Nat.add_sub_cancel' h₁] at this
  · rw [getElem?_eq_none hi, getElem?_eq_none (by omega)]

end BitTorrent
