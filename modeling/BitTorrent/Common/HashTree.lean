import Mathlib.Data.List.Basic
import Mathlib.Tactic.Linarith
import Mathlib.Tactic.Ring

/-!
# Binary trees of hashes

Complete binary trees over any type of hashes and any way of pairing two.
-/

namespace BitTorrent.HashTree

open List

variable {H : Type*} (pair : H → H → H)

/-- **The node** `k` layers above the leaves, at position `i`. -/
def node (leaves : ℕ → H) : ℕ → ℕ → H
  | 0, i => leaves i
  | k + 1, i => pair (node leaves k (2 * i)) (node leaves k (2 * i + 1))

variable {pair} {f g : ℕ → H}

theorem node_node (f : ℕ → H) (j k i : ℕ) :
    node pair (node pair f j) k i = node pair f (j + k) i := by
  induction k generalizing i with
  | zero => rfl
  | succ k ih => simp only [node, ih]; rfl

variable {k i : ℕ}

theorem node_congr (h : ∀ n, i * 2 ^ k ≤ n → n < (i + 1) * 2 ^ k → f n = g n) :
    node pair f k i = node pair g k i := by
  induction k generalizing i with
  | zero => exact h i (by simp) (by simp)
  | succ k ih =>
    have hpow : 2 ^ (k + 1) = 2 * 2 ^ k := by ring
    have hleft : node pair f k (2 * i) = node pair g k (2 * i) :=
      ih fun n h₁ h₂ => h n (by rw [hpow]; linarith) (by rw [hpow]; linarith)
    have hright : node pair f k (2 * i + 1) = node pair g k (2 * i + 1) :=
      ih fun n h₁ h₂ => h n (by rw [hpow]; linarith) (by rw [hpow]; linarith)
    rw [node, node, hleft, hright]

theorem node_shift (f : ℕ → H) (k a i : ℕ) :
    node pair (fun n => f (a * 2 ^ k + n)) k i = node pair f k (a + i) := by
  induction k generalizing a i with
  | zero => simp [node]
  | succ k ih =>
    have hpow : ∀ n, a * 2 ^ (k + 1) + n = 2 * a * 2 ^ k + n := fun n => by ring
    simp only [node, hpow, ih]
    rw [show 2 * a + 2 * i = 2 * (a + i) by ring,
      show 2 * a + (2 * i + 1) = 2 * (a + i) + 1 by ring]

/-- The root of a tree all of whose leaves are the same. -/
def tower (pair : H → H → H) (z : H) : ℕ → H
  | 0 => z
  | k + 1 => pair (tower pair z k) (tower pair z k)

theorem node_const (z : H) (k i : ℕ) : node pair (fun _ => z) k i = tower pair z k := by
  induction k generalizing i with
  | zero => rfl
  | succ k ih => rw [node, ih, ih, tower]

theorem node_eq_tower {z : H} (h : ∀ n, i * 2 ^ k ≤ n → n < (i + 1) * 2 ^ k → f n = z) :
    node pair f k i = tower pair z k := by
  rw [node_congr h, node_const]

variable (pair) in
/-- One layer up: neighbours are paired. -/
def levelUp : List H → List H
  | left :: right :: rest => pair left right :: levelUp rest
  | _ => []

theorem levelUp_map_range (f : ℕ → H) (m : ℕ) :
    levelUp pair ((range (2 * m)).map f) = (range m).map (node pair f 1) := by
  induction m generalizing f with
  | zero => rfl
  | succ m ih =>
    rw [show 2 * (m + 1) = 2 * m + 1 + 1 by ring, range_succ_eq_map, range_succ_eq_map,
      range_succ_eq_map]
    simp only [map_cons, map_map, levelUp]
    have := ih fun n => f (n + 2)
    simp only [node, Function.comp_def] at this ⊢
    rw [this]
    rfl

variable (pair) in
/-- From a node at `position` up through the siblings on the way. -/
def climb (v : H) (position : ℕ) : List H → H
  | [] => v
  | u :: us => climb (if position % 2 = 0 then pair v u else pair u v) (position / 2) us

/-- The other of two neighbours. -/
def sibling (i : ℕ) : ℕ := if i % 2 = 0 then i + 1 else i - 1

theorem sibling_lt (h : i < 2 ^ (k + 1)) : sibling i < 2 ^ (k + 1) := by
  rw [pow_succ] at h ⊢
  unfold sibling
  split <;> omega

theorem xor_one_eq_sibling (i : ℕ) : i ^^^ 1 = sibling i := by
  have hdiv : (i ^^^ 1) / 2 = i / 2 := by rw [Nat.xor_div_two]; simp
  have hmod : (i ^^^ 1) % 2 = 1 ↔ ¬ (i % 2 = 1 ↔ 1 % 2 = 1) := Nat.xor_mod_two_eq_one
  unfold sibling
  split <;> omega

theorem node_succ_div_two (f : ℕ → H) (k i : ℕ) : node pair f (k + 1) (i / 2) =
      if i % 2 = 0 then pair (node pair f k i) (node pair f k (sibling i))
      else pair (node pair f k (sibling i)) (node pair f k i) := by
  rw [node]
  unfold sibling
  split
  · rename_i h
    rw [show 2 * (i / 2) = i by omega]
  · rename_i h
    rw [show 2 * (i / 2) + 1 = i by omega, show 2 * (i / 2) = i - 1 by omega]

theorem climb_siblings (f : ℕ → H) (n l i : ℕ) : climb pair (node pair f l i) i
        ((range n).map fun j => node pair f (l + j) (sibling (i / 2 ^ j))) =
      node pair f (l + n) (i / 2 ^ n) := by
  induction n generalizing l i with
  | zero => simp [climb]
  | succ n ih =>
    rw [range_succ_eq_map, map_cons, map_map, climb, pow_zero, Nat.div_one,
      Nat.add_zero, ← node_succ_div_two, show l + (n + 1) = l + 1 + n by ring,
      show i / 2 ^ (n + 1) = i / 2 / 2 ^ n by rw [Nat.div_div_eq_div_mul, pow_succ']]
    rw [← ih (l + 1) (i / 2)]
    congr 1
    refine map_congr_left fun j _ => ?_
    simp only [Function.comp_apply, Nat.succ_eq_add_one]
    rw [Nat.div_div_eq_div_mul, ← pow_succ', show l + (j + 1) = l + 1 + j by ring]

/-- **The pairs of a tree** of height `h`: what is paired below its root. -/
def TreePair (pair : H → H → H) (f : ℕ → H) (h : ℕ) (p : H × H) : Prop :=
  ∃ l i, l < h ∧ i < 2 ^ (h - (l + 1)) ∧ p = (node pair f l (2 * i), node pair f l (2 * i + 1))

theorem TreePair.eq_leaves {p : H × H} (h : TreePair pair f 1 p) : p = (f 0, f 1) := by
  obtain ⟨l, i, hl, hi, rfl⟩ := h
  obtain rfl : l = 0 := by omega
  obtain rfl : i = 0 := by simpa using hi
  rfl

/-- The pairs that a climb makes. -/
def climbPairs (pair : H → H → H) (v : H) (position : ℕ) : List H → List (H × H)
  | [] => []
  | u :: us =>
    let p := if position % 2 = 0 then (v, u) else (u, v)
    p :: climbPairs pair (pair p.1 p.2) (position / 2) us

/-- **Pairing does not collide** between pairs of two kinds. -/
def NoCollision (pair : H → H → H) (P Q : H × H → Prop) : Prop :=
  ∀ p q, P p → Q q → pair p.1 p.2 = pair q.1 q.2 → p = q

theorem NoCollision.mono {P P' Q : H × H → Prop} (h : NoCollision pair P Q)
    (hP : ∀ p, P' p → P p) : NoCollision pair P' Q :=
  fun p q hp hq => h p q (hP p hp) hq

variable {h l : ℕ}

theorem eq_node_of_climb {v : H} {position : ℕ} {us : List H}
    (hl : l + us.length = h) (hpos : position < 2 ^ us.length)
    (hfree : NoCollision pair (· ∈ climbPairs pair v position us) (TreePair pair f h))
    (hroot : climb pair v position us = node pair f h 0) : v = node pair f l position := by
  induction us generalizing l v position with
  | nil =>
    rw [length_nil, Nat.add_zero] at hl
    rw [length_nil, pow_zero, Nat.lt_one_iff] at hpos
    rw [hl, hpos]
    exact hroot
  | cons u us ih =>
    rw [length_cons] at hl hpos
    have hl' : l + 1 + us.length = h := by omega
    have hpos' : position / 2 < 2 ^ us.length := by
      rw [pow_succ] at hpos
      omega
    -- what is paired with here is what the tree pairs there
    have hin : TreePair pair f h (node pair f l (2 * (position / 2)),
        node pair f l (2 * (position / 2) + 1)) :=
      ⟨l, position / 2, by omega, by rwa [show h - (l + 1) = us.length by omega], rfl⟩
    rw [climb] at hroot
    rw [climbPairs] at hfree
    by_cases heven : position % 2 = 0
    · simp only [if_pos heven] at hroot hfree
      have hup := ih hl' hpos' (hfree.mono fun p hp => mem_cons_of_mem _ hp) hroot
      have heq := hfree _ _ mem_cons_self hin (by rw [hup, node])
      rw [Prod.mk.injEq] at heq
      rw [heq.1, show 2 * (position / 2) = position by omega]
    · simp only [if_neg heven] at hroot hfree
      have hup := ih hl' hpos' (hfree.mono fun p hp => mem_cons_of_mem _ hp) hroot
      have heq := hfree _ _ mem_cons_self hin (by rw [hup, node])
      rw [Prod.mk.injEq] at heq
      rw [heq.2, show 2 * (position / 2) + 1 = position by omega]

theorem nodes_eq_of_node_eq (hl : l + k ≤ h) (hi : i < 2 ^ (h - (l + k)))
    (hfree : NoCollision pair (TreePair pair g k) (TreePair pair f h))
    (hroot : node pair g k 0 = node pair f (l + k) i) :
    ∀ d ≤ k, ∀ a < 2 ^ d, node pair g (k - d) a = node pair f (l + (k - d)) (i * 2 ^ d + a) := by
  intro d
  induction d with
  | zero =>
    intro _ a ha
    rw [pow_zero, Nat.lt_one_iff] at ha
    simpa [ha] using hroot
  | succ d ih =>
    intro hd a ha
    rw [pow_succ] at ha
    have hup := ih (by omega) (a / 2) (by omega)
    obtain ⟨m, hm⟩ : ∃ m, k = m + (d + 1) := ⟨k - (d + 1), by omega⟩
    rw [show k - d = m + 1 by omega, ← Nat.add_assoc, node, node] at hup
    have hg : TreePair pair g k (node pair g m (2 * (a / 2)), node pair g m (2 * (a / 2) + 1)) :=
      ⟨m, a / 2, by omega, by rw [show k - (m + 1) = d by omega]; omega, rfl⟩
    have hf : TreePair pair f h (node pair f (l + m) (2 * (i * 2 ^ d + a / 2)),
        node pair f (l + m) (2 * (i * 2 ^ d + a / 2) + 1)) := by
      refine ⟨l + m, i * 2 ^ d + a / 2, by omega, ?_, rfl⟩
      rw [show h - (l + m + 1) = h - (l + k) + d by omega, pow_add]
      have hstep : (i + 1) * 2 ^ d ≤ 2 ^ (h - (l + k)) * 2 ^ d := Nat.mul_le_mul_right _ hi
      have : a / 2 < 2 ^ d := by omega
      linarith
    have heq := hfree _ _ hg hf hup
    rw [Prod.mk.injEq] at heq
    rw [show k - (d + 1) = m by omega, pow_succ, ← Nat.mul_assoc, Nat.mul_comm (i * 2 ^ d)]
    by_cases heven : a % 2 = 0
    · rw [show a = 2 * (a / 2) by omega, heq.1]
      congr 1
      omega
    · rw [show a = 2 * (a / 2) + 1 by omega, heq.2]
      congr 1
      omega

theorem leaves_eq_of_node_eq (hl : l + k ≤ h) (hi : i < 2 ^ (h - (l + k)))
    (hfree : NoCollision pair (TreePair pair g k) (TreePair pair f h))
    (hroot : node pair g k 0 = node pair f (l + k) i) {a : ℕ} (ha : a < 2 ^ k) :
    g a = node pair f l (i * 2 ^ k + a) := by
  have := nodes_eq_of_node_eq hl hi hfree hroot k le_rfl a ha
  rwa [Nat.sub_self, Nat.add_zero, node] at this

end BitTorrent.HashTree
