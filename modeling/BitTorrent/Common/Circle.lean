import Mathlib.Data.List.Basic
import Mathlib.Data.Nat.Init

/-!
# Numbers counted round a circle

A counter that is kept in sixteen bits goes round.
-/

namespace BitTorrent.Circular

open List Option

/-- Half the circle, in numbers. -/
def halfCircle : ℕ := 0x8000

variable {m n : ℕ}

theorem toNat_sub_of_le (h : n ≤ m) (hm : m < n + 65536) :
    (UInt16.ofNat m - UInt16.ofNat n).toNat = m - n := by
  simp only [UInt16.toNat_sub, UInt16.toNat_ofNat']
  omega

theorem toNat_sub_of_lt (h : m < n) (hn : n < m + 65536) :
    (UInt16.ofNat m - UInt16.ofNat n).toNat = 65536 - (n - m) := by
  simp only [UInt16.toNat_sub, UInt16.toNat_ofNat']
  omega

theorem ofNat_inj (hm : m < n + 65536) (hn : n < m + 65536) :
    UInt16.ofNat m = UInt16.ofNat n ↔ m = n := by
  refine ⟨fun h => ?_, fun h => by rw [h]⟩
  have hmod : (UInt16.ofNat m).toNat = (UInt16.ofNat n).toNat := by rw [h]
  simp only [UInt16.toNat_ofNat'] at hmod
  omega

theorem ofNat_add_one (n : ℕ) : UInt16.ofNat n + 1 = UInt16.ofNat (n + 1) := by
  rw [UInt16.ofNat_add]
  rfl

theorem ofNat_add_one_sub_one (n : ℕ) : UInt16.ofNat (n + 1) - 1 = UInt16.ofNat n := by
  rw [← ofNat_add_one, UInt16.add_sub_cancel]

theorem ofNat_turn_add_toNat (n : UInt16) : UInt16.ofNat (65536 + n.toNat) = n := by
  apply UInt16.toNat_inj.1
  have := n.toNat_lt
  simp only [UInt16.toNat_ofNat']
  omega

/-- **The last number up to `near` that is kept as `n`.** -/
def behind (near : ℕ) (n : UInt16) : ℕ :=
  near - (UInt16.ofNat near - n).toNat

/-- **The first number from `near` on that is kept as `n`.** -/
def ahead (near : ℕ) (n : UInt16) : ℕ :=
  near + (n - UInt16.ofNat near).toNat

variable {near n : ℕ}

theorem behind_ofNat (h : n ≤ near) (hn : near < n + 65536) : behind near (UInt16.ofNat n) = n := by
  rw [behind, toNat_sub_of_le h hn]
  omega

theorem ahead_ofNat (h : near ≤ n) (hn : n < near + 65536) : ahead near (UInt16.ofNat n) = n := by
  rw [ahead, toNat_sub_of_le h hn]
  omega

variable {α : Type*} {base k m i : ℕ} {l : List α} {x : α}

/-- **The elements of a list with their numbers**, from `base` on. -/
def numbered (base : ℕ) (l : List α) : List (UInt16 × α) :=
  (l.zipIdx base).map fun x => (UInt16.ofNat x.2, x.1)

@[simp] theorem length_numbered : (numbered base l).length = l.length := by
  simp [numbered]

theorem getElem?_numbered :
    (numbered base l)[i]? = l[i]?.map fun x => (UInt16.ofNat (base + i), x) := by
  simp [numbered, Function.comp_def]

theorem numbered_append_singleton :
    numbered base (l ++ [x]) = numbered base l ++ [(UInt16.ofNat (base + l.length), x)] := by
  simp [numbered, zipIdx_append]

theorem mem_drop_numbered {y : UInt16 × α} (h : y ∈ (numbered base l).drop k) :
    ∃ i, k ≤ i ∧ l[i]? = some y.2 ∧ y.1 = UInt16.ofNat (base + i) := by
  obtain ⟨j, hj⟩ := mem_iff_getElem?.1 h
  rw [getElem?_drop, getElem?_numbered, map_eq_some_iff] at hj
  obtain ⟨x, hx, rfl⟩ := hj
  exact ⟨k + j, by omega, hx, rfl⟩

theorem dropWhile_drop {L : List α} {P : α → Bool} (hkm : k ≤ m)
    (hpass : ∀ i x, k ≤ i → i < m → L[i]? = some x → P x = true)
    (hstop : ∀ x, L[m]? = some x → P x = false) :
    (L.drop k).dropWhile P = L.drop m := by
  induction hkm using Nat.decreasingInduction with
  | self =>
    rcases hlast : L.drop m with _ | ⟨x, rest⟩
    · rfl
    · have hx : L[m]? = some x := by
        have := head?_drop (l := L) (i := m)
        rwa [hlast, head?_cons, eq_comm] at this
      rw [dropWhile_cons_of_neg (by simp [hstop x hx])]
  | of_succ j hj ih =>
    rcases Nat.lt_or_ge j L.length with hlt | hge
    · have hx := hpass j _ (Nat.le_refl j) hj (getElem?_eq_getElem hlt)
      rw [drop_eq_getElem_cons hlt, dropWhile_cons_of_pos hx]
      exact ih fun i x hi => hpass i x (by omega)
    · rw [drop_of_length_le hge, drop_of_length_le (by omega), dropWhile_nil]

theorem dropWhile_numbered {P : UInt16 → Bool} (hkm : k ≤ m)
    (hpass : ∀ i, k ≤ i → i < m → P (UInt16.ofNat (base + i)) = true)
    (hstop : m < l.length → P (UInt16.ofNat (base + m)) = false) :
    ((numbered base l).drop k).dropWhile (fun y => P y.1) = (numbered base l).drop m := by
  refine dropWhile_drop hkm (fun i y hi him hy => ?_) (fun y hy => ?_)
  · rw [getElem?_numbered, map_eq_some_iff] at hy
    obtain ⟨x, -, rfl⟩ := hy
    exact hpass i hi him
  · rw [getElem?_numbered, map_eq_some_iff] at hy
    obtain ⟨x, hx, rfl⟩ := hy
    exact hstop (List.getElem?_eq_some_iff.1 hx).1

/-- Numbers one after the other round the circle, the last of them just
before `next`. -/
def EndsBefore (next : UInt16) (ns : List UInt16) : Prop :=
  ∀ i n, ns[i]? = some n → n + .ofNat (ns.length - i) = next

namespace EndsBefore

variable {next : UInt16} {ns ms : List UInt16}

theorem nil : EndsBefore next [] := fun i n h => by simp at h

theorem concat (h : EndsBefore next ns) : EndsBefore (next + 1) (ns ++ [next]) := by
  intro i n hn
  rcases Nat.lt_or_ge i ns.length with hlt | hge
  · rw [getElem?_append_left hlt] at hn
    have hlen : (ns ++ [next]).length - i = ns.length - i + 1 := by simp; omega
    rw [hlen, ← ofNat_add_one, ← UInt16.add_assoc, h i n hn]
  · rw [getElem?_append_right hge, getElem?_singleton] at hn
    have heq : i = ns.length := by
      by_contra hne
      rw [if_neg (by omega)] at hn
      cases hn
    rw [if_pos (by omega), some.injEq] at hn
    rw [heq, hn]
    simp

theorem of_append (h : EndsBefore next (ms ++ ns)) : EndsBefore next ns := by
  intro i n hn
  have hall := h (ms.length + i) n (by rw [getElem?_append_right (by omega)]; simpa using hn)
  have hlen : (ms ++ ns).length - (ms.length + i) = ns.length - i := by simp; omega
  rwa [hlen] at hall

end EndsBefore

end BitTorrent.Circular
