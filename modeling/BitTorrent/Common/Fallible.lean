import Mathlib.Logic.Basic

/-!
# Fallible computations

When a computation in `Except` succeeds, said step by step: a bind succeeds when both parts do,
and a check succeeds when its condition does not hold.
-/

namespace BitTorrent

open List Option

universe u v

variable {ε : Type u} {α β : Type v} {x : Except ε α} {f : α → Except ε β} {b : β} {e : ε}

theorem bind_eq_ok_iff : (x >>= f) = .ok b ↔ ∃ a, x = .ok a ∧ f a = .ok b := by
  cases x with
  | error | ok => simp [bind, Except.bind]

theorem check_eq_ok_iff {c : Prop} [Decidable c] {y : Except ε β} :
    (if c then .error e else y) = .ok b ↔ ¬ c ∧ y = .ok b := by
  by_cases hc : c <;> simp [hc]

theorem eq_ok_of_mem_toOption {a : α} (h : a ∈ x.toOption) : x = .ok a := by
  cases x with
  | error e => cases h
  | ok b => exact congrArg _ (some.inj h)

/-- What a computation comes to can be decided. -/
theorem exists_ok {P : α → Prop} (h : ∃ a ∈ x.toOption, P a) : ∃ a, x = .ok a ∧ P a :=
  h.imp fun _ h => h.imp_left eq_ok_of_mem_toOption

variable {α β : Type} {f : α → Option β}

theorem mem_of_mapM_eq_some {xs : List α} {ys : List β}
    (h : xs.mapM f = some ys) : ∀ y ∈ ys, ∃ x ∈ xs, f x = some y := by
  induction xs generalizing ys with
  | nil =>
    cases h
    simp
  | cons x xs ih =>
    simp only [mapM_cons, bind_eq_bind, bind_eq_some_iff, Option.pure_def, some.injEq] at h
    obtain ⟨y, hy, rest, hrest, rfl⟩ := h
    intro z hz
    rcases mem_cons.1 hz with rfl | hz
    · exact ⟨x, by simp, hy⟩
    · obtain ⟨x', hx', hf⟩ := ih hrest z hz
      exact ⟨x', by simp [hx'], hf⟩

theorem exists_foldlM_of_invariant {σ : Type} {f : σ → α → Option σ} {g : β → α → β}
    {I : β → σ → Prop} (hstep : ∀ b s a, I b s → ∃ s', f s a = some s' ∧ I (g b a) s')
    (l : List α) {b : β} {s : σ} (h : I b s) :
    ∃ s', l.foldlM f s = some s' ∧ I (l.foldl g b) s' := by
  induction l generalizing b s with
  | nil => exact ⟨s, rfl, h⟩
  | cons a l ih =>
    obtain ⟨s', hs', h'⟩ := hstep b s a h
    obtain ⟨s'', hs'', h''⟩ := ih h'
    exact ⟨s'', by rw [foldlM_cons, hs', bind_eq_bind, bind_some, hs''], h''⟩

variable {l : List α} {g : α → β}

theorem mapM_eq_pure_map {m : Type → Type} [Monad m] [LawfulMonad m] {f : α → m β}
    (h : ∀ x ∈ l, f x = pure (g x)) : l.mapM f = pure (l.map g) := by
  induction l with
  | nil => rfl
  | cons x l ih =>
    rw [forall_mem_cons] at h
    rw [mapM_cons, h.1, ih h.2, pure_bind, pure_bind, map_cons]

theorem mapM_eq_some_map (h : ∀ x ∈ l, f x = some (g x)) : l.mapM f = some (l.map g) :=
  mapM_eq_pure_map h

theorem mapM_congr_of_mem {g : α → Option β} (h : ∀ x ∈ l, f x = g x) : l.mapM f = l.mapM g := by
  induction l with
  | nil => rfl
  | cons x l ih =>
    rw [forall_mem_cons] at h
    rw [mapM_cons, mapM_cons, h.1, ih h.2]

end BitTorrent
