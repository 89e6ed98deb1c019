import Mathlib.Data.List.Basic
import Mathlib.Data.List.Induction

/-!
# Runs of a labelled transition system

A system is what its steps may do, each under a label that records what the step was asked and
what it answered.
-/

namespace BitTorrent

open List Option

/-- **A labelled transition system.** `step s e t` says that the system
may go from `s` to `t` under the label `e`. -/
structure LTS (σ ε : Type*) where
  step : σ → ε → σ → Prop

namespace LTS

variable {σ ε γ ι : Type*} {L : LTS σ ε}

/-- **A run** from `s` to `t`, with the labels of its steps in order. -/
inductive Run (L : LTS σ ε) (s : σ) : List ε → σ → Prop
  /-- Nothing has happened yet. -/
  | nil : Run L s [] s
  /-- One step more. -/
  | snoc {es : List ε} {t u : σ} {e : ε} :
      Run L s es t → L.step t e u → Run L s (es ++ [e]) u

/-- **A system whose steps are held to a condition** on the state before
the step, its label and the state after. -/
def restrict (L : LTS σ ε) (G : σ → ε → σ → Prop) : LTS σ ε where
  step s e t := L.step s e t ∧ G s e t

/-- **A system with a ghost**: something that is kept beside its state, as
the labels say. -/
def withGhost (L : LTS σ ε) (update : γ → ε → γ) : LTS (σ × γ) ε where
  step s e t := L.step s.1 e t.1 ∧ t.2 = update s.2 e

namespace Run

variable {s t u : σ} {es fs : List ε}

theorem append (h₁ : L.Run s es t) (h₂ : L.Run t fs u) : L.Run s (es ++ fs) u := by
  induction h₂ with
  | nil => rwa [append_nil]
  | snoc _ hstep ih =>
    rw [← append_assoc]
    exact ih.snoc hstep

theorem split (h : L.Run s (es ++ fs) u) : ∃ t, L.Run s es t ∧ L.Run t fs u := by
  induction fs using reverseRecOn generalizing u with
  | nil =>
    rw [append_nil] at h
    exact ⟨u, h, .nil⟩
  | append_singleton fs e ih =>
    rw [← append_assoc] at h
    generalize hall : es ++ fs ++ [e] = all at h
    cases h with
    | nil => exact absurd hall (by simp)
    | snoc hrun hstep =>
      obtain ⟨rfl, rfl⟩ := append_singleton_inj.1 hall
      obtain ⟨t, hfirst, hrest⟩ := ih hrun
      exact ⟨t, hfirst, hrest.snoc hstep⟩

theorem step_of_singleton {e : ε} (h : L.Run s [e] t) : L.step s e t := by
  generalize hall : [e] = all at h
  cases h with
  | nil => cases hall
  | snoc hrun hstep =>
    obtain ⟨rfl, rfl⟩ := append_singleton_inj.1 (show [] ++ [e] = _ from hall)
    generalize hnil : ([] : List ε) = none at hrun
    cases hrun with
    | nil => exact hstep
    | snoc => exact absurd hnil (by simp)

theorem of_restrict {G : σ → ε → σ → Prop} (h : (L.restrict G).Run s es t) : L.Run s es t := by
  induction h with
  | nil => exact .nil
  | snoc _ hstep ih => exact ih.snoc hstep.1

theorem restrict_of_labels {G : σ → ε → σ → Prop} (h : L.Run s es t)
    (hG : ∀ e ∈ es, ∀ s t, G s e t) : (L.restrict G).Run s es t := by
  induction h with
  | nil => exact .nil
  | snoc _ hstep ih =>
    rw [forall_mem_append] at hG
    exact (ih hG.1).snoc ⟨hstep, hG.2 _ (by simp) _ _⟩

theorem ghost_eq {update : γ → ε → γ} {s t : σ × γ} (h : (L.withGhost update).Run s es t) :
    t.2 = es.foldl update s.2 := by
  induction h with
  | nil => rfl
  | snoc _ hstep ih => rw [foldl_append, ← ih, hstep.2, foldl_cons, foldl_nil]

variable {I : σ → Prop}

theorem invariant (hstep : ∀ s e t, I s → L.step s e t → I t)
    (h : L.Run s es t) (hs : I s) : I t := by
  induction h with
  | nil => exact hs
  | snoc _ he ih => exact hstep _ _ _ ih he

theorem history {I : List ε → σ → Prop}
    (hstep : ∀ es s e t, I es s → L.step s e t → I (es ++ [e]) t)
    (h : L.Run s es t) (hs : I [] s) : I es t := by
  induction h with
  | nil => exact hs
  | snoc _ he ih => exact hstep _ _ _ _ ih he

theorem invariant_of_labels {G : ε → Prop} (hstep : ∀ s e t, G e → I s → L.step s e t → I t)
    (h : L.Run s es t) (hG : ∀ e ∈ es, G e) (hs : I s) : I t := by
  induction h with
  | nil => exact hs
  | snoc _ he ih =>
    rw [forall_mem_append] at hG
    exact hstep _ _ _ (hG.2 _ (by simp)) (ih hG.1) he

end Run

theorem run_of_foldl {next : σ → ε → σ} (hnext : ∀ s e, L.step s e (next s e)) (s : σ)
    (es : List ε) : L.Run s es (es.foldl next s) := by
  induction es using reverseRecOn with
  | nil => exact .nil
  | append_singleton es e ih =>
    rw [foldl_append]
    exact ih.snoc (hnext _ e)

variable {next : σ → ε → Option σ} {s t : σ} {es : List ε}

theorem run_of_foldlM (hnext : ∀ s e t, next s e = some t → L.step s e t)
    (h : es.foldlM next s = some t) : L.Run s es t := by
  induction es using reverseRecOn generalizing t with
  | nil =>
    cases h
    exact .nil
  | append_singleton es e ih =>
    rw [foldlM_append] at h
    obtain ⟨u, hu, hstep⟩ := bind_eq_some_iff.1 h
    refine (ih hu).snoc (hnext u e t ?_)
    simpa using hstep

/-- Where `next` leads, if `G` allows it. -/
def guarded (G : σ → ε → σ → Prop) [∀ s e t, Decidable (G s e t)] (next : σ → ε → Option σ)
    (s : σ) (e : ε) : Option σ :=
  (next s e).filter fun t => G s e t

theorem run_of_guarded {G : σ → ε → σ → Prop} [∀ s e t, Decidable (G s e t)]
    (hnext : ∀ s e t, next s e = some t → L.step s e t)
    (h : es.foldlM (guarded G next) s = some t) : (L.restrict G).Run s es t := by
  refine run_of_foldlM (fun s e t h => ?_) h
  obtain ⟨hstep, hG⟩ := Option.filter_eq_some_iff.1 h
  exact ⟨hnext s e t hstep, of_decide_eq_true hG⟩

/-- **A run played by a plan**: each entry says, of the state it finds,
what happens next, and `next` where that leads. The play stops at what
may not happen. -/
def play (next : σ → ε → Option σ) : σ → List (σ → Option ε) → Option σ
  | s, [] => some s
  | s, choose :: plan =>
    match choose s with
    | none => none
    | some e =>
      match next s e with
      | none => none
      | some t => play next t plan

theorem run_of_play (hnext : ∀ s e t, next s e = some t → L.step s e t)
    {plan : List (σ → Option ε)} (h : play next s plan = some t) :
    ∃ es, L.Run s es t := by
  induction plan generalizing s with
  | nil =>
    cases h
    exact ⟨[], .nil⟩
  | cons choose plan ih =>
    rw [play] at h
    split at h
    · contradiction
    · rename_i e _
      split at h
      · contradiction
      · rename_i u hu
        obtain ⟨es, hrun⟩ := ih h
        exact ⟨[e] ++ es, (Run.nil.snoc (hnext s e u hu)).append hrun⟩

/-- **A run driven by inputs**: each step takes the next of them, and says
what its label is. -/
def drive (next : σ → ι → Option (ε × σ)) : σ → List ι → Option (List ε × σ)
  | s, [] => some ([], s)
  | s, i :: inputs =>
    match next s i with
    | none => none
    | some (e, t) => (drive next t inputs).map fun r => (e :: r.1, r.2)

theorem run_of_drive {next : σ → ι → Option (ε × σ)}
    (hnext : ∀ s i e t, next s i = some (e, t) → L.step s e t)
    {inputs : List ι} (h : drive next s inputs = some (es, t)) : L.Run s es t := by
  induction inputs generalizing s es with
  | nil =>
    cases h
    exact .nil
  | cons i inputs ih =>
    rw [drive] at h
    split at h
    · contradiction
    · rename_i e u hu
      obtain ⟨r, hr, h⟩ := map_eq_some_iff.1 h
      cases h
      have hone : L.Run s ([] ++ [e]) u := Run.nil.snoc (hnext s i e u hu)
      exact hone.append (ih hr)

end LTS

end BitTorrent
