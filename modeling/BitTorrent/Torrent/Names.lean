import BitTorrent.Disk.FileSystem

/-!
# Names that a torrent may use

`is_safe_component` of `torrent.rs`.
-/

namespace BitTorrent

/-- `is_safe_component`: one ordinary component, with no separator of
either kind and no NUL, and neither `.` nor `..`. -/
def isSafeComponent (part : Name) : Bool :=
  part != [] && !(part.contains 47 || part.contains 92 || part.contains 0) &&
    part != [46] && part != [46, 46]

theorem join_of_isSafeComponent {part : Name} (h : isSafeComponent part = true) (p : Path) :
    Path.join p part = p ++ [part] := by
  simp only [isSafeComponent, Bool.and_eq_true, bne_iff_ne, Bool.not_eq_true', Bool.or_eq_false_iff,
    List.contains_eq_mem, decide_eq_false_iff_not] at h
  obtain ⟨⟨⟨hne, ⟨hslash, -⟩, -⟩, hdot⟩, -⟩ := h
  have hcomp : Path.components part = [part] := by
    rw [Path.components, List.splitOnP_eq_singleton]
    · simp [hne, hdot]
    · intro b hb
      simp only [beq_eq_false_iff_ne]
      rintro rfl
      exact hslash hb
  rw [Path.join, if_neg, hcomp]
  intro hhead
  exact hslash (List.mem_of_head? hhead)

theorem foldl_join_of_isSafeComponent {parts : List Name}
    (h : ∀ part ∈ parts, isSafeComponent part = true) (base : Path) :
    parts.foldl Path.join base = base ++ parts := by
  induction parts generalizing base with
  | nil => simp
  | cons part parts ih =>
    rw [List.foldl_cons, join_of_isSafeComponent (h part (by simp)),
      ih fun p hp => h p (by simp [hp])]
    simp

end BitTorrent
