import Stencil.Proofs.Text.Positions

/-!
# Lines in the source

Each line stands in the source as it is, and the column of an offset counts the characters from
where its line begins.
-/

namespace Stencil.Text

theorem exists_lines (t : Text) :
    ∃ line more, lines t = line :: more ∧ line <+: t ∧ ∀ l ∈ more, l <:+: t := by
  induction t with
  | nil => exact ⟨[], [], rfl, List.nil_prefix, nofun⟩
  | cons c t ih =>
    obtain ⟨line, more, hlines, hline, hmore⟩ := ih
    have hcons : t <:+: c :: t := (List.suffix_cons c t).isInfix
    rw [lines_cons]
    by_cases hjoined : Joined (c :: t) 0
    · obtain ⟨rfl, rest, rfl⟩ := hjoined.exists_cons
      obtain ⟨_, hbreak⟩ := lines_break (c := '\n') rfl rest
      obtain rfl := (List.cons.inj (hlines.symm.trans hbreak)).1
      rw [if_pos hjoined]
      exact ⟨[], more, hlines, List.nil_prefix, fun l hl => (hmore l hl).trans hcons⟩
    rw [if_neg hjoined]
    by_cases hbreak : isBreak c = true
    · rw [if_pos hbreak, hlines]
      refine ⟨[], line :: more, rfl, List.nil_prefix, ?_⟩
      exact List.forall_mem_cons.mpr
        ⟨hline.isInfix.trans hcons, fun l hl => (hmore l hl).trans hcons⟩
    · rw [if_neg hbreak, hlines]
      exact ⟨c :: line, more, rfl, List.cons_prefix_cons.mpr ⟨rfl, hline⟩,
        fun l hl => (hmore l hl).trans hcons⟩

theorem infix_of_mem_lines {t line : Text} (h : line ∈ lines t) : line <:+: t := by
  obtain ⟨first, more, hlines, hfirst, hmore⟩ := exists_lines t
  rw [hlines] at h
  rcases List.mem_cons.mp h with rfl | h
  · exact hfirst.isInfix
  · exact hmore line h

/-- The line of the place stands in the text, and the place is as far from its beginning as the
offset is. -/
structure Stands (t : Text) (n : Nat) (p : Nat × Nat) (front line : Text) : Prop where
  row : (lines t)[p.1]? = some line
  front_prefix : front ++ line <+: t
  column : front.length + p.2 = n
  first : p.1 = 0 → front = []

/-- An offset is in the line of its place, unless it is that of a line feed that belongs to the
carriage return in front of it. -/
theorem exists_stands {t : Text} {n : Nat} (h : n ≤ t.length) (hn : ∀ m, n = m + 1 → ¬Joined t m) :
    ∃ front line, Stands t n (place n t) front line := by
  induction t generalizing n with
  | nil =>
    obtain rfl := Nat.le_zero.mp h
    exact ⟨[], [], rfl, List.nil_prefix, rfl, fun _ => rfl⟩
  | cons c t ih =>
    cases n with
    | zero =>
      obtain ⟨line, more, hlines, hline, -⟩ := exists_lines (c :: t)
      rw [place_zero]
      refine ⟨[], line, ?_, hline, rfl, fun _ => rfl⟩
      rw [hlines]
      rfl
    | succ n =>
      have hstep : ¬Joined (c :: t) n := hn n rfl
      obtain ⟨front, line, hrow, hprefix, hcolumn, hfirst⟩ :=
        ih (Nat.le_of_succ_le_succ h) fun m hm => by
          rw [hm] at hstep
          exact hstep
      have hprefix' : c :: front ++ line <+: c :: t := List.cons_prefix_cons.mpr ⟨rfl, hprefix⟩
      have hcolumn' : (c :: front).length + (place n t).2 = n + 1 := by
        rw [List.length_cons, Nat.add_right_comm, hcolumn]
      rw [place, fromFront]
      by_cases hjoined : Joined (c :: t) 0
      · -- the offset is past the line feed, and so it is not in the first line
        obtain ⟨rfl, rest, rfl⟩ := hjoined.exists_cons
        obtain ⟨n, rfl⟩ : ∃ m, n = m + 1 := Nat.exists_eq_succ_of_ne_zero fun hz => by
          rw [hz] at hstep
          exact hstep hjoined
        have hlater : (place (n + 1) ('\n' :: rest)).1 ≠ 0 := by
          rw [place, fromFront, if_neg (by simp [Joined]), if_pos (by decide)]
          exact Nat.succ_ne_zero _
        rw [if_pos hjoined]
        refine ⟨'\r' :: front, line, ?_, hprefix', hcolumn', fun hz => absurd hz hlater⟩
        rw [lines_cons, if_pos hjoined]
        exact hrow
      rw [if_neg hjoined]
      by_cases hbreak : isBreak c = true
      · rw [if_pos hbreak]
        refine ⟨c :: front, line, ?_, hprefix', hcolumn', fun hz => absurd hz (Nat.succ_ne_zero _)⟩
        rw [lines_cons, if_neg hjoined, if_pos hbreak]
        exact hrow
      have hlines : lines (c :: t) = (lines t).modifyHead (c :: ·) := by
        rw [lines_cons, if_neg hjoined, if_neg hbreak]
      rw [if_neg hbreak]
      by_cases hzero : (place n t).1 = 0
      · obtain rfl := hfirst hzero
        rw [if_pos hzero]
        refine ⟨[], c :: line, ?_, hprefix', ?_, fun _ => rfl⟩
        · rw [hlines, List.getElem?_modifyHead, if_pos rfl, ← hzero, hrow]
          rfl
        · exact (Nat.add_assoc _ _ _).symm.trans (congrArg (· + 1) hcolumn)
      · rw [if_neg hzero]
        refine ⟨c :: front, line, ?_, hprefix', hcolumn', fun hz => absurd hz hzero⟩
        rw [hlines, List.getElem?_modifyHead, if_neg hzero, hrow]

end Stencil.Text
