import Mathlib.Data.Prod.Lex
import Stencil.Text.Lines
import Stencil.Text.Replace

/-!
# Positions and lines

The row and column of an offset are found by going through the characters, and the lines by cutting
the source at its breaks. Both count the same breaks, so a position points into the lines at the
character that stands at the offset.
-/

namespace Stencil.Text

/-! ## One character at a time

A carriage return in front of its line feed does not count, and the line feed counts as a break like
any other. -/

def Joined (t : Text) (n : Nat) : Prop := t[n]? = some '\r' ∧ t[n + 1]? = some '\n'

instance (t : Text) (n : Nat) : Decidable (Joined t n) := inferInstanceAs (Decidable (_ ∧ _))

theorem Joined.not_succ {t : Text} {n : Nat} (h : Joined t n) : ¬Joined t (n + 1) := by
  intro h'
  cases h.2.symm.trans h'.1

section
variable {c : Char} {t : Text}

theorem Joined.isBreak (h : Joined (c :: t) 0) : isBreak c = true := by
  rw [← Option.some.inj h.1.symm]
  rfl

theorem Joined.exists_cons (h : Joined (c :: t) 0) : c = '\r' ∧ ∃ rest, t = '\n' :: rest := by
  obtain ⟨hc, ht⟩ := h
  cases t with
  | nil => cases ht
  | cons d rest => exact ⟨Option.some.inj hc, rest, by rw [Option.some.inj ht]⟩

theorem ne_of_not_joined (h : ¬Joined (c :: t) 0) (rest : Text) (hc : c = '\r') :
    t ≠ '\n' :: rest := by
  rintro rfl
  exact h ⟨congrArg some hc, rfl⟩

end

theorem lines_ne_nil (t : Text) : lines t ≠ [] := by
  fun_cases lines t <;> simp

theorem lines_cons (c : Char) (t : Text) :
    lines (c :: t) =
      if Joined (c :: t) 0 then lines t
      else if isBreak c then [] :: lines t
      else (lines t).modifyHead (c :: ·) := by
  by_cases h : Joined (c :: t) 0
  · obtain ⟨rfl, rest, rfl⟩ := h.exists_cons
    rw [if_pos h]
    simp [lines, isBreak]
  · rw [if_neg h, lines]
    · obtain ⟨line, more, hlines⟩ := List.exists_cons_of_ne_nil (lines_ne_nil t)
      rw [hlines]
      rfl
    · exact ne_of_not_joined h

theorem replace_pair_cons (c : Char) (t : Text) :
    replace ['\r', '\n'] ['\n'] (c :: t) =
      if Joined (c :: t) 0 then replace ['\r', '\n'] ['\n'] t
      else c :: replace ['\r', '\n'] ['\n'] t := by
  by_cases h : Joined (c :: t) 0
  · obtain ⟨rfl, rest, rfl⟩ := h.exists_cons
    rw [if_pos h]
    rfl
  · have hfront : ['\r', '\n'].isPrefixOf (c :: t) = false := by
      rw [Bool.eq_false_iff, ne_eq, List.isPrefixOf_iff_prefix]
      rintro ⟨rest, ⟨⟩⟩
      exact h ⟨rfl, rfl⟩
    rw [if_neg h]
    show (if ['\r', '\n'].isPrefixOf (c :: t) = true then _ else _) = _
    rw [hfront]
    rfl

theorem replace_return_cons (c : Char) (t : Text) :
    replace ['\r'] ['\n'] (c :: t) =
      (if c = '\r' then '\n' else c) :: replace ['\r'] ['\n'] t := by
  show (if ['\r'].isPrefixOf (c :: t) = true then _ else _) = _
  rw [List.isPrefixOf_cons_cons, List.isPrefixOf_nil_left, Bool.and_true]
  by_cases hc : c = '\r'
  · rw [hc]
    rfl
  · rw [if_neg hc, if_neg (by simpa using Ne.symm hc)]
    rfl

/-- The lines are cut at the line feeds that are left when each other break has been replaced by
one. -/
theorem lines_eq_splitOn (t : Text) :
    lines t = (replace ['\r'] ['\n'] (replace ['\r', '\n'] ['\n'] t)).splitOn '\n' := by
  induction t with
  | nil => rfl
  | cons c t ih =>
    rw [lines_cons, replace_pair_cons]
    split
    · exact ih
    rw [replace_return_cons, List.splitOn_cons_eq_if_modifyHead, ← ih]
    by_cases hr : c = '\r'
    · simp [isBreak, hr]
    · simp [isBreak, hr]

theorem advance_cons (n : Nat) (c : Char) (t : Text) (row column : Nat) :
    advance (n + 1) (c :: t) row column =
      if Joined (c :: t) 0 then advance n t row column
      else if isBreak c then advance n t (row + 1) 1
      else advance n t row (column + 1) := by
  by_cases h : Joined (c :: t) 0
  · obtain ⟨rfl, rest, rfl⟩ := h.exists_cons
    rw [if_pos h]
    cases n with
    | zero => rfl
    | succ n => simp [advance, isBreak]
  · rw [if_neg h, advance]
    · exact fun rest _ => ne_of_not_joined h rest
    · exact fun _ rest _ => ne_of_not_joined h rest

/-! ## Places

A place is a row and a column, both counted from zero. -/

def fromFront (c : Char) (t : Text) (place : Nat × Nat) : Nat × Nat :=
  if Joined (c :: t) 0 then place
  else if isBreak c then (place.1 + 1, place.2)
  else if place.1 = 0 then (0, place.2 + 1)
  else place

def place : Nat → Text → Nat × Nat
  | n + 1, c :: t => fromFront c t (place n t)
  | _, _ => (0, 0)

theorem place_zero (t : Text) : place 0 t = (0, 0) := by
  rw [place]
  nofun

theorem advance_eq_place (n : Nat) (t : Text) (row column : Nat) :
    advance n t row column =
      ((place n t).1 + row, (place n t).2 + if (place n t).1 = 0 then column else 1) := by
  induction t generalizing n row column with
  | nil => cases n <;> simp [advance, place]
  | cons c t ih =>
    cases n with
    | zero => simp [advance, place_zero]
    | succ n =>
      rw [advance_cons, place, fromFront]
      by_cases hjoined : Joined (c :: t) 0
      · simp only [if_pos hjoined, ih]
      by_cases hbreak : isBreak c = true
      · simp only [if_neg hjoined, if_pos hbreak, ih, ite_self, Nat.succ_ne_zero, if_false]
        exact Prod.ext (Nat.add_right_comm _ 1 row).symm rfl
      by_cases hfirst : (place n t).1 = 0
      · simp only [if_neg hjoined, if_neg hbreak, ih, hfirst, if_true]
        exact Prod.ext rfl (Nat.add_right_comm _ 1 column).symm
      · simp only [if_neg hjoined, if_neg hbreak, ih, if_neg hfirst]

theorem position_eq_place (source : Text) (offset : Int) :
    position source offset =
      ((place (min offset.toNat source.length) source).1 + 1,
        (place (min offset.toNat source.length) source).2 + 1) := by
  rw [position, advance_eq_place, ite_self]

/-! ## Places in the lines -/

/-- The place is one of the line with the characters `chars`, and the character `c?` stands there.
Where a line or the text ends, the place is behind the last character of the line. -/
structure Shown (ls : List Text) (place : Nat × Nat) (c? : Option Char) (chars : Text) : Prop where
  row : ls[place.1]? = some chars
  column_le : place.2 ≤ chars.length
  char : ∀ c, c? = some c → isBreak c = false → chars[place.2]? = some c
  ending : (∀ c, c? = some c → isBreak c = true) → place.2 = chars.length
  last : c? = none → place.1 + 1 = ls.length

theorem Shown.fromFront {t chars : Text} {p : Nat × Nat} {c? : Option Char}
    (h : Shown (lines t) p c? chars) (c : Char) :
    ∃ chars', Shown (lines (c :: t)) (fromFront c t p) c? chars' := by
  rw [lines_cons, Text.fromFront]
  by_cases hjoined : Joined (c :: t) 0
  · rw [if_pos hjoined, if_pos hjoined]
    exact ⟨chars, h⟩
  rw [if_neg hjoined, if_neg hjoined]
  obtain ⟨hrow, hle, hchar, hending, hlast⟩ := h
  by_cases hbreak : isBreak c = true
  · rw [if_pos hbreak, if_pos hbreak]
    exact ⟨chars, hrow, hle, hchar, hending, fun hend => congrArg (· + 1) (hlast hend)⟩
  rw [if_neg hbreak, if_neg hbreak]
  rw [← List.length_modifyHead (f := (c :: ·))] at hlast
  by_cases hfirst : p.1 = 0
  · rw [hfirst] at hrow hlast
    rw [if_pos hfirst]
    refine ⟨c :: chars, ?_, Nat.succ_le_succ hle, hchar, ?_, hlast⟩
    · rw [List.getElem?_modifyHead, if_pos rfl, hrow]
      rfl
    · exact fun hb => congrArg (· + 1) (hending hb)
  · rw [if_neg hfirst]
    refine ⟨chars, ?_, hle, hchar, hending, hlast⟩
    rw [List.getElem?_modifyHead, if_neg hfirst, hrow]

theorem lines_break {c : Char} (h : isBreak c = true) (t : Text) :
    ∃ more, lines (c :: t) = [] :: more := by
  by_cases hjoined : Joined (c :: t) 0
  · obtain ⟨rfl, rest, rfl⟩ := hjoined.exists_cons
    exact ⟨lines rest, by simp [lines]⟩
  · exact ⟨lines t, by rw [lines_cons, if_neg hjoined, if_pos h]⟩

theorem exists_shown_front (t : Text) : ∃ chars, Shown (lines t) (0, 0) t[0]? chars := by
  cases t with
  | nil => exact ⟨[], rfl, Nat.le_refl 0, nofun, fun _ => rfl, fun _ => rfl⟩
  | cons c t =>
    by_cases hbreak : isBreak c = true
    · obtain ⟨more, hlines⟩ := lines_break hbreak t
      rw [hlines]
      refine ⟨[], rfl, Nat.le_refl 0, ?_, fun _ => rfl, nofun⟩
      rintro _ ⟨⟩ hchar
      exact absurd hbreak (by simp [hchar])
    · have hjoined : ¬Joined (c :: t) 0 := fun h => hbreak h.isBreak
      obtain ⟨chars, more, hlines⟩ := List.exists_cons_of_ne_nil (lines_ne_nil t)
      rw [lines_cons, if_neg hjoined, if_neg hbreak, hlines]
      refine ⟨c :: chars, rfl, Nat.zero_le _, fun _ hc _ => hc, fun h => ?_, nofun⟩
      exact absurd (h c rfl) hbreak

theorem exists_shown {t : Text} {n : Nat} (h : n ≤ t.length) :
    ∃ chars, Shown (lines t) (place n t) t[n]? chars := by
  induction t generalizing n with
  | nil =>
    obtain rfl := Nat.le_zero.mp h
    exact exists_shown_front []
  | cons c t ih =>
    cases n with
    | zero =>
      rw [place_zero]
      exact exists_shown_front (c :: t)
    | succ n =>
      obtain ⟨chars, hline⟩ := ih (Nat.le_of_succ_le_succ h)
      exact hline.fromFront c

/-! ## The order of places -/

theorem fromFront_lt (c : Char) (t : Text) {p q : Nat × Nat} (h : toLex p < toLex q) :
    toLex (fromFront c t p) < toLex (fromFront c t q) := by
  rw [Prod.Lex.toLex_lt_toLex] at h ⊢
  unfold fromFront
  split
  · exact h
  split
  · exact h.imp Nat.succ_lt_succ (And.imp_left (congrArg (· + 1)))
  · by_cases hp : p.1 = 0 <;> by_cases hq : q.1 = 0 <;>
      simp only [hp, hq, if_true, if_false, true_and, false_and] <;> omega

theorem place_step {t : Text} {n : Nat} (h : n < t.length) :
    if Joined t n then place n t = place (n + 1) t
    else toLex (place n t) < toLex (place (n + 1) t) := by
  induction t generalizing n with
  | nil => cases h
  | cons c t ih =>
    cases n with
    | zero =>
      rw [place, place_zero, place_zero, fromFront]
      by_cases hjoined : Joined (c :: t) 0
      · simp only [if_pos hjoined]
      by_cases hbreak : isBreak c = true
      · simp [if_neg hjoined, if_pos hbreak, Prod.Lex.toLex_lt_toLex]
      · simp [if_neg hjoined, if_neg hbreak, Prod.Lex.toLex_lt_toLex]
    | succ n =>
      have hstep := ih (Nat.lt_of_succ_lt_succ h)
      have hshift : Joined (c :: t) (n + 1) ↔ Joined t n := Iff.rfl
      simp only [hshift, place]
      split at hstep
      · rw [if_pos ‹_›, hstep]
      · rw [if_neg ‹_›]
        exact fromFront_lt c t hstep

theorem place_le {t : Text} {n m : Nat} (hnm : n ≤ m) (hm : m ≤ t.length) :
    toLex (place n t) ≤ toLex (place m t) := by
  induction m, hnm using Nat.le_induction with
  | base => exact le_refl _
  | succ m _ ih =>
    have hstep := place_step hm
    refine (ih (Nat.le_of_succ_le hm)).trans ?_
    split at hstep
    · rw [hstep]
    · exact hstep.le

/-- Places come in the order of the offsets, but a line feed stands where its carriage return
does. -/
theorem place_lt {t : Text} {n m : Nat} (hnm : n < m) (hm : m ≤ t.length) :
    if m = n + 1 ∧ Joined t n then place n t = place m t
    else toLex (place n t) < toLex (place m t) := by
  have hstep := place_step (Nat.lt_of_lt_of_le hnm hm)
  by_cases hjoined : Joined t n
  · rw [if_pos hjoined] at hstep
    by_cases heq : m = n + 1
    · rw [if_pos ⟨heq, hjoined⟩, heq, hstep]
    · have hlt : n + 1 < m := by omega
      have hnext := place_step (Nat.lt_of_lt_of_le hlt hm)
      rw [if_neg hjoined.not_succ] at hnext
      rw [if_neg fun h => heq h.1, hstep]
      exact hnext.trans_le (place_le hlt hm)
  · rw [if_neg hjoined] at hstep
    rw [if_neg fun h => hjoined h.2]
    exact hstep.trans_le (place_le hnm hm)

/-- **Positions and lines agree.** The row of an offset is one of the lines, its column that of the
character there, and positions come in the order of offsets, but for CR LF. -/
theorem position_agrees (source : Text) (offset : Int) :
    let o := min offset.toNat source.length
    let (row, column) := position source offset
    (∃ chars, (lines source)[row - 1]? = some chars ∧ 1 ≤ column ∧ column ≤ chars.length + 1 ∧
        (∀ c, source[o]? = some c → isBreak c = false → chars[column - 1]? = some c) ∧
        ((∀ c, source[o]? = some c → isBreak c = true) → column = chars.length + 1)) ∧
      1 ≤ row ∧ row ≤ (lines source).length ∧ (o = source.length → row = (lines source).length) ∧
      (∀ after : Int, o < min after.toNat source.length →
        if min after.toNat source.length = o + 1 ∧ Joined source o then
          position source after = (row, column)
        else toLex (row, column) < toLex (position source after)) ∧
      lines source =
        (replace ['\r'] ['\n'] (replace ['\r', '\n'] ['\n'] source)).splitOn '\n' := by
  intro o
  rw [position_eq_place]
  obtain ⟨chars, hrow, hle, hchar, hending, hlast⟩ :=
    exists_shown (Nat.min_le_right offset.toNat source.length)
  refine ⟨⟨chars, hrow, Nat.succ_pos _, Nat.succ_le_succ hle, hchar, ?_⟩, Nat.succ_pos _, ?_, ?_,
    ?_, lines_eq_splitOn source⟩
  · exact fun h => congrArg (· + 1) (hending h)
  · exact (List.getElem?_eq_some_iff.mp hrow).1
  · exact fun h => hlast (List.getElem?_eq_none (Nat.le_of_eq h.symm))
  · intro after hlt
    -- rows and columns are places counted from one
    have h := place_lt hlt (Nat.min_le_right _ _)
    rw [position_eq_place]
    split at h
    · rw [if_pos ‹_›, h]
    · rw [if_neg ‹_›]
      rw [Prod.Lex.toLex_lt_toLex] at h ⊢
      exact h.imp Nat.succ_lt_succ (And.imp (congrArg (· + 1)) Nat.succ_lt_succ)

end Stencil.Text
