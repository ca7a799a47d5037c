import Stencil.Ansi
import Stencil.Proofs.Token.Lexeme

/-!
# Removal of escape sequences

An escape sequence is made of printable characters after the escape character. So none runs across
a place where a character follows that is not printable, and what stands on either side of such a
place loses its sequences by itself.
-/

namespace Stencil.Ansi

open Token (Stops stops_nil stops_cons)

/-! ## One step of the removal -/

@[simp] theorem strip_nil : strip [] = [] := by
  rw [strip]
  rfl

theorem strip_of_some {t rest : Text} (h : afterEscape? t = some rest) : strip t = strip rest := by
  rw [strip]
  split
  · rename_i rest' h'
    rw [Option.some.inj (h.symm.trans h')]
  · rename_i h'
    cases h.symm.trans h'

theorem strip_of_none {c : Char} {t : Text} (h : afterEscape? (c :: t) = none) :
    strip (c :: t) = c :: strip t := by
  rw [strip]
  split
  · rename_i rest h'
    cases h.symm.trans h'
  · rfl

theorem afterEscape_of_ne {c : Char} (h : c ≠ '\x1b') (t : Text) :
    afterEscape? (c :: t) = none := by
  unfold afterEscape?
  split
  · rename_i heq
    exact absurd (List.cons.inj heq).1 h
  · rename_i heq
    exact absurd (List.cons.inj heq).1 h
  · rfl

theorem strip_cons {c : Char} (h : c ≠ '\x1b') (t : Text) : strip (c :: t) = c :: strip t :=
  strip_of_none (afterEscape_of_ne h t)

/-- What holds no escape character stays as it is. -/
theorem strip_plain {t : Text} (h : '\x1b' ∉ t) (more : Text) :
    strip (t ++ more) = t ++ strip more := by
  induction t with
  | nil => rfl
  | cons c t ih =>
    simp only [List.mem_cons, not_or] at h
    obtain ⟨hc, ht⟩ := h
    rw [List.cons_append, strip_cons (Ne.symm hc), ih ht, List.cons_append]

theorem strip_eq_self {t : Text} (h : '\x1b' ∉ t) : strip t = t := by
  simpa using strip_plain h []

/-! ## Seams -/

def isPrintable : Char → Bool := between ' ' '~'

theorem stops_between {low high : Char} {t : Text} (h : Stops isPrintable t) (hlow : ' ' ≤ low)
    (hhigh : high ≤ '~') : Stops (between low high) t := by
  intro c hc
  have hout := h c hc
  simp only [isPrintable, between, Bool.and_eq_false_iff, decide_eq_false_iff_not] at hout ⊢
  exact hout.imp (fun hc hlo => hc (Char.le_trans hlow hlo))
    fun hc hhi => hc (Char.le_trans hhi hhigh)

theorem dropWhile_append_of_stops {p : Char → Bool} {more : Text} (h : Stops p more) (t : Text) :
    (t ++ more).dropWhile p = t.dropWhile p ++ more := by
  have hmore : more.dropWhile p = more := by
    cases more with
    | nil => rfl
    | cons c more => rw [List.dropWhile_cons_of_neg (by simp [stops_cons.mp h])]
  rw [List.dropWhile_append, hmore]
  split
  · rename_i hempty
    rw [List.isEmpty_iff.mp hempty, List.nil_append]
  · rfl

theorem afterEscape_sign {c : Char} (h : c ≠ '[') (t : Text) :
    afterEscape? ('\x1b' :: c :: t) = if between '@' '_' c then some t else none := by
  rw [afterEscape?]
  exact h

theorem afterEscape_append {more : Text} (h : Stops isPrintable more) (c : Char) (t : Text) :
    afterEscape? (c :: t ++ more) = (afterEscape? (c :: t)).map (· ++ more) := by
  by_cases hc : c ≠ '\x1b'
  · rw [List.cons_append, afterEscape_of_ne hc, afterEscape_of_ne hc]
    rfl
  obtain rfl : c = '\x1b' := Decidable.not_not.mp hc
  cases t with
  | nil =>
    cases more with
    | nil => rfl
    | cons d more =>
      -- what follows begins with a character that is not printable
      have hd : d ≠ '[' := by
        rintro rfl
        cases stops_cons.mp h
      show afterEscape? ('\x1b' :: d :: more) = none
      rw [afterEscape_sign hd, stops_cons.mp (stops_between h (by decide) (by decide))]
      rfl
  | cons d t =>
    by_cases hd : d = '['
    · subst hd
      simp only [List.cons_append, afterEscape?]
      rw [dropWhile_append_of_stops (stops_between h (by decide) (by decide)),
        dropWhile_append_of_stops (stops_between h (by decide) (by decide))]
      cases (t.dropWhile (between '0' '?')).dropWhile (between ' ' '/') with
      | nil =>
        cases more with
        | nil => rfl
        | cons e more =>
          have he : between '@' '~' e = false :=
            stops_cons.mp (stops_between h (by decide) (by decide))
          simp [he]
      | cons e rest =>
        simp only [List.cons_append]
        split <;> rfl
    · rw [List.cons_append, List.cons_append, afterEscape_sign hd, afterEscape_sign hd]
      split <;> rfl

theorem strip_append {more : Text} (h : Stops isPrintable more) (t : Text) :
    strip (t ++ more) = strip t ++ strip more := by
  fun_induction strip t with
  | case1 t rest hrest _ ih =>
    cases t with
    | nil => cases hrest
    | cons c t =>
      have hrest' : afterEscape? (c :: t ++ more) = some (rest ++ more) := by
        rw [afterEscape_append h, hrest]
        rfl
      rw [strip_of_some hrest', ih]
  | case2 _ => rfl
  | case3 c t hnone ih =>
    have hnone' : afterEscape? (c :: (t ++ more)) = none := by
      rw [← List.cons_append, afterEscape_append h, hnone]
      rfl
    rw [List.cons_append, strip_of_none hnone', ih, List.cons_append]

/-! ## Painted text -/

theorem strip_code (style : Style) (t : Text) : strip (style.code ++ t) = strip t :=
  strip_of_some (by cases style <;> rfl)

theorem strip_codes (styles : List Style) (t : Text) :
    strip (styles.flatMap Style.code ++ t) = strip t := by
  induction styles with
  | nil => rfl
  | cons style styles ih => rw [List.flatMap_cons, List.append_assoc, strip_code, ih]

theorem stops_code (style : Style) (t : Text) : Stops isPrintable (style.code ++ t) := by
  cases style <;> exact stops_cons.mpr (by decide)

theorem strip_paint (color : Bool) (styles : List Style) (t : Text) {more : Text}
    (h : Stops isPrintable more) :
    strip (paint color styles t ++ more) = strip t ++ strip more := by
  unfold paint
  split
  · exact strip_append h t
  · rw [List.append_assoc, List.append_assoc, strip_codes, strip_append (stops_code _ _),
      strip_code]

theorem strip_paint_plain (color : Bool) (styles : List Style) {t : Text} (h : '\x1b' ∉ t)
    (more : Text) : strip (paint color styles t ++ more) = t ++ strip more := by
  unfold paint
  split
  · exact strip_plain h more
  · rw [List.append_assoc, List.append_assoc, strip_codes, strip_plain h, strip_code]

/-- No sequence runs over the end of a line. -/
theorem strip_join (ts : List Text) :
    strip (Text.join ['\n'] ts) = Text.join ['\n'] (ts.map strip) := by
  have hnewline (t : Text) : Stops isPrintable ('\n' :: t) := stops_cons.mpr (by decide)
  fun_induction Text.join ['\n'] ts with
  | case1 => exact strip_nil
  | case2 t => rfl
  | case3 t ts hne ih =>
    rw [List.append_assoc, List.singleton_append, strip_append (hnewline _),
      strip_cons (by decide), ih]
    cases ts with
    | nil => exact absurd rfl hne
    | cons u ts => simp [Text.join]

end Stencil.Ansi
