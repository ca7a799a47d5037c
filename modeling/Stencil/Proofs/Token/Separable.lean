import Stencil.Proofs.Token.Lexeme

/-!
# Words in front of a blank

A word is separable if it is the lexeme at the front wherever a blank comes after it. Names,
constants and the words of fixed characters are, and no lexeme begins with a blank.
-/

namespace Stencil.Token

/-! ## Blanks -/

theorem isWordPart_blank {b : Char} (hb : Text.isBlank b = true) : isWordPart b = false := by
  cases hw : isWordPart b with
  | false => rfl
  | true =>
    have := range_of_isWordPart hw
    simp only [Text.isBlank, Bool.or_eq_true, Bool.and_eq_true, decide_eq_true_eq,
      beq_iff_eq] at hb
    omega

theorem isDigit_blank {b : Char} (hb : Text.isBlank b = true) : b.isDigit = false := by
  cases hd : b.isDigit with
  | false => rfl
  | true => rw [← isWordPart_blank hb]; exact (isWordPart_of_isDigit hd).symm

theorem pair_blank {c b : Char} (hb : Text.isBlank b = true) : pair? c b = none := by
  unfold pair?
  split <;> first | exact absurd hb (by decide) | rfl

/-! ## Words in front of a blank -/

/-- The word is the lexeme at the front wherever a blank comes after it. -/
def Separable (w : Word) : Prop :=
  ∀ b rest, Text.isBlank b = true → lexeme? (w.2 ++ b :: rest) = some w

theorem separable_of_lexeme {w : Word}
    (h : ∀ b rest, Text.isBlank b = true → Lexeme w (b :: rest)) : Separable w :=
  fun b rest hb => (h b rest hb).lexeme_eq

theorem separable_word {w : Text} (h : IsWord w) : Separable ((keyword? w).getD .symbol, w) :=
  separable_of_lexeme fun _ _ hb => .word h (stops_cons.mpr (isWordPart_blank hb))

theorem separable_name {w : Text} (h : IsName w) : Separable (.symbol, w) := by
  have := separable_word h.toIsWord
  rwa [h.free] at this

theorem separable_integer {w : Text} (hne : w ≠ []) (hw : ∀ c ∈ w, c.isDigit = true) :
    Separable (.integer, w) := by
  refine separable_of_lexeme fun b rest hb => ?_
  refine .integer hne hw (stops_cons.mpr (isDigit_blank hb)) fun tail heq => ?_
  rw [(List.cons.inj heq).1] at hb
  exact absurd hb (by decide)

theorem separable_float {w : Text} (h : IsDecimal w) : Separable (.float, w) :=
  separable_of_lexeme fun _ _ hb => .decimal h (stops_cons.mpr (isDigit_blank hb))

theorem separable_string {t : Text} (h : '\'' ∉ t) : Separable (.string, '\'' :: t ++ ['\'']) :=
  separable_of_lexeme fun _ _ _ => .closed h

/-- A word of fixed characters is a lexeme where nothing follows that it could go on with. -/
theorem lexeme_fixed {k : Kind} {w rest : Text} (h : k.spelling? = some w)
    (hpair : ∀ c, Stops (fun d => (pair? c d).isSome) rest) (hword : Stops isWordPart rest) :
    Lexeme (k, w) rest := by
  have single {c : Char} (hk : single? c = some k) : Lexeme (k, [c]) rest :=
    .single hk (hpair c)
  have keyword {w : Text} (hk : keyword? w = some k) (hw : IsWord w) : Lexeme (k, w) rest := by
    have := Lexeme.word hw hword
    rwa [hk] at this
  have hdigit : Stops Char.isDigit rest := fun c hc =>
    Bool.eq_false_iff.mpr fun hd => by simpa [hword c hc] using isWordPart_of_isDigit hd
  cases k <;> cases h <;> first
    | exact single rfl
    | exact .pair rfl
    | exact keyword rfl ⟨⟨_, _, rfl, rfl⟩, List.all_eq_true.mp rfl⟩
    | exact .dot hdigit

theorem separable_kind {k : Kind} (h : k.spelling?.isSome = true) : Separable k.word := by
  obtain ⟨w, hw⟩ := Option.isSome_iff_exists.mp h
  rw [Kind.word, hw]
  exact separable_of_lexeme fun b rest hb =>
    lexeme_fixed hw (fun c => stops_cons.mpr (by simp [pair_blank hb]))
      (stops_cons.mpr (isWordPart_blank hb))

theorem lexeme_blank {b : Char} {t : Text} (hb : Text.isBlank b = true) :
    lexeme? (b :: t) = none := by
  have hpair : ∀ d, pair? b d = none := fun d => by
    unfold pair?
    split <;> first | exact absurd hb (by decide) | rfl
  have hsingle : single? b = none := by
    unfold single?
    split <;> first | exact absurd hb (by decide) | rfl
  have hdot : b ≠ '.' := by rintro rfl; exact absurd hb (by decide)
  have hquote : b ≠ '\'' := by rintro rfl; exact absurd hb (by decide)
  have hword : isWordStart b = false := by
    cases hs : isWordStart b with
    | false => rfl
    | true => rw [← isWordPart_blank hb]; exact (isWordPart_of_isWordStart hs).symm
  simp only [lexeme?, bind_head_none hpair, hsingle, hdot, hquote, hword, isDigit_blank hb,
    if_false, Bool.false_eq_true]

theorem dropWhile_of_lexeme {t : Text} {w : Word} (h : lexeme? t = some w) :
    t.dropWhile Text.isBlank = t := by
  cases t with
  | nil => rfl
  | cons c t =>
    cases hb : Text.isBlank c with
    | false => rw [List.dropWhile_cons, hb]; rfl
    | true => rw [lexeme_blank hb] at h; cases h

theorem takeWhile_of_lexeme {t : Text} {w : Word} (h : lexeme? t = some w) :
    t.takeWhile Text.isBlank = [] := by
  have hsplit := List.takeWhile_append_dropWhile (p := Text.isBlank) (l := t)
  rwa [dropWhile_of_lexeme h, List.append_left_eq_self] at hsplit

end Stencil.Token
