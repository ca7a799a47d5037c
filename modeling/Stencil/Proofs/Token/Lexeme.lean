import Stencil.Proofs.Token.Spelling

/-!
# Lexemes and what remains after them

`Lexeme w rest` says that the word `w` is the lexeme in front of `rest`. A word of one class of
characters ends where no other of that class follows, a punctuation character where it does not
make a pair with the next one, and a quoted string where its quote is. The lexer finds the lexemes
of this judgment and no others.
-/

namespace Stencil.Token

abbrev Word := Kind × Text

def Kind.word (k : Kind) : Word := (k, k.spelling?.getD [])

/-! ## Classes of characters -/

section
variable {c : Char}

theorem isUpper_iff : c.isUpper = true ↔ 65 ≤ c.toNat ∧ c.toNat ≤ 90 := decide_eq_true_iff

theorem isLower_iff : c.isLower = true ↔ 97 ≤ c.toNat ∧ c.toNat ≤ 122 :=
  Bool.and_eq_true_iff.trans (and_congr decide_eq_true_iff decide_eq_true_iff)

theorem isDigit_iff : c.isDigit = true ↔ 48 ≤ c.toNat ∧ c.toNat ≤ 57 :=
  Bool.and_eq_true_iff.trans (and_congr decide_eq_true_iff decide_eq_true_iff)

theorem isAlpha_iff : c.isAlpha = true ↔
    (65 ≤ c.toNat ∧ c.toNat ≤ 90) ∨ 97 ≤ c.toNat ∧ c.toNat ≤ 122 :=
  Bool.or_eq_true_iff.trans (or_congr isUpper_iff isLower_iff)

end

theorem range_of_isWordPart {c : Char} (h : isWordPart c = true) :
    48 ≤ c.toNat ∧ c.toNat ≤ 122 := by
  simp only [isWordPart, Char.isAlphanum, Bool.or_eq_true, isAlpha_iff, isDigit_iff,
    beq_iff_eq] at h
  rcases h with (h | h) | rfl
  · omega
  · omega
  · decide

theorem isWordPart_of_isWordStart {c : Char} (h : isWordStart c = true) :
    isWordPart c = true := by
  simp only [isWordStart, isWordPart, Char.isAlphanum, Bool.or_eq_true] at h ⊢
  exact h.imp_left .inl

theorem isWordPart_of_isDigit {c : Char} (h : c.isDigit = true) : isWordPart c = true := by
  simp [isWordPart, Char.isAlphanum, h]

theorem isWordStart_of_isDigit {c : Char} (h : c.isDigit = true) : isWordStart c = false := by
  cases hs : isWordStart c with
  | false => rfl
  | true =>
    have hd := isDigit_iff.mp h
    simp only [isWordStart, Bool.or_eq_true, isAlpha_iff, beq_iff_eq] at hs
    rcases hs with hs | rfl
    · omega
    · exact absurd h (by decide)

theorem pair_isWordPart {c d : Char} (hc : isWordPart c = true) : pair? c d = none := by
  unfold pair?
  split <;> first | exact absurd hc (by decide) | rfl

theorem single_isWordPart {c : Char} (hc : isWordPart c = true) : single? c = none := by
  unfold single?
  split <;> first | exact absurd hc (by decide) | rfl

/-! ## Runs of characters -/

def Stops (p : Char → Bool) (t : Text) : Prop := ∀ c ∈ t.head?, p c = false

section
variable {p : Char → Bool} {w t : Text}

theorem stops_nil : Stops p [] := nofun

theorem stops_cons {c : Char} : Stops p (c :: t) ↔ p c = false := by
  simp [Stops]

theorem stops_dropWhile (t : Text) : Stops p (t.dropWhile p) := by
  intro c hc
  have h := List.head?_dropWhile_not p t
  rw [Option.mem_def.mp hc] at h
  simpa using h

theorem Stops.append (h : Stops p t) (hne : t ≠ []) (more : Text) : Stops p (t ++ more) := by
  obtain ⟨c, t, rfl⟩ := List.exists_cons_of_ne_nil hne
  exact stops_cons.mpr (stops_cons.mp h)

theorem takeWhile_of_stops (hw : ∀ c ∈ w, p c = true) (ht : Stops p t) :
    (w ++ t).takeWhile p = w := by
  rw [List.takeWhile_append_of_pos hw]
  cases t with
  | nil => simp
  | cons c t => simp [stops_cons.mp ht]

theorem dropWhile_of_stops (hw : ∀ c ∈ w, p c = true) (ht : Stops p t) :
    (w ++ t).dropWhile p = t := by
  rw [List.dropWhile_append_of_pos hw]
  cases t with
  | nil => rfl
  | cons c t => simp [stops_cons.mp ht]

theorem mem_takeWhile {c : Char} (hc : c ∈ t.takeWhile p) : p c = true :=
  List.all_eq_true.mp List.all_takeWhile c hc

end

theorem bind_of_stops {p : Char → Option Kind} {t : Text} (h : Stops (fun d => (p d).isSome) t) :
    t.head?.bind p = none := by
  cases t with
  | nil => rfl
  | cons d t => exact Option.isNone_iff_eq_none.mp (by simpa using stops_cons.mp h)

theorem bind_head_none {p : Char → Option Kind} {t : Text} (h : ∀ d, p d = none) :
    t.head?.bind p = none :=
  bind_of_stops fun d _ => by simp [h d]

theorem takeWhile_isDigit_ne_nil {t : Text} (h : beginsWithDigit t = true) :
    t.takeWhile Char.isDigit ≠ [] := by
  cases t with
  | nil => cases h
  | cons c t => simp [show c.isDigit = true from h]

theorem stops_isDigit {t : Text} : Stops Char.isDigit t ↔ beginsWithDigit t = false := by
  cases t with
  | nil => exact iff_of_true stops_nil rfl
  | cons c t => exact stops_cons

/-! ## The judgment -/

structure IsWord (w : Text) : Prop where
  begins : ∃ c t, w = c :: t ∧ isWordStart c = true
  parts : ∀ c ∈ w, isWordPart c = true

structure IsName (w : Text) : Prop extends IsWord w where
  free : keyword? w = none

theorem isName_letter {c : Char} (hc : isWordStart c = true) (hk : keyword? [c] = none) :
    IsName [c] :=
  ⟨⟨⟨c, [], rfl, hc⟩, List.forall_mem_singleton.mpr (isWordPart_of_isWordStart hc)⟩, hk⟩

def IsDecimal (w : Text) : Prop :=
  ∃ whole fraction, w = whole ++ '.' :: fraction ∧ (∀ c ∈ whole, c.isDigit = true) ∧
    (∀ c ∈ fraction, c.isDigit = true) ∧ fraction ≠ []

/-- The word is the lexeme in front of what remains. A point after digits belongs to them if another
digit follows it, so an integer is judged by the two characters after it. -/
inductive Lexeme : Word → (rest : Text) → Prop
  | pair {c d k rest} : pair? c d = some k → Lexeme (k, [c, d]) rest
  | single {c k rest} : single? c = some k → Stops (fun d => (pair? c d).isSome) rest →
      Lexeme (k, [c]) rest
  | dot {rest} : Stops Char.isDigit rest → Lexeme (.dot, ['.']) rest
  | closed {t rest} : '\'' ∉ t → Lexeme (.string, '\'' :: t ++ ['\'']) rest
  | unclosed {t} : '\'' ∉ t → Lexeme (.string, '\'' :: t) []
  | word {w rest} : IsWord w → Stops isWordPart rest → Lexeme ((keyword? w).getD .symbol, w) rest
  | integer {w rest} : w ≠ [] → (∀ c ∈ w, c.isDigit = true) → Stops Char.isDigit rest →
      (∀ tail, rest = '.' :: tail → Stops Char.isDigit tail) → Lexeme (.integer, w) rest
  | decimal {w rest} : IsDecimal w → Stops Char.isDigit rest → Lexeme (.float, w) rest

/-! ## The lexer finds lexemes -/

theorem lexeme_word {c : Char} {t : Text} (hc : isWordStart c = true) :
    lexeme? (c :: t) = some (word (c :: t)) := by
  have hp := isWordPart_of_isWordStart hc
  have hdot : c ≠ '.' := by rintro rfl; exact absurd hc (by decide)
  have hquote : c ≠ '\'' := by rintro rfl; exact absurd hc (by decide)
  simp only [lexeme?, bind_head_none fun d => pair_isWordPart hp, single_isWordPart hp, hdot,
    hquote, hc, if_true, if_false]

theorem lexeme_number {c : Char} {t : Text} (hc : c.isDigit = true) :
    lexeme? (c :: t) = some (number (c :: t)) := by
  have hp := isWordPart_of_isDigit hc
  have hdot : c ≠ '.' := by rintro rfl; exact absurd hc (by decide)
  have hquote : c ≠ '\'' := by rintro rfl; exact absurd hc (by decide)
  simp only [lexeme?, bind_head_none fun d => pair_isWordPart hp, single_isWordPart hp, hdot,
    hquote, isWordStart_of_isDigit hc, hc, if_true, if_false, Bool.false_eq_true]

theorem lexeme_pair {c d : Char} {k : Kind} (h : pair? c d = some k) (rest : Text) :
    lexeme? (c :: d :: rest) = some (k, [c, d]) := by
  simp only [lexeme?, List.head?_cons, Option.bind_some, h]
  rfl

theorem not_quote {t : Text} (h : '\'' ∉ t) : ∀ c ∈ t, (c != '\'') = true :=
  fun _ hc => bne_iff_ne.mpr fun heq => h (heq ▸ hc)

theorem lexeme_quote (t : Text) : lexeme? ('\'' :: t) = some (.string, quoted t) := by
  have hpair : ∀ d, pair? '\'' d = none := fun _ => rfl
  simp only [lexeme?, bind_head_none hpair, single?]
  rfl

theorem number_integer {w rest : Text} (hw : ∀ c ∈ w, c.isDigit = true)
    (hrest : Stops Char.isDigit rest)
    (hpoint : ∀ tail, rest = '.' :: tail → Stops Char.isDigit tail) :
    number (w ++ rest) = (.integer, w) := by
  rw [number, takeWhile_of_stops hw hrest, dropWhile_of_stops hw hrest]
  split
  · rename_i tail
    rw [stops_isDigit.mp (hpoint tail rfl)]
    rfl
  · rfl

theorem number_decimal {whole fraction rest : Text} (hwhole : ∀ c ∈ whole, c.isDigit = true)
    (hfraction : ∀ c ∈ fraction, c.isDigit = true) (hne : fraction ≠ [])
    (hrest : Stops Char.isDigit rest) :
    number (whole ++ '.' :: (fraction ++ rest)) = (.float, whole ++ '.' :: fraction) := by
  have hpoint : Stops Char.isDigit ('.' :: (fraction ++ rest)) := stops_cons.mpr (by decide)
  obtain ⟨d, ds, rfl⟩ := List.exists_cons_of_ne_nil hne
  rw [number, takeWhile_of_stops hwhole hpoint, dropWhile_of_stops hwhole hpoint]
  simp only [takeWhile_of_stops hfraction hrest]
  exact if_pos (hfraction d List.mem_cons_self)

theorem Lexeme.lexeme_eq {w : Word} {rest : Text} (h : Lexeme w rest) :
    lexeme? (w.2 ++ rest) = some w := by
  cases h with
  | pair hp => exact lexeme_pair hp rest
  | single hk hs =>
    show lexeme? (_ :: rest) = _
    simp only [lexeme?, bind_of_stops hs, hk]
  | dot hs =>
    have hpair : ∀ d, pair? '.' d = none := fun _ => rfl
    have hsingle : single? '.' = none := rfl
    show lexeme? ('.' :: rest) = _
    simp only [lexeme?, bind_head_none hpair, hsingle, if_true, stops_isDigit.mp hs,
      Bool.false_eq_true, if_false]
  | @closed t rest ht =>
    have htake : (t ++ '\'' :: rest).takeWhile (· != '\'') = t :=
      takeWhile_of_stops (not_quote ht) (stops_cons.mpr (by decide))
    show lexeme? ('\'' :: (t ++ ['\''] ++ rest)) = _
    rw [List.append_assoc, List.singleton_append, lexeme_quote, quoted, htake, if_pos (by simp)]
  | @unclosed t ht =>
    have htake : (t ++ []).takeWhile (· != '\'') = t := takeWhile_of_stops (not_quote ht) stops_nil
    show lexeme? ('\'' :: (t ++ [])) = _
    rw [lexeme_quote, quoted, htake, if_neg (by simp)]
  | @word w rest hw hs =>
    obtain ⟨c, t, rfl, hc⟩ := hw.begins
    show lexeme? (c :: (t ++ rest)) = _
    rw [lexeme_word hc, Token.word, ← List.cons_append, takeWhile_of_stops hw.parts hs]
  | @integer w rest hne hw hs hpoint =>
    obtain ⟨c, t, rfl⟩ := List.exists_cons_of_ne_nil hne
    show lexeme? (c :: (t ++ rest)) = _
    rw [lexeme_number (hw c List.mem_cons_self), ← List.cons_append, number_integer hw hs hpoint]
  | @decimal w rest hw hs =>
    obtain ⟨whole, fraction, rfl, hwhole, hfraction, hne⟩ := hw
    show lexeme? (whole ++ '.' :: fraction ++ rest) = _
    rw [List.append_assoc, List.cons_append]
    -- without a whole part the point is looked at first, and then the digit behind it
    cases whole with
    | nil =>
      obtain ⟨d, ds, rfl⟩ := List.exists_cons_of_ne_nil hne
      have hd : d.isDigit = true := hfraction d List.mem_cons_self
      have hpair : pair? '.' d = none := rfl
      show lexeme? ('.' :: ((d :: ds) ++ rest)) = _
      rw [lexeme?, takeWhile_of_stops hfraction hs]
      simp only [List.cons_append, List.head?_cons, Option.bind_some, hpair, single?, if_true,
        beginsWithDigit, hd]
      rfl
    | cons c t =>
      rw [List.cons_append, lexeme_number (hwhole c List.mem_cons_self), ← List.cons_append,
        number_decimal hwhole hfraction hne hs]

/-! ## The lexer finds nothing else -/

theorem exists_quoted (t : Text) : ∃ w rest, quoted t = w ∧ '\'' :: t = w ++ rest ∧
    Lexeme (.string, w) rest := by
  have hfree : '\'' ∉ t.takeWhile (· != '\'') := fun h => by simpa using mem_takeWhile h
  have hsplit := List.takeWhile_append_dropWhile (p := (· != '\'')) (l := t)
  cases hd : t.dropWhile (· != '\'') with
  | nil =>
    rw [hd, List.append_nil] at hsplit
    rw [hsplit] at hfree
    exact ⟨_, [], by rw [quoted, hsplit, if_neg (Nat.lt_irrefl _)], by simp, .unclosed hfree⟩
  | cons c rest =>
    have hs : Stops (· != '\'') (c :: rest) := hd ▸ stops_dropWhile t
    obtain rfl : c = '\'' := by simpa [Stops] using hs
    have hlt : (t.takeWhile (· != '\'')).length < t.length := by
      conv => rhs; rw [← hsplit, hd]
      simp
    refine ⟨_, rest, by rw [quoted, if_pos hlt], ?_, .closed hfree⟩
    conv => lhs; rw [← hsplit, hd]
    simp

theorem exists_number {c : Char} {t : Text} (hc : c.isDigit = true) :
    ∃ rest, c :: t = (number (c :: t)).2 ++ rest ∧ Lexeme (number (c :: t)) rest := by
  let w := (c :: t).takeWhile Char.isDigit
  have hsplit : w ++ (c :: t).dropWhile Char.isDigit = c :: t := List.takeWhile_append_dropWhile
  have hw : ∀ d ∈ w, d.isDigit = true := fun d => mem_takeWhile
  have hne : w ≠ [] := by simp [w, hc]
  have hs : Stops Char.isDigit ((c :: t).dropWhile Char.isDigit) := stops_dropWhile _
  generalize (c :: t).dropWhile Char.isDigit = rest at hsplit hs
  -- a point belongs to the number only if a digit follows it
  by_cases hpoint : ∃ tail, rest = '.' :: tail ∧ beginsWithDigit tail = true
  · obtain ⟨tail, rfl, hb⟩ := hpoint
    have htail := List.takeWhile_append_dropWhile (p := Char.isDigit) (l := tail)
    have hfraction := takeWhile_isDigit_ne_nil hb
    have hn := number_decimal hw (fun d => mem_takeWhile) hfraction
      (stops_dropWhile (p := Char.isDigit) tail)
    rw [htail, hsplit] at hn
    rw [hn]
    refine ⟨tail.dropWhile Char.isDigit, ?_, .decimal ?_ (stops_dropWhile _)⟩
    · rw [← hsplit]
      simp
    · exact ⟨_, _, rfl, hw, fun d => mem_takeWhile, hfraction⟩
  · have hpoint : ∀ tail, rest = '.' :: tail → Stops Char.isDigit tail := fun tail heq =>
      stops_isDigit.mpr (by simpa using fun hb => hpoint ⟨tail, heq, hb⟩)
    have hn := number_integer hw hs hpoint
    rw [hsplit] at hn
    rw [hn]
    exact ⟨rest, hsplit.symm, .integer hne hw hs hpoint⟩

theorem exists_lexeme {t : Text} {w : Word} (h : lexeme? t = some w) :
    ∃ rest, t = w.2 ++ rest ∧ Lexeme w rest := by
  -- the tests of the lexer in their order: pairs, single signs, points, strings, words, numbers
  cases t with
  | nil => cases h
  | cons c t =>
    simp only [lexeme?] at h
    split at h
    · rename_i kind hpair
      cases t with
      | nil => cases hpair
      | cons d t =>
        obtain rfl := Option.some.inj h
        exact ⟨t, rfl, .pair hpair⟩
    rename_i hpair
    split at h
    · rename_i kind hsingle
      obtain rfl := Option.some.inj h
      refine ⟨t, rfl, .single hsingle fun d hd => ?_⟩
      rw [Option.mem_def.mp hd, Option.bind_some] at hpair
      simp [hpair]
    split at h
    · rename_i hc
      subst hc
      split at h <;> obtain rfl := Option.some.inj h
      · rename_i hb
        refine ⟨t.dropWhile Char.isDigit, by simp, .decimal ?_ (stops_dropWhile t)⟩
        exact ⟨[], _, rfl, nofun, fun d => mem_takeWhile, takeWhile_isDigit_ne_nil hb⟩
      · rename_i hb
        exact ⟨t, rfl, .dot (stops_isDigit.mpr (by simpa using hb))⟩
    split at h
    · rename_i hc
      subst hc
      obtain rfl := Option.some.inj h
      obtain ⟨w, rest, hw, ht, hl⟩ := exists_quoted t
      rw [hw]
      exact ⟨rest, ht, hl⟩
    split at h
    · rename_i hc
      obtain rfl := Option.some.inj h
      refine ⟨(c :: t).dropWhile isWordPart, List.takeWhile_append_dropWhile.symm,
        .word ⟨⟨c, t.takeWhile isWordPart, ?_, hc⟩, fun d => mem_takeWhile⟩ (stops_dropWhile _)⟩
      rw [List.takeWhile_cons_of_pos (isWordPart_of_isWordStart hc)]
    split at h
    · rename_i hc
      obtain rfl := Option.some.inj h
      exact exists_number hc
    · cases h

/-! ## What a lexeme is made of -/

theorem Lexeme.ne_nil {w : Word} {rest : Text} (h : Lexeme w rest) : w.2 ≠ [] := by
  cases h with
  | pair | single | dot | closed | unclosed => exact List.cons_ne_nil _ _
  | word hw =>
    obtain ⟨c, t, rfl, -⟩ := hw.begins
    exact List.cons_ne_nil _ _
  | integer hne => exact hne
  | decimal hw =>
    obtain ⟨whole, fraction, rfl, -⟩ := hw
    exact List.append_ne_nil_of_right_ne_nil _ (List.cons_ne_nil _ _)

theorem Lexeme.kind {w : Word} {rest : Text} (h : Lexeme w rest) :
    w.1 ≠ .invalid ∧ ∀ s, w.1.spelling? = some s → w.2 = s := by
  cases h with
  | pair hp => exact kind_of_spelling (pair_spelling hp)
  | single hk => exact kind_of_spelling (single_spelling hk)
  | dot => exact kind_of_spelling rfl
  | closed | unclosed | integer | decimal => exact ⟨nofun, nofun⟩
  | @word w rest hw =>
    cases hk : keyword? w with
    | none => exact ⟨nofun, nofun⟩
    | some k => exact kind_of_spelling (keyword_spelling hk)

/-- What is at the front of a text that begins with a lexeme. -/
theorem lexeme_isPrefix {t w : Text} {k : Kind} (h : lexeme? t = some (k, w)) :
    w <+: t ∧ w ≠ [] := by
  obtain ⟨rest, rfl, hl⟩ := exists_lexeme h
  exact ⟨List.prefix_append w rest, hl.ne_nil⟩

/-- Constants and names apart, the kind of a lexeme fixes its characters. -/
theorem lexeme_kind {t w : Text} {k : Kind} (h : lexeme? t = some (k, w)) :
    k ≠ .invalid ∧ ∀ s, k.spelling? = some s → w = s := by
  obtain ⟨rest, -, hl⟩ := exists_lexeme h
  exact hl.kind

end Stencil.Token
