import Stencil.Proofs.Token.Cut

/-!
# The longest match

The language of tokens is given without the lexer: the words of fixed characters, names, numbers,
closed strings, and a string that is not closed if it is all that is left. At each offset the lexer
finds the longest word of the language that stands in front. Read one after the other, its tokens
and the blanks between them are the source.
-/

namespace Stencil

/-! ## Skipping blanks -/

namespace Text

/-- From any of the blanks on, the same offset is reached. -/
theorem skipBlank_between {source : Text} {offset o : Nat} (hle : offset ≤ o)
    (hskip : o ≤ skipBlank source offset) : skipBlank source o = skipBlank source offset := by
  obtain ⟨n, rfl⟩ := Nat.exists_eq_add_of_le hle
  let blanks := (source.drop offset).takeWhile isBlank
  have hn : n ≤ blanks.length := Nat.le_of_add_le_add_left hskip
  have hdrop : source.drop (offset + n) =
      blanks.drop n ++ (source.drop offset).dropWhile isBlank := by
    rw [← List.drop_append_of_le_length hn, List.takeWhile_append_dropWhile, List.drop_drop]
  have htake : (source.drop (offset + n)).takeWhile isBlank = blanks.drop n := by
    rw [hdrop]
    exact Token.takeWhile_of_stops (fun _ hc => Token.mem_takeWhile (List.mem_of_mem_drop hc))
      (Token.stops_dropWhile _)
  rw [skipBlank, htake, List.length_drop, Nat.add_assoc, Nat.add_sub_cancel' hn, skipBlank]

theorem slice_skipBlank (source : Text) (offset : Nat) :
    source.slice offset (skipBlank source offset) = (source.drop offset).takeWhile isBlank := by
  rw [slice, skipBlank, Nat.add_sub_cancel_left]
  exact (List.prefix_iff_eq_take.mp (List.takeWhile_prefix isBlank)).symm

theorem skipBlank_le {source : Text} {offset : Nat} (h : offset ≤ source.length) :
    skipBlank source offset ≤ source.length := by
  have hle := (List.takeWhile_prefix (l := source.drop offset) isBlank).length_le
  rw [List.length_drop] at hle
  rw [skipBlank]
  omega

end Text

namespace Token

open Text (skipBlank)

/-! ## The language -/

/-- The words of the language, but for strings that are not closed. A name is spelled like no word
of fixed characters. -/
inductive Formed : Word → Prop
  | fixed {k w} : k.spelling? = some w → Formed (k, w)
  | name {w} : IsWord w → (∀ k : Kind, k.spelling? ≠ some w) → Formed (.symbol, w)
  | integer {w} : w ≠ [] → (∀ c ∈ w, c.isDigit = true) → Formed (.integer, w)
  | decimal {w} : IsDecimal w → Formed (.float, w)
  | closed {s} : '\'' ∉ s → Formed (.string, '\'' :: s ++ ['\''])

inductive Candidate (t : Text) : Word → Prop
  | front {w} : Formed w → w.2 <+: t → Candidate t w
  /-- No quote is left that could close the string. -/
  | unclosed {s} : t = '\'' :: s → '\'' ∉ s → Candidate t (.string, t)

/-- No candidate is longer, and none that is as long is of another kind. -/
structure Longest (t : Text) (w : Word) : Prop where
  candidate : Candidate t w
  length_le : ∀ v, Candidate t v → v.2.length ≤ w.2.length
  kind_eq : ∀ v, Candidate t v → v.2 = w.2 → v.1 = w.1

/-! ## Lexemes are the words of the language -/

theorem keyword_eq_none {w : Text} (h : ∀ k : Kind, k.spelling? ≠ some w) : keyword? w = none :=
  Option.eq_none_iff_forall_ne_some.mpr fun k hk => h k (keyword_spelling hk)

/-- A name is spelled like no word of fixed characters, for each is a lexeme of its own kind. -/
theorem spelling_ne {w : Text} (hw : IsWord w) (h : keyword? w = none) (k : Kind) :
    k.spelling? ≠ some w := by
  intro hk
  have hfixed := (lexeme_fixed hk (fun _ => stops_nil) stops_nil).lexeme_eq
  have hname := (Lexeme.word hw stops_nil).lexeme_eq
  rw [h] at hname
  have hkind : k = .symbol := congrArg Prod.fst (Option.some.inj (hfixed.symm.trans hname))
  rw [hkind] at hk
  cases hk

theorem Formed.lexeme {w : Word} (h : Formed w) : Lexeme w [] := by
  cases h with
  | fixed hk => exact lexeme_fixed hk (fun _ => stops_nil) stops_nil
  | name hw hfree =>
    have := Lexeme.word hw stops_nil
    rwa [keyword_eq_none hfree] at this
  | integer hne hw => exact .integer hne hw stops_nil nofun
  | decimal hw => exact .decimal hw stops_nil
  | closed hs => exact .closed hs

theorem Candidate.lexeme {t : Text} {w : Word} (h : Candidate t w) : Lexeme w [] ∧ w.2 <+: t := by
  cases h with
  | front hw ht => exact ⟨hw.lexeme, ht⟩
  | unclosed ht hs =>
    subst ht
    exact ⟨.unclosed hs, List.prefix_refl _⟩

theorem Lexeme.candidate {w : Word} {rest : Text} (h : Lexeme w rest) :
    Candidate (w.2 ++ rest) w := by
  have front (hw : Formed w) : Candidate (w.2 ++ rest) w := .front hw (List.prefix_append _ _)
  cases h with
  | pair hk => exact front (.fixed (pair_spelling hk))
  | single hk => exact front (.fixed (single_spelling hk))
  | dot => exact front (.fixed rfl)
  | closed hs => exact front (.closed hs)
  | @unclosed s hs =>
    show Candidate ('\'' :: s ++ []) _
    rw [List.append_nil]
    exact .unclosed rfl hs
  | @word w rest hw =>
    refine front ?_
    cases hk : keyword? w with
    | some k => exact .fixed (keyword_spelling hk)
    | none => exact .name hw (spelling_ne hw hk)
  | integer hne hw => exact front (.integer hne hw)
  | decimal hw => exact front (.decimal hw)

/-! ## The lexer finds the longest -/

section
variable {p : Char → Bool} {w : Text}

theorem run_all (hw : ∀ c ∈ w, p c = true) (rest : Text) :
    ∀ c ∈ w ++ rest.takeWhile p, p c = true := fun c hc =>
  (List.mem_append.mp hc).elim (hw c) mem_takeWhile

/-- A lexeme that takes the whole run of a class is longer than what the run goes on from. -/
theorem Lexeme.longer_of_run {k : Kind} {rest : Text}
    (h : Lexeme (k, w ++ rest.takeWhile p) (rest.dropWhile p)) :
    ∃ u, lexeme? (w ++ rest) = some u ∧ w.length ≤ u.2.length := by
  have hlexeme := h.lexeme_eq
  rw [List.append_assoc, List.takeWhile_append_dropWhile] at hlexeme
  exact ⟨_, hlexeme, (List.prefix_append w (rest.takeWhile p)).length_le⟩

end

theorem length_takeWhile_le_number (t : Text) :
    (t.takeWhile Char.isDigit).length ≤ (number t).2.length := by
  fun_cases number t with
  | case1 => exact List.length_append ▸ Nat.le_add_right _ _
  | case2 | case3 => exact Nat.le_refl _

/-- The lexeme in front of a text that begins with a word of the language is at least as long. -/
theorem Lexeme.exists_longer {v : Word} (h : Lexeme v []) (rest : Text) :
    ∃ u, lexeme? (v.2 ++ rest) = some u ∧ v.2.length ≤ u.2.length := by
  -- where the word is one character, any lexeme will do
  have one {c : Char} (hsome : lexeme? (c :: rest) ≠ none) :
      ∃ u, lexeme? (c :: rest) = some u ∧ 1 ≤ u.2.length := by
    obtain ⟨u, hu⟩ := Option.ne_none_iff_exists'.mp hsome
    exact ⟨u, hu, List.length_pos_iff.mpr (lexeme_isPrefix hu).2⟩
  cases h with
  | pair hk => exact ⟨_, lexeme_pair hk rest, Nat.le_refl _⟩
  | single hk =>
    refine one ?_
    simp only [lexeme?, hk]
    split <;> exact Option.some_ne_none _
  | dot =>
    have hpair : ∀ d, pair? '.' d = none := fun _ => rfl
    have hsingle : single? '.' = none := rfl
    refine one ?_
    simp only [lexeme?, bind_head_none hpair, hsingle, if_true]
    split <;> exact Option.some_ne_none _
  | closed hs => exact ⟨_, (Lexeme.closed hs).lexeme_eq, Nat.le_refl _⟩
  | unclosed hs =>
    refine ⟨_, lexeme_quote _, ?_⟩
    rw [quoted, List.append_eq, List.takeWhile_append_of_pos (not_quote hs)]
    split <;> simp only [List.length_append, List.length_cons] <;> omega
  | word hw =>
    obtain ⟨c, t, rfl, hc⟩ := hw.begins
    have hrun : IsWord (c :: t ++ rest.takeWhile isWordPart) :=
      ⟨⟨c, _, rfl, hc⟩, run_all hw.parts rest⟩
    exact (Lexeme.word hrun (stops_dropWhile rest)).longer_of_run
  | integer hne hw =>
    obtain ⟨c, t, rfl⟩ := List.exists_cons_of_ne_nil hne
    refine ⟨_, lexeme_number (hw c List.mem_cons_self), ?_⟩
    have hle := length_takeWhile_le_number (c :: t ++ rest)
    rw [List.takeWhile_append_of_pos hw, List.length_append] at hle
    exact Nat.le_trans (Nat.le_add_right _ _) hle
  | decimal hw =>
    obtain ⟨whole, fraction, rfl, hwhole, hfraction, hne⟩ := hw
    have hrun : IsDecimal (whole ++ '.' :: fraction ++ rest.takeWhile Char.isDigit) :=
      ⟨whole, fraction ++ rest.takeWhile Char.isDigit, List.append_assoc .., hwhole,
        run_all hfraction rest, List.append_ne_nil_of_left_ne_nil hne _⟩
    exact (Lexeme.decimal hrun (stops_dropWhile rest)).longer_of_run

theorem Candidate.exists_longer {t : Text} {v : Word} (h : Candidate t v) :
    ∃ u, lexeme? t = some u ∧ v.2.length ≤ u.2.length := by
  obtain ⟨hv, rest, rfl⟩ := h.lexeme
  exact hv.exists_longer rest

theorem longest_of_lexeme {t : Text} {w : Word} (h : lexeme? t = some w) : Longest t w := by
  have hw : Candidate t w := by
    obtain ⟨rest, rfl, hlex⟩ := exists_lexeme h
    exact hlex.candidate
  refine ⟨hw, fun v hv => ?_, fun v hv heq => ?_⟩
  · obtain ⟨u, hu, hle⟩ := hv.exists_longer
    rwa [Option.some.inj (hu.symm.trans h)] at hle
  · -- each of the two words is the lexeme in front of itself
    have hself := hv.lexeme.1.lexeme_eq
    rw [heq, hw.lexeme.1.lexeme_eq] at hself
    exact congrArg Prod.fst (Option.some.inj hself).symm

/-! ## The token at an offset -/

section
variable {source : Text} {offset : Nat}

theorem atOffset_between {o : Nat} (hle : offset ≤ o) (hskip : o ≤ skipBlank source offset) :
    atOffset source o = atOffset source offset := by
  rw [atOffset_eq, Text.skipBlank_between hle hskip, ← atOffset_eq]

theorem atOffset_longest {w : Word} (h : Candidate (source.drop (skipBlank source offset)) w) :
    let t := atOffset source offset
    t.kind ≠ .invalid ∧ Longest (source.drop (skipBlank source offset)) (t.kind, t.text) := by
  obtain ⟨u, hu, -⟩ := h.exists_longer
  rw [atOffset_eq, hu]
  exact ⟨(lexeme_kind hu).1, longest_of_lexeme hu⟩

theorem atOffset_invalid (h : ∀ w, ¬Candidate (source.drop (skipBlank source offset)) w) :
    atOffset source offset = ⟨.invalid, skipBlank source offset, skipBlank source offset, []⟩ := by
  cases hl : lexeme? (source.drop (skipBlank source offset)) with
  | none => rw [atOffset_eq, hl]
  | some w => exact absurd (longest_of_lexeme hl).candidate (h w)

theorem text_atOffset (h : (atOffset source offset).kind ≠ .invalid) :
    (atOffset source offset).text =
      source.slice (skipBlank source offset) (atOffset source offset).stop := by
  obtain ⟨hdrop, hstop⟩ := drop_start_atOffset h
  rw [start_atOffset] at hdrop hstop
  rw [Text.slice, hdrop, hstop, Nat.add_sub_cancel_left, List.take_left]

end

/-! ## The tokens of a source -/

inductive Spaced : Nat → List Token → Text → Prop
  | nil {offset} : Spaced offset [] []
  | cons {offset gap ts rest} {t : Token} : (∀ c ∈ gap, Text.isBlank c = true) →
      t.start = offset + gap.length → t.stop = t.start + t.text.length →
      Spaced t.stop ts rest → Spaced offset (t :: ts) (gap ++ t.text ++ rest)

section
variable (source : Text)

theorem spaced_invalid (offset : Nat) :
    let s := skipBlank source offset
    Spaced offset [⟨.invalid, s, s, []⟩] (source.slice offset s) := by
  intro s
  have hgap : source.slice offset s = source.slice offset s ++ [] ++ [] := by
    rw [List.append_nil, List.append_nil]
  rw [hgap, Text.slice_skipBlank]
  exact .cons (fun _ => mem_takeWhile) rfl rfl .nil

/-- Reading ends at the first token that is invalid, and nothing but blanks is left out before
it. -/
theorem spaced_stream (offset : Nat) (h : offset ≤ source.length) :
    ∃ ts last, offset ≤ last ∧ last ≤ source.length ∧
      stream (fun _ => false) offset (source.drop offset) = ts ++ [⟨.invalid, last, last, []⟩] ∧
      (∀ t ∈ ts, t.kind ≠ .invalid) ∧
      Spaced offset (ts ++ [⟨.invalid, last, last, []⟩]) (source.slice offset last) := by
  rw [stream_drop]
  by_cases hk : (atOffset source offset).kind = .invalid
  · have ht := atOffset_invalid fun w hw => (atOffset_longest hw).1 hk
    refine ⟨[], skipBlank source offset, Text.le_skipBlank source offset, Text.skipBlank_le h, ?_,
      nofun, spaced_invalid source offset⟩
    simp only [hk, true_or, if_true]
    rw [ht]
    rfl
  · obtain ⟨hlt, hle⟩ := atOffset_bounds hk
    have hstart := le_start_atOffset source offset
    obtain ⟨ts, last, hlast, hlength, hstream, hvalid, hspaced⟩ :=
      spaced_stream (atOffset source offset).stop hle
    obtain ⟨gap, hgap, hslice, hoffset, hstop⟩ := slice_token hk
    refine ⟨atOffset source offset :: ts, last, by omega, hlength, ?_,
      List.forall_mem_cons.mpr ⟨hk, hvalid⟩, ?_⟩
    · simp only [hk, Bool.false_eq_true, or_false, if_false, hstream]
      rfl
    · rw [← Text.slice_append (by omega) hlast, hslice]
      exact .cons hgap hoffset.symm hstop hspaced
termination_by source.length - offset
decreasing_by omega

end

/-- **Longest match.** A token starts at the first character that is not blank and is the longest
word there; it is invalid and empty if there is none. Tokens and blanks make up the source. -/
theorem longest_match (source : Text) :
    (∀ offset,
      let s := skipBlank source offset
      let t := atOffset source offset
      t.start = s ∧
      ((∃ w, Candidate (source.drop s) w) →
        t.kind ≠ .invalid ∧ Longest (source.drop s) (t.kind, t.text)) ∧
      ((∀ w, ¬Candidate (source.drop s) w) → t = ⟨.invalid, s, s, []⟩) ∧
      (∀ o, offset ≤ o → o ≤ s → atOffset source o = t) ∧
      (t.kind ≠ .invalid →
        s < t.stop ∧ t.stop ≤ source.length ∧ t.text = source.slice s t.stop)) ∧
    ∃ ts last, last ≤ source.length ∧ all source = ts ++ [⟨.invalid, last, last, []⟩] ∧
      (∀ t ∈ ts, t.kind ≠ .invalid) ∧ Follows source 0 (all source) ∧
      Spaced 0 (all source) (source.take last) := by
  refine ⟨fun offset => ?_, ?_⟩
  · refine ⟨start_atOffset source offset, fun ⟨w, hw⟩ => atOffset_longest hw, atOffset_invalid,
      fun o => atOffset_between, fun hk => ?_⟩
    obtain ⟨hlt, hle⟩ := atOffset_bounds hk
    rw [start_atOffset] at hlt
    exact ⟨hlt, hle, text_atOffset hk⟩
  · obtain ⟨ts, last, -, hlength, hall, hvalid, hspaced⟩ :=
      spaced_stream source 0 (Nat.zero_le _)
    replace hall : all source = _ := hall
    refine ⟨ts, last, hlength, hall, hvalid, follows_stream _ source 0, ?_⟩
    rw [hall]
    exact hspaced

end Token

end Stencil
