import Stencil.Proofs.Clause.Soundness
import Stencil.Proofs.Expr.Offsets

/-!
# Clauses by offsets

The scan reads the parts of a clause by offsets, each from where the one before ends. They are read
as the tokens of the clause are, so the scan finds the clauses that there are over tokens.
-/

namespace Stencil

open Token (Kind atOffset covered stream exists_stream)

namespace Expr

variable {closes : Kind → Bool} {source : Text}

/-- A full expression is read from an offset as it is from the tokens from there on. -/
theorem parse_paired (ho : OpenInTrees closes) (calls offset : Nat) :
    Paired (Option.Rel (Behind closes source (stream closes offset (source.drop offset)).length))
      (Parser.production source calls .expression offset)
      (parse calls (stream closes offset (source.drop offset))) :=
  production_mirrors ho calls calls .piped (Nat.le_refl _) offset

theorem parsePostfix_paired (ho : OpenInTrees closes) (calls offset : Nat) :
    Paired (Option.Rel (Behind closes source (stream closes offset (source.drop offset)).length))
      (Parser.production source calls .postfixed offset)
      (parsePostfix (calls + 12) (stream closes offset (source.drop offset))) :=
  production_mirrors ho calls (calls + 12) .postfixed (Nat.le_refl _) offset

end Expr

namespace Clause

open Stencil.Expr (Behind OpenInTrees InTree accept? expect_cases)
open Stencil.Expr.Parser (expect)

theorem openInTrees_closes : OpenInTrees closes := by
  intro t ht
  unfold InTree at ht
  unfold closes
  split <;> rename_i hk
  · rw [hk] at ht
    exact ht.elim
  · rw [hk] at ht
    exact ht.elim
  · rfl

variable {stack : Stack} {source : Text}

/-! ## Statements and outputs -/

theorem statementStop_eq (offset : Nat) :
    statementStop source offset =
      statementEnd offset (stream closes offset (source.drop offset)) := by
  obtain ⟨ts, hts⟩ := exists_stream closes source offset
  rw [hts, statementStop, statementEnd, expect, accept?]
  by_cases h : (atOffset source offset).kind = .statementEnd
  · rw [if_pos h, if_pos h]
    rfl
  · rw [if_neg h, if_neg h]
    rfl

/-- An iterator is read without the twelve calls from an expression down to the operands. -/
theorem calls_iterator (stack : Stack) : stack.calls - 4 + 12 = stack.calls + 8 := by
  obtain ⟨n, hn⟩ := stack.calls_eq
  rw [hn]
  rfl

theorem testAfter_paired (keyword : Token) :
    Paired (Behind closes source (stream closes keyword.stop (source.drop keyword.stop)).length)
      (testAfter stack source keyword)
      (readTest stack (stream closes keyword.stop (source.drop keyword.stop))) := by
  refine (Expr.parse_paired openInTrees_closes _ keyword.stop).bind fun a b hab => ?_
  cases hab with
  | none =>
    obtain ⟨ts, hts⟩ := exists_stream closes source keyword.stop
    rw [hts, List.head?_cons, Option.map_some, Option.getD_some, Token.start_atOffset]
    exact .error _
  | some hr => exact .ok hr

theorem loopAfter_eq (opening keyword : Token) :
    loopAfter stack source opening keyword = readLoop stack opening.start keyword
      (stream closes keyword.stop (source.drop keyword.stop)) := by
  refine Paired.eq ((Expr.parse_paired openInTrees_closes _ keyword.stop).bind fun a b hab => ?_)
  cases hab with
  | none => exact .error _
  | @some e _ hr =>
    obtain ⟨rfl, -⟩ := hr
    cases e with
    | symbol span name =>
      dsimp only
      rcases expect_cases (k := .inWord) (by decide) (rfl : closes _ = _) .missingInKeyword
        (Expr.symbol span name).stop with ⟨he, ha⟩ | ⟨word, he, ha, -⟩
      · rw [show expect source .inWord .missingInKeyword span.stop = _ from he, ha]
        exact .error _
      · rw [show expect source .inWord .missingInKeyword span.stop = _ from he, ha]
        dsimp only
        rw [← calls_iterator]
        refine (Expr.parsePostfix_paired openInTrees_closes _ word.stop).bind fun a b hab => ?_
        cases hab with
        | none => exact .error _
        | @some iterator _ hr =>
          obtain ⟨rfl, -⟩ := hr
          dsimp only
          rw [statementStop_eq]
          exact .refl _
    | _ => exact .error _

theorem statementAfter_eq (opening : Token) :
    statementAfter stack source opening =
      readStatement stack opening.start
        (stream closes opening.stop (source.drop opening.stop)) := by
  obtain ⟨ts, hts⟩ := exists_stream closes source opening.stop
  have hafter {k : Kind} (hk : (atOffset source opening.stop).kind = k) (hv : k ≠ .invalid)
      (hc : closes k = false) : ts = stream closes (atOffset source opening.stop).stop
        (source.drop (atOffset source opening.stop).stop) :=
    (List.cons.inj (hts.symm.trans (Token.stream_next (hk ▸ hv) (hk ▸ hc)))).2
  rw [hts]
  simp only [statementAfter, readStatement]
  cases hk : (atOffset source opening.stop).kind with
  | ifWord | elifWord =>
    obtain rfl := hafter hk (by decide) rfl
    refine Paired.eq ((testAfter_paired _).bind fun test _ hr => ?_)
    obtain ⟨rfl, -⟩ := hr
    rw [statementStop_eq]
    exact .refl _
  | elseWord | endifWord | endforWord =>
    obtain rfl := hafter hk (by decide) rfl
    dsimp only
    rw [statementStop_eq]
  | forWord =>
    obtain rfl := hafter hk (by decide) rfl
    exact loopAfter_eq _ _
  | _ => rfl

theorem outputAfter_eq (opening : Token) :
    outputAfter stack source opening =
      readOutput stack opening.start (stream closes opening.stop (source.drop opening.stop)) := by
  refine Paired.eq ((Expr.parse_paired openInTrees_closes _ opening.stop).bind fun a b hab => ?_)
  cases hab with
  | none => exact .error _
  | @some e _ hr =>
    obtain ⟨rfl, -⟩ := hr
    obtain ⟨ts, hts⟩ := exists_stream closes source e.stop
    rw [hts]
    dsimp only [accept?]
    by_cases hk : (atOffset source e.stop).kind = .expressionEnd
    · rw [if_pos hk, if_pos hk]
      exact .ok rfl
    · rw [if_neg hk, if_neg hk]
      exact .error _

/-! ## The scan -/

theorem atOffset_of_pair {c d : Char} {k : Kind} {rest : Text} {offset : Nat}
    (hc : Text.isBlank c = false) (hk : Token.pair? c d = some k)
    (h : source.drop offset = c :: d :: rest) :
    atOffset source offset = ⟨k, offset, offset + 2, [c, d]⟩ ∧ rest = source.drop (offset + 2) := by
  have hskip : Text.skipBlank source offset = offset := by
    rw [Text.skipBlank, h, List.takeWhile_cons, hc]
    rfl
  refine ⟨?_, ?_⟩
  · rw [Token.atOffset_eq, hskip, h, Token.lexeme_pair hk]
    rfl
  · rw [← List.drop_drop, h]
    rfl

/-- A delimiter that a token starts with stands in the source. -/
theorem drop_of_begin {k : Kind} {w : Text} {offset : Nat} (hk : k.spelling? = some w)
    (hv : k ≠ .invalid) (hstart : (atOffset source offset).start = offset)
    (h : (atOffset source offset).kind = k) :
    ∃ rest, source.drop offset = w ++ rest := by
  obtain ⟨hdrop, -⟩ :=
    Token.drop_start_atOffset (show (atOffset source offset).kind ≠ _ from h ▸ hv)
  have hspelled := Token.atOffset_spelled source offset w (h ▸ hk)
  rw [hstart, hspelled] at hdrop
  exact ⟨_, hdrop⟩

theorem clauseAt_eq_read (offset : Nat) :
    clauseAt stack source offset = read stack offset (source.drop offset) := by
  unfold clauseAt read
  split
  · rename_i rest h
    obtain ⟨hopening, rfl⟩ := atOffset_of_pair (k := .statementBegin) rfl rfl h
    simp only [hopening]
    exact statementAfter_eq _
  · rename_i rest h
    obtain ⟨hopening, rfl⟩ := atOffset_of_pair (k := .expressionBegin) rfl rfl h
    simp only [hopening]
    exact outputAfter_eq _
  · rename_i hstatement houtput
    dsimp only
    split
    · rename_i h
      obtain ⟨rest, hrest⟩ := drop_of_begin (w := ['{', '%']) rfl (by decide) h.1 h.2
      exact absurd hrest (hstatement rest)
    · split
      · rename_i h
        obtain ⟨rest, hrest⟩ := drop_of_begin (w := ['{', '{']) rfl (by decide) h.1 h.2
        exact absurd hrest (houtput rest)
      · rfl

theorem clausesFrom_eq_scanFrom (offset : Nat) :
    clausesFrom stack source offset = scanFrom stack offset (source.drop offset) := by
  rw [clausesFrom]
  split
  · rename_i hlt
    rw [scanFrom_drop hlt, clauseAt_eq_read]
    cases hread : read stack offset (source.drop offset) with
    | error r => rfl
    | ok clause =>
      have hstop := lt_stop_of_read hlt hread
      show (do
        let more ← clausesFrom stack source (max clause.stop (offset + 1))
        return clause :: more) = _
      rw [Nat.max_eq_left hstop, clausesFrom_eq_scanFrom clause.stop]
      rfl
  · rename_i hge
    rw [List.drop_eq_nil_of_le (Nat.not_lt.mp hge), scanFrom_nil]
    rfl
termination_by source.length - offset
decreasing_by
  have := lt_stop_of_read ‹_› ‹_›
  omega

theorem scan_eq_scanFrom (stack : Stack) (source : Text) :
    scan stack source = scanFrom stack 0 source :=
  clausesFrom_eq_scanFrom 0

theorem read_of_mem_scan {clauses : List Clause} (h : scan stack source = .ok clauses) {c : Clause}
    (hc : c ∈ clauses) : ∃ o, o < source.length ∧ read stack o (source.drop o) = .ok c := by
  rw [scan_eq_scanFrom, ← List.drop_zero (l := source)] at h
  exact read_of_mem_scanFrom h hc

/-! ## Trees and tokens -/

/-- **Trees read as the tokens they cover.** The tree of a clause is well-levelled and is read from
the tokens between its start and its end, which are spelled as their kinds are. -/
theorem scan_reads {stack : Stack} {source : Text} {clauses : List Clause}
    (h : scan stack source = .ok clauses) :
    ∀ c ∈ clauses, ∀ l e, c.expression? = some (l, e) →
      e.Reads (covered source e.start e.stop) ∧
      (∀ t ∈ covered source e.start e.stop, t.Spelled) ∧
      e.WellLevelled ∧ l ≤ e.level := by
  intro c hc l e he
  obtain ⟨o, hlt, hread⟩ := read_of_mem_scan h hc
  rcases read_sound hlt hread with ⟨rfl, _⟩ | ⟨ts, rest, hts, hp⟩
  · cases he
  obtain ⟨before, es, after, rfl, hes⟩ := hp.reads.expression he
  have hf := Token.follows_stream closes source (o + 2)
  rw [hts, List.append_assoc, List.append_assoc] at hf
  obtain ⟨o', _, hf⟩ := hf.of_append
  have hcovered : covered source e.start e.stop = es := by
    obtain ⟨t, us, rfl, hstart⟩ := hes.first
    have hcovered := hf.covered_eq hes.valid
    rwa [← Token.covered_start, ← hf.1, ← hstart, ← hes.stop_eq o'] at hcovered
  rw [hcovered]
  exact ⟨hes, fun t ht => hf.spelled t (List.mem_append_left _ ht), hp.levelled l e he⟩

theorem scan_reads_filter_call :
    let source := "\x7b\x7b a | f(-b) \x7d\x7d".toList
    let e : Expr := .binary ⟨3, 12⟩ .pipe (.symbol ⟨3, 4⟩ ['a'])
      (.binary ⟨7, 12⟩ .call (.symbol ⟨7, 8⟩ ['f'])
        (.arguments ⟨8, 12⟩ [.unary ⟨9, 11⟩ .negative (.symbol ⟨10, 11⟩ ['b'])]))
    scan ⟨40, by decide⟩ source = .ok [.output ⟨0, 15⟩ e] ∧ e.Reads (covered source 3 12) ∧
      (∀ t ∈ covered source 3 12, t.Spelled) ∧ e.WellLevelled ∧ .piped ≤ e.level := by
  intro source e
  have hscan : scan ⟨40, by decide⟩ source = .ok [.output ⟨0, 15⟩ e] := by
    subst source e
    with_unfolding_all rfl
  exact ⟨hscan, scan_reads hscan _ List.mem_cons_self .piped e rfl⟩

end Clause

end Stencil
