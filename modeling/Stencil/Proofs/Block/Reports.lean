import Stencil.Proofs.Block.Faults
import Stencil.Proofs.Clause.Missing
import Stencil.Proofs.Token.Layout

/-!
# What parsing reports as missing

Blocks are built from clauses that could be read, so what is wrong inside of a clause is reported as
the scan reports it. A test or an iterator is reported as missing exactly where the token behind
the word cannot begin one.
-/

namespace Stencil

open Clause (Scanned Asks LacksTest LacksIterator)
open Expr.Parser (production)
open Token (Kind)

/-! ## Errors about how clauses nest -/

def ParseKind.ofBlocks : ParseKind → Bool
  | unknownClause | missingEndIf | missingEndFor | nestingTooDeep => true
  | _ => false

namespace Block

def AboutNesting (fault : ParseFault) : Prop :=
  ∃ kind, kind.ofBlocks = true ∧ ∃ o, fault = .located kind o

theorem Construct.aboutNesting : ∀ c : Construct, AboutNesting c.unclosed
  | choice .. | loop .. => ⟨_, rfl, _, rfl⟩

namespace Machine

section
variable {source : Text} {limit : Nat} {fault : ParseFault}

theorem delimit_aboutNesting {m : Machine} {clause : Clause} (h : m.delimit clause = .error fault) :
    AboutNesting fault := by
  obtain ⟨_ | ⟨⟨top, outer⟩, stack⟩, body⟩ := m
  · cases h
    exact ⟨_, rfl, _, rfl⟩
  unfold delimit at h
  dsimp only at h
  split at h <;> cases h
  exact top.aboutNesting

theorem step_aboutNesting {m : Machine} {clause : Clause}
    (h : m.step source clause = .error fault) :
    AboutNesting fault := by
  cases clause with
  | text | output | ifTest | forEach => cases h
  | elifTest | otherwise | endIf | endFor => exact delimit_aboutNesting h
  | other =>
    cases h
    exact ⟨_, rfl, _, rfl⟩

theorem finish_aboutNesting {m : Machine} (h : m.finish = .error fault) : AboutNesting fault := by
  obtain ⟨_ | ⟨⟨top, outer⟩, stack⟩, body⟩ := m
  · cases h
  · cases h
    exact top.aboutNesting

theorem outcomeWithin_aboutNesting {clauses : List Clause} {m : Machine}
    (h : outcomeWithin source limit clauses m = .error fault) : AboutNesting fault := by
  induction clauses generalizing m with
  | nil =>
    unfold outcomeWithin at h
    split at h
    · exact finish_aboutNesting h
    · exact ⟨_, rfl, _, (Except.error.inj h).symm⟩
  | cons clause clauses ih =>
    unfold outcomeWithin at h
    split at h
    · rcases bind_eq_error.mp h with hstep | ⟨next, -, hnext⟩
      · exact step_aboutNesting hstep
      · exact ih hnext
    · exact ⟨_, rfl, _, (Except.error.inj h).symm⟩

end

end Machine

theorem build_aboutNesting {source : Text} {calls : Nat} {clauses : List Clause}
    {fault : ParseFault} (h : build source calls clauses = .error fault) : AboutNesting fault := by
  rw [build_eq_outcomeWithin] at h
  exact Machine.outcomeWithin_aboutNesting h

end Block

/-! ## Errors of the scan -/

section
variable {stack : Stack} {source : Text}

theorem parse_of_scan_error {fault : ParseFault} (h : Clause.scan stack source = .error fault) :
    parse stack source = .error fault := by
  obtain ⟨clauses, stop, r, -, hread, -⟩ := Clause.scan_error_iff.mp h
  rw [Clause.clauseAt_eq_read] at hread
  obtain ⟨d, rest, heq, -⟩ := Clause.opens_of_error hread
  have hmem : '{' ∈ source := List.mem_of_mem_drop (heq ▸ List.mem_cons_self)
  have htrim : Text.trim source ≠ [] := Text.trim_ne_nil hmem (by decide)
  rw [parse, if_neg (by simpa using htrim), h]
  rfl

/-- What is not about how clauses nest is reported as the scan reports it. -/
theorem parse_error_iff {kind : ParseKind} {o : Nat} (hk : kind.ofBlocks = false) :
    parse stack source = .error (.located kind o) ↔
      Clause.scan stack source = .error (.located kind o) := by
  refine ⟨fun h => ?_, parse_of_scan_error⟩
  unfold parse at h
  split at h
  · cases h
  rcases bind_eq_error.mp h with hscan | ⟨clauses, -, hbuild⟩
  · exact hscan
  · obtain ⟨k, hof, p, heq⟩ := Block.build_aboutNesting hbuild
    obtain ⟨rfl, -⟩ := ParseFault.located.inj heq
    rw [hk] at hof
    cases hof

/-- An error that belongs to one clause is reported if and only if the scan gets to that clause. -/
theorem parse_error_iff_read {kind : ParseKind} {o : Nat} (hk : kind.ofBlocks = false) :
    parse stack source = .error (.located kind o) ↔
      ∃ clauses stop, Scanned stack source 0 clauses stop ∧
        Clause.read stack stop (source.drop stop) = .error (.located kind o) := by
  rw [parse_error_iff hk, Clause.scan_error_iff]
  simp only [Clause.clauseAt_eq_read]
  constructor
  · rintro ⟨clauses, stop, r, hscanned, hread, heq⟩
    cases r with
    | located =>
      obtain ⟨rfl, rfl⟩ := ParseFault.located.inj heq
      exact ⟨clauses, stop, hscanned, hread⟩
    | tooDeep =>
      obtain ⟨rfl, -⟩ := ParseFault.located.inj heq
      cases hk
    | numeralTooLong => cases heq
  · rintro ⟨clauses, stop, hscanned, hread⟩
    exact ⟨clauses, stop, _, hscanned, hread, rfl⟩

end

/-! ## Errors that the next token decides -/

/-- **One token predicts.** A production answers with nothing, with a tree or with a refusal as the
token at its offset says, and what it refuses in a clause that the scan gets to is reported. -/
theorem predicted_by_token (stack : Stack) (source : Text) :
    (∀ offset calls l,
      Expr.Predicted source offset calls l (production source calls l.rule offset)) ∧
    (∀ offset calls, production source calls .filterCall offset = .ok none ↔
      14 ≤ calls + 1 ∧ (Token.atOffset source offset).kind ∉ Level.or.first) ∧
    (∀ offset calls e ts pipe rest, Token.onward source offset = ts ++ pipe :: rest →
      Expr.Phrase calls .piped e ts → pipe.kind = .pipe → 14 < calls →
      (production source calls .expression offset =
          .error (.located .missingFilterCall pipe.stop) ↔
        (Token.atOffset source pipe.stop).kind ∉ Level.or.first)) ∧
    (∀ o,
      (parse stack source = .error (.located .missingTestExpression o) ↔
        ∃ clauses stop, Scanned stack source 0 clauses stop ∧ LacksTest source stop o) ∧
      (parse stack source = .error (.located .missingIterator o) ↔
        ∃ clauses stop, Scanned stack source 0 clauses stop ∧ LacksIterator source stop o) ∧
      (parse stack source = .error (.located .missingFilterCall o) → ∃ clauses stop pipe,
        Scanned stack source 0 clauses stop ∧
        pipe ∈ Token.stream Clause.closes (stop + 2) (source.drop (stop + 2)) ∧
        pipe.kind = .pipe ∧ pipe.stop = o ∧
        (Token.atOffset source o).kind ∉ Level.or.first)) ∧
    ∀ clauses stop o calls l r, Scanned stack source 0 clauses stop →
      Asks stack source stop o calls l → production source calls l.rule o = .error r →
      parse stack source = .error (Clause.blame stop r) := by
  refine ⟨Expr.predicted source, Expr.filterCall_none_iff source,
    fun offset calls e ts pipe rest heq hp hk hcalls =>
      Expr.filterCall_missing_iff hp hk hcalls heq,
    fun o => ⟨?_, ?_, ?_⟩, fun clauses stop o calls l r hscanned hasks hrefused => ?_⟩
  · rw [parse_error_iff_read rfl]
    simp only [Clause.read_missingTest_iff]
  · rw [parse_error_iff_read rfl]
    simp only [Clause.read_missingIterator_iff]
  · intro h
    obtain ⟨clauses, stop, hscanned, hread⟩ := (parse_error_iff_read rfl).mp h
    rcases Clause.read_faulted hread with ⟨room, hgrounds⟩ | ⟨kind, hkind, _, heq⟩
    · obtain ⟨pipe, hpipe, hk, hstop, hnext⟩ := hgrounds.exists_pipe Clause.openInTrees_closes
      exact ⟨clauses, stop, pipe, hscanned, hpipe, hk, hstop, hnext⟩
    · obtain ⟨rfl, -⟩ := Expr.Refusal.located.inj heq
      exact absurd hkind (by decide)
  · have hread := Clause.clauseAt_of_refusal hasks hrefused
    exact parse_of_scan_error (Clause.scan_error_iff.mpr ⟨clauses, stop, r, hscanned, hread, rfl⟩)

theorem predicted_by_token_filter :
    let source := "\x7b\x7b a | \x7d\x7d".toList
    let stack : Stack := ⟨40, by decide⟩
    let a : Token := ⟨.symbol, 3, 4, ['a']⟩
    let pipe : Token := ⟨.pipe, 5, 6, ['|']⟩
    let rest : List Token := [⟨.expressionEnd, 7, 9, ['\x7d', '\x7d']⟩, ⟨.invalid, 9, 9, []⟩]
    Token.onward source 2 = [a] ++ pipe :: rest ∧
      Expr.Phrase 37 .piped (.symbol a.span a.text) [a] ∧ Asks stack source 0 2 37 .piped ∧
      production source 37 .expression 2 = .error (.located .missingFilterCall 6) ∧
      a.start ≤ 6 ∧ parse stack source = .error (.located .missingFilterCall 6) ∧
      ∃ clauses stop p, Scanned stack source 0 clauses stop ∧
        p ∈ Token.stream Clause.closes (stop + 2) (source.drop (stop + 2)) ∧
        p.kind = .pipe ∧ p.stop = 6 := by
  intro source stack a pipe rest
  have honward : Token.onward source 2 = [a] ++ pipe :: rest := by
    subst source a pipe rest
    with_unfolding_all rfl
  have hphrase : Expr.Phrase 37 .piped (.symbol a.span a.text) [a] :=
    ⟨.symbol rfl, trivial, by decide, by decide, List.forall_mem_singleton.mpr nofun⟩
  have hasks : Asks stack source 0 2 37 .piped := .output ⟨_, rfl⟩
  obtain ⟨hpredicted, -, hmissing, hreports, hrefused⟩ := predicted_by_token stack source
  have hnext : (Token.atOffset source pipe.stop).kind ∉ Level.or.first := by decide +kernel
  have hproduction : production source 37 .expression 2 = .error (.located .missingFilterCall 6) :=
    (hmissing 2 37 _ [a] pipe rest honward hphrase rfl (by decide)).mpr hnext
  have hplace : a.start ≤ 6 := ((hpredicted 2 37 .piped).located hproduction).1
  have hreported : parse stack source = .error (.located .missingFilterCall 6) :=
    hrefused [] 0 2 37 .piped _ .nil hasks hproduction
  obtain ⟨clauses, stop, p, hscanned, hp, hk, hstop, -⟩ := (hreports 6).2.2 hreported
  exact ⟨honward, hphrase, hasks, hproduction, hplace, hreported, clauses, stop, p,
    hscanned, hp, hk,
    hstop⟩

/-! ## More parentheses than there is room for -/

def parens (offset count : Nat) : List Token :=
  (List.range' offset count).map fun o => ⟨.leftParen, o, o + 1, ['(']⟩

theorem stream_parens {closes : Kind → Bool} (hopen : closes .leftParen = false) (rest : Text) :
    ∀ offset count, Token.stream closes offset (List.replicate count '(' ++ rest) =
      parens offset count ++ Token.stream closes (offset + count) rest
  | _, 0 => rfl
  | offset, count + 1 => by
    have hstops : Token.Stops (fun d => (Token.pair? '(' d).isSome)
        (List.replicate count '(' ++ rest) := fun d _ => rfl
    have hlex := (Token.Lexeme.single (k := .leftParen) rfl hstops).lexeme_eq
    show Token.stream closes offset ([] ++ (['('] ++ (List.replicate count '(' ++ rest))) = _
    rw [Token.stream_gap (List.forall_mem_nil _) hlex, if_neg (by rw [hopen]; decide)]
    show _ :: Token.stream closes (offset + 1) _ = _
    rw [stream_parens hopen rest (offset + 1) count, parens, parens, List.range'_succ,
      Nat.add_right_comm offset 1 count]
    rfl

/-- A parser that comes to more opening parentheses than it has room for has no answer. -/
theorem parser_parens {depth room : Nat} {opened : List Token}
    (hroom : room < 15 * opened.length + 14) (ho : ∀ t ∈ opened, t.kind = .leftParen)
    (rest : List Token) : Expr.parser depth room (opened ++ rest) = .error .tooDeep := by
  induction depth generalizing room opened with
  | zero => rfl
  | succ depth ih =>
    by_cases hatom : room < 14
    · exact Expr.production_tooDeep hatom _ .piped
    cases opened with
    | nil => exact absurd hroom hatom
    | cons t opened =>
      obtain ⟨ht, ho⟩ := List.forall_mem_cons.mp ho
      have hinner : Expr.parser depth (room - 15) (opened ++ rest) = .error .tooDeep :=
        ih (by rw [List.length_cons] at hroom; omega) ho
      have hgroup :
          Expr.atom (Expr.parser depth) room (t :: (opened ++ rest)) = .error .tooDeep := by
        simp only [Expr.atom, if_neg hatom, Expr.atomFrom, ht, Expr.grouped, Expr.required, hinner]
        rfl
      exact Expr.production_error (l := .piped) (m := .atom) (by decide) (by omega)
        (fun _ _ hk => Expr.begins_of_kind ht ⟨by decide, rfl⟩ hk) hgroup

/-- Where too many parentheses stand there is neither a tree nor an error behind the first of them,
although it can begin an expression. -/
theorem not_predicted_too_deep :
    let source := '{' :: '{' :: (List.replicate 400 '(' ++ ['}', '}'])
    let stack : Stack := ⟨988, by decide⟩
    let next := Token.atOffset source 2
    let answer := production source 985 .expression 2
    next.kind ∈ Level.piped.first ∧ next.start = 2 ∧
      ¬ ((∃ tree, answer = .ok (some tree)) ∨
        ∃ kind o, answer = .error (.located kind o) ∧ next.start ≤ o) ∧
      parse stack source = .error (.located .nestingTooDeep 0) := by
  intro source stack next answer
  have honward : Token.onward source 2 = parens 2 400 ++ _ := stream_parens rfl ['}', '}'] 2 400
  have hnext : next = ⟨.leftParen, 2, 3, ['(']⟩ := by
    obtain ⟨ts, hts⟩ := Expr.exists_onward source 2
    exact (List.cons.inj (hts.symm.trans honward)).1
  have hparens : ∀ t ∈ parens 2 400, t.kind = .leftParen := fun t ht => by
    obtain ⟨o, -, rfl⟩ := List.mem_map.mp ht
    rfl
  have hanswer : answer = .error .tooDeep := by
    refine (Expr.production_onward source 2 985 .piped).error_iff.mpr ?_
    have hlength : (parens 2 400).length = 400 := by
      rw [parens, List.length_map, List.length_range']
    rw [honward]
    show Expr.parser 986 985 _ = _
    exact parser_parens (by omega) hparens _
  have hread : Clause.clauseAt stack source 0 = .error .tooDeep :=
    Clause.clauseAt_of_refusal (l := .piped) (.output ⟨_, rfl⟩) hanswer
  have hscan : Clause.scan stack source = .error (.located .nestingTooDeep 0) :=
    Clause.scan_error_iff.mpr ⟨[], 0, _, .nil, hread, rfl⟩
  refine ⟨by rw [hnext]; decide, by rw [hnext], ?_, parse_of_scan_error hscan⟩
  rw [hanswer]
  rintro (⟨_, h⟩ | ⟨_, _, h, -⟩) <;> cases h

end Stencil
