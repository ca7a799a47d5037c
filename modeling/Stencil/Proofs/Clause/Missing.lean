import Stencil.Proofs.Clause.Completeness
import Stencil.Proofs.Clause.Prediction

/-!
# Clauses in which an expression is missing

A test, an iterator or a filter call is missing exactly where none begins with the next token.
-/

namespace Stencil

namespace Clause

open Stencil.Expr (Refusal Grounds fail accept? accept_eq_some)

variable {stack : Stack}

/-! ## Errors of clauses -/

def loopKinds : List ParseKind :=
  [.missingLoopVariable, .missingInKeyword, .missingIterator, .incompletedStatementBlock]

def ownKinds : List ParseKind :=
  .missingTestExpression :: .unknownStatementType :: .incompletedExpressionBlock :: loopKinds

def Faulted (kinds : List ParseKind) (ts : List Token) (r : Refusal) : Prop :=
  (∃ room, Grounds room ts r) ∨ ∃ kind ∈ kinds, ∃ o, r = .located kind o

section
variable {kinds : List ParseKind} {ts us : List Token} {r : Refusal}

theorem Faulted.mono {more : List ParseKind} (h : Faulted kinds ts r) (hk : kinds ⊆ more) :
    Faulted more ts r :=
  h.imp id fun ⟨kind, hkind, hr⟩ => ⟨kind, hk hkind, hr⟩

theorem Faulted.kind {kind : ParseKind} {o : Nat} (h : Faulted kinds ts (.located kind o)) :
    kind.insideExpression = true ∨ kind = .missingFilterCall ∨ kind ∈ kinds := by
  rcases h with ⟨room, h⟩ | ⟨k, hk, p, heq⟩
  · cases h with
    | inside hk => exact .inl hk
    | filterCall => exact .inr (.inl rfl)
  · obtain ⟨rfl, rfl⟩ := Refusal.located.inj heq
    exact .inr (.inr hk)

theorem statementEnd_error {o : Nat} (h : statementEnd o ts = .error r) :
    Faulted [.incompletedStatementBlock] us r := by
  unfold statementEnd at h
  split at h
  · exact absurd h pure_ne_error
  · exact .inr ⟨_, List.mem_cons_self, o, (Except.error.inj h).symm⟩

theorem readTest_error (h : readTest stack ts = .error r) :
    Faulted [.missingTestExpression] ts r := by
  rcases bind_eq_error.mp h with hparse | ⟨parsed, -, h⟩
  · exact .inl ⟨_, (Expr.production_grounded _ .piped).grounds hparse⟩
  cases parsed with
  | some q => exact absurd h pure_ne_error
  | none => exact .inr ⟨_, List.mem_cons_self, _, (Except.error.inj h).symm⟩

theorem readLoop_error {start : Nat} {keyword : Token}
    (h : readLoop stack start keyword ts = .error r) :
    Faulted loopKinds ts r := by
  have own {kind : ParseKind} (hk : kind ∈ loopKinds) {o : Nat} {α : Type}
      (h : (fail kind o : Except Refusal α) = .error r) {ts : List Token} :
      Faulted loopKinds ts r :=
    .inr ⟨kind, hk, o, (Except.error.inj h).symm⟩
  rcases bind_eq_error.mp h with hname | ⟨parsed, hparsed, hnext⟩
  · exact .inl ⟨_, (Expr.production_grounded _ .piped).grounds hname⟩
  split at hnext
  · next s name rest =>
    obtain ⟨vs, rfl, -⟩ := Expr.parse_sound _ hparsed
    split at hnext
    · exact own (by decide) hnext
    · next word rest hc =>
      obtain ⟨rfl, -⟩ := accept_eq_some.mp hc
      rcases bind_eq_error.mp hnext with hiterator | ⟨parsed, -, hlast⟩
      · have hgrounds := (Expr.production_grounded _ .postfixed).grounds hiterator
        exact .inl ⟨_, (hgrounds.append [word]).append vs⟩
      split at hlast
      · exact own (by decide) hlast
      · rcases bind_eq_error.mp hlast with hend | ⟨_, -, hpure⟩
        · exact (statementEnd_error hend).mono (by decide)
        · exact absurd hpure pure_ne_error
  · exact own (by decide) hnext

theorem test_error {f : Nat → Expr → Clause}
    (h : (do
      let test ← readTest stack ts
      return f (← statementEnd test.1.stop test.2) test.1) = .error r) :
    readTest stack ts = .error r ∨ Faulted [.incompletedStatementBlock] ts r := by
  rcases bind_eq_error.mp h with htest | ⟨test, -, h⟩
  · exact .inl htest
  rcases bind_eq_error.mp h with hend | ⟨_, -, hpure⟩
  · exact .inr (statementEnd_error hend)
  · exact absurd hpure pure_ne_error

theorem bare_error {f : Nat → Clause} {o : Nat}
    (h : (do return f (← statementEnd o ts)) = .error r) :
    Faulted [.incompletedStatementBlock] us r := by
  rcases bind_eq_error.mp h with hend | ⟨_, -, hpure⟩
  · exact statementEnd_error hend
  · exact absurd hpure pure_ne_error

theorem readStatement_error {start : Nat} {keyword : Token}
    (h : readStatement stack start (keyword :: ts) = .error r) :
    (keyword.kind = .ifWord ∨ keyword.kind = .elifWord) ∧ readTest stack ts = .error r ∨
    keyword.kind = .forWord ∧ readLoop stack start keyword ts = .error r ∨
    Faulted [.incompletedStatementBlock, .unknownStatementType] ts r := by
  simp only [readStatement] at h
  split at h
  · next hk =>
    rcases test_error (f := fun n e => .ifTest ⟨start, n⟩ e) h with htest | hend
    · exact .inl ⟨.inl hk, htest⟩
    · exact .inr (.inr (hend.mono (by decide)))
  · next hk =>
    rcases test_error (f := fun n e => .elifTest ⟨start, n⟩ e) h with htest | hend
    · exact .inl ⟨.inr hk, htest⟩
    · exact .inr (.inr (hend.mono (by decide)))
  · exact .inr (.inr ((bare_error (f := fun n => .otherwise ⟨start, n⟩) h).mono (by decide)))
  · exact .inr (.inr ((bare_error (f := fun n => .endIf ⟨start, n⟩) h).mono (by decide)))
  · next hk => exact .inr (.inl ⟨hk, h⟩)
  · exact .inr (.inr ((bare_error (f := fun n => .endFor ⟨start, n⟩) h).mono (by decide)))
  · exact .inr (.inr (.inr ⟨_, by decide, _, (Except.error.inj h).symm⟩))

theorem readOutput_error {start : Nat} (h : readOutput stack start ts = .error r) :
    Faulted [.incompletedExpressionBlock] ts r := by
  rcases bind_eq_error.mp h with hparse | ⟨parsed, -, h⟩
  · exact .inl ⟨_, (Expr.production_grounded _ .piped).grounds hparse⟩
  split at h
  · exact .inr ⟨_, List.mem_cons_self, _, (Except.error.inj h).symm⟩
  split at h
  · exact absurd h pure_ne_error
  · exact .inr ⟨_, List.mem_cons_self, _, (Except.error.inj h).symm⟩

theorem readStatement_faulted {start : Nat} (h : readStatement stack start ts = .error r) :
    Faulted ownKinds ts r := by
  cases ts with
  | nil => exact .inr ⟨_, by decide, _, (Except.error.inj h).symm⟩
  | cons keyword ts =>
    have hfault : Faulted ownKinds ts r := by
      rcases readStatement_error h with ⟨-, htest⟩ | ⟨-, hloop⟩ | hother
      · exact (readTest_error htest).mono (by decide)
      · exact (readLoop_error hloop).mono (by decide)
      · exact hother.mono (by decide)
    exact hfault.imp_left fun ⟨room, hgrounds⟩ => ⟨room, hgrounds.append [keyword]⟩

/-- A clause that cannot be read is at fault itself, or one of its expressions is refused on grounds
of its tokens. -/
theorem read_faulted {source : Text} {offset : Nat}
    (h : read stack offset (source.drop offset) = .error r) :
    Faulted ownKinds (Token.stream closes (offset + 2) (source.drop (offset + 2))) r := by
  obtain ⟨d, rest, heq, hd⟩ := opens_of_error h
  rw [drop_opening heq]
  rw [heq] at h
  rcases hd with rfl | rfl
  · exact readStatement_faulted h
  · exact (readOutput_error h).mono (by decide)

/-! ## What is missing -/

theorem readTest_missing_iff {o : Nat} :
    readTest stack ts = .error (.located .missingTestExpression o) ↔
      Expr.parse (stack.calls - 4) ts = .ok none ∧ o = (ts.head?.map Token.start).getD 0 := by
  constructor
  · intro h
    rcases bind_eq_error.mp h with hparse | ⟨parsed, hparsed, h⟩
    · have hgrounds := (Expr.production_grounded _ .piped).grounds hparse
      cases hgrounds with
      | inside hk => cases hk
    cases parsed with
    | some q => exact absurd h pure_ne_error
    | none =>
      cases Except.error.inj h
      exact ⟨hparsed, rfl⟩
  · rintro ⟨hnone, rfl⟩
    rw [readTest, hnone]
    rfl

theorem readLoop_missing_iff {start : Nat} {keyword : Token} {o : Nat} :
    readLoop stack start keyword ts = .error (.located .missingIterator o) ↔
      ∃ name word rest, ts = name :: word :: rest ∧ name.kind = .symbol ∧ word.kind = .inWord ∧
        Expr.parsePostfix (stack.calls + 8) rest = .ok none ∧ o = word.stop := by
  constructor
  · intro h
    -- the productions and the end of the clause have errors of other kinds
    rcases bind_eq_error.mp h with hname | ⟨parsed, hparsed, hnext⟩
    · have hgrounds := (Expr.production_grounded _ .piped).grounds hname
      cases hgrounds with
      | inside hk => cases hk
    split at hnext
    · next s name rest =>
      obtain ⟨us, rfl, hp⟩ := Expr.parse_sound _ hparsed
      obtain ⟨t, rfl, hk, -⟩ := hp.reads.symbol_eq rfl
      split at hnext
      · cases Except.error.inj hnext
      · next word rest hc =>
        obtain ⟨rfl, hword⟩ := accept_eq_some.mp hc
        rcases bind_eq_error.mp hnext with hiterator | ⟨parsed, hnone, hlast⟩
        · have hgrounds := (Expr.production_grounded _ .postfixed).grounds hiterator
          cases hgrounds with
          | inside hk => cases hk
        cases parsed with
        | none =>
          cases Except.error.inj hlast
          exact ⟨t, word, rest, rfl, hk, hword, hnone, rfl⟩
        | some q =>
          rcases bind_eq_error.mp hlast with hend | ⟨_, -, hpure⟩
          · have hfault : Faulted [.incompletedStatementBlock] rest _ := statementEnd_error hend
            exact absurd hfault.kind (by decide)
          · exact absurd hpure pure_ne_error
    · cases Except.error.inj hnext
  · rintro ⟨name, word, rest, rfl, hk, hword, hnone, rfl⟩
    simp only [readLoop, parse_name hk hword, ok_bind, accept_eq_some.mpr ⟨rfl, hword⟩, hnone]
    rfl

theorem readStatement_missingTest_iff {start : Nat} {keyword : Token} {o : Nat} :
    readStatement stack start (keyword :: ts) = .error (.located .missingTestExpression o) ↔
      (keyword.kind = .ifWord ∨ keyword.kind = .elifWord) ∧
        readTest stack ts = .error (.located .missingTestExpression o) := by
  constructor
  · intro h
    rcases readStatement_error h with htest | ⟨-, hloop⟩ | hfault
    · exact htest
    · exact absurd (readLoop_error hloop).kind (by decide)
    · exact absurd hfault.kind (by decide)
  · rintro ⟨hk | hk, htest⟩ <;> simp only [readStatement, hk, htest] <;> rfl

theorem readStatement_missingIterator_iff {start : Nat} {keyword : Token} {o : Nat} :
    readStatement stack start (keyword :: ts) = .error (.located .missingIterator o) ↔
      keyword.kind = .forWord ∧
        readLoop stack start keyword ts = .error (.located .missingIterator o) := by
  constructor
  · intro h
    rcases readStatement_error h with ⟨-, htest⟩ | hloop | hfault
    · exact absurd (readTest_error htest).kind (by decide)
    · exact hloop
    · exact absurd hfault.kind (by decide)
  · rintro ⟨hk, hloop⟩
    simp only [readStatement, hk, hloop]

end

/-! ## What is missing in a source -/

/-- The statement at an offset is an `if` or an `elif`, and no expression begins with the token at
`o` behind that word. -/
def LacksTest (source : Text) (offset o : Nat) : Prop :=
  ['{', '%'] <+: source.drop offset ∧ ∃ keyword next,
    Token.Follows source (offset + 2) [keyword, next] ∧
    (keyword.kind = .ifWord ∨ keyword.kind = .elifWord) ∧
    next.kind ∉ Level.piped.first ∧ o = next.start

/-- The statement at an offset is a `for` with its name and with the word `in`, which ends at `o`,
and no iterator begins with the token behind that word. -/
def LacksIterator (source : Text) (offset o : Nat) : Prop :=
  ['{', '%'] <+: source.drop offset ∧ ∃ keyword name word next,
    Token.Follows source (offset + 2) [keyword, name, word, next] ∧
    keyword.kind = .forWord ∧ name.kind = .symbol ∧ word.kind = .inWord ∧
    next.kind ∉ Level.postfixed.first ∧ o = word.stop

section
variable {source : Text} {offset o : Nat}

theorem parse_eq_none_iff {t : Token} {ts : List Token} :
    Expr.parse (stack.calls - 4) (t :: ts) = .ok none ↔ t.kind ∉ Level.piped.first :=
  Expr.production_eq_none_of_room (Expr.parser (stack.calls - 4)) t ts .piped
    (Nat.le_sub_of_add_le stack.enough)

theorem parsePostfix_eq_none_iff {t : Token} {ts : List Token} :
    Expr.parsePostfix (stack.calls + 8) (t :: ts) = .ok none ↔ t.kind ∉ Level.postfixed.first :=
  Expr.production_eq_none_of_room (Expr.parser (stack.calls + 8)) t ts .postfixed
    (Nat.le_add_right_of_le (Nat.le_of_add_right_le (k := 4) stack.enough))

theorem valid_of_keyword {t : Token}
    (hk : t.kind = .ifWord ∨ t.kind = .elifWord ∨ t.kind = .forWord) :
    t.kind ≠ .invalid ∧ closes t.kind = false := by
  rcases hk with hk | hk | hk <;> rw [hk] <;> decide

theorem read_statement (h : ['{', '%'] <+: source.drop offset) :
    read stack offset (source.drop offset) =
      readStatement stack offset (Token.stream closes (offset + 2) (source.drop (offset + 2))) := by
  obtain ⟨rest, heq⟩ := h
  rw [drop_opening heq.symm, ← heq]
  rfl

theorem read_statement_iff {r : Refusal}
    (hr : ∀ ts, ¬ Faulted [.incompletedExpressionBlock] ts r) :
    read stack offset (source.drop offset) = .error r ↔ ['{', '%'] <+: source.drop offset ∧
      readStatement stack offset (Token.stream closes (offset + 2) (source.drop (offset + 2))) =
        .error r := by
  refine ⟨fun h => ?_, fun ⟨hopen, h⟩ => (read_statement hopen).trans h⟩
  obtain ⟨d, rest, heq, hd⟩ := opens_of_error h
  rcases hd with rfl | rfl
  · have hopen : ['{', '%'] <+: source.drop offset := ⟨rest, heq.symm⟩
    exact ⟨hopen, (read_statement hopen).symm.trans h⟩
  · rw [heq] at h
    exact absurd (readOutput_error h) (hr _)

theorem read_missingTest_iff :
    read stack offset (source.drop offset) = .error (.located .missingTestExpression o) ↔
      LacksTest source offset o := by
  rw [read_statement_iff fun _ h => absurd h.kind (by decide)]
  refine and_congr_right fun _ => ?_
  constructor
  · intro h
    obtain ⟨ts, hts⟩ := Token.exists_stream closes source (offset + 2)
    rw [hts] at h
    obtain ⟨hk, htest⟩ := readStatement_missingTest_iff.mp h
    obtain ⟨hnone, ho⟩ := readTest_missing_iff.mp htest
    obtain ⟨hvalid, hopen⟩ := valid_of_keyword (hk.imp_right .inl)
    obtain ⟨next, more, rfl⟩ := Token.exists_next (show _ = [] ++ _ :: _ from hts) hvalid hopen
    exact ⟨_, next, Token.follows_of_stream hts, hk, parse_eq_none_iff.mp hnone, ho⟩
  · rintro ⟨keyword, next, hf, hk, hnext, rfl⟩
    have hstream : ∃ more, Token.stream closes (offset + 2) (source.drop (offset + 2)) =
        [keyword] ++ next :: more :=
      hf.exists_stream (List.forall_mem_singleton.mpr (valid_of_keyword (hk.imp_right .inl)))
    obtain ⟨more, hmore⟩ := hstream
    rw [hmore]
    exact readStatement_missingTest_iff.mpr
      ⟨hk, readTest_missing_iff.mpr ⟨parse_eq_none_iff.mpr hnext, rfl⟩⟩

theorem read_missingIterator_iff :
    read stack offset (source.drop offset) = .error (.located .missingIterator o) ↔
      LacksIterator source offset o := by
  rw [read_statement_iff fun _ h => absurd h.kind (by decide)]
  refine and_congr_right fun _ => ?_
  constructor
  · intro h
    obtain ⟨ts, hts⟩ := Token.exists_stream closes source (offset + 2)
    rw [hts] at h
    obtain ⟨hk, hloop⟩ := readStatement_missingIterator_iff.mp h
    obtain ⟨name, word, rest, rfl, hname, hword, hnone, ho⟩ := readLoop_missing_iff.mp hloop
    obtain ⟨next, more, rfl⟩ := Token.exists_next (show _ = [_, name] ++ word :: rest from hts)
      (by rw [hword]; decide) (by rw [hword]; rfl)
    exact ⟨_, name, word, next, Token.follows_of_stream hts, hk, hname, hword,
      parsePostfix_eq_none_iff.mp hnone, ho⟩
  · rintro ⟨keyword, name, word, next, hf, hk, hname, hword, hnext, rfl⟩
    -- none of the three tokens closes the clause, so one more follows them
    have hstream : ∃ more, Token.stream closes (offset + 2) (source.drop (offset + 2)) =
        [keyword, name, word] ++ next :: more := by
      refine hf.exists_stream ?_
      simp only [List.forall_mem_cons, hk, hname, hword]
      decide
    obtain ⟨more, hmore⟩ := hstream
    rw [hmore]
    exact readStatement_missingIterator_iff.mpr ⟨hk, readLoop_missing_iff.mpr
      ⟨name, word, _, rfl, hname, hword, parsePostfix_eq_none_iff.mpr hnext, rfl⟩⟩

/-! ## What is asked for -/

/-- The clause at an offset needs an expression of a level that begins with the token at `o`, for
which so many calls are left: an output, a test or the name of a loop, or an iterator. -/
inductive Asks (stack : Stack) (source : Text) (offset : Nat) : (o calls : Nat) → Level → Prop
  | output : ['{', '{'] <+: source.drop offset →
      Asks stack source offset (offset + 2) (stack.calls - 3) .piped
  | statement {keyword} : ['{', '%'] <+: source.drop offset →
      Token.Follows source (offset + 2) [keyword] →
      keyword.kind = .ifWord ∨ keyword.kind = .elifWord ∨ keyword.kind = .forWord →
      Asks stack source offset keyword.stop (stack.calls - 4) .piped
  | iterator {keyword name word} : ['{', '%'] <+: source.drop offset →
      Token.Follows source (offset + 2) [keyword, name, word] →
      keyword.kind = .forWord → name.kind = .symbol → word.kind = .inWord →
      Asks stack source offset word.stop (stack.calls - 4) .postfixed

theorem readStatement_of_refusal {start : Nat} {keyword : Token} {ts : List Token} {r : Refusal}
    (hk : keyword.kind = .ifWord ∨ keyword.kind = .elifWord ∨ keyword.kind = .forWord)
    (h : Expr.parse (stack.calls - 4) ts = .error r) :
    readStatement stack start (keyword :: ts) = .error r := by
  rcases hk with hk | hk | hk <;> simp only [readStatement, hk, readTest, readLoop, h] <;> rfl

/-- Where the expression that a clause needs is refused, so is the clause. -/
theorem clauseAt_of_refusal {calls : Nat} {l : Level} {r : Refusal}
    (ha : Asks stack source offset o calls l)
    (h : Expr.Parser.production source calls l.rule o = .error r) :
    clauseAt stack source offset = .error r := by
  rw [clauseAt_eq_read]
  cases ha with
  | output hopen =>
    obtain ⟨rest, heq⟩ := hopen
    have hparse := (Expr.parse_paired openInTrees_closes _ _).error_iff.mp h
    rw [show source.drop (offset + 2) = rest from drop_opening heq.symm] at hparse
    rw [← heq]
    show readOutput stack offset (Token.stream closes (offset + 2) rest) = _
    rw [readOutput, hparse]
    rfl
  | statement hopen hf hk =>
    have hparse := (Expr.parse_paired openInTrees_closes _ _).error_iff.mp h
    rw [read_statement hopen, hf.stream_eq (List.forall_mem_singleton.mpr (valid_of_keyword hk))]
    exact readStatement_of_refusal hk hparse
  | @iterator keyword name word hopen hf hk hname hword =>
    have hkinds : ∀ u ∈ [keyword, name, word], u.kind ≠ .invalid ∧ closes u.kind = false := by
      simp only [List.forall_mem_cons, hk, hname, hword]
      decide
    have hiterator := (Expr.parsePostfix_paired openInTrees_closes _ _).error_iff.mp h
    rw [calls_iterator] at hiterator
    rw [read_statement hopen, hf.stream_eq hkinds]
    show readStatement stack offset (keyword :: name :: word ::
      Token.stream closes word.stop (source.drop word.stop)) = _
    simp only [readStatement, hk, readLoop, parse_name hname hword, ok_bind,
      accept_eq_some.mpr ⟨rfl, hword⟩, hiterator]
    rfl

end

end Clause

end Stencil
