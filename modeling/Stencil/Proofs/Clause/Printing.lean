import Mathlib.Data.List.Chain
import Stencil.Proofs.Clause.Completeness
import Stencil.Proofs.Clause.Offsets
import Stencil.Proofs.Expr.Printing

/-!
# Printing clauses

Drafts are clauses without their places. They are printed one after the other, and a scan of what
was printed finds each of them again with the span at which it was printed.
-/

namespace Stencil

open Token (Kind Word Layout Plain IsName)

/-- A clause without its place; the spans inside its expression count for nothing. -/
inductive Draft
  | text (content : Text)
  | output (e : Expr)
  | ifTest (test : Expr)
  | elifTest (test : Expr)
  | otherwise
  | endIf
  | forEach (name : Text) (iterator : Expr)
  | endFor

namespace Draft

def words (numeral : Float → Text) : Draft → List Word
  | text _ => []
  | output e => e.words numeral
  | ifTest e => Kind.ifWord.word :: e.words numeral
  | elifTest e => Kind.elifWord.word :: e.words numeral
  | otherwise => [Kind.elseWord.word]
  | endIf => [Kind.endifWord.word]
  | forEach name e =>
    Kind.forWord.word :: (.symbol, name) :: Kind.inWord.word :: e.words numeral
  | endFor => [Kind.endforWord.word]

def closing : Draft → Word
  | output _ => Kind.expressionEnd.word
  | _ => Kind.statementEnd.word

section
variable (L : Layout)

def print (o : Nat) : Draft → Text
  | text content => content
  | output e => '{' :: '{' :: L.write (o + 2) (e.words L.numeral ++ [closing (output e)])
  | d => '{' :: '%' :: L.write (o + 2) (d.words L.numeral ++ [d.closing])

def stop (o : Nat) (d : Draft) : Nat := o + (d.print L o).length

/-- The clause that a draft is the draft of, where it was printed. -/
def place (o : Nat) : Draft → Clause
  | text content => .text ⟨o, o + content.length⟩
  | output e => .output ⟨o, stop L o (output e)⟩ (e.place L (o + 2))
  | ifTest e =>
    .ifTest ⟨o, stop L o (ifTest e)⟩ (e.place L (L.token (o + 2) Kind.ifWord.word).stop)
  | elifTest e =>
    .elifTest ⟨o, stop L o (elifTest e)⟩ (e.place L (L.token (o + 2) Kind.elifWord.word).stop)
  | otherwise => .otherwise ⟨o, stop L o otherwise⟩
  | endIf => .endIf ⟨o, stop L o endIf⟩
  | forEach name e =>
    let binder := L.token (L.token (o + 2) Kind.forWord.word).stop (.symbol, name)
    .forEach ⟨o, stop L o (forEach name e)⟩ ⟨binder.span, name⟩
      (e.place L (L.token binder.stop Kind.inWord.word).stop)
  | endFor => .endFor ⟨o, stop L o endFor⟩

def printAll (o : Nat) : List Draft → Text
  | [] => []
  | d :: ds => d.print L o ++ printAll (d.stop L o) ds

def placeAll (o : Nat) : List Draft → List Clause
  | [] => []
  | d :: ds => d.place L o :: placeAll (d.stop L o) ds

end

/-! ## Drafts that can be read back -/

structure IsRun (content : Text) : Prop where
  ne_nil : content ≠ []
  no_statement : ¬ ['{', '%'] <:+: content
  no_output : ¬ ['{', '{'] <:+: content

structure Sayable (numeral : Float → Text) (l : Level) (room : Nat) (e : Expr) : Prop where
  printable : e.Printable numeral
  levelled : e.WellLevelled
  le_level : l ≤ e.level
  fits : e.nesting ≤ room

def Printable (stack : Stack) (numeral : Float → Text) : Draft → Prop
  | text content => IsRun content
  | output e => Sayable numeral .piped (stack.calls - 3) e
  | ifTest e | elifTest e => Sayable numeral .piped (stack.calls - 4) e
  | forEach name e => IsName name ∧ Sayable numeral .postfixed (stack.calls + 8) e
  | otherwise | endIf | endFor => True

def isText : Draft → Bool
  | text _ => true
  | _ => false

/-- Two drafts that may stand one after the other: not both text, and the first no text that makes
up a delimiter with what comes next. -/
def Meets (d next : Draft) : Prop :=
  ∀ content, d = text content → next.isText = false ∧ content.getLast? ≠ some '{'

/-! ## Runs of text -/

def Opens (t : Text) : Prop := ∃ c rest, t = '{' :: c :: rest ∧ (c = '%' ∨ c = '{')

end Draft

namespace Clause

open Draft (IsRun Opens)

theorem textLength_cons {c : Char} {t : Text} (h : ¬ Opens (c :: t)) :
    textLength (c :: t) = textLength t + 1 := by
  conv => lhs; unfold textLength
  split
  · rename_i heq; cases heq
  · rename_i rest heq; exact absurd ⟨'%', rest, heq, .inl rfl⟩ h
  · rename_i rest heq; exact absurd ⟨'{', rest, heq, .inr rfl⟩ h
  · rename_i heq; rw [(List.cons.inj heq).2]

theorem textLength_opens {t : Text} (h : Opens t) : textLength t = 0 := by
  obtain ⟨c, rest, rfl, rfl | rfl⟩ := h <;> rfl

/-- A run of text ends where a clause begins, or with the source. -/
theorem textLength_append {rest : Text} : ∀ {content : Text}, ¬ ['{', '%'] <:+: content →
    ¬ ['{', '{'] <:+: content → (rest = [] ∨ Opens rest ∧ content.getLast? ≠ some '{') →
    textLength (content ++ rest) = content.length
  | [], _, _, hrest => by
    rcases hrest with rfl | ⟨ho, _⟩
    · rfl
    · exact textLength_opens ho
  | c :: content, hs, ho, hrest => by
    have hclosed : ¬ Opens (c :: (content ++ rest)) := by
      rintro ⟨d, more, heq, hd⟩
      obtain ⟨rfl, htail⟩ := List.cons.inj heq
      cases content with
      | nil =>
        rcases hrest with rfl | ⟨_, hlast⟩
        · cases htail
        · exact hlast rfl
      | cons b content =>
        obtain ⟨rfl, -⟩ := List.cons.inj htail
        rcases hd with rfl | rfl
        · exact hs ⟨[], content, rfl⟩
        · exact ho ⟨[], content, rfl⟩
    have hsub {u : Text} (h : u <:+: content) : u <:+: c :: content :=
      h.trans (List.suffix_cons c content).isInfix
    rw [List.cons_append, textLength_cons hclosed,
      textLength_append (fun h => hs (hsub h)) (fun h => ho (hsub h)) ?_]
    · rfl
    · refine hrest.imp_right fun ⟨h, hlast⟩ => ⟨h, fun heq => hlast ?_⟩
      rw [List.getLast?_cons, heq]
      rfl

theorem read_text {stack : Stack} {offset : Nat} {t : Text} (hpos : 0 < textLength t) :
    read stack offset t = .ok (.text ⟨offset, offset + textLength t⟩) := by
  unfold read
  split
  · cases hpos
  · cases hpos
  · rfl

theorem read_run {stack : Stack} {o : Nat} {content rest : Text} (h : IsRun content)
    (hrest : rest = [] ∨ Opens rest ∧ content.getLast? ≠ some '{') :
    read stack o (content ++ rest) = .ok (.text ⟨o, o + content.length⟩) := by
  have hlen := textLength_append h.no_statement h.no_output hrest
  have hpos : 0 < textLength (content ++ rest) := hlen ▸ List.length_pos_iff.mpr h.ne_nil
  rw [read_text hpos, hlen]

end Clause

/-! ## Clauses and their words -/

namespace Draft

section
variable {stack : Stack} (L : Layout)

theorem print_tag (o : Nat) {d : Draft} (h : d.isText = false) :
    d.print L o = (d.place L o).opening ++ L.write (o + 2) (d.words L.numeral ++ [d.closing]) := by
  cases d <;> first | rfl | cases h

theorem stop_tag (o : Nat) {d : Draft} (h : d.isText = false) :
    d.stop L o = L.advance (o + 2) (d.words L.numeral ++ [d.closing]) := by
  rw [L.advance_eq, stop, print_tag L o h, List.length_append]
  have : (d.place L o).opening.length = 2 := by cases d <;> first | rfl | cases h
  omega

theorem stop_place (o : Nat) (d : Draft) : (d.place L o).stop = d.stop L o := by
  cases d <;> rfl

theorem tokens_closing (o : Nat) {d : Draft} (h : d.isText = false) :
    L.tokens (o + 2) (d.words L.numeral ++ [d.closing]) =
      L.tokens (o + 2) (d.words L.numeral) ++
        [L.token (L.advance (o + 2) (d.words L.numeral)) d.closing] ∧
    (L.token (L.advance (o + 2) (d.words L.numeral)) d.closing).stop = d.stop L o := by
  refine ⟨L.tokens_append _ _ _, ?_⟩
  rw [stop_tag L o h, L.advance_append]
  rfl

theorem reads_place (o : Nat) {d : Draft} (h : d.isText = false)
    (hp : d.Printable stack L.numeral) :
    Clause.Reads o (d.place L o) (L.tokens (o + 2) (d.words L.numeral ++ [d.closing])) := by
  obtain ⟨htokens, hstop⟩ := tokens_closing L o h
  rw [htokens]
  cases d with
  | text content => cases h
  | output e =>
    rw [place, ← hstop]
    exact .output rfl (Expr.reads_place L e _ hp.printable)
  | ifTest e =>
    rw [place, ← hstop]
    exact .ifTest rfl rfl (Expr.reads_place L e _ hp.printable)
  | elifTest e =>
    rw [place, ← hstop]
    exact .elifTest rfl rfl (Expr.reads_place L e _ hp.printable)
  | otherwise => rw [place, ← hstop]; exact .otherwise rfl rfl
  | endIf => rw [place, ← hstop]; exact .endIf rfl rfl
  | forEach name e =>
    rw [place, ← hstop]
    exact .forEach rfl rfl rfl rfl (Expr.reads_place L e _ hp.2.printable)
  | endFor => rw [place, ← hstop]; exact .endFor rfl rfl

theorem plain_words {d : Draft} (hp : d.Printable stack L.numeral) :
    ∀ w ∈ d.words L.numeral, Plain w := by
  cases d with
  | text content => exact fun w hw => nomatch hw
  | output e => exact Expr.plain_words e hp.printable
  | ifTest e | elifTest e =>
    exact List.forall_mem_cons.mpr ⟨Token.plain_kind rfl rfl, Expr.plain_words e hp.printable⟩
  | forEach name e =>
    exact List.forall_mem_cons.mpr ⟨Token.plain_kind rfl rfl, List.forall_mem_cons.mpr
      ⟨Token.plain_name hp.1, List.forall_mem_cons.mpr
        ⟨Token.plain_kind rfl rfl, Expr.plain_words e hp.2.printable⟩⟩⟩
  | otherwise | endIf | endFor => exact List.forall_mem_singleton.mpr (Token.plain_kind rfl rfl)

theorem short_words {d : Draft} (hp : d.Printable stack L.numeral) (o : Nat) :
    Expr.Short (L.tokens o (d.words L.numeral ++ [d.closing])) := by
  rw [L.tokens_append]
  refine Expr.Short.append.mpr ⟨Expr.short_tokens L (plain_words L hp) o, ?_⟩
  refine List.forall_mem_singleton.mpr fun hk => ?_
  cases d <;> cases hk

theorem wellLevelled_place (o : Nat) {d : Draft} (hp : d.Printable stack L.numeral) :
    (d.place L o).WellLevelled := by
  intro l e he
  have keep {m : Level} {room : Nat} {t : Expr} (o : Nat) (h : Sayable L.numeral m room t) :
      (t.place L o).WellLevelled ∧ m ≤ (t.place L o).level :=
    ⟨Expr.wellLevelled_place L t o h.levelled, (Expr.level_place L t o).symm ▸ h.le_level⟩
  cases d with
  | output t | ifTest t | elifTest t => cases he; exact keep _ hp
  | forEach name t => cases he; exact keep _ hp.2
  | _ => cases he

theorem fits_place (o : Nat) {d : Draft} (hp : d.Printable stack L.numeral) :
    (d.place L o).Fits stack := by
  intro l e he
  have keep {m : Level} {room : Nat} {t : Expr} (o : Nat) (h : Sayable L.numeral m room t) :
      (t.place L o).nesting ≤ room := (Expr.nesting_place L t o).symm ▸ h.fits
  cases d with
  | output t | ifTest t | elifTest t => cases he; exact keep _ hp
  | forEach name t => cases he; exact keep _ hp.2
  | _ => cases he

theorem read_tag (o : Nat) {d : Draft} (h : d.isText = false) (hp : d.Printable stack L.numeral)
    (rest : Text) : Clause.read stack o (d.print L o ++ rest) = .ok (d.place L o) := by
  have hlex : Token.lexeme? (d.closing.2 ++ rest) = some d.closing := by
    cases d <;> exact Token.lexeme_pair rfl rest
  have hclose : Clause.closes d.closing.1 = true := by cases d <;> rfl
  have hstream := L.stream_write hclose hlex (d.words L.numeral) (o + 2)
    fun w hw => ⟨(plain_words L hp w hw).separable, (plain_words L hp w hw).isOpen⟩
  rw [print_tag L o h, List.append_assoc]
  exact Clause.read_complete (reads_place L o h hp) (wellLevelled_place L o hp)
    (fits_place L o hp) (short_words L hp _) hstream

/-! ## The scan of what was printed -/

theorem opens_print (o : Nat) {d : Draft} (h : d.isText = false) (rest : Text) :
    Opens (d.print L o ++ rest) := by
  cases d with
  | text content => cases h
  | output e => exact ⟨'{', _, rfl, .inr rfl⟩
  | _ => exact ⟨'%', _, rfl, .inl rfl⟩

theorem read_print (o : Nat) {d : Draft} {ds : List Draft} (hp : d.Printable stack L.numeral)
    (hm : ∀ n ∈ ds.head?, Meets d n) :
    Clause.read stack o (d.print L o ++ printAll L (d.stop L o) ds) = .ok (d.place L o) := by
  cases hd : d.isText with
  | false => exact read_tag L o hd hp _
  | true =>
    cases d with
    | text content =>
      refine Clause.read_run hp ?_
      cases ds with
      | nil => exact .inl rfl
      | cons n ds =>
        obtain ⟨hn, hlast⟩ := hm n rfl content rfl
        exact .inr ⟨opens_print L _ hn _, hlast⟩
    | _ => cases hd

theorem print_ne_nil (o : Nat) {d : Draft} (hp : d.Printable stack L.numeral) :
    d.print L o ≠ [] := by
  cases d with
  | text content => exact hp.ne_nil
  | _ => exact List.cons_ne_nil _ _

theorem scanFrom_print : ∀ (ds : List Draft) (o : Nat), (∀ d ∈ ds, d.Printable stack L.numeral) →
    ds.IsChain Meets → Clause.scanFrom stack o (printAll L o ds) = .ok (placeAll L o ds)
  | [], o, _, _ => Clause.scanFrom_nil o
  | d :: ds, o, hp, hm => by
    obtain ⟨hd, hds⟩ := List.forall_mem_cons.mp hp
    obtain ⟨hnext, hchain⟩ := List.isChain_cons.mp hm
    have hread := read_print L o hd hnext
    rw [printAll, Clause.scanFrom_append (print_ne_nil L o hd) hread (stop_place L o d),
      stop_place, scanFrom_print ds _ hds hchain]
    rfl

end

/-- **Scanning undoes printing.** Drafts that are printed with any blanks between their tokens are
scanned to their clauses, every node with the span at which it was printed. -/
theorem scan_print {stack : Stack} (L : Layout) {ds : List Draft}
    (hp : ∀ d ∈ ds, d.Printable stack L.numeral) (hm : ds.IsChain Meets) :
    Clause.scan stack (printAll L 0 ds) = .ok (placeAll L 0 ds) :=
  (Clause.scan_eq_scanFrom stack _).trans (scanFrom_print L ds 0 hp hm)

theorem scan_print_loop :
    let ds : List Draft :=
      [.forEach ['x'] (.binary default .member (.symbol default ['a']) (.symbol default ['b'])),
        .text "no: ".toList,
        .output (.unary default .not (.binary default (.comparison .less) (.symbol default ['x'])
          (.literal default (.ofInteger 1)))), .endFor, .text ['}', '{']]
    (∀ d ∈ ds, d.Printable .least Layout.spaced.numeral) ∧ ds.IsChain Meets ∧
    Clause.scan .least "\x7b% for x in a . b %\x7dno: \x7b\x7b not x < 1 \x7d\x7d\x7b% endfor %\x7d\x7d\x7b".toList =
      .ok [.forEach ⟨0, 20⟩ ⟨⟨7, 8⟩, ['x']⟩
          (.binary ⟨12, 17⟩ .member (.symbol ⟨12, 13⟩ ['a']) (.symbol ⟨16, 17⟩ ['b'])),
        .text ⟨20, 24⟩,
        .output ⟨24, 39⟩ (.unary ⟨27, 36⟩ .not (.binary ⟨31, 36⟩ (.comparison .less)
          (.symbol ⟨31, 32⟩ ['x']) (.literal ⟨35, 36⟩ (.ofInteger 1)))),
        .endFor ⟨39, 51⟩, .text ⟨51, 53⟩] := by
  intro ds
  have hone : (Forms.ofInteger 1).Printable Layout.spaced.numeral := ⟨rfl, by decide, by decide⟩
  have hx : Token.IsName ['x'] := Token.isName_letter rfl rfl
  have hp : ∀ d ∈ ds, d.Printable .least Layout.spaced.numeral := by
    simp only [ds, List.forall_mem_cons, Printable]
    refine ⟨⟨hx, ⟨Token.isName_letter rfl rfl, Token.isName_letter rfl rfl⟩, ?_, by decide, ?_⟩,
      ?_, ?_, trivial, ?_, by simp⟩
    · exact ⟨by decide, trivial, rfl⟩
    · decide
    · exact ⟨by decide, by decide, by decide⟩
    · exact ⟨⟨hx, hone⟩, ⟨by decide, by decide, trivial, by decide, trivial⟩, by decide,
        by decide⟩
    · exact ⟨by decide, by decide, by decide⟩
  have hm : ds.IsChain Meets := by simp [ds, Meets, isText]
  have hprint : printAll .spaced 0 ds =
      "\x7b% for x in a . b %\x7dno: \x7b\x7b not x < 1 \x7d\x7d\x7b% endfor %\x7d\x7d\x7b".toList := by decide
  refine ⟨hp, hm, ?_⟩
  rw [← hprint, scan_print .spaced hp hm]
  rfl

end Draft

end Stencil
