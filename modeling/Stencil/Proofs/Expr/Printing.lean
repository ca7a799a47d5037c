import Stencil.Proofs.Clause.Productions
import Stencil.Proofs.Expr.Completeness
import Stencil.Proofs.Token.Layout

/-!
# Printing trees

A tree is written word by word in order, with whatever blanks a layout puts between them. The
same tree with the spans of what was written is read from these words.
-/

namespace Stencil

open Token (Kind Word Layout Separable IsName IsDecimal)

/-! ## Constants -/

namespace Forms

def word (numeral : Float → Text) (f : Forms) : Word :=
  match f.kind with
  | .string => (.string, '\'' :: f.text ++ ['\''])
  | .integer => (.integer, Decimal.ofNat f.integer.toNat)
  | .float => (.float, numeral f.float)
  | .boolean => if f.boolean then Kind.trueWord.word else Kind.falseWord.word
  | .object => (.invalid, [])

def Printable (numeral : Float → Text) (f : Forms) : Prop :=
  match f.kind with
  | .string => f = .ofText f.text ∧ '\'' ∉ f.text
  | .integer => f = .ofInteger f.integer ∧ 0 ≤ f.integer ∧ f.integer ≤ Expr.greatestLiteral
  | .float => f = .ofFloat f.float ∧ f.float.isFinite = true ∧ IsDecimal (numeral f.float) ∧
      Decimal.readFloat (numeral f.float) = f.float
  | .boolean => f = .ofBoolean f.boolean
  | .object => False

end Forms

theorem Expr.stringContent_quotes {t : Text} (h : '\'' ∉ t) :
    Expr.stringContent ('\'' :: t ++ ['\'']) = t :=
  Token.takeWhile_of_stops (Token.not_quote h) (Token.stops_cons.mpr (by decide))

namespace Forms

theorem denotes_word (L : Layout) (o : Nat) {f : Forms} (h : f.Printable L.numeral) :
    (L.token o (f.word L.numeral)).Denotes f := by
  unfold Printable at h
  unfold word
  split at h
  · show f = .ofText (Expr.stringContent ('\'' :: f.text ++ ['\'']))
    rw [Expr.stringContent_quotes h.2]
    exact h.1
  · obtain ⟨hf, hpos, hle⟩ := h
    have hval : Decimal.toNat (Decimal.ofNat f.integer.toNat) = f.integer.toNat :=
      Nat.ofDigitChars_ten_toDigits
    show Decimal.toNat (Decimal.ofNat _) ≤ _ ∧ f = .ofInteger (Decimal.toNat (Decimal.ofNat _))
    rw [hval, Int.toNat_of_nonneg hpos]
    exact ⟨by omega, hf⟩
  · obtain ⟨hf, hfin, _, hread⟩ := h
    show (Decimal.readFloat (L.numeral f.float)).isFinite = true ∧
      f = .ofFloat (Decimal.readFloat (L.numeral f.float))
    rw [hread]
    exact ⟨hfin, hf⟩
  · rw [h]
    cases f.boolean <;> rfl
  · exact h.elim

end Forms

/-! ## Words of trees -/

def BinaryOp.before : BinaryOp → List Word
  | call => []
  | subscript => [Kind.leftBracket.word]
  | op => op.kind?.toList.map Kind.word

def BinaryOp.after : BinaryOp → List Word
  | subscript => [Kind.rightBracket.word]
  | _ => []

namespace Expr

def separator : List Expr → List Word
  | [] => []
  | _ :: _ => [Kind.comma.word]

mutual

def words (numeral : Float → Text) : Expr → List Word
  | literal _ f => [f.word numeral]
  | symbol _ name => [(.symbol, name)]
  | unary _ op e => op.kind.word :: e.words numeral
  | binary _ op l r => l.words numeral ++ (op.before ++ (r.words numeral ++ op.after))
  | arguments _ es => Kind.leftParen.word :: (allWords numeral es ++ [Kind.rightParen.word])
  | group _ e => Kind.leftParen.word :: (e.words numeral ++ [Kind.rightParen.word])
  | other .. => []

def allWords (numeral : Float → Text) : List Expr → List Word
  | [] => []
  | e :: es => e.words numeral ++ (separator es ++ allWords numeral es)

end

mutual

def place (L : Layout) : Expr → (o : Nat) → Expr
  | literal _ f, o => literal (L.token o (f.word L.numeral)).span f
  | symbol _ name, o => symbol (L.token o (.symbol, name)).span name
  | unary _ op e, o =>
    let t := L.token o op.kind.word
    let e := e.place L t.stop
    unary ⟨t.start, e.stop⟩ op e
  | binary _ op l r, o =>
    let l := l.place L o
    let r := r.place L (L.advance l.stop op.before)
    binary ⟨l.start, L.advance r.stop op.after⟩ op l r
  | arguments _ es, o =>
    let t := L.token o Kind.leftParen.word
    let stop := L.advance t.stop (allWords L.numeral es)
    arguments ⟨t.start, (L.token stop Kind.rightParen.word).stop⟩ (placeAll L es t.stop)
  | group _ e, o =>
    let t := L.token o Kind.leftParen.word
    let e := e.place L t.stop
    group ⟨t.start, (L.token e.stop Kind.rightParen.word).stop⟩ e
  | other s sort, _ => other s sort

def placeAll (L : Layout) : List Expr → (o : Nat) → List Expr
  | [], _ => []
  | e :: es, o =>
    let e := e.place L o
    e :: placeAll L es (L.advance e.stop (separator es))

end

mutual

def Printable (numeral : Float → Text) : Expr → Prop
  | literal _ f => f.Printable numeral
  | symbol _ name => IsName name
  | unary _ _ e => e.Printable numeral
  | binary _ _ l r => l.Printable numeral ∧ r.Printable numeral
  | arguments _ es => AllPrintable numeral es
  | group _ e => e.Printable numeral
  | other .. => False

def AllPrintable (numeral : Float → Text) : List Expr → Prop
  | [] => True
  | e :: es => e.Printable numeral ∧ AllPrintable numeral es

end

/-! ## Trees and their words -/

section
variable (L : Layout)

theorem Reads.stop_of_tokens {e : Expr} {o : Nat} {ws : List Word} (h : Reads e (L.tokens o ws)) :
    e.stop = L.advance o ws := h.stop_eq o

theorem reads_operator {op : BinaryOp} {l r : Expr} {ls rs : List Word} {o : Nat}
    (hl : Reads l (L.tokens o ls)) (hr : Reads r (L.tokens (L.advance l.stop op.before) rs)) :
    Reads (.binary ⟨l.start, L.advance r.stop op.after⟩ op l r)
      (L.tokens o (ls ++ (op.before ++ (rs ++ op.after)))) := by
  rw [L.tokens_append, L.tokens_append, L.tokens_append, ← hl.stop_of_tokens L,
    ← hr.stop_of_tokens L]
  cases op with
  | call =>
    show Reads (.binary ⟨l.start, r.stop⟩ .call l r) (L.tokens o ls ++ (L.tokens l.stop rs ++ []))
    rw [List.append_nil]
    exact .call hl hr
  | subscript => exact .subscript rfl rfl hl hr
  | arithmetic op | comparison op =>
    cases op <;>
    · simp only [BinaryOp.after, Layout.tokens, List.append_nil]
      exact .binary rfl hl hr
  | _ =>
    simp only [BinaryOp.after, Layout.tokens, List.append_nil]
    exact .binary rfl hl hr

mutual

theorem reads_place : ∀ (e : Expr) (o : Nat), e.Printable L.numeral →
    Reads (e.place L o) (L.tokens o (e.words L.numeral))
  | literal _ f, o => fun h => .literal (f.denotes_word L o h)
  | symbol _ name, o => fun _ => .symbol (t := L.token o (.symbol, name)) rfl
  | unary _ op e, o => fun h => .unary rfl (reads_place e _ h)
  | binary _ op l r, o => fun h =>
    reads_operator L (reads_place l o h.1) (reads_place r _ h.2)
  | arguments _ es, o => fun h => by
    have hes := readsAll_place es (L.token o Kind.leftParen.word).stop h
    rw [words, Layout.tokens, L.tokens_append]
    exact .arguments rfl rfl hes
  | group _ e, o => fun h => by
    have he := reads_place e (L.token o Kind.leftParen.word).stop h
    rw [words, Layout.tokens, L.tokens_append, place, he.stop_of_tokens L]
    exact .group rfl rfl he
  | other .., _ => fun h => h.elim

theorem readsAll_place : ∀ (es : List Expr) (o : Nat), AllPrintable L.numeral es →
    ReadsAll (placeAll L es o) (L.tokens o (allWords L.numeral es))
  | [], _ => fun _ => .nil
  | [e], o => fun h => by
    have he := reads_place e o h.1
    simp only [allWords, separator, List.append_nil]
    exact .one he
  | e :: d :: es, o => fun h => by
    have he := reads_place e o h.1
    have hes := readsAll_place (d :: es)
      (L.advance (e.place L o).stop (separator (d :: es))) h.2
    rw [allWords, L.tokens_append, L.tokens_append, ← he.stop_of_tokens L]
    exact .cons rfl he hes

end

/-! ## What placing keeps -/

theorem level_place (e : Expr) (o : Nat) : (e.place L o).level = e.level := by cases e <;> rfl

theorem isSymbol_place (e : Expr) (o : Nat) : (e.place L o).isSymbol = e.isSymbol := by
  cases e <;> rfl

mutual

theorem nesting_place : ∀ (e : Expr) (o : Nat), (e.place L o).nesting = e.nesting
  | literal .., _ | symbol .., _ | other .., _ => rfl
  | unary _ _ e, _ => congrArg (· + _) (nesting_place e _)
  | binary _ _ l r, _ => by rw [place, nesting, nesting_place l, nesting_place r, nesting]
  | arguments _ es, _ => congrArg (· + 1) (mostNesting_place es _)
  | group _ e, _ => congrArg (· + 15) (nesting_place e _)

theorem mostNesting_place : ∀ (es : List Expr) (o : Nat),
    mostNesting (placeAll L es o) = mostNesting es
  | [], _ => rfl
  | e :: es, _ => by rw [placeAll, mostNesting, nesting_place e, mostNesting_place es, mostNesting]

end

mutual

theorem wellLevelled_place : ∀ (e : Expr) (o : Nat), e.WellLevelled → (e.place L o).WellLevelled
  | literal .., _ | symbol .., _ => id
  | arguments .., _ | other .., _ => fun h => h.elim
  | unary _ op e, _ => fun h => ⟨(level_place L e _).symm ▸ h.1, wellLevelled_place e _ h.2⟩
  | group _ e, _ => wellLevelled_place e _
  | binary _ op l r, o => fun ⟨hle, hl, hr⟩ => by
    refine ⟨(level_place L l _).symm ▸ hle, wellLevelled_place l o hl, ?_⟩
    cases op with
    | pipe => exact isFilter_place r _ hr
    | call => exact hr
    | member => exact (isSymbol_place L r _).trans hr
    | subscript => exact wellLevelled_place r _ hr
    | _ => exact ⟨(level_place L r _).symm ▸ hr.1, wellLevelled_place r _ hr.2⟩

theorem isFilter_place : ∀ (e : Expr) (o : Nat), e.IsFilter → (e.place L o).IsFilter
  | symbol .., _ => id
  | binary _ op f a, _ => fun h => by
    cases op with
    | call => exact ⟨(isSymbol_place L f _).trans h.1, isArguments_place a _ h.2⟩
    | _ => exact h.elim
  | literal .., _ | unary .., _ | arguments .., _ | group .., _ | other .., _ => fun h => h.elim

theorem isArguments_place : ∀ (e : Expr) (o : Nat), e.IsArguments → (e.place L o).IsArguments
  | arguments _ es, _ => areArguments_place es _
  | literal .., _ | symbol .., _ | unary .., _ | binary .., _ | group .., _ | other .., _ =>
    fun h => h.elim

theorem areArguments_place : ∀ (es : List Expr) (o : Nat), AreArguments es →
    AreArguments (placeAll L es o)
  | [], _ => id
  | e :: es, _ => fun h => ⟨(level_place L e _).symm ▸ h.1, wellLevelled_place e _ h.2.1,
      areArguments_place es _ h.2.2⟩

end

end

/-! ## Words in front of blanks -/

end Expr

structure Token.Plain (w : Word) : Prop where
  separable : Separable w
  isOpen : Clause.closes w.1 = false
  short : w.1 = .integer → w.2.length ≤ 10

open Token (Plain)

theorem Token.plain_kind {k : Kind} (h : k.spelling?.isSome = true)
    (hc : Clause.closes k = false) : Plain k.word :=
  ⟨separable_kind h, hc, fun hk => by cases k <;> first | (cases h; done) | cases hk⟩

theorem Token.plain_name {name : Text} (h : IsName name) : Plain (.symbol, name) :=
  ⟨separable_name h, rfl, fun hk => nomatch hk⟩

theorem Forms.plain_word {numeral : Float → Text} {f : Forms} (h : f.Printable numeral) :
    Plain (f.word numeral) := by
  unfold Printable at h
  unfold word
  split at h
  · exact ⟨Token.separable_string h.2, rfl, fun hk => nomatch hk⟩
  · obtain ⟨-, hpos, hle⟩ := h
    refine ⟨Token.separable_integer Nat.toDigits_ne_nil fun c => ?_, rfl, fun _ => ?_⟩
    · exact Nat.isDigit_of_mem_toDigits (by decide) (by decide)
    · refine (Nat.length_toDigits_le_iff (by decide) (by decide)).mpr ?_
      have hlt : Expr.greatestLiteral < 10 ^ 10 := by decide
      omega
  · exact ⟨Token.separable_float h.2.2.1, rfl, fun hk => nomatch hk⟩
  · split
    · exact Token.plain_kind rfl rfl
    · exact Token.plain_kind rfl rfl
  · exact h.elim

theorem BinaryOp.plain_before (op : BinaryOp) : ∀ w ∈ op.before, Plain w := by
  cases op with
  | call => exact fun w hw => nomatch hw
  | arithmetic op | comparison op =>
    cases op <;> exact List.forall_mem_singleton.mpr (Token.plain_kind rfl rfl)
  | _ => exact List.forall_mem_singleton.mpr (Token.plain_kind rfl rfl)

theorem BinaryOp.plain_after (op : BinaryOp) : ∀ w ∈ op.after, Plain w := by
  cases op with
  | subscript => exact List.forall_mem_singleton.mpr (Token.plain_kind rfl rfl)
  | _ => exact fun w hw => nomatch hw

namespace Expr

theorem plain_separator (es : List Expr) : ∀ w ∈ separator es, Plain w := by
  cases es with
  | nil => exact fun w hw => nomatch hw
  | cons e es => exact List.forall_mem_singleton.mpr (Token.plain_kind rfl rfl)

theorem plain_brackets {ws : List Word} (h : ∀ w ∈ ws, Plain w) :
    ∀ w ∈ Kind.leftParen.word :: (ws ++ [Kind.rightParen.word]), Plain w :=
  List.forall_mem_cons.mpr ⟨Token.plain_kind rfl rfl, List.forall_mem_append.mpr
    ⟨h, List.forall_mem_singleton.mpr (Token.plain_kind rfl rfl)⟩⟩

mutual

theorem plain_words {numeral : Float → Text} : ∀ (e : Expr), e.Printable numeral →
    ∀ w ∈ e.words numeral, Plain w
  | literal _ f => fun h => List.forall_mem_singleton.mpr (f.plain_word h)
  | symbol _ name => fun h => List.forall_mem_singleton.mpr (Token.plain_name h)
  | unary _ op e => fun h => List.forall_mem_cons.mpr
    ⟨by cases op <;> exact Token.plain_kind rfl rfl, plain_words e h⟩
  | binary _ op l r => fun h => List.forall_mem_append.mpr ⟨plain_words l h.1,
      List.forall_mem_append.mpr ⟨op.plain_before,
        List.forall_mem_append.mpr ⟨plain_words r h.2, op.plain_after⟩⟩⟩
  | arguments _ es => fun h => plain_brackets (plain_allWords es h)
  | group _ e => fun h => plain_brackets (plain_words e h)
  | other .. => fun h => h.elim

theorem plain_allWords {numeral : Float → Text} : ∀ (es : List Expr), AllPrintable numeral es →
    ∀ w ∈ allWords numeral es, Plain w
  | [] => fun _ _ hw => nomatch hw
  | e :: es => fun h => List.forall_mem_append.mpr ⟨plain_words e h.1,
      List.forall_mem_append.mpr ⟨plain_separator es, plain_allWords es h.2⟩⟩

end

theorem short_tokens (L : Layout) {ws : List Word} (h : ∀ w ∈ ws, Plain w) (o : Nat) :
    Short (L.tokens o ws) := by
  induction ws generalizing o with
  | nil => exact fun t ht => nomatch ht
  | cons w ws ih =>
    obtain ⟨hw, hws⟩ := List.forall_mem_cons.mp h
    refine List.forall_mem_cons.mpr ⟨fun hk => ?_, ih hws _⟩
    have hten : w.2.length ≤ 10 := hw.short hk
    have hsignificant := (List.dropWhile_suffix (l := w.2) (· == '0')).length_le
    exact ⟨Nat.le_trans hsignificant hten, Nat.le_trans hten (by decide)⟩

end Expr

end Stencil
