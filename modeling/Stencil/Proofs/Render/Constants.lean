import Mathlib.Data.List.Forall2
import Stencil.Proofs.Block.Tiling
import Stencil.Proofs.Clause.Failure
import Stencil.Proofs.Decimal.Integer
import Stencil.Proofs.Expr.Printing

/-!
# Constants

Blocks without names come out the same for all data. Digits between the delimiters of an output are
such a constant, as long as they stand for an integer that is not too great.
-/

namespace Stencil

open Token (Kind Layout)

/-! ## Blocks that are constant -/

inductive Block.Writes : Block → Text → Prop
  | text {s content} : Writes (.text s content) content
  | output {s s' f} : Writes (.output s (.literal s' f)) f.text

theorem Forms.text_value (f : Forms) : f.value.text = f.text := by
  unfold Forms.value
  split <;> rfl

/-- Three calls are enough: one for the block, and two for the value of a constant. -/
theorem Block.Writes.render {b : Block} {t : Text} (h : b.Writes t) (page : Page) (calls : Nat)
    (s : RenderState) :
    renderBlock page (calls + 3) b s = (.ok (), { s with scope := s.scope.write t }) := by
  cases h with
  | text => rfl
  | @output _ s' f =>
    have hvalue : (Expr.literal s' f).value (page.env s) (calls + 2) = .ok f.value := rfl
    rw [renderBlock, Action.evaluating, show calls + 3 - 1 = calls + 2 from rfl, hvalue,
      ← f.text_value]
    rfl

theorem renderBlocks_writes (page : Page) (calls : Nat) {bs : List Block} {ts : List Text}
    (h : List.Forall₂ Block.Writes bs ts) (s : RenderState) :
    ∃ scope, renderBlocks page (calls + 3) bs s = (.ok (), { s with scope }) ∧
      scope.output = s.scope.output ++ ts.flatten := by
  induction h generalizing s with
  | nil => exact ⟨s.scope, rfl, by simp⟩
  | @cons b t bs ts hb _ ih =>
    obtain ⟨scope, hrender, houtput⟩ := ih { s with scope := s.scope.write t }
    refine ⟨scope, ?_, by rw [houtput]; simp⟩
    rw [renderBlocks, Action.andThen, hb.render]
    exact hrender

/-- Only the keywords can keep a template of constants from being rendered. -/
theorem Template.render_writes {t : Template} {ts : List Text}
    (h : List.Forall₂ Block.Writes t.blocks ts) (stack : Stack) (data : Host)
    (keywords : List (Text × Host)) (progress : Progress) :
    t.render stack data keywords progress =
      ((merge data keywords).map fun _ => ts.flatten, progress) := by
  unfold Template.render
  cases merge data keywords with
  | error failure => rfl
  | ok root =>
    obtain ⟨n, hn⟩ := stack.calls_eq
    obtain ⟨scope, hrender, houtput⟩ :=
      renderBlocks_writes ⟨root, .active t.name⟩ (n + 15) h ⟨.empty, progress⟩
    simp only [Stencil.render, hn, leastCalls, hrender, houtput]
    rfl

/-! ## Outputs of one token -/

def outputOf (w : Text) : Text := ['{', '{', ' '] ++ w ++ [' ', '}', '}']

theorem stream_outputOf {w : Token.Word} (hw : Token.Separable w)
    (hopen : Clause.closes w.1 = false) :
    Token.stream Clause.closes 2 (' ' :: w.2 ++ [' ', '}', '}']) =
      [⟨w.1, 3, 3 + w.2.length, w.2⟩,
        ⟨.expressionEnd, w.2.length + 4, w.2.length + 6, ['}', '}']⟩] := by
  have hstream := @Layout.stream_write .spaced Clause.closes Kind.expressionEnd.word [] rfl
    (Token.lexeme_pair rfl []) [w] 2 (List.forall_mem_singleton.mpr ⟨hw, hopen⟩)
  have hwrite : Layout.spaced.write 2 ([w] ++ [Kind.expressionEnd.word]) ++ [] =
      ' ' :: w.2 ++ [' ', '}', '}'] := by
    show [' '] ++ w.2 ++ ([' '] ++ ['}', '}'] ++ []) ++ [] = _
    simp
  rw [← hwrite, hstream]
  show [_, (⟨.expressionEnd, 3 + w.2.length + 1, 3 + w.2.length + 1 + 2, ['}', '}']⟩ : Token)] = _
  rw [show 3 + w.2.length + 1 = w.2.length + 4 by omega]
  rfl

/-! ## Integers -/

namespace Decimal

/-- Digits that are refused for their number although zeros among them make it small. -/
def Overlong (d : Text) : Prop :=
  Decimal.longestNumeral < d.length ∧ (d.dropWhile (· == '0')).length ≤ 10

theorem text_ofInteger {n : Nat} (hle : n ≤ Expr.greatestLiteral) :
    (Forms.ofInteger n).text = ofNat n := by
  have hleast : least ≤ (n : Int) := Int.le_trans (by decide) (Int.natCast_nonneg n)
  have hgreatest : (n : Int) ≤ greatest := Int.le_trans (Int.ofNat_le.mpr hle) (by decide)
  rw [Forms.ofInteger, wrap_of_range hleast hgreatest]
  rfl

theorem readOutput_numeral {stack : Stack} {start : Nat} {t : Token} {rest : List Token}
    {r : Expr.Refusal} (ht : t.kind = .integer) (h : Expr.integerLiteral t = .error r) :
    Clause.readOutput stack start (t :: rest) = .error r := by
  have hroom : 14 ≤ stack.calls - 3 := Clause.le_room stack (.output default default)
  have hatom : Expr.atom (Expr.parser (stack.calls - 3)) (stack.calls - 3) (t :: rest) =
      .error r := by
    simp only [Expr.atom, if_neg (Nat.not_lt.mpr hroom), Expr.atomFrom, ht, h]
    rfl
  have hparse : Expr.parse (stack.calls - 3) (t :: rest) = .error r :=
    Expr.production_error (l := .piped) (m := .atom) (by decide)
      (Nat.lt_of_lt_of_le (by decide) hroom)
      (fun _ _ hk => Expr.begins_of_kind ht ⟨by decide, rfl⟩ hk) hatom
  rw [Clause.readOutput, hparse]
  rfl

section
variable {d : Text} (hd : isDigits d = true) (stack : Stack)
include hd

theorem stream_digits : Token.stream Clause.closes 2 (' ' :: d ++ [' ', '}', '}']) =
    [⟨.integer, 3, 3 + d.length, d⟩,
      ⟨.expressionEnd, d.length + 4, d.length + 6, ['}', '}']⟩] :=
  have hdigits := isDigits_iff.mp hd
  stream_outputOf (w := (.integer, d)) (Token.separable_integer hdigits.1 hdigits.2) rfl

theorem parse_digits (hlong : ¬ Overlong d) (hle : toNat d ≤ Expr.greatestLiteral) :
    parse stack (outputOf d) = .ok [.output ⟨0, d.length + 6⟩
      (.literal ⟨3, 3 + d.length⟩ (.ofInteger (toNat d)))] := by
  have hsignificant : (d.dropWhile (· == '0')).length ≤ 10 := by
    have hlt : Expr.greatestLiteral < Nat.pow 10 10 := by decide
    exact length_significant_le (isDigits_iff.mp hd).2 (Nat.lt_of_le_of_lt hle hlt)
  let t : Token := ⟨.integer, 3, 3 + d.length, d⟩
  have hshort : Expr.Short [t] := List.forall_mem_singleton.mpr fun _ =>
    ⟨hsignificant, Nat.le_of_not_lt fun h => hlong ⟨h, hsignificant⟩⟩
  have hreads : Expr.Reads (.literal t.span (.ofInteger (toNat d))) [t] :=
    .literal (t := t) ⟨hle, rfl⟩
  refine parse_output rfl ?_ ?_
  · simp only [outputOf, List.length_append, List.length_cons, List.length_nil]
    omega
  · show Clause.readOutput stack 0 (Token.stream Clause.closes 2 (' ' :: d ++ [' ', '}', '}'])) = _
    rw [stream_digits hd]
    show Clause.readOutput stack 0 ([t] ++ [_]) = _
    exact Clause.readOutput_complete hreads trivial
      (Clause.le_room stack (.output default default)) hshort rfl

theorem parse_digits_error {r : Expr.Refusal}
    (h : Expr.integerLiteral ⟨.integer, 3, 3 + d.length, d⟩ = .error r) :
    parse stack (outputOf d) = .error (Clause.blame 0 r) := by
  refine parse_output_error rfl ?_
  show Clause.readOutput stack 0 (Token.stream Clause.closes 2 (' ' :: d ++ [' ', '}', '}'])) = _
  rw [stream_digits hd]
  exact readOutput_numeral rfl h

theorem parse_digits_great (hlong : ¬ Overlong d) (hgt : Expr.greatestLiteral < toNat d) :
    parse stack (outputOf d) = .error (.located .invalidNumber 3) := by
  refine parse_digits_error hd stack (r := .located .invalidNumber 3) ?_
  rw [Overlong, not_and, Nat.not_le] at hlong
  simp only [Expr.integerLiteral]
  by_cases hsignificant : (d.dropWhile (· == '0')).length > 10
  · rw [if_pos hsignificant]
    rfl
  · rw [if_neg hsignificant, if_neg fun h => hsignificant (hlong h), if_pos hgt]
    rfl

theorem parse_digits_overlong (hlong : Overlong d) :
    parse stack (outputOf d) = .error (.numeralTooLong d.length) := by
  refine parse_digits_error hd stack (r := .numeralTooLong d.length) ?_
  simp only [Expr.integerLiteral]
  rw [if_neg (Nat.not_lt.mpr hlong.2), if_pos hlong.1]

end

/-- **Integer literals are exact.** Digits are parsed if and only if their number is at most `2 ^ 31
- 1`, and rendered as it, unless they are too many to be converted in spite of leading zeros. -/
theorem parse_digits_exact (stack : Stack) (d : Text) (hd : isDigits d = true) :
    (¬ Overlong d →
      ((∃ blocks, parse stack (outputOf d) = .ok blocks) ↔ toNat d ≤ Nat.pow 2 31 - 1) ∧
      (¬ toNat d ≤ Nat.pow 2 31 - 1 →
        parse stack (outputOf d) = .error (.located .invalidNumber 3))) ∧
    (Overlong d → parse stack (outputOf d) = .error (.numeralTooLong d.length)) ∧
    ∀ name t, Template.ofText stack (outputOf d) name = .ok t →
      Canonical (ofNat (toNat d)) (toNat d) ∧ ∀ later data keywords progress,
        t.render later data keywords progress =
          ((Template.merge data keywords).map fun _ => ofNat (toNat d), progress) := by
  have hgreatest : Expr.greatestLiteral = Nat.pow 2 31 - 1 := rfl
  rw [← hgreatest]
  refine ⟨fun hlong => ⟨⟨?_, fun hle => ⟨_, parse_digits hd stack hlong hle⟩⟩, fun hgt => ?_⟩,
    parse_digits_overlong hd stack, fun name t ht => ?_⟩
  · rintro ⟨blocks, hblocks⟩
    by_contra hgt
    rw [parse_digits_great hd stack hlong (Nat.lt_of_not_le hgt)] at hblocks
    cases hblocks
  · exact parse_digits_great hd stack hlong (Nat.lt_of_not_le hgt)
  · refine ⟨canonical_ofNat _, fun later data keywords progress => ?_⟩
    -- a template was built, so the literal is neither overlong nor too great
    unfold Template.ofText at ht
    by_cases hlong : Overlong d
    · rw [parse_digits_overlong hd stack hlong] at ht
      cases ht
    by_cases hle : toNat d ≤ Expr.greatestLiteral
    · rw [parse_digits hd stack hlong hle] at ht
      obtain rfl := Except.ok.inj ht
      rw [Template.render_writes (.cons .output .nil), text_ofInteger hle, List.flatten_singleton]
    · rw [parse_digits_great hd stack hlong (Nat.lt_of_not_le hle)] at ht
      cases ht

theorem isDigits_zeros (k : Nat) : isDigits (List.replicate (k + 1) '0') = true := by
  refine isDigits_iff.mpr ⟨by simp [List.replicate_succ], fun c hc => ?_⟩
  rw [List.eq_of_mem_replicate hc]
  rfl

theorem overlong_zeros {k : Nat} (hk : Decimal.longestNumeral < k) :
    Overlong (List.replicate k '0') := by
  refine ⟨by rwa [List.length_replicate], ?_⟩
  rw [List.dropWhile_replicate_eq_filter_not]
  simp

/-- Seven with zeros in front, the least number that is too great, and too many zeros. -/
theorem parse_digits_exact_zeros :
    let seven := "007".toList
    let great := "2147483648".toList
    let zeros := List.replicate 5000 '0'
    (isDigits seven = true ∧ ¬ Overlong seven ∧ toNat seven ≤ Nat.pow 2 31 - 1) ∧
    (isDigits great = true ∧ ¬ Overlong great ∧ ¬ toNat great ≤ Nat.pow 2 31 - 1) ∧
    (isDigits zeros = true ∧ Overlong zeros) ∧
    (∃ t, Template.ofText .least (outputOf seven) none = .ok t ∧
      ∀ later data progress, t.render later data [] progress = (.ok ['7'], progress)) ∧
    parse .least (outputOf great) = .error (.located .invalidNumber 3) ∧
    parse .least (outputOf zeros) = .error (.numeralTooLong 5000) := by
  intro seven great zeros
  have hseven : isDigits seven = true ∧ ¬ Overlong seven ∧ toNat seven ≤ Nat.pow 2 31 - 1 :=
    ⟨by decide, fun h => absurd h.1 (by decide), by decide⟩
  have hgreat : isDigits great = true ∧ ¬ Overlong great ∧ ¬ toNat great ≤ Nat.pow 2 31 - 1 :=
    ⟨by decide, fun h => absurd h.1 (by decide), by decide⟩
  have hzeros : isDigits zeros = true ∧ Overlong zeros :=
    ⟨isDigits_zeros 4999, overlong_zeros (by decide)⟩
  obtain ⟨hread, -, hrender⟩ := parse_digits_exact .least seven hseven.1
  obtain ⟨blocks, hblocks⟩ := (hread hseven.2.1).1.mpr hseven.2.2
  have ht : Template.ofText .least (outputOf seven) none = .ok ⟨outputOf seven, none, blocks⟩ := by
    rw [Template.ofText, hblocks]
  refine ⟨hseven, hgreat, hzeros, ⟨_, ht, fun later data progress => ?_⟩, ?_, ?_⟩
  · rw [(hrender none _ ht).2 later data [] progress]
    show (Except.ok (ofNat (toNat seven)), progress) = _
    rw [show toNat seven = 7 by decide]
    rfl
  · exact ((parse_digits_exact .least great hgreat.1).1 hgreat.2.1).2 hgreat.2.2
  · have hlong := (parse_digits_exact .least zeros hzeros.1).2.1 hzeros.2
    rwa [List.length_replicate] at hlong

/-- Nothing but zeros is zero, and yet it is refused if there are too many of them. -/
theorem parse_digits_not_exact :
    let d := List.replicate 4301 '0'
    isDigits d = true ∧ toNat d ≤ Nat.pow 2 31 - 1 ∧
      parse .least (outputOf d) = .error (.numeralTooLong 4301) := by
  intro d
  have hvalue : toNat (List.replicate 4301 '0' ++ []) = toNat [] := toNat_zeros 4301 []
  rw [List.append_nil] at hvalue
  have hparse := parse_digits_overlong (isDigits_zeros 4300) .least (overlong_zeros (by decide))
  rw [List.length_replicate] at hparse
  refine ⟨isDigits_zeros 4300, ?_, hparse⟩
  rw [hvalue]
  decide

end Decimal

end Stencil
