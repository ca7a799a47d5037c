import Stencil.Token.Lexer

/-!
# The spelling of tokens

Constants and names apart, the kind of a token fixes its characters.
-/

namespace Stencil.Token

def Kind.spelling? : Kind → Option Text
  | .statementBegin => some ['{', '%']
  | .statementEnd => some ['%', '}']
  | .expressionBegin => some ['{', '{']
  | .expressionEnd => some ['}', '}']
  | .ifWord => some "if".toList
  | .elifWord => some "elif".toList
  | .elseWord => some "else".toList
  | .endifWord => some "endif".toList
  | .forWord => some "for".toList
  | .inWord => some "in".toList
  | .endforWord => some "endfor".toList
  | .notWord => some "not".toList
  | .orWord => some "or".toList
  | .andWord => some "and".toList
  | .trueWord => some "true".toList
  | .falseWord => some "false".toList
  | .plus => some "+".toList
  | .minus => some "-".toList
  | .star => some "*".toList
  | .slash => some "/".toList
  | .doubleSlash => some "//".toList
  | .percent => some "%".toList
  | .less => some "<".toList
  | .lessEqual => some "<=".toList
  | .doubleEqual => some "==".toList
  | .greaterEqual => some ">=".toList
  | .greater => some ">".toList
  | .notEqual => some "!=".toList
  | .pipe => some "|".toList
  | .leftParen => some "(".toList
  | .rightParen => some ")".toList
  | .leftBracket => some "[".toList
  | .rightBracket => some "]".toList
  | .dot => some ".".toList
  | .comma => some ",".toList
  | .invalid | .string | .integer | .float | .symbol => none

def Spelled (t : Token) : Prop := ∀ s, t.kind.spelling? = some s → t.text = s

/-! ## Keywords, pairs and single characters -/

theorem spelling_of_ite {w v : Text} {k l : Kind} {others : Option Kind} (hl : l.spelling? = some v)
    (ho : others = some k → k.spelling? = some w)
    (h : (if w = v then some l else others) = some k) : k.spelling? = some w := by
  by_cases hw : w = v
  · rw [if_pos hw] at h
    rw [← Option.some.inj h, hl, hw]
  · rw [if_neg hw] at h
    exact ho h

theorem keyword_spelling {w : Text} {k : Kind} (h : keyword? w = some k) :
    k.spelling? = some w := by
  unfold keyword? at h
  iterate 12 refine spelling_of_ite rfl (fun h => ?_) h
  cases h

theorem pair_spelling {c d : Char} {k : Kind} (h : pair? c d = some k) :
    k.spelling? = some [c, d] := by
  unfold pair? at h
  split at h <;> cases h <;> rfl

theorem single_spelling {c : Char} {k : Kind} (h : single? c = some k) :
    k.spelling? = some [c] := by
  unfold single? at h
  split at h <;> cases h <;> rfl

theorem kind_of_spelling {k : Kind} {w : Text} (h : k.spelling? = some w) :
    k ≠ .invalid ∧ ∀ s, k.spelling? = some s → w = s :=
  ⟨fun hk => (by rw [hk] at h; cases h), fun _ hs => Option.some.inj (h.symm.trans hs)⟩

end Stencil.Token
