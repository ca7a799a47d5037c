import Stencil.Proofs.Expr.Productions

/-!
# The grammar of expressions

`Reads e ts` relates a tree to the tokens it is read from, in order and with the spans that they
give to its nodes. `WellLevelled e` asks of every operand that it is at the level of precedence
that its operator allows. Neither mentions the parser.
-/

namespace Stencil

open Token (Kind)

/-! ## Levels of precedence -/

inductive Level
  | piped | or | and | not | comparison | sum | product | sign | postfixed | atom
  deriving DecidableEq, Repr

namespace Level

def rank : Level → Nat
  | piped => 0
  | or => 1
  | and => 2
  | not => 3
  | comparison => 4
  | sum => 5
  | product => 6
  | sign => 7
  | postfixed => 8
  | atom => 9

instance : LE Level := ⟨fun l m => l.rank ≤ m.rank⟩

instance : LT Level := ⟨fun l m => l.rank < m.rank⟩

instance (l m : Level) : Decidable (l ≤ m) := inferInstanceAs (Decidable (l.rank ≤ m.rank))

instance (l m : Level) : Decidable (l < m) := inferInstanceAs (Decidable (l.rank < m.rank))

@[simp] theorem piped_le (l : Level) : piped ≤ l := Nat.zero_le _

@[simp] theorem le_refl (l : Level) : l ≤ l := Nat.le_refl _

theorem le_trans {l m n : Level} (h : l ≤ m) (h' : m ≤ n) : l ≤ n := Nat.le_trans h h'

theorem lt_of_le_of_ne {l m : Level} (h : l ≤ m) (hne : l ≠ m) : l < m := by
  cases l <;> cases m <;> first | exact absurd rfl hne | revert h; decide

def tighter : Level → Level
  | piped => or
  | or => and
  | and => not
  | not => comparison
  | comparison => sum
  | sum => product
  | product => sign
  | sign => postfixed
  | postfixed => atom
  | atom => atom

theorem tighter_le_of_lt {l m : Level} (h : l < m) : l.tighter ≤ m := by
  cases l <;> cases m <;> revert h <;> decide

theorem rank_lt_tighter {l m : Level} (h : l < m) : m.rank - l.tighter.rank < m.rank - l.rank := by
  cases l <;> cases m <;> revert h <;> decide

theorem le_tighter (l : Level) : l ≤ l.tighter := by cases l <;> decide

end Level

/-! ## Operators -/

namespace UnaryOp

def kind : UnaryOp → Kind
  | not => .notWord
  | positive => .plus
  | negative => .minus

def level : UnaryOp → Level
  | not => .not
  | positive | negative => .sign

/-- A negation may stand before another one; a sign may not. -/
def operandLevel : UnaryOp → Level
  | not => .not
  | positive | negative => .postfixed

end UnaryOp

namespace BinaryOp

def kind? : BinaryOp → Option Kind
  | pipe => some .pipe
  | call | subscript => none
  | member => some .dot
  | or => some .orWord
  | and => some .andWord
  | arithmetic .add => some .plus
  | arithmetic .subtract => some .minus
  | arithmetic .multiply => some .star
  | arithmetic .divide => some .slash
  | arithmetic .quotient => some .doubleSlash
  | arithmetic .remainder => some .percent
  | comparison .less => some .less
  | comparison .lessOrEqual => some .lessEqual
  | comparison .equal => some .doubleEqual
  | comparison .greaterOrEqual => some .greaterEqual
  | comparison .greater => some .greater
  | comparison .notEqual => some .notEqual

def level : BinaryOp → Level
  | pipe | call => .piped
  | or => .or
  | and => .and
  | comparison _ => .comparison
  | arithmetic .add | arithmetic .subtract => .sum
  | arithmetic _ => .product
  | subscript | member => .postfixed

end BinaryOp

namespace Expr

def level : Expr → Level
  | unary _ op _ => op.level
  | binary _ op .. => op.level
  | _ => .atom

def isSymbol : Expr → Bool
  | symbol .. => true
  | _ => false

/-! ## Trees that need no more parentheses -/

mutual

/-- Each operand is at the level that its operator allows, so a chain of operators leans to the
left. Calls and their arguments stand only to the right of a pipe. -/
def WellLevelled : Expr → Prop
  | literal .. | symbol .. => True
  | unary _ op operand => op.operandLevel ≤ operand.level ∧ operand.WellLevelled
  | binary _ op left right =>
    op.level ≤ left.level ∧ left.WellLevelled ∧
      match op with
      | .pipe => right.IsFilter
      | .call => False
      | .member => right.isSymbol = true
      | .subscript => right.WellLevelled
      | op => op.level < right.level ∧ right.WellLevelled
  | group _ inner => inner.WellLevelled
  | arguments .. | other .. => False

def IsFilter : Expr → Prop
  | symbol .. => True
  | binary _ .call target list => target.isSymbol = true ∧ list.IsArguments
  | _ => False

def IsArguments : Expr → Prop
  | arguments _ items => AreArguments items
  | _ => False

def AreArguments : List Expr → Prop
  | [] => True
  | e :: es => Level.or ≤ e.level ∧ e.WellLevelled ∧ AreArguments es

end

end Expr

/-! ## Reading -/

def Token.Denotes (t : Token) (f : Forms) : Prop :=
  match t.kind with
  | .string => f = .ofText (Expr.stringContent t.text)
  | .integer => Decimal.toNat t.text ≤ Expr.greatestLiteral ∧ f = .ofInteger (Decimal.toNat t.text)
  | .float => (Decimal.readFloat t.text).isFinite = true ∧ f = .ofFloat (Decimal.readFloat t.text)
  | .trueWord => f = .ofBoolean true
  | .falseWord => f = .ofBoolean false
  | _ => False

namespace Expr

mutual

/-- The tree is read from these tokens: infix operators stand between their operands, prefixes
before and brackets around them. -/
inductive Reads : Expr → List Token → Prop
  | literal {t f} : t.Denotes f → Reads (.literal t.span f) [t]
  | symbol {t} : t.kind = .symbol → Reads (.symbol t.span t.text) [t]
  | unary {t op e ts} : t.kind = op.kind → Reads e ts →
      Reads (.unary ⟨t.start, e.stop⟩ op e) (t :: ts)
  | binary {t op l r ls rs} : op.kind? = some t.kind → Reads l ls → Reads r rs →
      Reads (.binary ⟨l.start, r.stop⟩ op l r) (ls ++ t :: rs)
  | subscript {o c l k ls ks} : o.kind = .leftBracket → c.kind = .rightBracket →
      Reads l ls → Reads k ks →
      Reads (.binary ⟨l.start, c.stop⟩ .subscript l k) (ls ++ o :: (ks ++ [c]))
  | call {f a fs as} : Reads f fs → Reads a as →
      Reads (.binary ⟨f.start, a.stop⟩ .call f a) (fs ++ as)
  | arguments {o c es ts} : o.kind = .leftParen → c.kind = .rightParen → ReadsAll es ts →
      Reads (.arguments ⟨o.start, c.stop⟩ es) (o :: (ts ++ [c]))
  | group {o c e ts} : o.kind = .leftParen → c.kind = .rightParen → Reads e ts →
      Reads (.group ⟨o.start, c.stop⟩ e) (o :: (ts ++ [c]))

inductive ReadsAll : List Expr → List Token → Prop
  | nil : ReadsAll [] []
  | one {e ts} : Reads e ts → ReadsAll [e] ts
  | cons {s e d es ts us} : s.kind = .comma → Reads e ts → ReadsAll (d :: es) us →
      ReadsAll (e :: d :: es) (ts ++ s :: us)

end

end Expr

end Stencil
