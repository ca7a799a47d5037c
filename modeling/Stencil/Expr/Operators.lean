import Stencil.Expr
import Stencil.Fault

/-!
# Operators and constants

Which operator a token stands for, and the tree of a constant.
-/

namespace Stencil.Expr

inductive Refusal
  | located (kind : ParseKind) (offset : Nat)
  | tooDeep
  | numeralTooLong (digits : Nat)
  deriving DecidableEq, Repr

def fail {α : Type} (kind : ParseKind) (offset : Nat) : Except Refusal α :=
  .error (.located kind offset)

/-! ## Operators by kind -/

def orOperator? : Token.Kind → Option BinaryOp
  | .orWord => some .or
  | _ => none

def andOperator? : Token.Kind → Option BinaryOp
  | .andWord => some .and
  | _ => none

def comparisonOperator? : Token.Kind → Option BinaryOp
  | .less => some (.comparison .less)
  | .lessEqual => some (.comparison .lessOrEqual)
  | .doubleEqual => some (.comparison .equal)
  | .greaterEqual => some (.comparison .greaterOrEqual)
  | .greater => some (.comparison .greater)
  | .notEqual => some (.comparison .notEqual)
  | _ => none

def sumOperator? : Token.Kind → Option BinaryOp
  | .plus => some (.arithmetic .add)
  | .minus => some (.arithmetic .subtract)
  | _ => none

def productOperator? : Token.Kind → Option BinaryOp
  | .star => some (.arithmetic .multiply)
  | .slash => some (.arithmetic .divide)
  | .doubleSlash => some (.arithmetic .quotient)
  | .percent => some (.arithmetic .remainder)
  | _ => none

def sign? : Token.Kind → Option UnaryOp
  | .plus => some .positive
  | .minus => some .negative
  | _ => none

/-! ## Constants -/

def greatestLiteral : Nat := Nat.pow 2 31 - 1

/-- The digits after the leading zeros are counted before the literal is converted. -/
def integerLiteral (token : Token) : Except Refusal Expr :=
  let significant := token.text.dropWhile (· == '0')
  if significant.length > 10 then fail .invalidNumber token.start
  else if token.text.length > Decimal.longestNumeral then .error (.numeralTooLong token.text.length)
  else if Decimal.toNat token.text > greatestLiteral then fail .invalidNumber token.start
  else return .literal token.span (.ofInteger (Decimal.toNat token.text))

def floatLiteral (token : Token) : Except Refusal Expr :=
  let x := Decimal.readFloat token.text
  if x.isFinite then return .literal token.span (.ofFloat x)
  else fail .invalidNumber token.start

def stringContent (text : Text) : Text :=
  (text.drop 1).takeWhile (· != '\'')

end Stencil.Expr
