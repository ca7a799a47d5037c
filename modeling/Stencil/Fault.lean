import Stencil.Text

/-!
# Kinds of errors

The names under which parsing and rendering report what went wrong.
-/

namespace Stencil

inductive ParseKind
  | incompletedStatementBlock | incompletedExpressionBlock | unknownClause
  | missingTestExpression | missingLoopVariable | missingInKeyword | missingIterator
  | unknownStatementType | missingEndIf | missingEndFor | missingFilterCall | invalidFilter
  | missingParenthesis | missingExpression | missingEndOfSubscript | invalidSymbol | invalidNumber
  | nestingTooDeep
  deriving DecidableEq, Repr, Inhabited

namespace ParseKind

def name : ParseKind → Text
  | incompletedStatementBlock => "IncompletedStatementBlock".toList
  | incompletedExpressionBlock => "IncompletedExpressionBlock".toList
  | unknownClause => "UnknownClause".toList
  | missingTestExpression => "MissingTestExpression".toList
  | missingLoopVariable => "MissingLoopVariable".toList
  | missingInKeyword => "MissingInKeyword".toList
  | missingIterator => "MissingIterator".toList
  | unknownStatementType => "UnknownStatementType".toList
  | missingEndIf => "MissingEndIf".toList
  | missingEndFor => "MissingEndFor".toList
  | missingFilterCall => "MissingFilterCall".toList
  | invalidFilter => "InvalidFilter".toList
  | missingParenthesis => "MissingParenthesis".toList
  | missingExpression => "MissingExpression".toList
  | missingEndOfSubscript => "MissingEndOfSubscript".toList
  | invalidSymbol => "InvalidSymbol".toList
  | invalidNumber => "InvalidNumber".toList
  | nestingTooDeep => "NestingTooDeep".toList

def all : List ParseKind :=
  [incompletedStatementBlock, incompletedExpressionBlock, unknownClause, missingTestExpression,
    missingLoopVariable, missingInKeyword, missingIterator, unknownStatementType, missingEndIf,
    missingEndFor, missingFilterCall, invalidFilter, missingParenthesis, missingExpression,
    missingEndOfSubscript, invalidSymbol, invalidNumber, nestingTooDeep]

def ofName? (name : Text) : Option ParseKind := all.find? (·.name == name)

end ParseKind

inductive RenderKind
  | unsupportedOperation | unsupportedFilter | filterCallFailed | dividedByZero | evaluationTooDeep
  deriving DecidableEq, Repr, Inhabited

namespace RenderKind

def name : RenderKind → Text
  | unsupportedOperation => "UnsupportedOperation".toList
  | unsupportedFilter => "UnsupportedFilter".toList
  | filterCallFailed => "FilterCallFailed".toList
  | dividedByZero => "DividedByZero".toList
  | evaluationTooDeep => "EvaluationTooDeep".toList

def all : List RenderKind :=
  [unsupportedOperation, unsupportedFilter, filterCallFailed, dividedByZero, evaluationTooDeep]

def ofName? (name : Text) : Option RenderKind := all.find? (·.name == name)

end RenderKind

inductive ParseFault
  | located (kind : ParseKind) (offset : Nat)
  /-- An integer literal of so many digits that it is not converted, whatever its value. -/
  | numeralTooLong (digits : Nat)
  deriving DecidableEq, Repr

end Stencil
