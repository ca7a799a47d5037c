import Stencil.Token
import Stencil.Value.Forms

/-!
# Expressions

Every node carries the span of source text that it was read from.
-/

namespace Stencil

inductive UnaryOp
  | not | positive | negative
  deriving DecidableEq, Repr, Inhabited

inductive Arithmetic
  | add | subtract | multiply | divide | quotient | remainder
  deriving DecidableEq, Repr, Inhabited

inductive Comparison
  | less | lessOrEqual | equal | greaterOrEqual | greater | notEqual
  deriving DecidableEq, Repr, Inhabited

inductive BinaryOp
  /-- A value piped into a filter. -/
  | pipe
  /-- A filter applied to its list of arguments. -/
  | call
  | subscript
  | member
  | or
  | and
  | arithmetic (op : Arithmetic)
  | comparison (op : Comparison)
  deriving DecidableEq, Repr, Inhabited

inductive Expr
  | literal (span : Span) (forms : Forms)
  | symbol (span : Span) (name : Text)
  | unary (span : Span) (op : UnaryOp) (operand : Expr)
  | binary (span : Span) (op : BinaryOp) (left right : Expr)
  /-- The arguments of a filter call. -/
  | arguments (span : Span) (items : List Expr)
  | group (span : Span) (inner : Expr)
  /-- A node of another sort, which has no value. -/
  | other (span : Span) (sort : Text)
  deriving Inhabited

namespace Expr

def span : Expr → Span
  | literal s _ | symbol s _ | unary s .. | binary s .. | arguments s _ | group s _ | other s _ => s

def start (e : Expr) : Nat := e.span.start

def stop (e : Expr) : Nat := e.span.stop

def sort : Expr → Text
  | literal .. => "Literal".toList
  | symbol .. => "Symbol".toList
  | unary .. => "Unary".toList
  | binary .. => "Binary".toList
  | arguments .. => "ListExpr".toList
  | group .. => "Parenthesis".toList
  | other _ sort => sort

end Expr

structure Symbol where
  span : Span
  name : Text
  deriving DecidableEq, Repr, Inhabited

end Stencil
