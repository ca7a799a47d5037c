import Stencil.Expr

/-!
# Clauses

A source is a flat run of clauses: text, output expressions, and statements. The span of a clause
covers its delimiters.
-/

namespace Stencil

inductive Clause
  | text (span : Span)
  | output (span : Span) (expression : Expr)
  | ifTest (span : Span) (test : Expr)
  | elifTest (span : Span) (test : Expr)
  | otherwise (span : Span)
  | endIf (span : Span)
  | forEach (span : Span) (binder : Symbol) (iterator : Expr)
  | endFor (span : Span)
  /-- A node of another sort, which no block is made of. -/
  | other (span : Span) (sort : Text)
  deriving Inhabited

namespace Clause

def span : Clause → Span
  | text s | output s _ | ifTest s _ | elifTest s _ | otherwise s | endIf s | forEach s ..
  | endFor s | other s _ => s

def start (c : Clause) : Nat := c.span.start

def stop (c : Clause) : Nat := c.span.stop

end Clause

end Stencil
