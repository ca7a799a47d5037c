import Stencil.Text

/-!
# Tokens

A token is a span of the source with its kind and its characters.
-/

namespace Stencil

structure Span where
  start : Nat
  stop : Nat
  deriving DecidableEq, Repr, Inhabited

namespace Token

inductive Kind
  /-- No token starts here, or the source ends. -/
  | invalid
  | statementBegin | statementEnd | expressionBegin | expressionEnd
  | ifWord | elifWord | elseWord | endifWord | forWord | inWord | endforWord
  | notWord | orWord | andWord | trueWord | falseWord
  | plus | minus | star | slash | doubleSlash | percent
  | less | lessEqual | doubleEqual | greaterEqual | greater | notEqual
  | pipe | leftParen | rightParen | leftBracket | rightBracket | dot | comma
  | string | integer | float | symbol
  deriving DecidableEq, Repr, Inhabited

end Token

structure Token where
  kind : Token.Kind
  start : Nat
  stop : Nat
  text : Text
  deriving DecidableEq, Repr, Inhabited

def Token.span (t : Token) : Span := ⟨t.start, t.stop⟩

end Stencil
