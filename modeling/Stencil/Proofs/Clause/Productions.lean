import Stencil.Clause.Scan
import Stencil.Proofs.Expr.Productions

/-!
# Clauses over tokens

The clause scan once more, over the tokens of each clause. A clause that begins with a delimiter is
read from its tokens alone, up to the first one that closes it or is invalid.
-/

namespace Stencil.Clause

open Stencil.Expr (Refusal fail accept?)

/-! ## Statements and outputs -/

def closes : Token.Kind → Bool
  | .statementEnd | .expressionEnd => true
  | _ => false

def statementEnd (offset : Nat) (tokens : List Token) : Except Refusal Nat :=
  match accept? .statementEnd tokens with
  | some (closing, _) => return closing.stop
  | none => fail .incompletedStatementBlock offset

def readTest (stack : Stack) (tokens : List Token) : Except Refusal Expr.Parsed := do
  match ← Expr.parse (stack.calls - 4) tokens with
  | some parsed => return parsed
  | none => fail .missingTestExpression ((tokens.head?.map Token.start).getD 0)

def readLoop (stack : Stack) (start : Nat) (keyword : Token) (tokens : List Token) :
    Except Refusal Clause := do
  match ← Expr.parse (stack.calls - 4) tokens with
  | some (.symbol span name, rest) =>
    match accept? .inWord rest with
    | none => fail .missingInKeyword span.stop
    | some (word, rest) =>
      match ← Expr.parsePostfix (stack.calls + 8) rest with
      | none => fail .missingIterator word.stop
      | some (iterator, rest) =>
        return .forEach ⟨start, ← statementEnd iterator.stop rest⟩ ⟨span, name⟩ iterator
  | _ => fail .missingLoopVariable keyword.stop

def readStatement (stack : Stack) (start : Nat) : List Token → Except Refusal Clause
  | [] => fail .unknownStatementType start
  | keyword :: rest =>
    match keyword.kind with
    | .ifWord => do
      let (test, rest) ← readTest stack rest
      return .ifTest ⟨start, ← statementEnd test.stop rest⟩ test
    | .elifWord => do
      let (test, rest) ← readTest stack rest
      return .elifTest ⟨start, ← statementEnd test.stop rest⟩ test
    | .elseWord => return .otherwise ⟨start, ← statementEnd keyword.stop rest⟩
    | .endifWord => return .endIf ⟨start, ← statementEnd keyword.stop rest⟩
    | .forWord => readLoop stack start keyword rest
    | .endforWord => return .endFor ⟨start, ← statementEnd keyword.stop rest⟩
    | _ => fail .unknownStatementType keyword.start

def readOutput (stack : Stack) (start : Nat) (tokens : List Token) : Except Refusal Clause := do
  match ← Expr.parse (stack.calls - 3) tokens with
  | none => fail .incompletedExpressionBlock start
  | some (expression, rest) =>
    match accept? .expressionEnd rest with
    | some (closing, _) => return .output ⟨start, closing.stop⟩ expression
    | none => fail .incompletedExpressionBlock start

/-! ## The scan -/

def read (stack : Stack) (offset : Nat) (source : Text) : Except Refusal Clause :=
  match source with
  | '{' :: '%' :: rest => readStatement stack offset (Token.stream closes (offset + 2) rest)
  | '{' :: '{' :: rest => readOutput stack offset (Token.stream closes (offset + 2) rest)
  | _ => return .text ⟨offset, offset + textLength source⟩

def scanFrom (stack : Stack) (offset : Nat) (source : Text) : Except ParseFault (List Clause) :=
  match source with
  | [] => return []
  | c :: rest => do
    let clause ← (read stack offset (c :: rest)).mapError (blame offset)
    let more ← scanFrom stack clause.stop (rest.drop (clause.stop - offset - 1))
    return clause :: more
termination_by source.length
decreasing_by simp only [List.length_drop, List.length_cons]; omega

end Stencil.Clause
