import Stencil.Clause
import Stencil.Expr.Parser
import Stencil.Stack

/-!
# Clause scan

Cuts a source into clauses from front to back. What a clause is made of is read by offsets, each
part of it from where the part before ends.
-/

namespace Stencil.Clause

open Stencil.Expr (Refusal fail)
open Stencil.Expr.Parser (expect production)

section
variable (stack : Stack) (source : Text)

/-! ## Statements and outputs -/

def statementStop (offset : Nat) : Except Refusal Nat := do
  let closing ← expect source .statementEnd .incompletedStatementBlock offset
  return closing.stop

/-- The test after `if` or `elif`, below the calls for the scan, the clause, the statement and the
test. -/
def testAfter (keyword : Token) : Except Refusal Expr := do
  match ← production source (stack.calls - 4) .expression keyword.stop with
  | some test => return test
  | none => fail .missingTestExpression (Text.skipBlank source keyword.stop)

/-- The clause of a loop, after the word `for`. The binder is read as an expression and has to be a
name; the iterator is read as an operand. -/
def loopAfter (opening keyword : Token) : Except Refusal Clause := do
  match ← production source (stack.calls - 4) .expression keyword.stop with
  | some (.symbol span name) =>
    let word ← expect source .inWord .missingInKeyword span.stop
    match ← production source (stack.calls - 4) .postfixed word.stop with
    | none => fail .missingIterator word.stop
    | some iterator =>
      return .forEach ⟨opening.start, ← statementStop source iterator.stop⟩ ⟨span, name⟩ iterator
  | _ => fail .missingLoopVariable keyword.stop

def statementAfter (opening : Token) : Except Refusal Clause :=
  let keyword := Token.atOffset source opening.stop
  match keyword.kind with
  | .ifWord => do
    let test ← testAfter stack source keyword
    return .ifTest ⟨opening.start, ← statementStop source test.stop⟩ test
  | .elifWord => do
    let test ← testAfter stack source keyword
    return .elifTest ⟨opening.start, ← statementStop source test.stop⟩ test
  | .elseWord => return .otherwise ⟨opening.start, ← statementStop source keyword.stop⟩
  | .endifWord => return .endIf ⟨opening.start, ← statementStop source keyword.stop⟩
  | .forWord => loopAfter stack source opening keyword
  | .endforWord => return .endFor ⟨opening.start, ← statementStop source keyword.stop⟩
  | _ => fail .unknownStatementType keyword.start

def outputAfter (opening : Token) : Except Refusal Clause := do
  match ← production source (stack.calls - 3) .expression opening.stop with
  | none => fail .incompletedExpressionBlock opening.start
  | some expression =>
    let closing := Token.atOffset source expression.stop
    if closing.kind = .expressionEnd then
      return .output ⟨opening.start, closing.stop⟩ expression
    else fail .incompletedExpressionBlock opening.start

/-! ## The scan -/

def textLength : Text → Nat
  | [] => 0
  | '{' :: '%' :: _ => 0
  | '{' :: '{' :: _ => 0
  | _ :: rest => textLength rest + 1

def clauseAt (offset : Nat) : Except Refusal Clause :=
  let opening := Token.atOffset source offset
  if opening.start = offset ∧ opening.kind = .statementBegin then
    statementAfter stack source opening
  else if opening.start = offset ∧ opening.kind = .expressionBegin then
    outputAfter stack source opening
  else return .text ⟨offset, offset + textLength (source.drop offset)⟩

/-- Expressions that nest too deep are reported where their clause starts. -/
def blame (start : Nat) : Refusal → ParseFault
  | .located kind offset => .located kind offset
  | .tooDeep => .located .nestingTooDeep start
  | .numeralTooLong digits => .numeralTooLong digits

def clausesFrom (offset : Nat) : Except ParseFault (List Clause) :=
  if offset < source.length then do
    let clause ← (clauseAt stack source offset).mapError (blame offset)
    -- no clause is empty, but that is proved of the clauses only later
    let more ← clausesFrom (max clause.stop (offset + 1))
    return clause :: more
  else return []
termination_by source.length - offset

def scan : Except ParseFault (List Clause) := clausesFrom stack source 0

end

end Stencil.Clause
