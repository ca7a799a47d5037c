import Stencil.Expr.Operators
import Stencil.Token.Lexer

/-!
# Expression parser

One production for each level of precedence, from the filters down to the atoms. A production takes
the offset to start at and answers with a tree, or with nothing if no expression of its level begins
there. What comes after a tree is asked for at the offset where the tree ends.

    piped       a | f | g(x, y)
    or          a or b
    and         a and b
    not         not a
    comparison  a < b == c
    sum         a + b - c
    product     a * b / c // d % e
    signed      -a  +a
    postfixed   a.b[c].d
    atom        name  'text'  1  1.5  true  false  ( expr )
-/

namespace Stencil.Expr.Parser

/-- The productions. Each of them is one call, and so is each chain of operators of a level. -/
inductive Rule
  | expression | piped | filterCall | argumentList | or | and | not
  | comparison | comparisons | sum | sums | product | products
  | signed | postfixed | atom
  | parenthesis (opening : Token)

abbrev Production := (offset : Nat) → Except Refusal (Option Expr)

section
variable (source : Text)

def required (operator : Token) (operand : Production) : Except Refusal Expr := do
  match ← operand operator.stop with
  | some e => return e
  | none => fail .missingExpression operator.stop

def expect (kind : Token.Kind) (error : ParseKind) (offset : Nat) : Except Refusal Token :=
  let token := Token.atOffset source offset
  if token.kind = kind then return token else fail error offset

def looped (first : Production) (onward : Expr → Except Refusal Expr) : Production :=
  fun offset => do
    match ← first offset with
    | none => return none
    | some left => return some (← onward left)

/-- More rounds of a loop than tokens can follow one another. -/
def rounds : Nat := source.length + 1

/-! ## Chains of operators -/

def chainFrom (operator? : Token.Kind → Option BinaryOp) (operand : Production) :
    (fuel : Nat) → (left : Expr) → Except Refusal Expr
  | 0, left => return left
  | fuel + 1, left =>
    let token := Token.atOffset source left.stop
    match operator? token.kind with
    | none => return left
    | some op => do
      let right ← required token operand
      chainFrom operator? operand fuel (.binary ⟨left.start, right.stop⟩ op left right)

def chain (operator? : Token.Kind → Option BinaryOp) (operand : Production) : Production :=
  looped operand (chainFrom source operator? operand (rounds source))

/-! ## Atoms -/

def grouped (inner : Production) (opening : Token) : Except Refusal Expr := do
  let body ← required opening inner
  let closing ← expect source .rightParen .missingParenthesis body.stop
  return .group ⟨opening.start, closing.stop⟩ body

def atom (parenthesis : Token → Production) : Production := fun offset =>
  let token := Token.atOffset source offset
  match token.kind with
  | .symbol => return some (.symbol token.span token.text)
  | .string => return some (.literal token.span (.ofText (stringContent token.text)))
  | .integer => return some (← integerLiteral token)
  | .float => return some (← floatLiteral token)
  | .trueWord => return some (.literal token.span (.ofBoolean true))
  | .falseWord => return some (.literal token.span (.ofBoolean false))
  | .leftParen => parenthesis token token.stop
  | _ => return none

/-! ## Members and subscripts -/

def memberOf (target : Expr) (dot : Token) : Except Refusal Expr := do
  let name ← expect source .symbol .invalidSymbol dot.stop
  return .binary ⟨target.start, name.stop⟩ .member target (.symbol name.span name.text)

def subscriptOf (inner : Production) (target : Expr) (opening : Token) : Except Refusal Expr := do
  let key ← required opening inner
  let closing ← expect source .rightBracket .missingEndOfSubscript key.stop
  return .binary ⟨target.start, closing.stop⟩ .subscript target key

def postfixFrom (inner : Production) : (fuel : Nat) → (target : Expr) → Except Refusal Expr
  | 0, target => return target
  | fuel + 1, target =>
    let token := Token.atOffset source target.stop
    match token.kind with
    | .dot => do postfixFrom inner fuel (← memberOf source target token)
    | .leftBracket => do postfixFrom inner fuel (← subscriptOf source inner target token)
    | _ => return target

/-! ## Prefixes -/

def signed (operand : Production) : Production := fun offset =>
  let token := Token.atOffset source offset
  match sign? token.kind with
  | none => operand offset
  | some op => do
    let operand ← required token operand
    return some (.unary ⟨token.start, operand.stop⟩ op operand)

def negated (negation comparison : Production) : Production := fun offset =>
  let token := Token.atOffset source offset
  if token.kind = .notWord then do
    let operand ← required token negation
    return some (.unary ⟨token.start, operand.stop⟩ .not operand)
  else comparison offset

/-! ## Filters -/

def argumentsFrom (item : Production) : (fuel : Nat) → (last : Expr) → Except Refusal (List Expr)
  | 0, _ => return []
  | fuel + 1, last =>
    let separator := Token.atOffset source last.stop
    if separator.kind = .comma then do
      let next ← required separator item
      return next :: (← argumentsFrom item fuel next)
    else return []

def argumentList (item : Production) : Production := fun offset => do
  let opening := Token.atOffset source offset
  if opening.kind = .leftParen then
    let items ←
      match ← item opening.stop with
      | none => pure []
      | some first => pure (first :: (← argumentsFrom source item (rounds source) first))
    let stop := (items.getLast?.map stop).getD opening.stop
    let closing ← expect source .rightParen .missingParenthesis stop
    return some (.arguments ⟨opening.start, closing.stop⟩ items)
  else return none

/-- The right side of a pipe: a name, with arguments or without. Any other expression there is
refused. -/
def filterCall (target arguments : Production) : Production := fun offset => do
  match ← target offset with
  | none => return none
  | some (.symbol span name) =>
    match ← arguments span.stop with
    | none => return some (.symbol span name)
    | some list =>
      return some (.binary ⟨span.start, list.stop⟩ .call (.symbol span name) list)
  | some target => fail .invalidFilter target.start

def pipesFrom (call : Production) : (fuel : Nat) → (left : Expr) → Except Refusal Expr
  | 0, left => return left
  | fuel + 1, left =>
    let pipe := Token.atOffset source left.stop
    if pipe.kind = .pipe then do
      match ← call pipe.stop with
      | none => fail .missingFilterCall pipe.stop
      | some right => pipesFrom call fuel (.binary ⟨left.start, right.stop⟩ .pipe left right)
    else return left

/-! ## The whole -/

def step (deeper : Rule → Production) : Rule → Production
  | .expression => deeper .piped
  | .piped => looped (deeper .or) (pipesFrom source (deeper .filterCall) (rounds source))
  | .filterCall => filterCall (deeper .or) (deeper .argumentList)
  | .argumentList => argumentList source (deeper .or)
  | .or => chain source orOperator? (deeper .and)
  | .and => chain source andOperator? (deeper .not)
  | .not => negated source (deeper .not) (deeper .comparison)
  -- levels of operators that are not words take two calls, the second one for the chain
  | .comparison => deeper .comparisons
  | .comparisons => chain source comparisonOperator? (deeper .sum)
  | .sum => deeper .sums
  | .sums => chain source sumOperator? (deeper .product)
  | .product => deeper .products
  | .products => chain source productOperator? (deeper .signed)
  | .signed => signed source (deeper .postfixed)
  | .postfixed =>
    looped (deeper .atom) (postfixFrom source (deeper .expression) (rounds source))
  | .atom => atom source fun opening => deeper (.parenthesis opening)
  | .parenthesis opening => fun _ => do
    return some (← grouped source (deeper .expression) opening)

/-- The productions of a source that leave room for so many calls, their own among them. -/
def production : (calls : Nat) → Rule → Production
  | 0, _ => fun _ => .error .tooDeep
  | calls + 1, rule => step source (production calls) rule

end

end Stencil.Expr.Parser
