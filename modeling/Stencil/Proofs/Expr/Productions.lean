import Stencil.Expr.Parser

/-!
# Productions over tokens

The productions once more, over lists of tokens. They answer with a tree and the tokens after it,
and never ask for a token anew, so the grammar can be compared with them token by token. They are
the productions of the parser on the tokens that follow one another in a source.

Between an expression and the atoms in it stand as many calls as there are levels, so what a
production has room for is counted from the expression on that it belongs to. It is the same for the
levels of one expression: a negation and a filter take one call of it, and parentheses and brackets
as many as lie between them and the expression in them.
-/

namespace Stencil.Expr

abbrev Parsed := Expr × List Token

abbrev Production := List Token → Except Refusal (Option Parsed)

def required (operator : Token) (operand : Production) (tokens : List Token) :
    Except Refusal Parsed := do
  match ← operand tokens with
  | some parsed => return parsed
  | none => fail .missingExpression operator.stop

def accept? (kind : Token.Kind) : List Token → Option (Token × List Token)
  | token :: rest => if token.kind = kind then some (token, rest) else none
  | [] => none

/-! ## Chains of operators -/

def chainFrom (operator? : Token.Kind → Option BinaryOp) (operand : Production) :
    (fuel : Nat) → Expr → List Token → Except Refusal Parsed
  | fuel + 1, left, token :: rest =>
    match operator? token.kind with
    | none => return (left, token :: rest)
    | some op => do
      let (right, rest) ← required token operand rest
      chainFrom operator? operand fuel (.binary ⟨left.start, right.stop⟩ op left right) rest
  | _, left, tokens => return (left, tokens)

def chain (operator? : Token.Kind → Option BinaryOp) (operand : Production) : Production :=
  fun tokens => do
    match ← operand tokens with
    | none => return none
    | some (left, rest) => return some (← chainFrom operator? operand rest.length left rest)

/-! ## Atoms -/

def grouped (inner : Production) (opening : Token) (tokens : List Token) :
    Except Refusal Parsed := do
  let (body, rest) ← required opening inner tokens
  match accept? .rightParen rest with
  | some (closing, rest) => return (.group ⟨opening.start, closing.stop⟩ body, rest)
  | none => fail .missingParenthesis body.stop

def atomFrom (inner : Production) (token : Token) (rest : List Token) :
    Except Refusal (Option Parsed) :=
  match token.kind with
  | .symbol => return some (.symbol token.span token.text, rest)
  | .string => return some (.literal token.span (.ofText (stringContent token.text)), rest)
  | .integer => return some (← integerLiteral token, rest)
  | .float => return some (← floatLiteral token, rest)
  | .trueWord => return some (.literal token.span (.ofBoolean true), rest)
  | .falseWord => return some (.literal token.span (.ofBoolean false), rest)
  | .leftParen => return some (← grouped inner token rest)
  | _ => return none

/-- The fourteenth call from an expression on is that of an atom, the fifteenth that of what is in
parentheses. -/
def atom (inner : Nat → Production) (room : Nat) (tokens : List Token) :
    Except Refusal (Option Parsed) :=
  if room < 14 then .error .tooDeep
  else
    match tokens with
    | [] => return none
    | token :: rest => atomFrom (inner (room - 15)) token rest

/-! ## Members and subscripts -/

def memberOf (target : Expr) (dot : Token) (tokens : List Token) : Except Refusal Parsed :=
  match accept? .symbol tokens with
  | some (name, rest) =>
    return (.binary ⟨target.start, name.stop⟩ .member target (.symbol name.span name.text), rest)
  | none => fail .invalidSymbol dot.stop

def subscriptOf (inner : Production) (target : Expr) (opening : Token) (tokens : List Token) :
    Except Refusal Parsed := do
  let (key, rest) ← required opening inner tokens
  match accept? .rightBracket rest with
  | some (closing, rest) =>
    return (.binary ⟨target.start, closing.stop⟩ .subscript target key, rest)
  | none => fail .missingEndOfSubscript key.stop

def postfixFrom (inner : Production) :
    (fuel : Nat) → Expr → List Token → Except Refusal Parsed
  | fuel + 1, target, token :: rest =>
    match token.kind with
    | .dot => do
      let (target, rest) ← memberOf target token rest
      postfixFrom inner fuel target rest
    | .leftBracket => do
      let (target, rest) ← subscriptOf inner target token rest
      postfixFrom inner fuel target rest
    | _ => return (target, token :: rest)
  | _, target, tokens => return (target, tokens)

def postfixed (inner : Nat → Production) (room : Nat) : Production := fun tokens => do
  match ← atom inner room tokens with
  | none => return none
  | some (target, rest) => return some (← postfixFrom (inner (room - 13)) rest.length target rest)

/-! ## Prefixes -/

def signed (inner : Nat → Production) (room : Nat) : Production
  | [] => postfixed inner room []
  | token :: rest =>
    match sign? token.kind with
    | none => postfixed inner room (token :: rest)
    | some op => do
      let (operand, rest) ← required token (postfixed inner room) rest
      return some (.unary ⟨token.start, operand.stop⟩ op operand, rest)

def product (inner : Nat → Production) (room : Nat) : Production :=
  chain productOperator? (signed inner room)

def sum (inner : Nat → Production) (room : Nat) : Production :=
  chain sumOperator? (product inner room)

def compared (inner : Nat → Production) (room : Nat) : Production :=
  chain comparisonOperator? (sum inner room)

def negated (inner : Nat → Production) : (room : Nat) → Production
  | 0, _ => .error .tooDeep
  | room + 1, [] => compared inner (room + 1) []
  | room + 1, token :: rest =>
    if token.kind = .notWord then do
      let (operand, rest) ← required token (negated inner room) rest
      return some (.unary ⟨token.start, operand.stop⟩ .not operand, rest)
    else compared inner (room + 1) (token :: rest)

def conjunction (inner : Nat → Production) (room : Nat) : Production :=
  chain andOperator? (negated inner room)

def disjunction (inner : Nat → Production) (room : Nat) : Production :=
  chain orOperator? (conjunction inner room)

/-! ## Filters -/

def argumentsFrom (item : Production) :
    (fuel : Nat) → List Token → Except Refusal (List Expr × List Token)
  | fuel + 1, token :: rest =>
    if token.kind = .comma then do
      let (next, rest) ← required token item rest
      let (items, rest) ← argumentsFrom item fuel rest
      return (next :: items, rest)
    else return ([], token :: rest)
  | _, tokens => return ([], tokens)

def argumentList (item : Production) (opening : Token) (tokens : List Token) :
    Except Refusal Parsed := do
  let (items, rest) ←
    match ← item tokens with
    | none => pure ([], tokens)
    | some (first, rest) => do
      let (items, rest) ← argumentsFrom item rest.length rest
      pure (first :: items, rest)
  match accept? .rightParen rest with
  | some (closing, rest) => return (.arguments ⟨opening.start, closing.stop⟩ items, rest)
  | none => fail .missingParenthesis ((items.getLast?.map stop).getD opening.stop)

def filterCall (inner : Nat → Production) (room : Nat) : Production := fun tokens => do
  match ← disjunction inner room tokens with
  | none => return none
  | some (.symbol span name, rest) =>
    match accept? .leftParen rest with
    | none => return some (.symbol span name, rest)
    | some (opening, rest) => do
      let (items, rest) ← argumentList (disjunction inner (room - 1)) opening rest
      return some (.binary ⟨span.start, items.stop⟩ .call (.symbol span name) items, rest)
  | some (target, _) => fail .invalidFilter target.start

def pipesFrom (call : Production) :
    (fuel : Nat) → Expr → List Token → Except Refusal Parsed
  | fuel + 1, left, token :: rest =>
    if token.kind = .pipe then do
      match ← call rest with
      | none => fail .missingFilterCall token.stop
      | some (right, rest) =>
        pipesFrom call fuel (.binary ⟨left.start, right.stop⟩ .pipe left right) rest
    else return (left, token :: rest)
  | _, left, tokens => return (left, tokens)

def piped (inner : Nat → Production) (room : Nat) : Production := fun tokens => do
  match ← disjunction inner room tokens with
  | none => return none
  | some (left, rest) =>
    return some (← pipesFrom (filterCall inner (room - 1)) rest.length left rest)

/-! ## The whole -/

/-- The production of full expressions in which parentheses and brackets nest less than `depth`
deep. -/
def parser : (depth room : Nat) → Production
  | 0 => fun _ _ => .error .tooDeep
  | depth + 1 => piped (parser depth)

/-- A full expression at the front of a list of tokens. Brackets take more than one call each, so
they cannot nest deeper than there is room. -/
def parse (room : Nat) : Production := parser (room + 1) room

def parsePostfix (room : Nat) : Production := postfixed (parser room) room

end Stencil.Expr
