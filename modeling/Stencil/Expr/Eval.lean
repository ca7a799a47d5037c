import Stencil.Assoc
import Stencil.Expr
import Stencil.Fault
import Stencil.Filter
import Stencil.Host.Access
import Stencil.Scope
import Stencil.Value

/-!
# Evaluation

The value of an expression in an environment. Evaluation changes nothing; it stops at the first
failure from left to right, and the failure names an offset of the source. It takes calls: one for
each expression, one for the operator on top of it, and one more where an operator is applied to the
value of its left operand. Whatever comes from the data is displayed by the calls that are left.
-/

namespace Stencil

/-- A tree that no source is parsed to and that has no meaning. -/
inductive Malformed
  | unknownBlock (sort : Text)
  | unknownExpression (sort : Text)
  | memberNotSymbol
  | badCall
  | badFilter (sort : Text)
  | withoutValue (sort : Text)
  deriving DecidableEq, Repr

def Malformed.message : Malformed → Text
  | unknownBlock sort => "Unknown block type: ".toList ++ sort
  | unknownExpression sort => "Unknown expression type: ".toList ++ sort
  | memberNotSymbol => "Member access requires a symbol on the right".toList
  | badCall => "Filter call requires a symbol and an argument list".toList
  | badFilter sort => "Invalid filter node: ".toList ++ sort
  | withoutValue sort => sort ++ " cannot be evaluated outside a filter call".toList

inductive RenderFault
  | located (kind : RenderKind) (offset : Nat)
  | filterFailed (offset : Nat) (cause : FilterFault)
  | malformed (m : Malformed)
  /-- The items of a sequence cannot be counted. -/
  | overlong
  /-- An integer in the data has too many digits to be displayed. -/
  | numeralTooLong
  /-- There are no calls left to begin an evaluation. -/
  | exhausted
  deriving DecidableEq, Repr

/-- Where names are looked up: among the loop variables, then in the data. -/
structure Env where
  locals : Bindings
  data : Host
  rendering : Rendering

def Env.resolve (env : Env) (calls : Nat) (name : Text) : Except Host.DisplayFault Value :=
  match env.locals.get? name with
  | some h => Value.ofHost calls h
  | none => Value.ofHost? calls (env.data.member? env.rendering name)

def Forms.value (f : Forms) : Value :=
  match f.kind with
  | .string => ⟨f, .text f.text⟩
  | .integer => ⟨f, .integer f.integer⟩
  | .float => ⟨f, .float .fresh f.float⟩
  | .boolean | .object => ⟨f, .boolean f.boolean⟩

namespace Expr

/-- Why an evaluation stops; whoever began it knows which expression nests too deep. -/
inductive Stop
  | fault (f : RenderFault)
  | tooDeep
  deriving DecidableEq, Repr

def Stop.ofDisplay : Host.DisplayFault → Stop
  | .tooDeep => .tooDeep
  | .numeralTooLong => .fault .numeralTooLong

abbrev Result := Except Stop Value

def shown (v : Except Host.DisplayFault Value) : Result := v.mapError .ofDisplay

def failAt {α : Type} (kind : RenderKind) (offset : Nat) : Except Stop α :=
  .error (.fault (.located kind offset))

def malformed {α : Type} (m : Malformed) : Except Stop α :=
  .error (.fault (.malformed m))

/-! ## Operators on values -/

def applyUnary (op : UnaryOp) (offset : Nat) (v : Value) : Result :=
  match op, v.kind with
  | .not, _ => .ok (.ofBoolean !v.boolean)
  | .positive, .integer => .ok (.ofInteger v.integer)
  | .negative, .integer => .ok (.ofInteger (-v.integer))
  -- a plus does not make a new number
  | .positive, .float => .ok ⟨.ofFloat v.float, v.object⟩
  | .negative, .float => .ok (.ofFloat (-v.float))
  | _, _ => failAt .unsupportedOperation offset

def both (p : ValueKind → Bool) (a b : Value) : Bool := p a.kind && p b.kind

def onNumbers (onIntegers : Int → Int → Int) (onFloats : Float → Float → Float) (a b : Value) :
    Value :=
  if both (· == .integer) a b then .ofInteger (onIntegers a.integer b.integer)
  else .ofFloat (onFloats a.float b.float)

def onIntegers (divide : Int → Int → Int) (offset : Nat) (a b : Value) : Result :=
  -- the kinds are looked at before the divisor
  if !both (· == .integer) a b then failAt .unsupportedOperation offset
  else if b.integer = 0 then failAt .dividedByZero offset
  else .ok (.ofInteger (divide a.integer b.integer))

def applyArithmetic (op : Arithmetic) (offset : Nat) (a b : Value) : Result :=
  match op with
  | .add =>
    -- one text is enough, the other operand is written as it would be shown
    if a.kind = .string ∨ b.kind = .string then .ok (.ofText (a.text ++ b.text))
    else if both ValueKind.isNumeric a b then .ok (onNumbers (· + ·) (· + ·) a b)
    else failAt .unsupportedOperation offset
  | .subtract =>
    if both ValueKind.isNumeric a b then .ok (onNumbers (· - ·) (· - ·) a b)
    else failAt .unsupportedOperation offset
  | .multiply =>
    if both ValueKind.isNumeric a b then .ok (onNumbers (· * ·) (· * ·) a b)
    else failAt .unsupportedOperation offset
  | .divide =>
    if !both ValueKind.isNumeric a b then failAt .unsupportedOperation offset
    else if b.float == 0 then failAt .dividedByZero offset
    else .ok (.ofFloat (a.float / b.float))
  | .quotient => onIntegers (fun m n => (Decimal.truncatedDivmod m n).1) offset a b
  | .remainder => onIntegers (fun m n => (Decimal.truncatedDivmod m n).2) offset a b

def compareTexts (op : Comparison) (a b : Text) : Bool :=
  match op with
  | .less => a < b
  | .lessOrEqual => !(decide (b < a))
  | .equal => a == b
  | .greaterOrEqual => !(decide (a < b))
  | .greater => b < a
  | .notEqual => a != b

def compareFloats (op : Comparison) (a b : Float) : Bool :=
  match op with
  | .less => a < b
  | .lessOrEqual => a ≤ b
  | .equal => a == b
  | .greaterOrEqual => b ≤ a
  | .greater => b < a
  | .notEqual => a != b

def compareSame (op : Comparison) (same : Bool) : Option Bool :=
  match op with
  | .equal => some same
  | .notEqual => some !same
  | _ => none

/-- Texts are compared with texts and numbers with numbers. Truth values are only the same or
not, and so are objects, which are the same if they are one object. -/
def compare? (op : Comparison) (a b : Value) : Option Bool :=
  if both (· == .string) a b then some (compareTexts op a.text b.text)
  else if both ValueKind.isNumeric a b then some (compareFloats op a.float b.float)
  else if both (· == .boolean) a b then compareSame op (a.boolean == b.boolean)
  else if a.kind = .object then compareSame op (a.object.identical b.object)
  else none

def applyComparison (op : Comparison) (offset : Nat) (a b : Value) : Result :=
  match compare? op a b with
  | some answer => .ok (.ofBoolean answer)
  | none => failAt .unsupportedOperation offset

def applySubscript (calls : Nat) (target key : Value) : Result :=
  if target.object.overlong key.integer then .error (.fault .overlong)
  else shown (Value.ofHost? calls (target.object.item? key.object key.integer))

/-! ## Left spines -/

/-- A binary operator without its left operand, of which only the start is kept. -/
structure Step where
  op : BinaryOp
  leftStart : Nat
  right : Expr

/-- The innermost left operand of a chain of binary operators, and the operators from the
innermost one outward, before those of `outer`. -/
def unwind : Expr → (outer : List Step) → Expr × List Step
  | binary _ op left right, outer => unwind left (⟨op, left.start, right⟩ :: outer)
  | e, outer => (e, outer)

/-! ## Filter calls -/

def callParts : Expr → Except Stop (Text × List Expr)
  | symbol _ name => .ok (name, [])
  | binary _ .call (symbol _ name) (arguments _ items) => .ok (name, items)
  | binary _ .call _ _ => malformed .badCall
  | e => malformed (.badFilter e.sort)

def argumentObjects (eval : Expr → Result) : List Expr → Except Stop (List Host)
  | [] => .ok []
  | e :: es => do
    let v ← eval e
    let vs ← argumentObjects eval es
    return v.object :: vs

/-- Pipes a value into a call. The arguments are evaluated before the filter is looked up. -/
def pipeInto (calls : Nat) (eval : Expr → Result) (v : Value) (call : Expr) : Result := do
  let (name, items) ← callParts call
  let objects ← argumentObjects eval items
  match Filter.named? name with
  | none => failAt .unsupportedFilter call.start
  | some filter =>
    match filter (v.object :: objects) with
    | .ok h => shown (Value.ofHost calls h)
    | .error cause => .error (.fault (.filterFailed call.start cause))

/-! ## Expressions

Operators evaluate their operands by `eval`, which is told how many more calls are open then. -/

/-- Applies one operator to the value of its left operand; `or` and `and` look at the right one only
if the left one does not decide. The arguments of a filter take two more calls. -/
def apply (env : Env) (calls : Nat) (eval : Nat → Expr → Result) (left : Value) (s : Step) :
    Result :=
  match s.op with
  | .or => if left.boolean then .ok (.ofBoolean true) else do
      let right ← eval 0 s.right
      return .ofBoolean right.boolean
  | .and => if !left.boolean then .ok (.ofBoolean false) else do
      let right ← eval 0 s.right
      return .ofBoolean right.boolean
  | .member =>
    match s.right with
    | symbol _ name => shown (Value.ofHost? calls (left.object.member? env.rendering name))
    | _ => malformed .memberNotSymbol
  | .subscript => do applySubscript calls left (← eval 0 s.right)
  | .pipe => pipeInto calls (eval 2) left s.right
  | .call => malformed (.withoutValue "Binary".toList)
  | .arithmetic op => do applyArithmetic op s.leftStart left (← eval 0 s.right)
  | .comparison op => do applyComparison op s.leftStart left (← eval 0 s.right)

/-- The value of an expression by the operator on top of it. The operators along the left spine of
a binary one are applied one after the other, and none of them from inside another. -/
def handle (env : Env) (calls : Nat) (eval : Nat → Expr → Result) : Expr → Result
  | literal _ forms => .ok forms.value
  | symbol _ name => shown (env.resolve calls name)
  | unary _ op operand => do applyUnary op operand.start (← eval 0 operand)
  | binary s op left right => do
    let (head, steps) := (binary s op left right).unwind []
    let first ← eval 0 head
    steps.foldlM (apply env (calls - 1) fun more => eval (more + 1)) first
  | arguments .. => malformed (.withoutValue "ListExpr".toList)
  | group _ inner => eval 0 inner
  | other _ sort => malformed (.unknownExpression sort)

def evaluateAfter (env : Env) : (calls more : Nat) → Expr → Result
  | 0, _, _ => .error .tooDeep
  -- the calls of the operator that is being applied come first
  | calls + 1, more + 1, e => evaluateAfter env calls more e
  | calls + 1, 0, e => handle env (calls - 1) (fun more => evaluateAfter env calls (more + 1)) e

/-- The value of an expression by so many calls inside each other at most. -/
def evaluate (env : Env) (calls : Nat) (e : Expr) : Result := evaluateAfter env calls 0 e

/-- The value of a whole expression, which it takes one call to begin with. -/
def value (env : Env) (calls : Nat) (e : Expr) : Except RenderFault Value :=
  if calls = 0 then .error .exhausted
  else
    match evaluate env (calls - 1) e with
    | .ok v => .ok v
    | .error (.fault f) => .error f
    | .error .tooDeep => .error (.located .evaluationTooDeep e.start)

end Expr

end Stencil
