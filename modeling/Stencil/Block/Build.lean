import Stencil.Block
import Stencil.Clause
import Stencil.Fault

/-!
# Block building

Nests a flat list of clauses into blocks. `elif`, `else`, `endif` and `endfor` end the body being
built and belong to the construct around it; one that no construct claims is an error.
-/

namespace Stencil.Block

def fail {α : Type} (kind : ParseKind) (offset : Nat) : Except ParseFault α :=
  .error (.located kind offset)

abbrev Built := List Block × List Clause

abbrev Builder := List Clause → Except ParseFault Built

def endOf (opening : Clause) (body : List Block) : Nat :=
  (body.getLast?.map stop).getD opening.stop

def arm (nested : Builder) (opening : Clause) (test : Option Expr) (clauses : List Clause) :
    Except ParseFault (Arm × List Clause) := do
  let (body, rest) ← nested clauses
  return (.mk ⟨opening.start, endOf opening body⟩ test body, rest)

def elifArms (nested : Builder) :
    (fuel : Nat) → List Clause → Except ParseFault (List Arm × List Clause)
  | fuel + 1, .elifTest span test :: rest => do
    let (first, rest) ← arm nested (.elifTest span test) (some test) rest
    let (more, rest) ← elifArms nested fuel rest
    return (first :: more, rest)
  | _, clauses => return ([], clauses)

def elseArm (nested : Builder) : List Clause → Except ParseFault (List Arm × List Clause)
  | .otherwise span :: rest => do
    let (last, rest) ← arm nested (.otherwise span) none rest
    return ([last], rest)
  | clauses => return ([], clauses)

def buildChoice (nested : Builder) (span : Span) (test : Expr) (clauses : List Clause) :
    Except ParseFault (Block × List Clause) := do
  let (first, rest) ← arm nested (.ifTest span test) (some test) clauses
  let (middle, rest) ← elifArms nested rest.length rest
  let (last, rest) ← elseArm nested rest
  match rest with
  | .endIf closing :: rest =>
    return (.choice ⟨span.start, closing.stop⟩ (first :: middle ++ last), rest)
  | _ => fail .missingEndIf span.start

def buildLoop (nested : Builder) (span : Span) (binder : Symbol) (iterator : Expr)
    (clauses : List Clause) : Except ParseFault (Block × List Clause) := do
  let (body, rest) ← nested clauses
  match rest with
  | .endFor closing :: rest =>
    return (.loop ⟨span.start, closing.stop⟩ binder iterator body, rest)
  | _ => fail .missingEndFor span.start

def roomFor (nested : Option Builder) (opening : Nat) : Except ParseFault Builder :=
  match nested with
  | some nested => return nested
  | none => fail .nestingTooDeep opening

/-- Blocks up to a clause that ends the body, or to the end of the clauses. -/
def buildFrom (source : Text) (inChoice inLoop : Option Builder) : (fuel : Nat) → Builder
  | fuel + 1, clause :: rest =>
    match clause with
    | .elifTest .. | .otherwise _ | .endIf _ | .endFor _ => return ([], clause :: rest)
    | .text span => do
      let (blocks, rest) ← buildFrom source inChoice inLoop fuel rest
      return (.text span (source.slice span.start span.stop) :: blocks, rest)
    | .output span expression => do
      let (blocks, rest) ← buildFrom source inChoice inLoop fuel rest
      return (.output span expression :: blocks, rest)
    | .ifTest span test => do
      let (block, rest) ← buildChoice (← roomFor inChoice span.start) span test rest
      let (blocks, rest) ← buildFrom source inChoice inLoop fuel rest
      return (block :: blocks, rest)
    | .forEach span binder iterator => do
      let (block, rest) ← buildLoop (← roomFor inLoop span.start) span binder iterator rest
      let (blocks, rest) ← buildFrom source inChoice inLoop fuel rest
      return (block :: blocks, rest)
    | .other span _ => fail .unknownClause span.start
  | _, clauses => return ([], clauses)

/-- A body with room for so many calls, its own among them. Between a body and those nested in it
are two calls for a choice and its arm, and one for a loop. -/
def buildBody (source : Text) : (calls : Nat) → Builder
  | 0, clauses =>
    fail .nestingTooDeep ((clauses.head?.map Clause.start).getD source.length)
  | 1, clauses => buildFrom source none none clauses.length clauses
  | 2, clauses => buildFrom source none (some (buildBody source 0)) clauses.length clauses
  | calls + 3, clauses =>
    buildFrom source (some (buildBody source calls)) (some (buildBody source (calls + 1)))
      clauses.length clauses

def build (source : Text) (calls : Nat) (clauses : List Clause) :
    Except ParseFault (List Block) := do
  let (blocks, rest) ← buildBody source calls clauses
  match rest with
  | [] => return blocks
  | stray :: _ => fail .unknownClause stray.start

end Stencil.Block
