import Stencil.Block
import Stencil.Expr.Eval

/-!
# Rendering

Blocks write to a scope, one after the other. A loop binds its variable anew for each item and in
the end puts back what the name was bound to before, whether its body failed or not. Each block is
rendered by a call, and so are the blocks inside it.
-/

namespace Stencil

abbrev Progress := Assoc Identity Nat

def Progress.taken (p : Progress) (i : Identity) : Nat := (p.get? i).getD 0

def Progress.drain (p : Progress) : Host.Iteration → List Host × Progress
  | .always items => (items, p)
  | .once i items => (items.drop (p.taken i), p.set i items.length)

structure RenderState where
  scope : Scope
  progress : Progress

structure Page where
  data : Host
  rendering : Rendering

def Page.env (page : Page) (s : RenderState) : Env := ⟨s.scope.locals, page.data, page.rendering⟩

/-- A piece of rendering: it changes the state, and may fail part of the way. -/
abbrev Action := RenderState → Except RenderFault Unit × RenderState

namespace Action

def done : Action := fun s => (.ok (), s)

def fail (f : RenderFault) : Action := fun s => (.error f, s)

def andThen (a b : Action) : Action := fun s =>
  match a s with
  | (.ok _, s) => b s
  | failed => failed

def onScope (f : Scope → Scope) : Action := fun s => (.ok (), { s with scope := f s.scope })

def evaluating (page : Page) (calls : Nat) (e : Expr) (next : Value → Action) : Action := fun s =>
  match e.value (page.env s) calls with
  | .ok v => next v s
  | .error f => (.error f, s)

/-- Runs a loop and afterwards puts its variable back, also when it fails. -/
def shadowing (name : Text) (loop : Action) : Action := fun s =>
  let saved := s.scope.locals.get? name
  let (outcome, s) := loop s
  (outcome, { s with scope := s.scope.restore name saved })

/-! ## Loops -/

def withItem (name : Text) (body : Action) (item : Host) : Action :=
  (onScope (·.bind name item)).andThen body

def forAll (name : Text) (body : Action) : List Host → Action
  | [] => done
  | item :: items => (withItem name body item).andThen (forAll name body items)

/-- Takes the next item of an iterator before each round, so that loops over the same iterator
inside the body go on from there. -/
def forRest (name : Text) (body : Action) (i : Identity) (items : List Host) :
    (fuel : Nat) → Action
  | 0 => done
  | fuel + 1 => fun s =>
    let taken := s.progress.taken i
    match items[taken]? with
    | none => (.ok (), s)
    | some item =>
      ((withItem name body item).andThen (forRest name body i items fuel))
        { s with progress := s.progress.set i (taken + 1) }

def forEach (name : Text) (body : Action) : Host.Iteration → Action
  | .always items => forAll name body items
  | .once i items => forRest name body i items items.length

end Action

def Value.iteration? (v : Value) : Option Host.Iteration :=
  if v.kind = .object then v.object.iteration? else none

open Stencil.Action

mutual

def renderBlock (page : Page) (calls : Nat) : Block → Action
  | .text _ content => onScope (·.write content)
  | .output _ e => evaluating page (calls - 1) e fun v => onScope (·.write v.text)
  | .loop _ binder iterator body =>
    let body := renderBlocks page (calls - 2) body
    evaluating page (calls - 1) iterator fun v =>
      match v.iteration? with
      | none => done
      | some items => shadowing binder.name (forEach binder.name body items)
  | .choice _ arms => renderArms page (calls - 1) arms
  | .other _ sort => fail (.malformed (.unknownBlock sort))

def renderBlocks (page : Page) (calls : Nat) : List Block → Action
  | [] => done
  | b :: bs => (renderBlock page calls b).andThen (renderBlocks page calls bs)

def renderArms (page : Page) (calls : Nat) : List Arm → Action
  | [] => done
  | .mk _ none body :: _ => renderBlocks page (calls - 1) body
  | .mk _ (some test) body :: arms =>
    let body := renderBlocks page (calls - 1) body
    let others := renderArms page calls arms
    evaluating page calls test fun v => if v.boolean then body else others

end

/-- The text of blocks, and how far the iterators have got; a failure leaves no text. -/
def render (page : Page) (calls : Nat) (blocks : List Block) (progress : Progress) :
    Except RenderFault Text × Progress :=
  match renderBlocks page calls blocks ⟨.empty, progress⟩ with
  | (.ok _, s) => (.ok s.scope.output, s.progress)
  | (.error f, s) => (.error f, s.progress)

end Stencil
