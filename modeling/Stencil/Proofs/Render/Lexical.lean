import Stencil.Render

/-!
# Lexical meaning

What blocks come to in an environment that is passed down and never changed. A loop gives its body
the environment extended by one binding; nothing has to be put back.
-/

namespace Stencil

/-- How a piece of rendering ends, the pieces of text that it writes, in order, and how far the
iterators have got after it. -/
structure Outcome where
  result : Except RenderFault Unit
  chunks : List Text
  progress : Progress

abbrev Meaning := Progress → Outcome

namespace Meaning

def done : Meaning := fun p => ⟨.ok (), [], p⟩

def fail (f : RenderFault) : Meaning := fun p => ⟨.error f, [], p⟩

def write (t : Text) : Meaning := fun p => ⟨.ok (), [t], p⟩

def andThen (a b : Meaning) : Meaning := fun p =>
  let first := a p
  match first.result with
  | .error _ => first
  | .ok _ =>
    let second := b first.progress
    ⟨second.result, first.chunks ++ second.chunks, second.progress⟩

theorem andThen_ok {a b : Meaning} {p : Progress} (h : (a p).result = .ok ()) :
    a.andThen b p = ⟨(b (a p).progress).result, (a p).chunks ++ (b (a p).progress).chunks,
      (b (a p).progress).progress⟩ := by
  simp only [andThen, h]

theorem andThen_error {a b : Meaning} {p : Progress} {f : RenderFault}
    (h : (a p).result = .error f) : a.andThen b p = a p := by
  simp only [andThen, h]

def given (v : Except RenderFault Value) (next : Value → Meaning) : Meaning :=
  match v with
  | .ok v => next v
  | .error f => fail f

/-! ## Loops -/

def forAll (body : Host → Meaning) : List Host → Meaning
  | [] => done
  | item :: items => (body item).andThen (forAll body items)

/-- The next item is taken before each round; every round takes one, so there are at most as many
rounds as items. -/
def forRest (body : Host → Meaning) (i : Identity) (items : List Host) : (rounds : Nat) → Meaning
  | 0 => done
  | rounds + 1 => fun p =>
    let taken := p.taken i
    match items[taken]? with
    | none => done p
    | some item => (body item).andThen (forRest body i items rounds) (p.set i (taken + 1))

def forEach (body : Host → Meaning) : Host.Iteration → Meaning
  | .always items => forAll body items
  | .once i items => forRest body i items items.length

end Meaning

theorem iteration_object {v : Value} {items : Host.Iteration} (h : v.iteration? = some items) :
    v.object.iteration? = some items := by
  unfold Value.iteration? at h
  split at h
  · exact h
  · cases h

def Page.within (page : Page) (locals : Bindings) : Env := ⟨locals, page.data, page.rendering⟩

theorem resolve_within_set (page : Page) (env : Bindings) (binder name : Text) (item : Host)
    (calls : Nat) : (page.within (env.set binder item)).resolve calls name =
      if name = binder then Value.ofHost calls item else (page.within env).resolve calls name := by
  by_cases h : name = binder <;> simp [Env.resolve, Page.within, h]

namespace Lexical

open Meaning

mutual

def block (page : Page) (calls : Nat) : Block → Bindings → Meaning
  | .text _ content, _ => write content
  | .output _ e, env => given (e.value (page.within env) (calls - 1)) fun v => write v.text
  | .loop _ binder iterator body, env =>
    given (iterator.value (page.within env) (calls - 1)) fun v =>
      match v.iteration? with
      | none => done
      | some items =>
        forEach (fun item => blocks page (calls - 2) body (env.set binder.name item)) items
  | .choice _ arms, env => firstArm page (calls - 1) arms env
  | .other _ sort, _ => fail (.malformed (.unknownBlock sort))

def blocks (page : Page) (calls : Nat) : List Block → Bindings → Meaning
  | [], _ => done
  | b :: bs, env => (block page calls b env).andThen (blocks page calls bs env)

def firstArm (page : Page) (calls : Nat) : List Arm → Bindings → Meaning
  | [], _ => done
  | .mk _ none body :: _, env => blocks page (calls - 1) body env
  | .mk _ (some test) body :: arms, env =>
    given (test.value (page.within env) calls) fun v =>
      if v.boolean then blocks page (calls - 1) body env else firstArm page calls arms env

end

end Lexical

end Stencil
