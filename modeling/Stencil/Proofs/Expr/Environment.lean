import Stencil.Expr.Eval

/-!
# What evaluation reads

The value of an expression depends on the bindings only through what its names are bound to.
-/

namespace Stencil

def Env.host? (env : Env) (name : Text) : Option Host :=
  (env.locals.get? name).or (env.data.member? env.rendering name)

theorem Env.resolve_eq (env : Env) (calls : Nat) (name : Text) :
    env.resolve calls name = Value.ofHost? calls (env.host? name) := by
  unfold resolve host?
  cases env.locals.get? name <;> rfl

def Bindings.Same (a b : Bindings) : Prop := ∀ name, a.get? name = b.get? name

namespace Bindings.Same

theorem refl (a : Bindings) : a.Same a := fun _ => rfl

end Bindings.Same

namespace Expr

variable {a b : Bindings} {data : Host} {rendering : Rendering}

theorem resolve_congr (h : a.Same b) (calls : Nat) (name : Text) :
    (Env.mk a data rendering).resolve calls name =
      (Env.mk b data rendering).resolve calls name := by
  simp only [Env.resolve, h name]

theorem handle_congr (h : a.Same b) (calls : Nat) (eval : Nat → Expr → Result) :
    handle ⟨a, data, rendering⟩ calls eval = handle ⟨b, data, rendering⟩ calls eval := by
  funext e
  cases e with
  | symbol s name => simp only [handle, resolve_congr h]
  | _ => rfl

theorem evaluateAfter_congr (h : a.Same b) (calls : Nat) :
    evaluateAfter ⟨a, data, rendering⟩ calls = evaluateAfter ⟨b, data, rendering⟩ calls := by
  induction calls with
  | zero => rfl
  | succ calls ih =>
    funext more e
    cases more with
    | zero => simp only [evaluateAfter, ih, handle_congr h]
    | succ more => simp only [evaluateAfter, ih]

theorem value_congr (h : a.Same b) (calls : Nat) (e : Expr) :
    e.value ⟨a, data, rendering⟩ calls = e.value ⟨b, data, rendering⟩ calls := by
  simp only [value, evaluate, evaluateAfter_congr h]

end Expr

end Stencil
