import Stencil.Expr.Eval
import Stencil.Proofs.Except

/-!
# What operators come to

The operators on values come to primitive values: those of a text, a number or a truth value. Except
for comparisons, they read no more of their operands than the forms.
-/

namespace Stencil

inductive Value.Primitive : Value → Prop
  | text (t : Text) : Primitive (.ofText t)
  | integer (n : Int) : Primitive (.ofInteger n)
  | float (x : Float) : Primitive (.ofFloat x)
  | boolean (b : Bool) : Primitive (.ofBoolean b)

namespace Expr

/-! ## Results with a property -/

def Gives {α : Type} (P : α → Prop) (x : Except Stop α) : Prop := ∀ a, x = .ok a → P a

section
variable {α β : Type} {P : β → Prop}

theorem gives_ok {b : β} (h : P b) : Gives P (.ok b) := fun _ heq => Except.ok.inj heq ▸ h

theorem gives_error (stop : Stop) : Gives P (.error stop) := nofun

theorem Gives.mono {Q : β → Prop} {x : Except Stop β} (h : Gives P x) (hPQ : ∀ b, P b → Q b) :
    Gives Q x :=
  fun b hb => hPQ b (h b hb)

theorem gives_bind {x : Except Stop α} {g : α → Except Stop β} (h : ∀ a, Gives P (g a)) :
    Gives P (x >>= g) := by
  intro b hb
  obtain ⟨a, -, ha⟩ := bind_eq_ok.mp hb
  exact h a b ha

end

/-! ## Operators on values -/

open Value (Primitive)

/-- A plus gives a floating point number back, and otherwise the value is made anew. -/
theorem gives_applyUnary (op : UnaryOp) (offset : Nat) (v : Value) :
    Gives (fun w => w.Primitive ∨ v.kind = .float ∧ w = ⟨.ofFloat v.float, v.object⟩)
      (applyUnary op offset v) := by
  unfold applyUnary
  split
  · exact gives_ok (.inl (.boolean _))
  · exact gives_ok (.inl (.integer _))
  · exact gives_ok (.inl (.integer _))
  · rename_i hkind
    exact gives_ok (.inr ⟨hkind, rfl⟩)
  · exact gives_ok (.inl (.float _))
  · exact gives_error _

theorem primitive_onNumbers (f : Int → Int → Int) (g : Float → Float → Float) (a b : Value) :
    (onNumbers f g a b).Primitive := by
  unfold onNumbers
  split
  · exact .integer _
  · exact .float _

theorem primitive_onIntegers (divide : Int → Int → Int) (offset : Nat) (a b : Value) :
    Gives Primitive (onIntegers divide offset a b) := by
  unfold onIntegers
  split
  · exact gives_error _
  split
  · exact gives_error _
  · exact gives_ok (.integer _)

theorem primitive_applyArithmetic (op : Arithmetic) (offset : Nat) (a b : Value) :
    Gives Primitive (applyArithmetic op offset a b) := by
  cases op <;> simp only [applyArithmetic]
  case add =>
    split
    · exact gives_ok (.text _)
    split
    · exact gives_ok (primitive_onNumbers _ _ a b)
    · exact gives_error _
  case subtract | multiply =>
    split
    · exact gives_ok (primitive_onNumbers _ _ a b)
    · exact gives_error _
  case divide =>
    split
    · exact gives_error _
    split
    · exact gives_error _
    · exact gives_ok (.float _)
  case quotient | remainder => exact primitive_onIntegers _ offset a b

theorem primitive_applyComparison (op : Comparison) (offset : Nat) (a b : Value) :
    Gives Primitive (applyComparison op offset a b) := by
  unfold applyComparison
  split
  · exact gives_ok (.boolean _)
  · exact gives_error _

/-! ## What they read -/

section
variable (f g : Forms) {x x' y y' : Host}

theorem applyArithmetic_forms (op : Arithmetic) (offset : Nat) (x x' y y' : Host) :
    applyArithmetic op offset ⟨f, x⟩ ⟨g, y⟩ = applyArithmetic op offset ⟨f, x'⟩ ⟨g, y'⟩ := rfl

/-- A comparison also reads whether the operands are one object. -/
theorem applyComparison_forms (op : Comparison) (offset : Nat)
    (h : x.identical y = x'.identical y') :
    applyComparison op offset ⟨f, x⟩ ⟨g, y⟩ = applyComparison op offset ⟨f, x'⟩ ⟨g, y'⟩ := by
  simp only [applyComparison, compare?, h]
  rfl

end

end Expr

end Stencil
