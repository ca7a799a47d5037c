import Stencil.Host.Display
import Stencil.Value.Forms

/-!
# Values

What expressions evaluate to: the forms of a value together with the host value that stands for
it in lookups, filters and loops.
-/

namespace Stencil

structure Value extends Forms where
  object : Host

namespace Value

def ofText (t : Text) : Value := ⟨.ofText t, .text t⟩

def ofInteger (n : Int) : Value := ⟨.ofInteger n, .integer (Decimal.wrap n)⟩

def ofFloat (x : Float) : Value := ⟨.ofFloat x, .float .fresh x⟩

def ofBoolean (b : Bool) : Value := ⟨.ofBoolean b, .boolean b⟩

/-- The value of anything as an object; null has no text. -/
def ofObject (calls : Nat) (h : Host) : Except Host.DisplayFault Value :=
  match h with
  | .null => .ok ⟨.ofDisplay [], h⟩
  | _ => do return ⟨.ofDisplay (← h.display calls), h⟩

def ofHost (calls : Nat) (h : Host) : Except Host.DisplayFault Value :=
  match h with
  | .text t => .ok (.ofText t)
  | .boolean b => .ok (.ofBoolean b)
  | .integer n => .ok (.ofInteger n)
  | .float _ x => .ok ⟨.ofFloat x, h⟩
  | _ => ofObject (calls - 2) h

def empty : Value := .ofText []

def ofHost? (calls : Nat) : Option Host → Except Host.DisplayFault Value
  | some h => ofHost calls h
  | none => .ok empty

end Value

end Stencil
