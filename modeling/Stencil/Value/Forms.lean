import Stencil.Decimal.Layout
import Stencil.Decimal.Reading

/-!
# Forms of a value

A constant or computed value is known in four forms at once, as text, integer, floating point
number and truth value. Its kind says which of them it was made from.
-/

namespace Stencil

inductive ValueKind
  | string | integer | float | boolean | object
  deriving DecidableEq, Repr, Inhabited

namespace ValueKind

def name : ValueKind → Text
  | string => "String".toList
  | integer => "Integer".toList
  | float => "Float".toList
  | boolean => "Boolean".toList
  | object => "Object".toList

def all : List ValueKind := [string, integer, float, boolean, object]

def isNumeric : ValueKind → Bool
  | integer | float => true
  | _ => false

end ValueKind

structure Forms where
  kind : ValueKind
  text : Text
  integer : Int
  float : Float
  boolean : Bool

namespace Forms

def ofText (t : Text) : Forms :=
  ⟨.string, t, Decimal.readInteger t, Decimal.readFloat t, !t.isEmpty⟩

def ofInteger (n : Int) : Forms :=
  let n := Decimal.wrap n
  ⟨.integer, Decimal.ofInt n, n, Float.ofInt n, n != 0⟩

def ofFloat (x : Float) : Forms :=
  ⟨.float, Decimal.Layout.output.text x, Decimal.truncate x, x, x != 0⟩

def ofBoolean (b : Bool) : Forms :=
  ⟨.boolean, if b then "True".toList else "False".toList, if b then 1 else 0, if b then 1 else 0,
    b⟩

def ofDisplay (t : Text) : Forms := { ofText t with kind := .object }

end Forms

end Stencil
