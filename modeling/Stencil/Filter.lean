import Stencil.Decimal.Integer
import Stencil.Host
import Stencil.Text.Replace

/-!
# Filters

A filter takes the piped value and the arguments of its call as host values. A failing filter says
why, and the renderer reports it at the call. Texts and bytes are the only values that replace; what
a method of that name would do is up to the host and left out, so that an object with one counts as
an object without it.
-/

namespace Stencil

inductive FilterFault
  /-- Parameters that got no argument. -/
  | missing (parameters : List Text)
  | tooMany (given : Nat)
  | noReplace (type : Text)
  | notText (position : Nat) (type : Text)
  | notBytes (type : Text)
  | notCallable (type : Text)
  | getterFailed
  deriving DecidableEq, Repr

namespace FilterFault

def enumerate : List Text → Text
  | [] => []
  | [a] => a
  | [a, b] => a ++ " and ".toList ++ b
  | a :: b :: more =>
    let names := a :: b :: more
    Text.join ", ".toList names.dropLast ++ ", and ".toList ++ names.getLastD []

def category : FilterFault → Text
  | noReplace _ => "AttributeError".toList
  | getterFailed => "RuntimeError".toList
  | _ => "TypeError".toList

def message : FilterFault → Text
  | missing parameters =>
    "replace() missing ".toList ++ Decimal.ofNat parameters.length ++
      " required positional argument".toList ++
      (if parameters.length = 1 then ": ".toList else "s: ".toList) ++
      enumerate (parameters.map fun p => '\'' :: p ++ ['\''])
  | tooMany given =>
    "replace() takes 3 positional arguments but ".toList ++ Decimal.ofNat given ++
      " were given".toList
  | noReplace type => '\'' :: type ++ "' object has no attribute 'replace'".toList
  | notText position type =>
    "replace() argument ".toList ++ Decimal.ofNat position ++ " must be str, not ".toList ++ type
  | notBytes type => "a bytes-like object is required, not '".toList ++ type ++ ['\'']
  | notCallable type => '\'' :: type ++ "' object is not callable".toList
  | getterFailed => "boom".toList

end FilterFault

abbrev Filter := List Host → Except FilterFault Host

namespace Filter

/-- A text argument at a position; null is called by its value here. -/
def textArgument (position : Nat) : Host → Except FilterFault Text
  | .text t => .ok t
  | .null => .error (.notText position "None".toList)
  | h => .error (.notText position h.typeName)

def bytesArgument : Host → Except FilterFault (List UInt8)
  | .bytes _ content => .ok content
  | h => .error (.notBytes h.typeName)

/-- Replaces in a text or in bytes; bytes without anything to replace stay the same object. -/
def replaceIn (value old new : Host) : Except FilterFault Host :=
  match value with
  | .text t => do
    let old ← textArgument 1 old
    let new ← textArgument 2 new
    return .text (Text.replace old new t)
  | .bytes _ content => do
    let old ← bytesArgument old
    let new ← bytesArgument new
    if Text.replaces old new content then
      return .bytes .fresh (Text.replace old new content)
    else return value
  | .object _ o =>
    -- getters are asked for the method; a method itself would be host code
    let name := "replace".toList
    if o.raises.contains name then .error .getterFailed
    else if o.watches.contains name then .error (.notCallable "str".toList)
    else
      match o.attributes.lookup name with
      | some h => .error (.notCallable h.typeName)
      | none => .error (.noReplace value.typeName)
  | _ => .error (.noReplace value.typeName)

def replace : Filter
  | [value, old, new] => replaceIn value old new
  | [_, _] => .error (.missing ["new".toList])
  | [_] => .error (.missing ["old".toList, "new".toList])
  | [] => .error (.missing ["value".toList, "old".toList, "new".toList])
  | arguments => .error (.tooMany arguments.length)

def named? (name : Text) : Option Filter :=
  if name = "replace".toList then some replace else none

end Filter

end Stencil
