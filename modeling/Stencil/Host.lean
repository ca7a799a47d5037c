import Stencil.Text

/-!
# Host values

The data that a template is rendered with: plain values, containers, and host objects with
attributes of their own. Of the code of a host object there is what it answers: attributes, getters
that fail or name the template, a text, and items. Methods have names only, and data do not change
while a template is rendered, but for the iterators that deliver their items.
-/

namespace Stencil

/-- Which object a host value is. Two values are one object when they carry the same number; a
fresh object is none that was seen before. -/
inductive Identity
  | known (number : Nat)
  | fresh
  deriving DecidableEq, Repr, Inhabited

def Identity.same : Identity → Identity → Bool
  | known m, known n => m == n
  | _, _ => false

inductive Content (α : Type)
  | plain
  /-- Can only be looped over, each time from the start. -/
  | iterable (items : List α)
  /-- Can be looped over, but delivers each item once. -/
  | iterator (items : List α)
  | sequence (items : List α)
  /-- Found by key; every lookup of a broken mapping fails. -/
  | mapping (entries : List (α × α)) (broken : Bool)

structure HostObject (α : Type) where
  content : Content α
  /-- The text of the object, also inside containers. -/
  display : Text
  attributes : List (Text × α)
  methods : List Text
  /-- Attributes whose getter fails. -/
  raises : List Text
  /-- Attributes that tell which template is being rendered. -/
  watches : List Text

inductive Host
  | null
  | boolean (b : Bool)
  | integer (n : Int)
  | float (identity : Identity) (x : Float)
  | text (t : Text)
  | list (identity : Identity) (items : List Host)
  | tuple (identity : Identity) (items : List Host)
  | set (identity : Identity) (items : List Host)
  | dict (identity : Identity) (entries : List (Host × Host))
  | bytes (identity : Identity) (content : List UInt8)
  | range (identity : Identity) (start stop step : Int)
  | object (identity : Identity) (o : HostObject Host)

instance : Inhabited Host := ⟨.null⟩

namespace Host

def identity? : Host → Option Identity
  | null | boolean _ | integer _ | text _ => none
  | float i _ | list i _ | tuple i _ | set i _ | dict i _ | bytes i _ | range i .. | object i _ =>
    some i

def identical : Host → Host → Bool
  | null, null => true
  | boolean a, boolean b => a == b
  | a, b =>
    match a.identity?, b.identity? with
    | some i, some j => i.same j
    | _, _ => false

def typeName : Host → Text
  | null => "NoneType".toList
  | boolean _ => "bool".toList
  | integer _ => "int".toList
  | float .. => "float".toList
  | text _ => "str".toList
  | list .. => "list".toList
  | tuple .. => "tuple".toList
  | set .. => "set".toList
  | dict .. => "dict".toList
  | bytes .. => "bytes".toList
  | range .. => "range".toList
  | object _ o =>
    match o.content with
    | .plain => "HostObject".toList
    | .iterable _ => "HostIterable".toList
    | .iterator _ => "HostIterator".toList
    | .sequence _ => "HostSequence".toList
    | .mapping .. => "HostMapping".toList

end Host

end Stencil
