import Stencil.Fault
import Stencil.Filter
import Stencil.Snippet

/-!
# Diagnostics

An error of a template with its place in the source, and the two ways to show it: as a message
without colours, and as a compact report for a terminal.
-/

namespace Stencil

inductive ErrorKind
  | parse (kind : ParseKind)
  | render (kind : RenderKind)
  deriving DecidableEq, Repr, Inhabited

def ErrorKind.name : ErrorKind → Text
  | parse kind => kind.name
  | render kind => kind.name

structure Cause where
  category : Text
  text : Text
  deriving DecidableEq, Repr, Inhabited

def FilterFault.cause (f : FilterFault) : Cause := ⟨f.category, f.message⟩

structure Diagnostic where
  kind : ErrorKind
  /-- It may lie outside the source; rows and columns are those of the nearest place inside. -/
  offset : Int
  source : Text
  /-- The name of the template. -/
  template : Option Text
  cause : Option Cause
  deriving DecidableEq, Repr

namespace Diagnostic

def row (d : Diagnostic) : Nat := (Text.position d.source d.offset).1

def column (d : Diagnostic) : Nat := (Text.position d.source d.offset).2

def position (d : Diagnostic) : Text :=
  '[' :: Decimal.ofNat d.row ++ ',' :: Decimal.ofNat d.column ++ "](@".toList ++
    Decimal.ofInt d.offset ++ [')']

def shownName (template : Option Text) : Text :=
  match template with
  | none | some [] => "<template>".toList
  | some name => name

def location (d : Diagnostic) : Text :=
  shownName d.template ++ ':' :: Decimal.ofNat d.row ++ ':' :: Decimal.ofNat d.column

def snippet (d : Diagnostic) : Snippet := .around d.source d.row 2 (some d.column)

def causeLine (d : Diagnostic) : Text :=
  match d.cause with
  | none => []
  | some c => "\n  Caused by: ".toList ++ c.category ++ ": ".toList ++ c.text

/-- The message; the escape sequences of the snippet are removed, also those of the source. -/
def message (color : Bool) (d : Diagnostic) : Text :=
  d.position ++ ": ".toList ++ d.kind.name ++ "\n  --> ".toList ++ d.location ++ '\n' ::
    Ansi.strip (d.snippet.format color) ++ d.causeLine

def compact (color : Bool) (d : Diagnostic) : Text :=
  Text.join ['\n']
    [Ansi.Part.kind.paint color d.kind.name ++ ": ".toList ++ d.position,
      "  --> ".toList ++ Ansi.Part.location.paint color d.location,
      d.snippet.format color]

end Diagnostic

end Stencil
