import Stencil.Ansi
import Stencil.Decimal.Integer
import Stencil.Text.Lines

/-!
# Source snippets

The lines around a position of the source, with their numbers and a caret under the position.
-/

namespace Stencil

structure Snippet where
  /-- Numbered lines. -/
  lines : List (Nat × Text)
  /-- The number of the line that is marked. -/
  marked : Int
  column : Option Int

namespace Snippet

def around (source : Text) (marked : Int) (context : Int) (column : Option Int) : Snippet :=
  let all := Text.lines source
  let first := (marked - 1 - context).toNat
  let past := (min (all.length : Int) (marked + context)).toNat
  { lines := ((all.zipIdx.take past).drop first).map fun (line, i) => (i + 1, line)
    marked, column }

/-! ## Layout -/

def gutter (color : Bool) : Text := Ansi.Part.margin.paint color "     |".toList

def numbered (color : Bool) (number : Int) (line : Text) (isMarked : Bool) : Text :=
  let marker := if isMarked then '>' else ' '
  Ansi.Part.lineNumber.paint color (marker :: Text.padLeft 3 (Decimal.ofInt number)) ++
    " | ".toList ++ (if isMarked then Ansi.Part.markedLine else .margin).paint color line

def caret (color : Bool) (column : Int) : Text :=
  gutter color ++ ' ' ::
    Ansi.Part.markedLine.paint color (List.replicate (column - 1).toNat ' ' ++ ['^'])

def rows (color : Bool) (s : Snippet) (line : Nat × Text) : List Text :=
  let isMarked := (line.1 : Int) == s.marked
  let row := numbered color line.1 line.2 isMarked
  match s.column with
  | some column => if isMarked then [row, caret color column] else [row]
  | none => [row]

def format (color : Bool) (s : Snippet) : Text :=
  Text.join ['\n'] (gutter color :: s.lines.flatMap (s.rows color) ++ [gutter color])

end Snippet

end Stencil
