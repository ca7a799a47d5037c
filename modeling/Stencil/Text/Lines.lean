import Stencil.Text

/-!
# Lines and positions

A line break is a carriage return with a line feed after it, a carriage return alone, or a line
feed alone. Rows and columns count from one.
-/

namespace Stencil.Text

def isBreak (c : Char) : Bool := c == '\r' || c == '\n'

/-- The lines between the breaks; there is always a last one, which may be empty. -/
def lines : Text → List Text
  | [] => [[]]
  | '\r' :: '\n' :: rest => [] :: lines rest
  | c :: rest =>
    if isBreak c then [] :: lines rest
    else
      match lines rest with
      | line :: more => (c :: line) :: more
      | [] => [[c]]

/-- Goes `count` characters forward from a row and column. In the middle of a carriage return and
line feed it stays at the carriage return. -/
def advance : Nat → Text → Nat → Nat → Nat × Nat
  | 0, _, row, column => (row, column)
  | _ + 1, [], row, column => (row, column)
  | 1, '\r' :: '\n' :: _, row, column => (row, column)
  | count + 2, '\r' :: '\n' :: rest, row, _ => advance count rest (row + 1) 1
  | count + 1, c :: rest, row, column =>
    if isBreak c then advance count rest (row + 1) 1 else advance count rest row (column + 1)

/-- The row and column of an offset; an offset outside the source counts as the nearest one
inside. -/
def position (source : Text) (offset : Int) : Nat × Nat :=
  advance (min offset.toNat source.length) source 1 1

end Stencil.Text
