/-!
# Text

A text is the list of its characters, so a column or an offset counts code points.
-/

namespace Stencil

abbrev Text := List Char

namespace Text

def slice (t : Text) (start stop : Nat) : Text :=
  (t.drop start).take (stop - start)

def padLeft (width : Nat) (t : Text) : Text :=
  List.replicate (width - t.length) ' ' ++ t

def join (separator : Text) : List Text → Text
  | [] => []
  | [t] => t
  | t :: ts => t ++ separator ++ join separator ts

end Text

end Stencil
