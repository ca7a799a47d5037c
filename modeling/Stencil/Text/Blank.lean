import Stencil.Text

/-!
# Blank characters

The characters that separate tokens and that `trim` removes from the ends of a text.
-/

namespace Stencil.Text

/-- Tab to carriage return, the four information separators, the space characters of Unicode and
its line and paragraph separators. -/
def isBlank (c : Char) : Bool :=
  let n := c.toNat
  (0x09 ≤ n && n ≤ 0x0d) || (0x1c ≤ n && n ≤ 0x20) || n == 0x85 || n == 0xa0 || n == 0x1680 ||
    (0x2000 ≤ n && n ≤ 0x200a) || n == 0x2028 || n == 0x2029 || n == 0x202f || n == 0x205f ||
    n == 0x3000

def trim (t : Text) : Text :=
  ((t.dropWhile isBlank).reverse.dropWhile isBlank).reverse

def skipBlank (source : Text) (offset : Nat) : Nat :=
  offset + ((source.drop offset).takeWhile isBlank).length

end Stencil.Text
