import Stencil.Decimal.Integer
import Stencil.Decimal.Shortest

/-!
# Layout of floating point text

How the shortest decimal of a floating point number is written down.
-/

namespace Stencil.Decimal

/-- The choices of a layout. Numbers from `10 ^ leastPlain` up to `10 ^ pastPlain` are written
without an exponent. -/
structure Layout where
  leastPlain : Int
  pastPlain : Int
  exponentWidth : Nat
  /-- Whether whole numbers end in `.0`. -/
  keepsPoint : Bool
  infinity : Text
  nan : Text

def Layout.display : Layout := ⟨-4, 16, 2, true, "inf".toList, "nan".toList⟩

def Layout.output : Layout := { Layout.display with keepsPoint := false }

def significant (s : Scaled) : Text × Int :=
  let digits := Nat.toDigits 10 s.digits
  ((digits.reverse.dropWhile (· == '0')).reverse, digits.length + s.exponent)

namespace Layout

def zeros (n : Int) : Text := List.replicate n.toNat '0'

def plain (layout : Layout) (digits : Text) (point : Int) : Text :=
  if point ≤ 0 then '0' :: '.' :: zeros (-point) ++ digits
  else if digits.length ≤ point then
    digits ++ zeros (point - digits.length) ++ (if layout.keepsPoint then ".0".toList else [])
  else digits.take point.toNat ++ '.' :: digits.drop point.toNat

def scientific (layout : Layout) (digits : Text) (exponent : Int) : Text :=
  let fraction := digits.drop 1
  let size := ofNat exponent.natAbs
  digits.take 1 ++ (if fraction.isEmpty then [] else '.' :: fraction) ++
    'e' :: (if exponent < 0 then '-' else '+') :: zeros (layout.exponentWidth - size.length) ++ size

def magnitude (layout : Layout) (mantissa : Nat) (exponent : Int) : Text :=
  if mantissa = 0 then if layout.keepsPoint then "0.0".toList else "0".toList
  else
    let (digits, point) := significant (shortest mantissa exponent)
    if layout.leastPlain ≤ point - 1 ∧ point - 1 < layout.pastPlain then layout.plain digits point
    else layout.scientific digits (point - 1)

def sign (negative : Bool) (t : Text) : Text := if negative then '-' :: t else t

def text (layout : Layout) (x : Float) : Text :=
  match Binary.ofFloat x with
  | .nan => layout.nan
  | .infinite negative => sign negative layout.infinity
  | .finite negative mantissa exponent => sign negative (layout.magnitude mantissa exponent)

end Layout

end Stencil.Decimal
