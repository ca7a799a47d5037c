import Stencil.Decimal.Integer

/-!
# Reading decimals

From the text of a decimal number to the nearest floating point number.
-/

namespace Stencil.Decimal

/-- A number as written: `mantissa * 10 ^ exponent` with its sign. -/
structure Numeral where
  negative : Bool
  mantissa : Nat
  exponent : Int
  deriving DecidableEq, Repr

def readExponent? : Text → Option Int
  | [] => some 0
  | c :: t =>
    let (negative, digits) := unsign t
    if (c == 'e' || c == 'E') && isDigits digits then
      some (if negative then -toNat digits else toNat digits)
    else none

def readNumeral? (t : Text) : Option Numeral :=
  let (negative, t) := unsign t
  let whole := t.takeWhile Char.isDigit
  let rest := t.dropWhile Char.isDigit
  let (fraction, rest) :=
    match rest with
    | '.' :: more => (more.takeWhile Char.isDigit, more.dropWhile Char.isDigit)
    | _ => ([], rest)
  if whole.isEmpty && fraction.isEmpty then none
  else (readExponent? rest).map fun exponent =>
    ⟨negative, toNat (whole ++ fraction), exponent - fraction.length⟩

/-- Powers of ten beyond this one, up or down, are out of reach of the floating point numbers. -/
def reach : Int := 400

def nearestFloat (mantissa : Nat) (exponent : Int) : Float :=
  let size : Int := (ofNat mantissa).length + exponent
  if mantissa = 0 ∨ size < -reach then 0
  else if reach < size then 1 / 0
  else Float.ofScientific mantissa (exponent < 0) exponent.natAbs

def Numeral.toFloat (n : Numeral) : Float :=
  let x := nearestFloat n.mantissa n.exponent
  if n.negative then -x else x

/-- The floating point number that a text shows, with blanks around it allowed; zero if it shows
none. -/
def readFloat (text : Text) : Float :=
  match readNumeral? (Text.trim text) with
  | some n => n.toFloat
  | none => 0

end Stencil.Decimal
