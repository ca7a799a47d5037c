import Stencil.Text.Blank

/-!
# Integers in decimal

Integers of 64 bits, their decimal text, and the reading of integer text from outside, which
counts as zero where it is not an integer.
-/

namespace Stencil.Decimal

/-! ## The 64-bit range -/

def least : Int := -Nat.pow 2 63

def greatest : Int := Nat.pow 2 63 - 1

/-- Integers past the range come back in at the other end. -/
def wrap (n : Int) : Int :=
  if least ≤ n ∧ n ≤ greatest then n else (n - least) % Nat.pow 2 64 + least

/-! ## Division -/

/-- Quotient and remainder, from the quotient of the absolute values. -/
def truncatedDivmod (dividend divisor : Int) : Int × Int :=
  let size : Int := (dividend.natAbs / divisor.natAbs : Nat)
  let quotient := if decide (dividend < 0) != decide (divisor < 0) then -size else size
  (quotient, dividend - quotient * divisor)

/-! ## Text -/

def ofNat (n : Nat) : Text := Nat.toDigits 10 n

def ofInt : Int → Text
  | .ofNat n => ofNat n
  | .negSucc n => '-' :: ofNat (n + 1)

def toNat (digits : Text) : Nat := Nat.ofDigitChars 10 digits 0

def unsign : Text → Bool × Text
  | '-' :: t => (true, t)
  | '+' :: t => (false, t)
  | t => (false, t)

def isDigits (t : Text) : Bool := !t.isEmpty && t.all Char.isDigit

/-- Integers of more digits than this are converted neither to text nor from it. -/
def longestNumeral : Nat := 4300

/-- Longer texts are not read as integers, whatever their value. -/
def longestRead : Nat := 40

/-- The integer that a text shows, with blanks around it and a sign allowed; zero if it shows none
or one outside the 64-bit range. -/
def readInteger (text : Text) : Int :=
  let t := Text.trim text
  let (negative, digits) := unsign t
  if t.length ≤ longestRead && isDigits digits then
    let n : Int := if negative then -toNat digits else toNat digits
    if least ≤ n ∧ n ≤ greatest then n else 0
  else 0

end Stencil.Decimal
