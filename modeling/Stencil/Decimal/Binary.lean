/-!
# Floating point numbers as exact binary fractions

A finite number is `mantissa * 2 ^ exponent` with its sign, so comparisons and roundings that have
to be exact are made on natural numbers.
-/

namespace Stencil.Decimal

inductive Binary
  | nan
  | infinite (negative : Bool)
  | finite (negative : Bool) (mantissa : Nat) (exponent : Int)
  deriving DecidableEq, Repr

namespace Binary

def ofBits (bits : Nat) : Binary :=
  let negative := bits / Nat.pow 2 63 % 2 == 1
  let field : Nat := bits / Nat.pow 2 52 % Nat.pow 2 11
  let fraction : Nat := bits % Nat.pow 2 52
  if field = 2047 then
    if fraction = 0 then infinite negative else nan
  else if field = 0 then finite negative fraction (-1074)
  else finite negative (fraction + Nat.pow 2 52) ((field : Int) - 1075)

def ofFloat (x : Float) : Binary := ofBits x.toBits.toNat

/-- The integer part, rounded toward zero; zero for what is not finite. -/
def truncate : Binary → Int
  | finite negative mantissa exponent =>
    let n : Int := (mantissa * Nat.pow 2 exponent.toNat / Nat.pow 2 (-exponent).toNat : Nat)
    if negative then -n else n
  | _ => 0

def isWhole : Binary → Bool
  | finite _ mantissa exponent => mantissa % Nat.pow 2 (-exponent).toNat == 0
  | _ => false

end Binary

def truncate (x : Float) : Int := (Binary.ofFloat x).truncate

end Stencil.Decimal
