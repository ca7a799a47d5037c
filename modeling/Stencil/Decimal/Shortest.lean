import Stencil.Decimal.Binary

/-!
# Shortest decimals

The decimal with the fewest digits among those that round to a given binary fraction, and of
these the nearest one.
-/

namespace Stencil.Decimal

/-- A positive decimal: `digits * 10 ^ exponent`. -/
structure Scaled where
  digits : Nat
  exponent : Int
  deriving DecidableEq, Repr

/-- The numbers that round to a binary fraction, in quarters of its last place: from `low` to `high`
around `centre`, all times `2 ^ exponent`, with the ends when `closed`. -/
structure Interval where
  low : Nat
  centre : Nat
  high : Nat
  exponent : Int
  closed : Bool
  deriving DecidableEq, Repr

/-- Below a power of two the neighbour is only half as far away; ties go to the even mantissa. -/
def Interval.around (mantissa : Nat) (exponent : Int) : Interval where
  low := if mantissa = Nat.pow 2 52 ∧ -1074 < exponent then 4 * mantissa - 1 else 4 * mantissa - 2
  centre := 4 * mantissa
  high := 4 * mantissa + 2
  exponent := exponent - 2
  closed := mantissa % 2 == 0

namespace Interval

/-- The factors `(up, down)` with `x * 2 ^ exponent / 10 ^ place = x * up / down`. -/
def factors (i : Interval) (place : Int) : Nat × Nat :=
  (Nat.pow 2 i.exponent.toNat * Nat.pow 10 (-place).toNat,
    Nat.pow 2 (-i.exponent).toNat * Nat.pow 10 place.toNat)

def contains (i : Interval) (place : Int) (digits : Nat) : Bool :=
  let (up, down) := i.factors place
  let x := digits * down
  if i.closed then i.low * up ≤ x && x ≤ i.high * up else i.low * up < x && x < i.high * up

/-- The multiple of `10 ^ place` in the interval that is nearest to its centre, the even one of
two; it is among the centre's two neighbours. -/
def nearest? (i : Interval) (place : Int) : Option Nat :=
  let (up, down) := i.factors place
  let floor := i.centre * up / down
  let below := i.centre * up - floor * down
  let above := (floor + 1) * down - i.centre * up
  match i.contains place floor, i.contains place (floor + 1) with
  | true, true =>
    if below < above || (below == above && floor % 2 == 0) then some floor else some (floor + 1)
  | true, false => some floor
  | false, true => some (floor + 1)
  | false, false => none

def isBelow (i : Interval) (place : Int) : Bool :=
  let (up, down) := i.factors place
  i.centre * up < down

/-- The `e` with `10 ^ (e - 1) ≤ centre < 10 ^ e`; the binary logarithm, times 1233 / 4096 for the
decimal logarithm of two, leaves three candidates. -/
def magnitude (i : Interval) : Int :=
  let least := ((i.centre.log2 : Int) + i.exponent) * 1233 / 4096
  if i.isBelow least then least else if i.isBelow (least + 1) then least + 1 else least + 2

def search (i : Interval) : (tries : Nat) → (place : Int) → Scaled
  | 0, _ => ⟨i.centre, i.exponent⟩
  | tries + 1, place =>
    match i.nearest? place with
    | some digits => ⟨digits, place⟩
    | none => i.search tries (place - 1)

end Interval

/-- The shortest decimal of a positive binary fraction; seventeen digits are always enough. -/
def shortest (mantissa : Nat) (exponent : Int) : Scaled :=
  let i := Interval.around mantissa exponent
  i.search 17 (i.magnitude - 1)

end Stencil.Decimal
