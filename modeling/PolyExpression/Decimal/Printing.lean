import PolyExpression.Decimal.Numeral
import PolyExpression.Number

/-!
Floats as decimals, positional, never with an exponent, and with their sign even when every digit is zero. With
a fixed number of places the exact binary value is rounded, a half going to the even neighbour. The shortest
decimal is the one with the fewest digits that reads back to the same float: all reals strictly between the
midpoints to the two neighbouring floats round to the float, and so do the midpoints if its mantissa is even, so
the coarsest power of ten with a multiple in that interval gives the fewest digits; of two multiples the nearer
one is taken, the larger if they are equally near.
-/

namespace PolyExpression.Decimal

/-! ### A fixed number of places -/

/-- The magnitude `mantissa * 2 ^ exponent` in units of `10 ^ (-places)`, rounded. -/
def scaledMagnitude (places mantissa : Nat) (exponent : Int) : Nat :=
  let exact := Binary64.fraction mantissa exponent
  roundEven (exact.1 * Nat.pow 10 places) exact.2

def signed (negative : Bool) (magnitude : String) : String :=
  if negative then "-" ++ magnitude else magnitude

/-- `x` with exactly `places` digits behind the point. -/
def fixed (places : Nat) (x : Float) : String :=
  match Binary64.ofFloat x with
  | .nan => "NaN"
  | .infinite negative => signed negative "inf"
  | .finite negative mantissa exponent =>
      signed negative (String.ofList (withPoint places (scaledMagnitude places mantissa exponent)))

/-! ### The fewest digits -/

/-- The interval of reals that round to a float, with its value, over one common denominator. -/
structure RoundingInterval where
  lower : Nat
  value : Nat
  upper : Nat
  denominator : Nat
  closed : Bool

namespace RoundingInterval

/-- The interval of `mantissa * 2 ^ exponent`. Below a power of two the next float is half as far. -/
def ofFinite (mantissa : Nat) (exponent : Int) : RoundingInterval :=
  let narrow := mantissa = 1 <<< Binary64.storedBits ∧ Binary64.leastExponent < exponent
  let below := if narrow then 4 * mantissa - 1 else 4 * mantissa - 2
  let value := Binary64.fraction (4 * mantissa) (exponent - 2)
  { lower := (Binary64.fraction below (exponent - 2)).1
    value := value.1
    upper := (Binary64.fraction (4 * mantissa + 2) (exponent - 2)).1
    denominator := value.2
    closed := mantissa % 2 == 0 }

/-- Whether `point / scale`, given over the interval's denominator, rounds to the float. -/
def contains (interval : RoundingInterval) (point scale : Nat) : Bool :=
  if interval.closed then
    interval.lower * scale ≤ point && point ≤ interval.upper * scale
  else
    interval.lower * scale < point && point < interval.upper * scale

/-- The multiple of `10 ^ power` in the interval that is nearest to the value, as its factor. Halfway
between two multiples the larger one is taken. -/
def multiple? (interval : RoundingInterval) (power : Int) : Option Nat :=
  let step := interval.denominator * Nat.pow 10 power.toNat
  let scale := Nat.pow 10 (-power).toNat
  let target := interval.value * scale
  let low := target / step
  let high := low + 1
  match interval.contains (low * step) scale, interval.contains (high * step) scale with
  | true, true => if target - low * step < high * step - target then some low else some high
  | true, false => some low
  | false, true => some high
  | false, false => none

/-- The coarsest power of ten with a multiple in the interval, and that multiple's factor. Powers are
tried downward from one above the value; none is needed below `10 ^ (-1100)`. -/
def shortest (interval : RoundingInterval) : Nat × Int :=
  let top := (ofNat (interval.value / interval.denominator)).length
  let found := (List.range (top + 1100)).findSome? fun (i : Nat) =>
    let power : Int := top - i
    (interval.multiple? power).map fun factor => (factor, power)
  found.getD (0, 0)

end RoundingInterval

/-- `factor * 10 ^ power` written out. -/
def positional (factor : Nat) (power : Int) : List Char :=
  if 0 ≤ power then ofNat (factor * Nat.pow 10 power.toNat) else withPoint (-power).toNat factor

/-- The shortest text that reads back to `x`. -/
def shortest (x : Float) : String :=
  match Binary64.ofFloat x with
  | .nan => "NaN"
  | .infinite negative => signed negative "inf"
  | .finite negative mantissa exponent =>
      if mantissa = 0 then signed negative "0"
      else
        let digits := (RoundingInterval.ofFinite mantissa exponent).shortest
        signed negative (String.ofList (positional digits.1 digits.2))

end PolyExpression.Decimal
