/-!
Floats in exact arithmetic. `Binary64.ofFloat` splits the bit pattern of a 64-bit float into a sign, a mantissa and
an exponent of two; a finite float is exactly `mantissa * 2 ^ exponent` up to its sign. Rounding to integers and
printing in decimal are decided on these numbers. `nearestNat` is the conversion every controller value, sample
position and parameter goes through: halves go up, what is negative or no number gives zero, and what is too large
saturates. `roundEven` is the rounding of printed decimals, where a half goes to the even neighbour.
-/

namespace PolyExpression

/-- A float read as what it stands for. The sign of a zero is kept; a NaN carries nothing. -/
inductive Binary64 where
  | nan
  | infinite (negative : Bool)
  | finite (negative : Bool) (mantissa : Nat) (exponent : Int)
  deriving DecidableEq, Repr

namespace Binary64

/-- Bits of the mantissa that are stored; the leading one of a normal float is not. -/
def storedBits : Nat := 52

/-- The exponent of the smallest positive float, `2 ^ (-1074)`. -/
def leastExponent : Int := -1074

/-- Reads the fields of the bit pattern: one sign bit, eleven exponent bits, then the mantissa. -/
def ofFloat (x : Float) : Binary64 :=
  let bits := x.toBits.toNat
  let negative := bits >>> 63 == 1
  let exponentField := (bits >>> storedBits) % 2048
  let fraction := bits % (1 <<< storedBits)
  if exponentField = 2047 then
    if fraction = 0 then .infinite negative else .nan
  else if exponentField = 0 then
    .finite negative fraction leastExponent
  else
    .finite negative ((1 <<< storedBits) + fraction) (leastExponent + (exponentField - 1 : Nat))

/-- Numerator and denominator of `mantissa * 2 ^ exponent`. -/
def fraction (mantissa : Nat) (exponent : Int) : Nat × Nat :=
  if 0 ≤ exponent then (mantissa <<< exponent.toNat, 1) else (mantissa, 1 <<< (-exponent).toNat)

theorem fraction_snd_pos (mantissa : Nat) (exponent : Int) : 0 < (fraction mantissa exponent).2 := by
  unfold fraction
  split
  · exact Nat.one_pos
  · simp only [Nat.one_shiftLeft]
    exact Nat.two_pow_pos _

end Binary64

/-- The natural number nearest to `numerator / denominator`, a half going up. -/
def roundHalfUp (numerator denominator : Nat) : Nat :=
  (2 * numerator + denominator) / (2 * denominator)

/-- The natural number nearest to `numerator / denominator`, a half going to the even neighbour. -/
def roundEven (numerator denominator : Nat) : Nat :=
  let quotient := numerator / denominator
  let twice := 2 * (numerator % denominator)
  if twice < denominator then quotient
  else if denominator < twice then quotient + 1
  else quotient + quotient % 2

/-- The largest 64-bit word, where conversions of large floats stop. -/
def wordMax : Nat := 18446744073709551615

/-- The natural number nearest to a float, a half going up. Negative floats and NaN give zero; values
beyond a 64-bit word give the largest one. -/
def nearestNat (x : Float) : Nat :=
  match Binary64.ofFloat x with
  | .nan => 0
  | .infinite negative => if negative then 0 else wordMax
  | .finite negative mantissa exponent =>
      if negative then 0
      else
        let value := Binary64.fraction mantissa exponent
        min (roundHalfUp value.1 value.2) wordMax

/-- The float nearest to a count below `2 ^ 64`. -/
def countToFloat (n : Nat) : Float := n.toUInt64.toFloat

end PolyExpression
