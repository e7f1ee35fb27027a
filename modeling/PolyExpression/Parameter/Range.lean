import PolyExpression.Number

/-!
Ranges of integer parameters. A parameter is set by hosts as a fraction of its range and acted on as an
integer; a range translates between the two views, and anything outside it saturates.
-/

namespace PolyExpression

/-- A fraction of a range: NaN is zero, and what is outside the unit interval is its nearer end. -/
def unitClamp (x : Float) : Float :=
  if x.isNaN then 0.0
  else if x < 0.0 then 0.0
  else if 1.0 < x then 1.0
  else x

/-- The integers a parameter can take, and the one it starts with. -/
structure Range where
  name : String
  low : Int
  high : Int
  initial : Int
  low_le_initial : low ≤ initial := by decide
  initial_le_high : initial ≤ high := by decide
  deriving DecidableEq, Repr

namespace Range

/-- The range between two bounds in either order, its initial value moved inside. -/
def ofBounds (name : String) (a b initial : Int) : Range where
  name := name
  low := min a b
  high := max a b
  initial := max (min a b) (min initial (max a b))
  low_le_initial := by omega
  initial_le_high := by omega

/-- A switch, off or on. -/
def toggle (name : String) (isOn : Bool) : Range := ofBounds name 0 1 (if isOn then 1 else 0)

/-- How many steps there are from the lowest to the highest value. -/
def width (range : Range) : Nat := (range.high - range.low).toNat

/-- The value of the range nearest to an integer. -/
def clamp (range : Range) (value : Int) : Int := max range.low (min value range.high)

/-- The fraction of the range at which a value lies. A range of one value has fraction zero. -/
def ratioOf (range : Range) (value : Int) : Float :=
  if range.width = 0 then 0.0
  else unitClamp (countToFloat (value - range.low).toNat / countToFloat range.width)

/-- `ratioOf` where the distance from the lowest value, if it is needed, still is a 32-bit integer. -/
def ratioOf? (range : Range) (value : Int) : Option Float :=
  let distance := value - range.low
  if range.width = 0 ∨ -2147483648 ≤ distance ∧ distance < 2147483648 then some (range.ratioOf value) else none

/-- The value nearest to a fraction of the range, a half going up. -/
def valueOf (range : Range) (ratio : Float) : Int :=
  range.clamp (range.low + nearestNat (countToFloat range.width * unitClamp ratio))

def initialRatio (range : Range) : Float := range.ratioOf range.initial

theorem low_le_high (range : Range) : range.low ≤ range.high :=
  Int.le_trans range.low_le_initial range.initial_le_high

theorem low_le_clamp (range : Range) (value : Int) : range.low ≤ range.clamp value := by
  unfold clamp
  omega

theorem clamp_le_high (range : Range) (value : Int) : range.clamp value ≤ range.high := by
  have := range.low_le_high
  unfold clamp
  omega

theorem clamp_of_mem {range : Range} {value : Int} (hlow : range.low ≤ value) (hhigh : value ≤ range.high) :
    range.clamp value = value := by
  unfold clamp
  omega

end Range

end PolyExpression
