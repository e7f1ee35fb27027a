import PolyExpression.Parameter.Range

/-!
Integer parameters with a fraction view. A parameter keeps the fraction it was last set with as given,
next to the integer that the fraction stands for; setting the integer sets the fraction to match.
-/

namespace PolyExpression

structure Parameter where
  range : Range
  value : Int
  ratio : Float

namespace Parameter

/-- Sets the integer, moved inside the range. -/
def set (parameter : Parameter) (value : Int) : Parameter :=
  let value := parameter.range.clamp value
  { parameter with value, ratio := parameter.range.ratioOf value }

/-- Sets the fraction, moved inside the unit interval. -/
def setRatio (parameter : Parameter) (ratio : Float) : Parameter :=
  let ratio := unitClamp ratio
  { parameter with value := parameter.range.valueOf ratio, ratio }

/-- The parameter at its initial value. -/
def ofRange (range : Range) : Parameter := ⟨range, range.initial, range.initialRatio⟩

def reset (parameter : Parameter) : Parameter := parameter.set parameter.range.initial

/-- Whether a switch is on. -/
def isOn (parameter : Parameter) : Bool := parameter.value != 0

@[simp] theorem range_set (parameter : Parameter) (value : Int) : (parameter.set value).range = parameter.range := rfl

@[simp] theorem range_setRatio (parameter : Parameter) (ratio : Float) :
    (parameter.setRatio ratio).range = parameter.range := rfl

theorem reset_eq_ofRange (parameter : Parameter) : parameter.reset = ofRange parameter.range := by
  have h : parameter.range.clamp parameter.range.initial = parameter.range.initial :=
    Range.clamp_of_mem parameter.range.low_le_initial parameter.range.initial_le_high
  simp [reset, set, ofRange, Range.initialRatio, h]

end Parameter

end PolyExpression
