import PolyExpression.Shaping.Table

/-!
The four curves, named for how steep they leave zero and reach one. Each maps the unit interval onto
itself. Two are polynomials and are computed in any number type; the other two need functions that only
floats have.
-/

namespace PolyExpression

open Amount (ofNat)

variable {α : Type} [Amount α]

/-- The fifth power. -/
def fifthPower (x : α) : α :=
  let square := x * x
  x * (square * square)

/-- The polynomial `((2 * x - 1) ^ 11 + 1) / 2`, by its coefficients. -/
def eleventhDegree (x : α) : α :=
  ((((((((((ofNat 1024 * x - ofNat 5632) * x + ofNat 14080) * x - ofNat 21120) * x + ofNat 21120) * x
    - ofNat 14784) * x + ofNat 7392) * x - ofNat 2640) * x + ofNat 660) * x - ofNat 110) * x + ofNat 11) * x

inductive Curve where
  | smoothSmooth
  | smoothSharp
  | sharpSmooth
  | sharpSharp
  deriving DecidableEq, Repr

namespace Curve

/-- The curve of a parameter value; values that name none mean the first. -/
def ofIndex : Int → Curve
  | 1 => .smoothSharp
  | 2 => .sharpSmooth
  | 3 => .sharpSharp
  | _ => .smoothSmooth

/-- The curve's value. -/
def eval (curve : Curve) (x : Float) : Float :=
  match curve with
  | .smoothSmooth => ((8.0 * (2.0 * x - 1.0)).tanh + 1.0) / 2.0
  | .smoothSharp => fifthPower x
  | .sharpSmooth => (x * (1.0 - (x + 0.001).log) / (1.0 - (1.001 : Float).log)).cbrt
  | .sharpSharp => eleventhDegree x

/-- The curve sampled for look-up. -/
def table (curve : Curve) : Table Float := fun i =>
  curve.eval (countToFloat i.val / countToFloat tableIntervals)

end Curve

end PolyExpression
