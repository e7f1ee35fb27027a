import PolyExpression.Number

/-!
Shaping by a sampled curve. A table holds a curve's values at evenly spaced points of the unit interval;
between two points the curve is taken to be straight. A level says how far a value moves from itself
towards the curve. All this asks of numbers is the four operations, an order, whole numbers and the whole part
of an amount; floats run it, and rational numbers are its exact reading.
-/

namespace PolyExpression

/-- A number type that curves can be computed in. -/
class Amount (α : Type) extends Add α, Sub α, Mul α, Div α, LT α where
  ofNat : Nat → α
  /-- The whole part of a non-negative amount; zero for anything else. -/
  whole : α → Nat
  decLt : ∀ a b : α, Decidable (a < b)

namespace Amount

instance decidableLt {α : Type} [Amount α] (a b : α) : Decidable (a < b) := decLt a b

instance : Amount Float where
  ofNat := countToFloat
  whole x := x.toUInt64.toNat
  decLt := inferInstance

instance : Amount Rat where
  ofNat n := n
  whole x := x.floor.toNat
  decLt := inferInstance

end Amount

open Amount (ofNat whole)

variable {α : Type} [Amount α]

/-- Number of intervals of a table; it has one point more. -/
def tableIntervals : Nat := 2047

/-- A curve's values at `0, 1 / 2047, …, 1`. -/
abbrev Table (α : Type) := Fin (tableIntervals + 1) → α

/-- The amount `weight` of the way from `b` to `a`. -/
def combine (weight a b : α) : α := weight * (a - b) + b

namespace Table

/-- The table's value at a position counted in intervals. Positions outside the table have the value at
its nearest end. -/
def lookup (table : Table α) (position : α) : α :=
  let position := if ofNat 0 < position then position else ofNat 0
  let before := whole position
  if h : before < tableIntervals then
    combine (position - ofNat before) (table ⟨before + 1, Nat.succ_lt_succ h⟩)
      (table ⟨before, Nat.lt_succ_of_lt h⟩)
  else table (Fin.last tableIntervals)

/-- `x` moved towards its place on the curve; a level below a ten-thousandth leaves it alone. -/
def blend (table : Table α) (level x : α) : α :=
  if level < ofNat 1 / ofNat 10000 then x
  else combine level (table.lookup (x * ofNat tableIntervals)) x

end Table

/-- The unit interval bent so that a half goes to `midpoint`. -/
def bend (midpoint x : α) : α :=
  if x < ofNat 1 / ofNat 2 then ofNat 2 * x * midpoint
  else midpoint + (ofNat 2 * x - ofNat 1) * (ofNat 1 - midpoint)

/-- Bends a value, turns it upside down if asked to, and moves it towards the curve. -/
def shape (table : Table α) (level midpoint : α) (inverted : Bool) (x : α) : α :=
  let bent := bend midpoint x
  table.blend level (if inverted then ofNat 1 - bent else bent)

end PolyExpression
