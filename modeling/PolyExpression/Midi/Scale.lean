import PolyExpression.Number

/-!
Controller values. A MIDI data byte has seven bits and a pitch bend fourteen; inside the library both
are fractions of their largest value. Fractions outside the unit interval saturate, and NaN is zero.
-/

namespace PolyExpression.Midi

/-- The largest data byte. -/
def byteMax : Nat := 127

/-- The largest pitch bend. -/
def wordMax14 : Nat := 16383

/-- The data byte nearest to a fraction. -/
def byteOfFraction (x : Float) : UInt8 := (min (nearestNat (x * 127.0)) byteMax).toUInt8

/-- The pitch bend nearest to a fraction. -/
def wordOfFraction (x : Float) : UInt16 := (min (nearestNat (x * 16383.0)) wordMax14).toUInt16

/-- A quotient of counts as a fraction, at most one. -/
def fractionOf (n whole : Nat) : Float :=
  let x := countToFloat n / countToFloat whole
  if x < 1.0 then x else 1.0

def fractionOfByte (b : UInt8) : Float := fractionOf b.toNat byteMax

def fractionOfWord (w : UInt16) : Float := fractionOf w.toNat wordMax14

theorem byteOfFraction_le (x : Float) : (byteOfFraction x).toNat ≤ byteMax := by
  have h : min (nearestNat (x * 127.0)) byteMax ≤ byteMax := Nat.min_le_right _ _
  have hmod : (byteOfFraction x).toNat = min (nearestNat (x * 127.0)) byteMax % 2 ^ 8 := rfl
  simp only [byteMax] at *
  omega

theorem wordOfFraction_le (x : Float) : (wordOfFraction x).toNat ≤ wordMax14 := by
  have h : min (nearestNat (x * 16383.0)) wordMax14 ≤ wordMax14 := Nat.min_le_right _ _
  have hmod : (wordOfFraction x).toNat = min (nearestNat (x * 16383.0)) wordMax14 % 2 ^ 16 := rfl
  simp only [wordMax14] at *
  omega

end PolyExpression.Midi
