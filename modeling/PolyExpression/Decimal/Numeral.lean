/-!
Unsigned decimals. A numeral is a list of digit characters with at most one point among them and at least one
digit; `value` reads the digits, `ofNat` writes them, and `withPoint` sets a point a given number of places from
the right. What is read is the float nearest to the number written.
-/

namespace PolyExpression.Decimal

/-! ### Digits -/

def isDigit (c : Char) : Bool := '0' ≤ c && c ≤ '9'

def digitValue (c : Char) : Nat := c.toNat - '0'.toNat

/-- The number a list of digits stands for. -/
def value (digits : List Char) : Nat :=
  digits.foldl (fun n c => 10 * n + digitValue c) 0

def ofNat (n : Nat) : List Char := Nat.toDigits 10 n

/-- `digits` with zeros in front up to the given width. -/
def padded (width : Nat) (digits : List Char) : List Char :=
  List.replicate (width - digits.length) '0' ++ digits

/-- The numeral of `n / 10 ^ places` with exactly `places` digits behind the point, and no point when
there are none. -/
def withPoint (places n : Nat) : List Char :=
  if places = 0 then ofNat n
  else
    let digits := padded (places + 1) (ofNat n)
    let whole := digits.length - places
    digits.take whole ++ '.' :: digits.drop whole

theorem value_nil : value [] = 0 := rfl

theorem value_append_singleton (digits : List Char) (c : Char) :
    value (digits ++ [c]) = 10 * value digits + digitValue c := by
  simp [value]

/-! ### Reading -/

def isNumeralChar (c : Char) : Bool := isDigit c || c == '.'

/-- Numbers with more digits than this in front of the point are beyond every float. -/
def wholeMax : Nat := 309

/-- The float nearest to `whole.fraction`, infinity for what is beyond every float. -/
def toFloat (whole fraction : List Char) : Float :=
  let whole := whole.dropWhile (· == '0')
  if wholeMax < whole.length then 1.0 / 0.0
  else OfScientific.ofScientific (value (whole ++ fraction)) true fraction.length

/-- Reads a numeral made of digits and points. A second point or a missing digit makes it none. -/
def read? (numeral : List Char) : Option Float :=
  let whole := numeral.takeWhile isDigit
  match numeral.dropWhile isDigit with
  | [] => if whole.isEmpty then none else some (toFloat whole [])
  | _ :: fraction =>
      if fraction.all isDigit && !(whole.isEmpty && fraction.isEmpty) then some (toFloat whole fraction)
      else none

end PolyExpression.Decimal
