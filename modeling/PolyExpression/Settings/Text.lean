import PolyExpression.Decimal.Printing
import PolyExpression.Engine.Basic
import PolyExpression.Settings.Line
import PolyExpression.Text.Lines

/-!
Settings as text. Writing lists the parameters that differ from their initial values, each with fifteen
decimal places of which the zeros at the end are left out. Reading takes every setting with a known name
from the engine's sections, in order, and ignores everything else.
-/

namespace PolyExpression.Settings

/-- Lines end with this when they are written; when they are read either half will do. -/
def lineEnd : List Char := ['\r', '\n']

/-- Longer lines are cut, in bytes. -/
def lineMax : Nat := fileSizeMax - 1

/-- The lines of a text of settings. -/
def linesOf (text : List Char) : List (List Char) := Text.lines lineMax text

/-! ### Writing -/

/-- Fractions this close to the initial one are not written. -/
def tolerance : Float := 0.000001

def header : List Char := '[' :: Settings.sectionName ++ [']']

/-- A numeral without the zeros at the end of its fraction. One zero stays if there were any. -/
def trimZeros (numeral : List Char) : List Char :=
  let whole := numeral.takeWhile (· != '.')
  let fraction := numeral.dropWhile (· != '.')
  let kept := (fraction.reverse.dropWhile (· == '0')).reverse
  if kept.length < fraction.length then whole ++ fraction.take (kept.length + 1) else numeral

/-- The text of a fraction. -/
def numeral (ratio : Float) : List Char := trimZeros (Decimal.fixed 15 ratio).toList

/-- The line of one parameter; none if it is at its initial value. -/
def lineOf (published : Published) (id : ParameterId) : List Char :=
  let ratio := published.ratioOf id
  if (id.range.initialRatio - ratio).abs ≤ tolerance then []
  else id.name.toList ++ " = ".toList ++ numeral ratio ++ lineEnd

/-- The settings that make an engine like the published one. -/
def write (published : Published) : List Char :=
  header ++ lineEnd ++ ParameterId.all.flatMap (lineOf published)

/-! ### Reading -/

/-- A line's setting, if it has a known name. -/
def known? (line : List Char) : Option (ParameterId × Float) :=
  match setting? line with
  | none => none
  | some (name, ratio) => (ParameterId.named? (String.ofList name)).map fun id => (id, ratio)

/-- Where a reader stands: whether it is inside a section of the engine, and what it has found, the last
first. -/
structure Reader where
  isInside : Bool
  found : List (ParameterId × Float)

namespace Reader

def read (reader : Reader) (line : List Char) : Reader :=
  match sectionHeader? line with
  | some name => { reader with isInside := name == sectionName }
  | none =>
      if reader.isInside then
        match known? line with
        | some entry => { reader with found := entry :: reader.found }
        | none => reader
      else reader

end Reader

/-- The settings in some lines, in order. -/
def ofLines (lines : List (List Char)) : List (ParameterId × Float) :=
  (lines.foldl Reader.read ⟨false, []⟩).found.reverse

/-- The settings in a text, in order. -/
def read (text : List Char) : List (ParameterId × Float) := ofLines (linesOf text)

end PolyExpression.Settings
