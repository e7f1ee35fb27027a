import PolyExpression.Decimal.Numeral

/-!
The lines of a settings text. A section header is a name in brackets; a setting is a name, an equals sign
and a number; a semicolon starts a comment that reaches to the end of the line. Spaces and tabs may stand
between the parts. Lines of any other shape mean nothing.
-/

namespace PolyExpression.Settings

/-- The section that holds the engine's settings. -/
def sectionName : List Char := "mpeemulator".toList

/-- The longest section name that is told apart, one letter more than `sectionName` has. -/
def sectionNameMax : Nat := 12

/-- Names of settings have fewer letters than this. -/
def nameLimit : Nat := 7

def isBlank (c : Char) : Bool := c == ' ' || c == '\t'

/-- ASCII letters and digits; names are made of nothing else. -/
def isNameChar (c : Char) : Bool := c.isAlphanum

def skipBlanks (line : List Char) : List Char := line.dropWhile isBlank

/-- Whether nothing is left of a line but blanks and a comment. -/
def isBlankOrComment (line : List Char) : Bool :=
  match skipBlanks line with
  | [] => true
  | c :: _ => c == ';'

/-- The name in a section header, cut to `sectionNameMax` letters. -/
def sectionHeader? (line : List Char) : Option (List Char) :=
  match skipBlanks line with
  | '[' :: rest =>
      let inner := skipBlanks rest
      match skipBlanks (inner.dropWhile isNameChar) with
      | ']' :: tail =>
          if isBlankOrComment tail then some ((inner.takeWhile isNameChar).take sectionNameMax) else none
      | _ => none
  | _ => none

/-- Whether a line is the header of the engine's section. -/
def isSectionStart (line : List Char) : Bool := sectionHeader? line == some sectionName

/-- The name in front of an equals sign, in capitals, and what follows the sign. -/
def splitSetting? (line : List Char) : Option (List Char × List Char) :=
  let start := skipBlanks line
  let name := start.takeWhile isNameChar
  if name.isEmpty || nameLimit ≤ name.length then none
  else match skipBlanks (start.dropWhile isNameChar) with
    | '=' :: value => some (name.map Char.toUpper, value)
    | _ => none

/-- The name and the number of a setting; the number is moved inside the unit interval. -/
def setting? (line : List Char) : Option (List Char × Float) :=
  match splitSetting? line with
  | none => none
  | some (name, value) =>
      let start := skipBlanks value
      if isBlankOrComment (start.dropWhile Decimal.isNumeralChar) then
        (Decimal.read? (start.takeWhile Decimal.isNumeralChar)).map fun number =>
          (name, if 1.0 < number then 1.0 else number)
      else none

end PolyExpression.Settings
