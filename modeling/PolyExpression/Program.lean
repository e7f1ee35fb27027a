import PolyExpression.Settings.Text

/-!
Programs. A program is a named settings text: the lines of one section of the engine without its name
line. Names are short printable ASCII; a program without a name of its own has its default name.
-/

namespace PolyExpression

/-- The longest name. -/
def programNameMax : Nat := 23

/-- The longest name for tight spaces. -/
def shortNameMax : Nat := 7

/-- The setting that holds a program's name. -/
def nameKey : List Char := "NAME".toList

/-- Printable ASCII, but neither brackets nor the backslash. -/
def isProgramNameChar (c : Char) : Bool :=
  ' ' ≤ c && c ≤ '~' && c != '[' && c != ']' && c != '\\'

/-- A text of at most `limit` characters: a longer one keeps its beginning and its last character, with two
dots between them. -/
def abbreviate (limit : Nat) (text : List Char) : List Char :=
  if text.length ≤ limit then text
  else text.take (limit - 3) ++ ['.', '.'] ++ text.drop (text.length - 1)

/-- A text without spaces at its ends. -/
def trimSpaces (text : List Char) : List Char :=
  ((text.dropWhile (· == ' ')).reverse.dropWhile (· == ' ')).reverse

/-- What is left of a text as a program's name. -/
def programName (text : List Char) : List Char :=
  abbreviate programNameMax (trimSpaces (text.filter isProgramNameChar))

structure Program where
  name : List Char
  defaultName : List Char
  body : List (List Char)
  deriving DecidableEq

namespace Program

def isBlank (program : Program) : Bool := program.body.isEmpty

def shortName (program : Program) : List Char := abbreviate shortNameMax program.name

/-- Names a program; an empty name stands for the default one. -/
def rename (program : Program) (text : List Char) : Program :=
  let name := programName text
  { program with name := if name.isEmpty then program.defaultName else name }

/-- One line of a program's section: its name, or a line of its body, which is collected last first. -/
def readLine (program : Program) (line : List Char) : Program :=
  match Settings.splitSetting? line with
  | some (key, value) =>
      if key = nameKey then program.rename value else { program with body := line :: program.body }
  | none => { program with body := line :: program.body }

/-- Reads the first section of the engine in some lines; returns what follows it. Without such a section
all lines are passed over and the program is blank under its default name. -/
def readSection (program : Program) (lines : List (List Char)) : Program × List (List Char) :=
  match lines.dropWhile fun line => !Settings.isSectionStart line with
  | [] => ({ program with name := program.defaultName, body := [] }, [])
  | _ :: rest =>
      let isInside (line : List Char) : Bool := (Settings.sectionHeader? line).isNone
      let read := (rest.takeWhile isInside).foldl readLine { program with body := [] }
      ({ read with body := read.body.reverse }, rest.dropWhile isInside)

/-- Replaces a program by the first section of a text. -/
def load (program : Program) (text : List Char) : Program :=
  (program.readSection (Settings.linesOf text)).1

/-- The program of a text under a name. -/
def ofText (name defaultName text : List Char) : Program :=
  let default := programName defaultName
  ({ name := [], defaultName := default, body := [] : Program }.load text).rename name

/-- The program as a section of its own. -/
def write (program : Program) : List Char :=
  let lines := Settings.header :: (nameKey ++ " = ".toList ++ program.name) :: program.body
  lines.flatMap (· ++ Settings.lineEnd)

end Program

end PolyExpression
