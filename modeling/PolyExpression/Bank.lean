import PolyExpression.Number
import PolyExpression.Program

/-!
Banks of programs. A bank has 128 programs, one of which is current. A bank's text is the sequence of its
programs' sections; reading it fills the programs from the first on and blanks those that are left.
-/

namespace PolyExpression

/-- How many programs a bank has. -/
def programCount : Nat := 128

structure Bank where
  programs : Vector Program programCount
  current : Fin programCount
  deriving DecidableEq

namespace Bank

/-- The name of a program without a name of its own, counted from one with three digits. -/
def defaultName (index : Nat) : List Char :=
  "Prog".toList ++ Decimal.padded 3 (Decimal.ofNat (index + 1))

def blankProgram (index : Nat) : Program := .ofText [] (defaultName index) []

/-- The bank programs come in: the first has the initial settings, the others are blank. -/
def initial : Bank where
  programs := Vector.ofFn fun index =>
    if index.val = 0 then .ofText "Default".toList (defaultName 0) Settings.header else blankProgram index.val
  current := ⟨0, by decide⟩

/-- The program of a fraction of the bank. -/
def indexOfRatio (ratio : Float) : Nat := min (nearestNat (ratio * 127.0)) 127

/-- The fraction at which a program lies. -/
def ratioOfIndex (index : Nat) : Float :=
  let ratio := countToFloat index / countToFloat 127
  if ratio < 1.0 then ratio else 1.0

/-- Makes a program current, the last one if there is none of this index. -/
def select (bank : Bank) (index : Nat) : Bank :=
  { bank with current := ⟨min index 127, by simp only [programCount]; omega⟩ }

def currentProgram (bank : Bank) : Program := bank.programs[bank.current]

def modify (bank : Bank) (index : Fin programCount) (f : Program → Program) : Bank :=
  { bank with programs := bank.programs.set index (f bank.programs[index]) }

/-- Reads one program from the lines that are left; when there are none it is blank. -/
def readProgram (namesOnly : Bool) (state : Vector Program programCount × List (List Char))
    (index : Fin programCount) : Vector Program programCount × List (List Char) :=
  let (programs, lines) := state
  if lines.isEmpty then (programs.set index (blankProgram index.val), [])
  else
    let (program, rest) := programs[index].readSection lines
    (programs.set index (if namesOnly then { program with body := [] } else program), rest)

private def readAll (bank : Bank) (namesOnly : Bool) (text : List Char) : Bank :=
  { bank with
    programs := ((List.finRange programCount).foldl (readProgram namesOnly)
      (bank.programs, Settings.linesOf text)).1 }

/-- Replaces all programs by the sections of a text. -/
def load (bank : Bank) (text : List Char) : Bank := bank.readAll false text

/-- Takes only the names of the programs from a text. -/
def loadNames (bank : Bank) (text : List Char) : Bank := bank.readAll true text

/-- The programs' sections, with an empty line behind each. -/
def write (bank : Bank) : List Char :=
  bank.programs.toList.flatMap fun program => program.write ++ Settings.lineEnd

end Bank

end PolyExpression
