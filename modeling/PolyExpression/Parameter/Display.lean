import PolyExpression.Decimal.Printing
import PolyExpression.Parameter.Id

/-!
Names and values as they are shown to people. Parameters with a short list of values show a text for each,
with a short and a long form where space is tight; the others show a percentage.
-/

namespace PolyExpression

/-- How much space a text may take. -/
inductive TextLength where
  | short
  | long
  deriving DecidableEq, Repr

namespace Display

def pitchNames : List String :=
  ["C", "C#/Db", "D", "D#/Eb", "E", "F", "F#/Gb", "G", "G#/Ab", "A", "A#/Bb", "B"]

/-- A note's name and octave; note 60 is in octave four. -/
def noteName (note : UInt8) : String :=
  let octave : Int := (note.toNat / 12 : Nat) - 1
  pitchNames.getD (note.toNat % 12) "" ++ " " ++ toString octave

def controllerShortName (id : Nat) : String :=
  match id with
  | 0 => "Bank"
  | 1 => "Mod"
  | 2 => "Breath"
  | 4 => "Foot"
  | 6 => "Data"
  | 7 => "Vol"
  | 10 => "Pan"
  | 11 => "Expr"
  | 12 => "Fx 1"
  | 13 => "Fx 2"
  | 16 => "Gen 1"
  | 17 => "Gen 2"
  | 18 => "Gen 3"
  | 19 => "Gen 4"
  | 64 => "Sust"
  | 120 => "Pitch"
  | 121 => "Ch AT"
  | 122 => "Learn"
  | 123 => "none"
  | _ => "CC" ++ toString id

/-- The usual names of MIDI controllers, for those that have one of their own. -/
def controllerOwnName? (id : Nat) : Option String :=
  match id with
  | 0 => some "Bank Select"
  | 1 => some "Modulation Wheel"
  | 2 => some "Breath"
  | 4 => some "Foot Pedal"
  | 5 => some "Portamento Time"
  | 6 => some "Data Entry"
  | 7 => some "Volume"
  | 8 => some "Balance"
  | 10 => some "Pan"
  | 11 => some "Expression Pedal"
  | 12 => some "Effect Control 1"
  | 13 => some "Effect Control 2"
  | 16 => some "General 1"
  | 17 => some "General 2"
  | 18 => some "General 3"
  | 19 => some "General 4"
  | 32 => some "Bank Select LSB (14 bit)"
  | 33 => some "Mod Wheel LSB (14 bit)"
  | 34 => some "Breath LSB (14 bit)"
  | 36 => some "Foot Pedal LSB (14 bit)"
  | 37 => some "Portamento T LSB (14 bit)"
  | 38 => some "Data Entry LSB (14 bit)"
  | 39 => some "Volume LSB (14 bit)"
  | 40 => some "Balance LSB (14 bit)"
  | 42 => some "Pan LSB (14 bit)"
  | 43 => some "Expr Pedal LSB (14 bit)"
  | 44 => some "Effect Ctl 1 LSB (14 bit)"
  | 45 => some "Effect Ctl 2 LSB (14 bit)"
  | 48 => some "General 1 LSB (14 bit)"
  | 49 => some "General 2 LSB (14 bit)"
  | 50 => some "General 3 LSB (14 bit)"
  | 51 => some "General 4 LSB (14 bit)"
  | 64 => some "Sustain Pedal"
  | 65 => some "Portamento On/Off"
  | 66 => some "Sostenuto"
  | 67 => some "Soft Pedal"
  | 68 => some "Legato Footswitch"
  | 69 => some "Hold 2"
  | 84 => some "Portamento Control"
  | 96 => some "Data Increment"
  | 97 => some "Data Decrement"
  | 98 => some "Non-Reg Param Num LSB"
  | 99 => some "Non-Reg Param Num MSB"
  | 100 => some "Reg Param Num LSB"
  | 101 => some "Reg Param Num MSB"
  | _ => none

/-- Names of controllers that are one of a numbered group, and the bare number of all others. -/
def controllerGroupName (id : Nat) : String :=
  let number := "CC " ++ toString id
  if 33 ≤ id && id ≤ 63 then number ++ " LSB for CC " ++ toString (id - 32) ++ " (14 bit)"
  else if 70 ≤ id && id ≤ 79 then number ++ " Sound " ++ toString (id - 69)
  else if 80 ≤ id && id ≤ 83 then number ++ " General On/Off " ++ toString (id - 79)
  else if 91 ≤ id && id ≤ 95 then number ++ " Effect " ++ toString (id - 90)
  else number

def controllerLongName (id : Nat) : String :=
  match id with
  | 120 => "Pitch Wheel"
  | 121 => "Channel Pressure (Aftertouch)"
  | 122 => "MIDI Learn"
  | 123 => "none"
  | _ =>
      match controllerOwnName? id with
      | some name => "CC " ++ toString id ++ " " ++ name
      | none => controllerGroupName id

def toggleOptions : List String := ["OFF", "ON"]

def sideOptions : List String := ["Lower", "Upper"]

def excessNotesOptions : List String := ["Never", "Low", "High", "Old", "New"]

def resetOptions : List String := ["OFF", "LST", "INI"]

def curveOptions : List String := ["SMT-SMT", "SMT-SHP", "SHP-SMT", "SHP-SHP"]

def targetShortOptions : List String :=
  ["Global", "All BA", "All AA", "Low", "High", "Old", "New", "Low BA", "Hi BA", "Old BA", "New BA",
    "Low AA", "Hi AA", "Old AA", "New AA"]

def targetLongOptions : List String :=
  ["Global", "All below anchor", "All above anchor", "Lowest", "Highest", "Oldest", "Newest",
    "Lowest below anchor", "Highest below anchor", "Oldest below anchor", "Newest below anchor",
    "Lowest above anchor", "Highest above anchor", "Oldest above anchor", "Newest above anchor"]

/-- Channel counts, behind a placeholder at zero. -/
def memberOptions : List String := "-" :: (List.range memberMax).map fun n => toString (n + 1)

def noteOptions : List String := (List.range 128).map fun n => noteName n.toUInt8

/-- Semitones from four octaves down to four octaves up, positive ones with a sign. -/
def transposeOptions : List String :=
  (List.range 97).map fun (n : Nat) =>
    let semitones : Int := (n : Int) - 48
    if 0 < semitones then "+" ++ toString semitones else toString semitones

def controllerOptions : TextLength → List String
  | .short => (List.range 124).map controllerShortName
  | .long => (List.range 124).map controllerLongName

def targetOptions : TextLength → List String
  | .short => targetShortOptions
  | .long => targetLongOptions

end Display

namespace ParameterId

open Display

/-- The texts of a parameter's values from zero on, for parameters that show texts. -/
def options? (id : ParameterId) (length : TextLength) : Option (List String) :=
  match id with
  | .zone .announce | .zone .overrideRelease | .zone .holdOnSustain => some toggleOptions
  | .zone .side => some sideOptions
  | .zone .members => some memberOptions
  | .zone .excessNotes => some excessNotesOptions
  | .zone .anchor => some noteOptions
  | .zone .transposeBelow | .zone .transposeAbove => some transposeOptions
  | .rule _ parameter =>
      match parameter with
      | .input | .output => some (controllerOptions length)
      | .target => some (targetOptions length)
      | .curve => some curveOptions
      | .reset => some resetOptions
      | .invert | .fallback => some toggleOptions
      | .initialValue | .level | .midpoint => none

/-- A parameter's name for people. -/
def displayName : ParameterId → String
  | .zone .announce => "Emit MCM on reset"
  | .zone .side => "Zone type"
  | .zone .members => "Channels"
  | .zone .excessNotes => "Excess note handling"
  | .zone .anchor => "Anchor"
  | .zone .overrideRelease => "Override release velocity with triggered velocity"
  | .zone .transposeBelow => "Transpose below anchor"
  | .zone .transposeAbove => "Transpose above anchor"
  | .zone .holdOnSustain => "Sustain pedal handling"
  | .rule i parameter =>
      let aspect := match parameter with
        | .input => "input"
        | .output => "output"
        | .initialValue => "initial value (%)"
        | .target => "target"
        | .curve => "distortion type"
        | .level => "distortion level (%)"
        | .midpoint => "midpoint (%)"
        | .reset => "reset on target change"
        | .invert => "invert"
        | .fallback => "fall back to manager channel"
      "Rule " ++ toString (i.val + 1) ++ " " ++ aspect

end ParameterId

namespace Display

/-- A fraction as a percentage with two places. A negative text that shows no digit but zeros is written as
zero. -/
def percentage (ratio : Float) : String :=
  let text := Decimal.fixed 2 (ratio * 100.0) ++ "%"
  let isMinusZero := text.toList.head? == some '-' && !(text.toList.tail.any fun c => '1' ≤ c && c ≤ '9')
  if isMinusZero then Decimal.fixed 2 0.0 ++ "%" else text

/-- The text of a parameter at a fraction of its range. -/
def value (id : ParameterId) (ratio : Float) (length : TextLength) : String :=
  match id.options? length with
  | none => percentage ratio
  | some options => options.getD (id.range.valueOf ratio).toNat ""

end Display

end PolyExpression
