import PolyExpression.Controller
import PolyExpression.Parameter.Basic
import PolyExpression.Shaping.Curve
import PolyExpression.Zone

/-!
The parameters of the engine: nine that concern the zone as a whole, and ten for each of nine rules. Each
has a number, a short name under which settings store it, and a range. Numbers are fixed for good: three
zone parameters and the rules' last parameter came late and are numbered behind the others. Main
statement: numbers and parameters correspond one to one.
-/

namespace PolyExpression

/-- How many rules there are. -/
def ruleCount : Nat := 9

abbrev RuleIndex := Fin ruleCount

/-- The parameters of a rule. -/
inductive RuleParameter where
  | input
  | output
  | initialValue
  | target
  | curve
  | level
  | midpoint
  | reset
  | invert
  | fallback
  deriving DecidableEq, Repr

namespace RuleParameter

def all : List RuleParameter :=
  [.input, .output, .initialValue, .target, .curve, .level, .midpoint, .reset, .invert, .fallback]

def place : RuleParameter → Fin 10
  | .input => 0
  | .output => 1
  | .initialValue => 2
  | .target => 3
  | .curve => 4
  | .level => 5
  | .midpoint => 6
  | .reset => 7
  | .invert => 8
  | .fallback => 9

def ofPlace : Fin 10 → RuleParameter
  | 0 => .input
  | 1 => .output
  | 2 => .initialValue
  | 3 => .target
  | 4 => .curve
  | 5 => .level
  | 6 => .midpoint
  | 7 => .reset
  | 8 => .invert
  | 9 => .fallback

theorem ofPlace_place (parameter : RuleParameter) : ofPlace parameter.place = parameter := by
  cases parameter <;> rfl

theorem place_ofPlace (place : Fin 10) : (ofPlace place).place = place := by
  revert place
  decide

/-- The two letters that end the parameter's name. -/
def suffix : RuleParameter → String
  | .input => "IN"
  | .output => "OU"
  | .initialValue => "IV"
  | .target => "TR"
  | .curve => "DT"
  | .level => "DL"
  | .midpoint => "MP"
  | .reset => "RS"
  | .invert => "NV"
  | .fallback => "FB"

end RuleParameter

/-- The parameters of the zone as a whole. -/
inductive ZoneParameter where
  | announce
  | side
  | members
  | excessNotes
  | anchor
  | overrideRelease
  | transposeBelow
  | transposeAbove
  | holdOnSustain
  deriving DecidableEq, Repr

namespace ZoneParameter

def place : ZoneParameter → Fin 9
  | .announce => 0
  | .side => 1
  | .members => 2
  | .excessNotes => 3
  | .anchor => 4
  | .overrideRelease => 5
  | .transposeBelow => 6
  | .transposeAbove => 7
  | .holdOnSustain => 8

def ofPlace : Fin 9 → ZoneParameter
  | 0 => .announce
  | 1 => .side
  | 2 => .members
  | 3 => .excessNotes
  | 4 => .anchor
  | 5 => .overrideRelease
  | 6 => .transposeBelow
  | 7 => .transposeAbove
  | 8 => .holdOnSustain

theorem ofPlace_place (parameter : ZoneParameter) : ofPlace parameter.place = parameter := by
  cases parameter <;> rfl

theorem place_ofPlace (place : Fin 9) : (ofPlace place).place = place := by
  revert place
  decide

def name : ZoneParameter → String
  | .announce => "MCM"
  | .side => "Z1TYP"
  | .members => "Z1CHN"
  | .excessNotes => "Z1ENH"
  | .anchor => "Z1ANC"
  | .overrideRelease => "Z1ORV"
  | .transposeBelow => "Z1TRB"
  | .transposeAbove => "Z1TRA"
  | .holdOnSustain => "Z1SUS"

end ZoneParameter

/-- How many parameters there are. -/
def parameterCount : Nat := 99

/-- A parameter of the engine. -/
inductive ParameterId where
  | zone (parameter : ZoneParameter)
  | rule (i : RuleIndex) (parameter : RuleParameter)
  deriving DecidableEq, Repr

namespace ParameterId

/-- The number of the first rule parameter. -/
def firstRuleNumber : Nat := 6

/-- The number of the first zone parameter that came late. -/
def firstLateNumber : Nat := 87

/-- The number of the first rule's fallback switch. -/
def firstFallbackNumber : Nat := 90

/-- A parameter's number. -/
def number : ParameterId → Fin parameterCount
  | .zone parameter =>
      if h : parameter.place.val < firstRuleNumber then ⟨parameter.place.val, by
        simp only [firstRuleNumber, parameterCount] at *; omega⟩
      else ⟨firstLateNumber + (parameter.place.val - firstRuleNumber), by
        have := parameter.place.isLt
        simp only [firstLateNumber, firstRuleNumber, parameterCount] at *; omega⟩
  | .rule i parameter =>
      if h : parameter.place.val < 9 then ⟨firstRuleNumber + i.val * 9 + parameter.place.val, by
        have := i.isLt
        simp only [firstRuleNumber, parameterCount, ruleCount] at *; omega⟩
      else ⟨firstFallbackNumber + i.val, by
        have := i.isLt
        simp only [firstFallbackNumber, parameterCount, ruleCount] at *; omega⟩

/-- The parameter of a number. -/
def ofNumber (number : Fin parameterCount) : ParameterId :=
  have hnumber : number.val < 99 := number.isLt
  if h : number.val < firstRuleNumber then
    .zone (.ofPlace ⟨number.val, by simp only [firstRuleNumber] at h; omega⟩)
  else if h2 : number.val < firstLateNumber then
    let offset := number.val - firstRuleNumber
    .rule ⟨offset / 9, by simp only [firstRuleNumber, firstLateNumber, offset, ruleCount] at *; omega⟩
      (.ofPlace ⟨offset % 9, by omega⟩)
  else if h3 : number.val < firstFallbackNumber then
    .zone (.ofPlace ⟨number.val - firstLateNumber + firstRuleNumber, by
      simp only [firstLateNumber, firstFallbackNumber, firstRuleNumber] at *; omega⟩)
  else
    .rule ⟨number.val - firstFallbackNumber, by simp only [firstFallbackNumber, ruleCount] at *; omega⟩ .fallback

/-- All parameters in the order of their numbers. -/
def all : List ParameterId := (List.finRange parameterCount).map ofNumber

theorem number_ofNumber (number : Fin parameterCount) : (ofNumber number).number = number := by
  revert number
  decide +kernel

theorem ofNumber_number (id : ParameterId) : ofNumber id.number = id := by
  cases id with
  | zone parameter => cases parameter <;> decide
  | rule i parameter =>
      revert i
      cases parameter <;> decide

theorem number_injective {a b : ParameterId} (h : a.number = b.number) : a = b := by
  rw [← ofNumber_number a, h, ofNumber_number]

theorem mem_all (id : ParameterId) : id ∈ all :=
  List.mem_map.mpr ⟨id.number, List.mem_finRange _, ofNumber_number id⟩

/-- The name under which settings store a parameter. -/
def name : ParameterId → String
  | .zone parameter => parameter.name
  | .rule i parameter => "Z1R" ++ toString (i.val + 1) ++ parameter.suffix

end ParameterId

/-! ### Ranges -/

/-- The controller a rule listens to and sends at first, and its initial value: pitch bend, pressure and
timbre for the first three rules, nothing for the others. -/
def RuleIndex.defaults (rule : RuleIndex) : ControllerId × Int :=
  match rule.val with
  | 0 => (.pitchWheel, 8192)
  | 1 => (.channelPressure, 0)
  | 2 => (.soundFive, 8192)
  | _ => (.none, 0)

namespace ParameterId

/-- Lowest, highest and initial value of a rule parameter. -/
def ruleBounds (rule : RuleIndex) : RuleParameter → Int × Int × Int
  | .input | .output => (0, ControllerId.none.index.val, rule.defaults.1.index.val)
  | .initialValue => (0, 16383, rule.defaults.2)
  | .target => (0, 14, 6)
  | .curve => (0, 3, 0)
  | .level => (0, 16383, 0)
  | .midpoint => (0, 20000, 10000)
  | .reset => (0, 2, 2)
  | .invert | .fallback => (0, 1, 0)

/-- Lowest, highest and initial value of a parameter. -/
def bounds : ParameterId → Int × Int × Int
  | .zone .announce | .zone .overrideRelease | .zone .holdOnSustain => (0, 1, 0)
  | .zone .side => (0, 1, 0)
  | .zone .members => (1, 15, 15)
  | .zone .excessNotes => (0, 4, 3)
  | .zone .anchor => (0, 127, 60)
  | .zone .transposeBelow | .zone .transposeAbove => (0, 96, 48)
  | .rule i parameter => ruleBounds i parameter

def range (id : ParameterId) : Range := .ofBounds id.name id.bounds.1 id.bounds.2.1 id.bounds.2.2

end ParameterId

end PolyExpression
