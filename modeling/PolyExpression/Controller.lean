import PolyExpression.Midi.Command

/-!
Controllers and how rules use them. Besides the 120 MIDI controllers there are four identifiers of
their own: the pitch wheel, the channel pressure, a request to learn the next controller, and none.
A target says which sounding notes a rule's output goes to.
-/

namespace PolyExpression

/-- A controller, or one of the four identifiers above them. -/
structure ControllerId where
  index : Fin 124
  deriving DecidableEq, Repr

namespace ControllerId

def sustainPedal : ControllerId := ⟨64⟩
def soundFive : ControllerId := ⟨74⟩
def pitchWheel : ControllerId := ⟨120⟩
def channelPressure : ControllerId := ⟨121⟩
/-- Stands in a rule's input for the controller that moves next. -/
def learn : ControllerId := ⟨122⟩
def none : ControllerId := ⟨123⟩

/-- The identifier of a byte, if the byte is one. -/
def ofByte? (b : UInt8) : Option ControllerId :=
  if h : b.toNat < 124 then some ⟨⟨b.toNat, h⟩⟩ else Option.none

/-- The identifier of a parameter value, the nearest one if there is none. -/
def ofValue (value : Int) : ControllerId :=
  ⟨⟨min value.toNat 123, by omega⟩⟩

def toByte (controller : ControllerId) : UInt8 := controller.index.val.toUInt8

/-- The MIDI controller number, for those that are MIDI controllers. -/
def midiNumber? (controller : ControllerId) : Option UInt8 :=
  if controller.index.val < 120 then some controller.toByte else Option.none

end ControllerId

/-- A part of the keyboard, with respect to the anchor note. -/
inductive Region where
  | all
  | below
  | above
  deriving DecidableEq, Repr

/-- The note of a region that is picked out of those held. -/
inductive Role where
  | lowest
  | highest
  | oldest
  | newest
  deriving DecidableEq, Repr

/-- Where a rule's output goes: to the whole zone, to every held note on one side of the anchor, or to the
one note with a role in a region. -/
inductive Target where
  | global
  | allBelow
  | allAbove
  | voice (region : Region) (role : Role)
  deriving DecidableEq, Repr

namespace Target

/-- The targets in the order of their parameter values. -/
def all : List Target :=
  [.global, .allBelow, .allAbove] ++
    [Region.all, .below, .above].flatMap fun region =>
      [Role.lowest, .highest, .oldest, .newest].map fun role => .voice region role

/-- The newest note of all, which values that name no target mean. -/
def initial : Target := .voice .all .newest

def ofIndex (index : Int) : Target :=
  if index < 0 then initial else all[index.toNat]?.getD initial

/-- The region and role of a target that follows a single note. -/
def position? : Target → Option (Region × Role)
  | .voice region role => some (region, role)
  | _ => none

end Target

/-- What a rule sends to a channel that leaves or enters its target: nothing, its last input, or its
initial value. -/
inductive ResetPolicy where
  | off
  | last
  | initial
  deriving DecidableEq, Repr

namespace ResetPolicy

def ofIndex : Int → ResetPolicy
  | 0 => .off
  | 1 => .last
  | _ => .initial

end ResetPolicy

/-- What happens to a note for which no channel is free: it is ignored, or it takes the channel of the
held note with a role. -/
inductive ExcessNotes where
  | ignore
  | steal (role : Role)
  deriving DecidableEq, Repr

namespace ExcessNotes

/-- The policy of a parameter value; values that name none steal the oldest note. -/
def ofIndex : Int → ExcessNotes
  | 0 => .ignore
  | 1 => .steal .lowest
  | 2 => .steal .highest
  | 4 => .steal .newest
  | _ => .steal .oldest

end ExcessNotes

end PolyExpression
