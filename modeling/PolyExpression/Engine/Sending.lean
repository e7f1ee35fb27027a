import PolyExpression.Engine.Basic
import PolyExpression.Midi.Scale

/-!
Sending controllers. A controller value becomes a pitch bend, a channel pressure or a control change,
depending on the controller; the identifiers for learning and for no controller send nothing.
-/

namespace PolyExpression

/-- The event that sets a controller of a channel, for controllers that can be sent. -/
def controllerEvent? (time : Float) (channel : Channel) (controller : ControllerId) (value : Float)
    (isSetup : Bool) : Option Midi.Event :=
  let channel := channel.val.toUInt8
  if controller = .pitchWheel then
    let bend := Midi.wordOfFraction value
    some ⟨time, value, .pitchBend, channel, (bend &&& 0x7F).toUInt8, (bend >>> 7).toUInt8, isSetup⟩
  else if controller = .channelPressure then
    some ⟨time, value, .channelPressure, channel, Midi.byteOfFraction value, 0, isSetup⟩
  else
    controller.midiNumber?.map fun number =>
      ⟨time, value, .controlChange, channel, number, Midi.byteOfFraction value, isSetup⟩

/-- The event that starts or ends a note. -/
def noteEvent (time : Float) (command : Midi.Command) (channel : Channel) (note : Note) (velocity : UInt8) :
    Midi.Event :=
  ⟨time, Midi.fractionOfByte velocity, command, channel.val.toUInt8, noteToByte note, velocity, false⟩

namespace Engine

def sendController (engine : Engine) (time : Float) (channel : Channel) (controller : ControllerId)
    (value : Float) (isSetup : Bool) : Engine :=
  (controllerEvent? time channel controller value isSetup).elim engine engine.emit

/-- The messages that announce how many member channels belong to a manager. -/
def announceMembers (engine : Engine) (channel : Channel) (members : Nat) : Engine :=
  let control (number value : UInt8) : Midi.Event :=
    ⟨0.0, 0.0, .controlChange, channel.val.toUInt8, number, value, false⟩
  [control Midi.registeredMsb 0, control Midi.registeredLsb 6, control Midi.dataEntryMsb members.toUInt8].foldl
    emit engine

/-- Announces the zone, and that the other end of the channels has none, if the parameters ask for it. -/
def announceZone (engine : Engine) : Engine :=
  if engine.parameters.announces then
    (engine.announceMembers engine.manager engine.layout.zone.memberCount).announceMembers
      engine.layout.zone.oppositeManager 0
  else engine

end Engine

end PolyExpression
