import PolyExpression.Error
import PolyExpression.Midi.Event

/-!
Channel voice messages as they are sent. An event becomes a message at a frame of a block if its channel
exists; on the wire, data that is out of range is limited.
-/

namespace PolyExpression.Midi

/-- A channel voice message with its data as sent. -/
inductive VoiceMessage where
  | noteOff (note velocity : UInt8)
  | noteOn (note velocity : UInt8)
  | polyPressure (note pressure : UInt8)
  | controlChange (controller value : UInt8)
  | programChange (program : UInt8)
  | channelPressure (pressure : UInt8)
  | pitchBend (bend : UInt16)
  deriving DecidableEq, Repr

namespace VoiceMessage

def ofEvent (event : Event) : VoiceMessage :=
  match event.command with
  | .noteOff => .noteOff event.data1 event.data2
  | .noteOn => .noteOn event.data1 event.data2
  | .aftertouch => .polyPressure event.data1 event.data2
  | .controlChange => .controlChange event.data1 event.data2
  | .programChange => .programChange event.data1
  | .channelPressure => .channelPressure event.data1
  | .pitchBend => .pitchBend event.bendWord

/-- The note a message is about, if it is about one. -/
def note? : VoiceMessage → Option UInt8
  | .noteOff note _ | .noteOn note _ | .polyPressure note _ => some note
  | _ => none

def command : VoiceMessage → Command
  | .noteOff .. => .noteOff
  | .noteOn .. => .noteOn
  | .polyPressure .. => .aftertouch
  | .controlChange .. => .controlChange
  | .programChange _ => .programChange
  | .channelPressure _ => .channelPressure
  | .pitchBend _ => .pitchBend

/-- A byte limited to the data range. -/
def limited (b : UInt8) : UInt8 := min b 127

/-- The largest controller number that is no channel mode message. -/
def controllerMax : UInt8 := 119

/-- The data bytes on the wire: out-of-range data is limited, and a bend is sent low half first. -/
def data : VoiceMessage → List UInt8
  | .noteOff note velocity => [limited note, limited velocity]
  | .noteOn note velocity => [limited note, limited velocity]
  | .polyPressure note pressure => [limited note, limited pressure]
  | .controlChange controller value => [min controller controllerMax, limited value]
  | .programChange program => [limited program]
  | .channelPressure pressure => [limited pressure]
  | .pitchBend bend => [(bend &&& 0x7F).toUInt8, (bend >>> 7 &&& 0x7F).toUInt8]

end VoiceMessage

/-- A voice message at a frame of a block. -/
structure PlacedMessage where
  frame : Nat
  channel : Channel
  message : VoiceMessage
  deriving DecidableEq, Repr

namespace PlacedMessage

def note? (placed : PlacedMessage) : Option UInt8 := placed.message.note?

/-- The message as sent: the status byte and the data. -/
def bytes (placed : PlacedMessage) : List UInt8 :=
  placed.message.command.status placed.channel.val.toUInt8 :: placed.message.data

/-- Places an event at a frame, unless its channel does not exist. -/
def ofEvent (event : Event) (frame : Nat) : Except Error PlacedMessage :=
  if h : event.channel.toNat < 16 then .ok ⟨frame, ⟨event.channel.toNat, h⟩, .ofEvent event⟩
  else .error (.invalidChannel event.channel)

end PlacedMessage

end PolyExpression.Midi
