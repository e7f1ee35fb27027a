/-!
Channel commands. The high four bits of a status byte name the command and the low four the channel.
-/

namespace PolyExpression

/-- One of the sixteen MIDI channels, counted from zero. -/
abbrev Channel := Fin 16

/-- One of the 128 MIDI notes. -/
abbrev Note := Fin 128

namespace Midi

/-- Coarse half of a registered parameter's number. -/
def registeredMsb : UInt8 := 0x65

/-- Fine half of a registered parameter's number. -/
def registeredLsb : UInt8 := 0x64

/-- Coarse half of the data entry. -/
def dataEntryMsb : UInt8 := 0x06

/-- The first controller number that is a channel mode message. -/
def firstChannelMode : UInt8 := 0x78

/-- The velocity of a release when none is given. -/
def defaultVelocity : UInt8 := 64

def isStatusByte (b : UInt8) : Bool := 0x80 ≤ b

/-- The seven bits of a byte that may travel as data. -/
def dataBits (b : UInt8) : UInt8 := b &&& 0x7F

/-- The seven channel voice commands. -/
inductive Command where
  | noteOff
  | noteOn
  | aftertouch
  | controlChange
  | programChange
  | channelPressure
  | pitchBend
  deriving DecidableEq, Repr

namespace Command

/-- The command's bits in a status byte. -/
def code : Command → UInt8
  | .noteOff => 0x80
  | .noteOn => 0x90
  | .aftertouch => 0xA0
  | .controlChange => 0xB0
  | .programChange => 0xC0
  | .channelPressure => 0xD0
  | .pitchBend => 0xE0

/-- The command of a status byte. Data bytes and system messages have none. -/
def ofStatus? (status : UInt8) : Option Command :=
  match status.toNat / 16 with
  | 8 => some .noteOff
  | 9 => some .noteOn
  | 10 => some .aftertouch
  | 11 => some .controlChange
  | 12 => some .programChange
  | 13 => some .channelPressure
  | 14 => some .pitchBend
  | _ => none

/-- The status byte on a channel, of which the low four bits count. -/
def status (command : Command) (channel : UInt8) : UInt8 := command.code ||| (channel &&& 0x0F)

/-- How many data bytes follow the status byte. -/
def dataLength : Command → Nat
  | .programChange | .channelPressure => 1
  | _ => 2

/-- Whether the command sets a controller of the whole channel. -/
def isController : Command → Bool
  | .controlChange | .channelPressure | .pitchBend => true
  | _ => false

/-- The command's name in descriptions of events. -/
def name : Command → String
  | .noteOff => "NoteOff"
  | .noteOn => "NoteOn"
  | .aftertouch => "Aftertouch"
  | .controlChange => "ControlChange"
  | .programChange => "ProgramChange"
  | .channelPressure => "ChannelPressure"
  | .pitchBend => "PitchBendChange"

theorem ofStatus?_status (command : Command) (channel : UInt8) :
    ofStatus? (command.status channel) = some command := by
  have h : ∀ low : UInt8, low &&& 0x0F = low → ofStatus? (command.code ||| low) = some command := by
    have hall : ∀ n : Fin 16, ofStatus? (command.code ||| UInt8.ofNat n) = some command := by
      cases command <;> decide
    intro low hlow
    have hlt : low.toNat < 16 := by
      rw [← hlow, UInt8.toNat_and]
      exact Nat.lt_succ_of_le Nat.and_le_right
    simpa using hall ⟨low.toNat, hlt⟩
  exact h _ (by rw [UInt8.and_assoc]; rfl)

end Command

end Midi

end PolyExpression
