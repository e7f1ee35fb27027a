import PolyExpression.Decimal.Printing
import PolyExpression.Midi.Command

/-!
Events that leave the engine. An event keeps the exact time and value it was made from next to its data
bytes. Its place in a rendered block is the sample nearest to its time, never outside the block.
-/

namespace PolyExpression.Midi

/-- An outgoing event. Bytes are kept as given; encoding keeps their low seven bits. -/
structure Event where
  time : Float
  value : Float
  command : Command
  channel : UInt8
  data1 : UInt8
  data2 : UInt8
  /-- Whether the event prepares a channel for a note that starts right after it. -/
  isSetup : Bool

namespace Event

/-- The sample of a block at which the event is due, the block's last sample at the latest. -/
def sampleOffset (event : Event) (sampleRate : Float) (lastSample : Nat) : Nat :=
  min (nearestNat (event.time * sampleRate)) lastSample

/-- The event's MIDI message. -/
def bytes (event : Event) : List UInt8 :=
  let front := [event.command.status event.channel, dataBits event.data1]
  if event.command.dataLength = 2 then front ++ [dataBits event.data2] else front

/-- The fourteen bits of a pitch bend, the first data byte being the low half. -/
def bendWord (event : Event) : UInt16 :=
  (dataBits event.data2).toUInt16 <<< 7 ||| (dataBits event.data1).toUInt16

/-- A byte as two hexadecimal digits. -/
def hexByte (b : UInt8) : String :=
  String.ofList (Decimal.padded 2 (Nat.toDigits 16 b.toNat))

/-- The event in one line, for logs. -/
def description (event : Event) : String :=
  "t=" ++ Decimal.fixed 3 event.time ++ " cmd=" ++ event.command.name ++ " ch=" ++ toString event.channel.toNat
    ++ " d1=0x" ++ hexByte event.data1 ++ " d2=0x" ++ hexByte event.data2
    ++ " (v=" ++ Decimal.fixed 3 event.value ++ ")" ++ (if event.isSetup then " pre-NOTE_ON setup" else "")

theorem sampleOffset_le (event : Event) (sampleRate : Float) (lastSample : Nat) :
    event.sampleOffset sampleRate lastSample ≤ lastSample := Nat.min_le_right _ _

end Event

end PolyExpression.Midi
