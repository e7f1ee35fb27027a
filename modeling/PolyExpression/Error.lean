import PolyExpression.Decimal.Printing
import PolyExpression.Text.Quoted

/-!
What can go wrong, by cause, with one wording for each. Errors are reported under the area they come
from; for configuration and engine the wording says enough.
-/

namespace PolyExpression

/-- The lowest and highest sample rate, in Hertz. -/
def sampleRateMin : Float := 8000.0

def sampleRateMax : Float := 384000.0

/-- The most messages a queue can be asked to hold. -/
def queueCapacityMax : Nat := 1024 * 1024

/-- The fewest events that must fit into a block's output. -/
def eventCapacityMin : Nat := 32768

/-- The largest settings file, in bytes. -/
def fileSizeMax : Nat := 256 * 1024

inductive Error where
  /-- The sample rate is outside its limits, or no number. -/
  | sampleRate (rate : Float)
  /-- The message queue would hold nothing or too much. -/
  | queueCapacity (capacity : Nat)
  /-- The output would hold too few events. -/
  | eventCapacity (capacity : Nat)
  /-- There is no channel of this number. -/
  | invalidChannel (channel : UInt8)
  /-- No parameter has this name. -/
  | unknownParameter (name : String)
  /-- A message found no room in the queue. -/
  | queueFull (capacity : Nat)
  /-- A settings file does not exist. -/
  | fileMissing
  /-- A settings file is too large. -/
  | fileTooLarge (size : Nat)

/-- The part of the library an error comes from. -/
inductive ErrorArea where
  | configuration
  | midi
  | engine
  | presets
  deriving DecidableEq, Repr

namespace Error

def area : Error → ErrorArea
  | .sampleRate _ | .queueCapacity _ | .eventCapacity _ => .configuration
  | .invalidChannel _ => .midi
  | .unknownParameter _ | .queueFull _ => .engine
  | .fileMissing | .fileTooLarge _ => .presets

def message : Error → String
  | .sampleRate rate => "Invalid config: sample_rate " ++ Decimal.shortest rate ++ " out of range (8000-384000 Hz)"
  | .queueCapacity capacity =>
      "Invalid config: message_queue_capacity " ++ toString capacity ++ " out of range (1-" ++
        toString queueCapacityMax ++ ")"
  | .eventCapacity capacity =>
      "Invalid config: out_events_capacity " ++ toString capacity ++ " below minimum " ++ toString eventCapacityMin
  | .invalidChannel channel => "Invalid MIDI channel: " ++ toString channel.toNat
  | .unknownParameter name => "Unknown parameter: " ++ Text.quoted name
  | .queueFull capacity => "Message queue full (capacity " ++ toString capacity ++ ")"
  | .fileMissing => "I/O error: No such file or directory (os error 2)"
  | .fileTooLarge size =>
      "Settings file too large: " ++ toString size ++ " bytes (max " ++ toString fileSizeMax ++ ")"

/-- The message with its area in front, where the wording alone does not tell it. -/
def report (error : Error) : String :=
  match error.area with
  | .configuration | .engine => error.message
  | .midi => "MIDI: " ++ error.message
  | .presets => "Presets: " ++ error.message

end Error

end PolyExpression
