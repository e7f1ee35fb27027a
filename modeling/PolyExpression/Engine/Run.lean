import PolyExpression.Engine.Controllers
import PolyExpression.Engine.Messages
import PolyExpression.Engine.Reset
import PolyExpression.Midi.Block
import PolyExpression.Midi.Outbox
import PolyExpression.Midi.Stream

/-!
The engine's operations. A host starts a block, feeds the events of the block and then reads the output.
While the engine is suspended it takes messages but no events. `run` carries out any sequence of
operations.
-/

namespace PolyExpression

/-- What a host can do with an engine. -/
inductive Operation where
  /-- The next block starts. -/
  | beginBlock
  /-- A decoded message comes in. -/
  | call (time : Float) (call : Midi.Call)
  /-- Raw bytes come in. -/
  | bytes (time : Float) (bytes : List UInt8)
  /-- A message acts at once. -/
  | apply (message : Message)
  /-- A message is put into the queue; if the queue is full it is lost. -/
  | post (message : Message)
  /-- The messages in the queue act. -/
  | takeMessages
  | reset
  | suspend
  | resume
  | clearDirty

namespace Engine

/-- Starts a block: messages act, the output is emptied, and a changed zone comes into force. Output of a
reset is left for this block's readers. -/
def beginBlock (engine : Engine) : Engine :=
  let engine := { engine.takeMessages with recent := Vector.replicate 124 .never }
  if engine.isSuspended then engine.clearEvents
  else
    let engine := if engine.isLayoutStale then engine.applyLayout else engine
    if engine.hasReset then { engine with hasReset := false } else engine.clearEvents

/-- A decoded message acts. Its channel does not matter. Bytes that are no notes and controllers beyond the
MIDI controllers are ignored, and so is what the engine has no use for. -/
def receive (engine : Engine) (time : Float) (call : Midi.Call) : Engine :=
  if engine.isSuspended then engine
  else match call with
    | .noteOn _ note velocity =>
        (noteOfByte? note).elim engine fun note => engine.strike time note velocity
    | .noteOff _ note velocity =>
        (noteOfByte? note).elim engine fun note => engine.lift time note velocity
    | .controlChange _ number value =>
        match ControllerId.ofByte? number with
        | none => engine
        | some controller =>
            if controller.midiNumber?.isSome then
              engine.moveController time controller value.toUInt16 (Midi.fractionOfByte value)
            else engine
    | .channelPressure _ pressure =>
        engine.moveController time .channelPressure pressure.toUInt16 (Midi.fractionOfByte pressure)
    | .pitchBend _ bend => engine.moveController time .pitchWheel bend (Midi.fractionOfWord bend)
    | .aftertouch .. | .programChange .. | .channelMode .. => engine

/-- Raw bytes act, all at the same time. -/
def receiveBytes (engine : Engine) (time : Float) (bytes : List UInt8) : Engine :=
  let decoded := Midi.Stream.decode engine.runningStatus bytes
  decoded.1.foldl (fun engine call => engine.receive time call) { engine with runningStatus := decoded.2 }

def suspend (engine : Engine) : Engine := { engine with isSuspended := true }

/-- Takes events again, after a reset. -/
def resume (engine : Engine) : Engine := { engine with isSuspended := false }.reset

def perform (engine : Engine) : Operation → Engine
  | .beginBlock => engine.beginBlock
  | .call time call => engine.receive time call
  | .bytes time bytes => engine.receiveBytes time bytes
  | .apply message => engine.apply message
  | .post message => engine.offer message
  | .takeMessages => engine.takeMessages
  | .reset => engine.reset
  | .suspend => engine.suspend
  | .resume => engine.resume
  | .clearDirty => engine.clearDirty

def run (engine : Engine) (operations : List Operation) : Engine := operations.foldl perform engine

/-- The output as messages in a block of the given length. -/
def render (engine : Engine) (length : Nat) (nudge : Bool) : List Midi.PlacedMessage :=
  Midi.Block.render ⟨engine.config.sampleRate, length, nudge⟩ engine.events.toList

/-- An empty outbox with room for all events of a block. -/
def outbox (engine : Engine) : Midi.Outbox := .empty engine.config.eventCapacity

/-- The engine in one line, for logs. -/
def description (engine : Engine) : String :=
  let zone := engine.layout.zone
  "Engine \x7b zone: Zone \x7b zone_type: " ++ zone.side.name ++ ", member_count: " ++ toString zone.memberCount
    ++ " \x7d, anchor: " ++ toString engine.layout.anchor.val
    ++ ", active_voices: " ++ toString engine.voices.held.size
    ++ ", available_channels: " ++ toString engine.free.size
    ++ ", out_events: " ++ toString engine.events.size
    ++ ", is_suspended: " ++ toString engine.isSuspended ++ " \x7d"

/-- The message queue in one line, for logs. -/
def queueDescription (engine : Engine) : String :=
  "ControlHandle \x7b capacity: " ++ toString engine.config.queueCapacity
    ++ ", pending: " ++ toString engine.pending.length ++ " \x7d"

end Engine

end PolyExpression
