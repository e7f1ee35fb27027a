import PolyExpression.Midi.VoiceMessage

/-!
Rendering a block. Each event of the engine gets a frame inside the block, events whose channel does not
exist are left out, and controllers that are not setup can be moved one frame behind the notes they
would otherwise coincide with.
-/

namespace PolyExpression.Midi

/-- How a block is rendered. -/
structure Block where
  sampleRate : Float
  length : Nat
  /-- Whether controllers that are not setup are moved one frame later. -/
  nudge : Bool

namespace Block

/-- The frame of an event in a block whose last frame is given. -/
def frame (block : Block) (lastFrame : Nat) (event : Event) : Nat :=
  let offset := event.sampleOffset block.sampleRate lastFrame
  if block.nudge && event.command.isController && !event.isSetup && offset < lastFrame then offset + 1
  else offset

/-- The messages of a block, in the order of the events. A block without frames has none. -/
def render (block : Block) (events : List Event) : List PlacedMessage :=
  match block.length with
  | 0 => []
  | lastFrame + 1 => events.filterMap fun event =>
      (PlacedMessage.ofEvent event (block.frame lastFrame event)).toOption

theorem frame_le (block : Block) (lastFrame : Nat) (event : Event) :
    block.frame lastFrame event ≤ lastFrame := by
  have h := event.sampleOffset_le block.sampleRate lastFrame
  simp only [frame]
  split
  · rename_i hlt
    simp only [Bool.and_eq_true, decide_eq_true_eq] at hlt
    exact hlt.2
  · exact h

end Block

end PolyExpression.Midi
