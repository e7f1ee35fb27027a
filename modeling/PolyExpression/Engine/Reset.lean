import PolyExpression.Engine.Notes

/-!
Resets. A reset ends every held note, announces the zone, sends the initial values of the rules that target
the whole zone and makes all member channels free. A change of the zone's parameters brings one about, in
which the notes still end as the old zone started them.
-/

namespace PolyExpression

namespace Engine

/-- Lets the pedal go on a note's channel and ends the note. -/
def silenceNote (engine : Engine) (note : Note) : Engine :=
  let channel := engine.voices.channelOf note
  (engine.sendController 0.0 channel .sustainPedal 0.0 false).stopNote 0.0 channel note Midi.defaultVelocity

/-- Ends all notes, the newest first. -/
def silence (engine : Engine) : Engine :=
  let engine :=
    if engine.voices.held.isEmpty then engine
    else engine.sendController 0.0 engine.manager .sustainPedal 0.0 false
  let engine := engine.voices.held.notes.foldl silenceNote engine
  { engine with voices := engine.voices.silence, pedal := engine.pedal.release }.publishVoices

/-- A rule forgets its input and, if it targets the whole zone, sends its initial value. -/
def resetRule (engine : Engine) (i : RuleIndex) : Engine :=
  let engine := engine.modifyRule i Rule.resetLastInput
  let rule := engine.rule i
  if rule.resetPolicy = .off ∨ rule.target ≠ .global then engine
  else
    engine.sendController 0.0 engine.manager rule.output (rule.shape (rule.get .initialValue).ratio) false

def resetRules (engine : Engine) : Engine := (List.finRange ruleCount).foldl resetRule engine

/-- The layout that the parameters ask for. -/
def wantedLayout (engine : Engine) : ZoneLayout := .ofStore engine.parameters

/-- Whether the parameters ask for another layout than the one in use. -/
def isLayoutStale (engine : Engine) : Bool := engine.wantedLayout ≠ engine.layout

/-- Changes to the layout that the parameters ask for. -/
def applyLayout (engine : Engine) : Engine :=
  let layout := engine.wantedLayout
  let engine := engine.clearEvents.silence
  let engine :=
    { engine with
      layout
      published := { engine.published with channelCount := layout.zone.memberCount } }
  { engine.refillChannels.announceZone.resetRules with hasReset := true }

/-- Starts over: what was in the output is replaced by the events of the reset. -/
def reset (engine : Engine) : Engine :=
  if engine.isLayoutStale then engine.applyLayout
  else { engine.clearEvents.silence.announceZone.resetRules.refillChannels with hasReset := true }

end Engine

end PolyExpression
