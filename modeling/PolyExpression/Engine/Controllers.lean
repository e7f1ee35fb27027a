import PolyExpression.Engine.Notes

/-!
Controllers that come in. Every rule that listens to a controller, or learns it, shapes the value and sends
it to the channels of its target; a controller no rule listens to goes to the manager channel as it is.
The sustain pedal then lets go of the releases that wait for it.
-/

namespace PolyExpression

namespace Engine

/-- A rule in learning mode takes a controller as its input. -/
def learn (engine : Engine) (i : RuleIndex) (controller : ControllerId) : Engine :=
  if (engine.rule i).input = .learn then
    let engine := engine.modifyRule i fun rule => rule.modify .input fun input => input.set controller.index.val
    (engine.publish (.rule i .input)).markDirty
  else engine

/-- Whether a rule is concerned by a controller. -/
def listens (engine : Engine) (controller : ControllerId) (i : RuleIndex) : Bool :=
  let input := (engine.rule i).input
  input == .learn || input == controller

/-- The channels a rule's output goes to. -/
def outputChannels (engine : Engine) (rule : Rule) : List Channel :=
  if engine.voices.held.isEmpty && rule.hasFallback then [engine.manager]
  else engine.voices.targets engine.manager rule.target

/-- One rule's answer to a controller. -/
def routeRule (time : Float) (controller : ControllerId) (value : Float) (engine : Engine) (i : RuleIndex) :
    Engine :=
  let engine := engine.learn i controller
  let engine := engine.modifyRule i fun rule => { rule with lastInput := value }
  let rule := engine.rule i
  let shaped := rule.shape value
  (engine.outputChannels rule).foldl
    (fun engine channel => engine.sendController time channel rule.output shaped false) engine

/-- All rules' answers to a controller. -/
def route (engine : Engine) (time : Float) (controller : ControllerId) (value : Float) : Engine :=
  let listeners := (List.finRange ruleCount).filter (engine.listens controller)
  if listeners.isEmpty then engine.sendController time engine.manager controller value false
  else listeners.foldl (routeRule time controller value) engine

/-- The pedal moves, if it is the engine's to handle. -/
def movePedal (engine : Engine) (time value : Float) : Engine :=
  if engine.parameters.holdsOnSustain then
    let isDown : Bool := 0.5 ≤ value
    let engine := { engine with pedal := { engine.pedal with isDown } }
    if isDown then engine else engine.releaseDeferred time
  else engine

/-- A controller moves; `raw` is the value as it came in. Of equal moves of a controller that follow each
other in a block all but the first are dropped. -/
def moveController (engine : Engine) (time : Float) (controller : ControllerId) (raw : UInt16) (value : Float) :
    Engine :=
  let stamp : ControllerStamp := ⟨time, raw⟩
  if engine.recent[controller.index].isSame stamp then engine
  else
    let engine := { engine with recent := engine.recent.set controller.index stamp }
    let engine := engine.route time controller value
    if controller = .sustainPedal then engine.movePedal time value else engine

end Engine

end PolyExpression
