import PolyExpression.Engine.Sending

/-!
Starting and ending notes. Before and after a note starts, its channel is set up with what the rules send
to it, and channels that lose a role to it are reset; when a note ends, channels that gain a role are. A
note for which no channel is free is ignored or takes the channel of a held one.
-/

namespace PolyExpression

namespace Engine

/-- Resets the channel that had a target's role in `old`, unless it still has it in `new` or is the channel
the event is about. -/
def resetDisplaced (engine : Engine) (rule : Rule) (time : Float) (own : Option Channel) (old new : Roles) :
    Engine :=
  match rule.target.position? with
  | none => engine
  | some (region, role) =>
      let displaced := old.channel? region role
      if displaced = new.channel? region role ∨ displaced = own then engine
      else displaced.elim engine fun channel =>
        engine.sendController time channel rule.output rule.resetValue false

/-- What the setup around a new note depends on: the note, and the roles before it started. -/
structure NoteStart where
  time : Float
  channel : Channel
  /-- Whether no other note was held. -/
  isFirst : Bool
  isAbove : Bool
  before : Roles

/-- One rule's part of the setup, in front of the note if `isSetup` and behind it otherwise. -/
def prepareRule (start : NoteStart) (isSetup : Bool) (engine : Engine) (i : RuleIndex) : Engine :=
  let rule := engine.rule i
  if rule.needsReset start.isAbove then
    let value := rule.resetValue
    let engine :=
      if isSetup then engine.resetDisplaced rule start.time (some start.channel) start.before engine.voices.roles
      else engine
    let engine :=
      if start.isFirst && rule.hasFallback then
        engine.sendController start.time engine.manager rule.output value isSetup
      else engine
    engine.sendController start.time start.channel rule.output value isSetup
  else engine

/-- All rules' setup of a new note's channel, in the order of the rules. -/
def prepare (engine : Engine) (start : NoteStart) (isSetup : Bool) : Engine :=
  (List.finRange ruleCount).foldl (prepareRule start isSetup) engine

/-- Starts a note on a channel. The setup is sent twice, because some receivers ignore controllers on a
channel without a sounding note. -/
def startNote (engine : Engine) (time : Float) (channel : Channel) (note : Note) (velocity : UInt8) : Engine :=
  let isAbove := engine.isAbove note
  let start : NoteStart := ⟨time, channel, engine.voices.held.isEmpty, isAbove, engine.voices.roles⟩
  let engine := { engine with voices := engine.voices.start note channel velocity isAbove }
  let engine := engine.prepare start true
  let engine := engine.emit (noteEvent time .noteOn channel (engine.layout.transpose note isAbove) velocity)
  (engine.prepare start false).publishVoices

/-- Ends a note that sounds on a channel. Whether the channel becomes free is the caller's affair. -/
def stopNote (engine : Engine) (time : Float) (channel : Channel) (note : Note) (velocity : UInt8) : Engine :=
  let velocity := if engine.parameters.overridesRelease then engine.voices.velocityOf note else velocity
  let isAbove := engine.isAbove note
  let engine := engine.emit (noteEvent time .noteOff channel (engine.layout.transpose note isAbove) velocity)
  let before := engine.voices.roles
  let engine := { engine with voices := engine.voices.stop note }
  let resetGained (engine : Engine) (i : RuleIndex) : Engine :=
    let rule := engine.rule i
    if rule.needsReset isAbove then engine.resetDisplaced rule time none engine.voices.roles before else engine
  let engine := (List.finRange ruleCount).foldl resetGained engine
  { engine with pedal := engine.pedal.forget note }.publishVoices

/-- Ends a held note and frees its channel. -/
def releaseNote (engine : Engine) (time : Float) (note : Note) (velocity : UInt8) : Engine :=
  let channel := engine.voices.channelOf note
  let engine := engine.stopNote time channel note velocity
  if engine.layout.zone.isMember channel.val.toUInt8 then { engine with free := (engine.free.push channel).2 }
  else engine

/-- Carries out the releases that wait for the pedal, the latest first. -/
def releaseDeferred (engine : Engine) (time : Float) : Engine :=
  engine.pedal.deferred.notes.foldl
    (fun engine note => engine.releaseNote time note (engine.pedal.velocityOf note)) engine

/-- Ends a held note and starts another one, or the same one again, on its channel. -/
def replaceNote (engine : Engine) (time : Float) (old new : Note) (velocity : UInt8) : Engine :=
  let channel := engine.voices.channelOf old
  (engine.stopNote time channel old Midi.defaultVelocity).startNote time channel new velocity

/-- The held note that gives way when no channel is free. -/
def stolenNote? (engine : Engine) : Option Note :=
  match engine.parameters.excessNotes with
  | .ignore => none
  | .steal role => engine.voices.held.withRole? role

/-- A note is struck. -/
def strike (engine : Engine) (time : Float) (note : Note) (velocity : UInt8) : Engine :=
  if engine.voices.held.contains note then
    match engine.parameters.excessNotes with
    | .ignore => engine
    | .steal _ => engine.replaceNote time note note velocity
  else
    match engine.free.pop with
    | (some channel, free) => { engine with free }.startNote time channel note velocity
    | (none, _) =>
        engine.stolenNote?.elim engine fun stolen => engine.replaceNote time stolen note velocity

/-- A note is released. While the pedal is down and holds releases, the release waits. -/
def lift (engine : Engine) (time : Float) (note : Note) (velocity : UInt8) : Engine :=
  if engine.voices.held.contains note then
    if engine.parameters.holdsOnSustain && engine.pedal.isDown then
      { engine with pedal := engine.pedal.hold note velocity }
    else engine.releaseNote time note velocity
  else engine

end Engine

end PolyExpression
