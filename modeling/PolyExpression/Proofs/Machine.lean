import PolyExpression.Engine.Run
import PolyExpression.Proofs.Cursor
import PolyExpression.Proofs.Emission
import PolyExpression.Proofs.Links

/-!
The engine on arrays. The stacks of notes are linked lists in arrays, the free channels are a ring of slots, and notes
are bytes that serve as indices. Every access to an array, every difference of counts and every loop is checked; what
touches no array is left to the engine's own functions, which see an engine without notes.
-/

namespace PolyExpression

open Checked
open Midi (Call)
open NoteStack (byteOf)

/-! ### Slots in a ring -/

/-- A ring of slots as a program keeps it. -/
structure Slots (α : Type) (capacity : Nat) where
  slots : Vector α capacity
  head : Nat
  size : Nat

namespace Slots

variable {α : Type} {capacity : Nat}

def clear (queue : Slots α capacity) : Slots α capacity := { queue with head := 0, size := 0 }

/-- Adds an item behind the others, unless all slots are taken. -/
def push (queue : Slots α capacity) (item : α) : Checked (Slots α capacity) :=
  if queue.size = capacity then .ok queue
  else do
    let slots ← write queue.slots ((queue.head + queue.size) % capacity) item
    return { queue with slots, size := queue.size + 1 }

def pop (queue : Slots α capacity) : Checked (Option α × Slots α capacity) :=
  if queue.size = 0 then .ok (none, queue)
  else do
    let item ← read queue.slots queue.head
    let size ← minus queue.size 1
    return (some item, { queue with head := (queue.head + 1) % capacity, size })

end Slots

/-! ### Notes as bytes -/

/-- Whether a byte is in the upper part of the keyboard. -/
def ZoneLayout.isAboveByte (layout : ZoneLayout) (note : UInt8) : Bool := layout.anchor.val ≤ note.toNat

/-- The note that is sent for a byte. -/
def ZoneLayout.transposeByte (layout : ZoneLayout) (note : UInt8) (isAbove : Bool) : Note :=
  nearestNote (note.toNat + (if isAbove then layout.transposeAbove else layout.transposeBelow))

/-- Whether a channel is a member's. -/
def Zone.checkMember (zone : Zone) (channel : Channel) : Checked Bool :=
  match zone.side with
  | .lower => .ok (1 ≤ channel.val && channel.val ≤ zone.memberCount)
  | .upper => do
      let lowest ← minus 15 zone.memberCount
      return lowest ≤ channel.val && channel.val < 15

namespace Engine

/-- The engine without what is kept in arrays. It still knows the channels of the roles and where the pedal is. -/
def core (engine : Engine) : Engine :=
  { engine with
    voices := { Voices.empty with roles := engine.voices.roles }
    free := .empty
    pedal := { Pedal.initial with isDown := engine.pedal.isDown }
    recent := Vector.replicate 124 .never }

def withRoles (engine : Engine) (roles : Roles) : Engine := { engine with voices := { engine.voices with roles } }

/-- Publishes a number of voices. -/
def publishCount (engine : Engine) (count : Nat) : Engine :=
  { engine with published := { engine.published with activeVoices := count } }

/-- Sends a rule's output to the channels in some slots. -/
def answer (engine : Engine) (time value : Float) (i : RuleIndex) (slots : List (Option Channel)) : Engine :=
  let rule := engine.rule i
  slots.foldl (fun engine channel? => channel?.elim engine fun channel =>
    engine.sendController time channel rule.output (rule.shape value) false) engine

/-- Resets the channels that have gained a role, rule by rule, when a note has ended. -/
def resetGained (engine : Engine) (time : Float) (isAbove : Bool) (before : Roles) : Engine :=
  (List.finRange ruleCount).foldl
    (fun engine i =>
      if (engine.rule i).needsReset isAbove then
        engine.resetDisplaced (engine.rule i) time none engine.voices.roles before
      else engine) engine

/-- Leaves the output of a reset for the readers of one block, and no other output. -/
def leaveReset (engine : Engine) : Engine :=
  if engine.hasReset then { engine with hasReset := false } else engine.clearEvents

end Engine

/-- An engine whose notes and channels are kept in arrays. -/
structure Machine where
  core : Engine
  held : Links
  below : Links
  above : Links
  deferred : Links
  /-- The channel of each note; none before a note has started for the first time. -/
  channels : PerNote (Option Channel)
  velocities : PerNote UInt8
  /-- The velocities of the releases that wait. -/
  releases : PerNote UInt8
  free : Slots Channel memberMax
  recent : Vector ControllerStamp 124

namespace Machine

/-- The machine with something done to the part that has no arrays. -/
def update (machine : Machine) (f : Engine → Engine) : Machine := { machine with core := f machine.core }

def stack (machine : Machine) : Region → Links
  | .all => machine.held
  | .below => machine.below
  | .above => machine.above

def channelAt (machine : Machine) (note : UInt8) : Checked Channel := do
  match ← machine.channels.read note with
  | some channel => return channel
  | none => throw .noChannel

/-- Looks the channels of all roles up. -/
def lookUpRoles (machine : Machine) : Checked Machine := do
  let all ← machine.held.roleChannels machine.channels
  let below ← machine.below.roleChannels machine.channels
  let above ← machine.above.roleChannels machine.channels
  return machine.update (·.withRoles ⟨all, below, above⟩)

def publishVoices (machine : Machine) : Machine := machine.update (·.publishCount machine.held.size)

/-! ### Notes -/

def startNote (machine : Machine) (time : Float) (channel : Channel) (note velocity : UInt8) : Checked Machine := do
  let isAbove := machine.core.layout.isAboveByte note
  let start : Engine.NoteStart := ⟨time, channel, machine.held.isEmpty, isAbove, machine.core.voices.roles⟩
  let event := noteEvent time .noteOn channel (machine.core.layout.transposeByte note isAbove) velocity
  let held ← machine.held.push note
  let channels ← machine.channels.write note (some channel)
  let velocities ← machine.velocities.write note velocity
  let below ← (if isAbove then .ok machine.below else machine.below.push note)
  let above ← (if isAbove then machine.above.push note else .ok machine.above)
  let machine ← lookUpRoles { machine with held, channels, velocities, below, above }
  return (machine.update fun core => ((core.prepare start true).emit event).prepare start false).publishVoices

def stopNote (machine : Machine) (time : Float) (channel : Channel) (note velocity : UInt8) : Checked Machine := do
  let isAbove := machine.core.layout.isAboveByte note
  let before := machine.core.voices.roles
  let velocity ← (if machine.core.parameters.overridesRelease then machine.velocities.read note else .ok velocity)
  let event := noteEvent time .noteOff channel (machine.core.layout.transposeByte note isAbove) velocity
  let held ← machine.held.remove note
  let above ← machine.above.remove note
  let below ← machine.below.remove note
  let machine ← lookUpRoles { machine.update (·.emit event) with held, above, below }
  let deferred ← machine.deferred.remove note
  return publishVoices { machine.update (·.resetGained time isAbove before) with deferred }

/-- Puts a channel among the free ones, if it is a member's. -/
def giveBack (machine : Machine) (channel : Channel) : Checked Machine := do
  if ← machine.core.layout.zone.checkMember channel then
    return { machine with free := ← machine.free.push channel }
  else return machine

def releaseNote (machine : Machine) (time : Float) (note velocity : UInt8) : Checked Machine := do
  let channel ← machine.channelAt note
  let machine ← machine.stopNote time channel note velocity
  machine.giveBack channel

/-- Carries out the latest of the releases that wait. -/
def releaseNext (time : Float) (machine : Machine) : Checked Machine := do
  let (note, deferred) ← machine.deferred.pop
  let velocity ← machine.releases.read note
  releaseNote { machine with deferred } time note velocity

/-- Carries out the releases that wait. There are at most as many as there are notes. -/
def releaseDeferred (machine : Machine) (time : Float) : Checked Machine :=
  loop (·.deferred.isEmpty) (releaseNext time) 128 machine

def replaceNote (machine : Machine) (time : Float) (old new velocity : UInt8) : Checked Machine := do
  let channel ← machine.channelAt old
  let machine ← machine.stopNote time channel old Midi.defaultVelocity
  machine.startNote time channel new velocity

/-- The held note that gives way when no channel is free. -/
def stolenNote? (machine : Machine) : Option UInt8 :=
  match machine.core.parameters.excessNotes with
  | .ignore => none
  | .steal role =>
      let note := machine.held.withRole role
      if note ≤ 127 then some note else none

def noteOn (machine : Machine) (time : Float) (note velocity : UInt8) : Checked Machine :=
  if 127 < note then .ok machine
  else do
    if ← machine.held.find note then
      match machine.core.parameters.excessNotes with
      | .ignore => return machine
      | .steal _ => machine.replaceNote time note note velocity
    else
      let (channel?, free) ← machine.free.pop
      match channel? with
      | some channel => startNote { machine with free } time channel note velocity
      | none =>
          match machine.stolenNote? with
          | none => return machine
          | some stolen => machine.replaceNote time stolen note velocity

def noteOff (machine : Machine) (time : Float) (note velocity : UInt8) : Checked Machine := do
  if ← machine.held.find note then
    if machine.core.parameters.holdsOnSustain && machine.core.pedal.isDown then
      let deferred ← machine.deferred.push note
      let releases ← machine.releases.write note velocity
      return { machine with deferred, releases }
    else machine.releaseNote time note velocity
  else return machine

/-! ### Controllers -/

/-- The slots that channels are gathered in, none of them taken. -/
def noTargets : Vector (Option Channel) 16 := Vector.replicate 16 none

/-- Puts the channels of a target into slots, and says how many there are. -/
def collectTargets (machine : Machine) (target : Target) (slots : Vector (Option Channel) 16) :
    Checked (Nat × Vector (Option Channel) 16) :=
  match target with
  | .global => return (1, ← write slots 0 (some machine.core.manager))
  | .allBelow => machine.below.gather machine.channels slots
  | .allAbove => machine.above.gather machine.channels slots
  | .voice region role =>
      if (machine.stack region).isEmpty then .ok (0, slots)
      else do
        let channel ← machine.channels.read ((machine.stack region).withRole role)
        return (1, ← write slots 0 channel)

/-- Puts the channels that a rule's output goes to into slots, and says how many there are. -/
def collectOutput (machine : Machine) (rule : Rule) (slots : Vector (Option Channel) 16) :
    Checked (Nat × Vector (Option Channel) 16) :=
  if machine.held.isEmpty && rule.hasFallback then return (1, ← write slots 0 (some machine.core.manager))
  else machine.collectTargets rule.target slots

/-- One rule's answer to a controller, with slots for the channels that it goes to. -/
def routeRule (time : Float) (controller : ControllerId) (value : Float)
    (state : Machine × Vector (Option Channel) 16) (i : RuleIndex) :
    Checked (Machine × Vector (Option Channel) 16) := do
  let machine := state.1.update (·.withInput controller value i)
  let (count, slots) ← machine.collectOutput (machine.core.rule i) state.2
  let channels ← front slots count
  return (machine.update (·.answer time value i channels), slots)

def route (machine : Machine) (time : Float) (controller : ControllerId) (value : Float) : Checked Machine :=
  let listeners := (List.finRange ruleCount).filter (machine.core.listens controller)
  if listeners.isEmpty then
    return machine.update fun core => core.sendController time core.manager controller value false
  else do
    let (machine, _) ← listeners.foldlM (routeRule time controller value) (machine, noTargets)
    return machine

def movePedal (machine : Machine) (time value : Float) : Checked Machine :=
  if machine.core.parameters.holdsOnSustain then
    let isDown : Bool := 0.5 ≤ value
    let machine := machine.update fun core => { core with pedal := { core.pedal with isDown } }
    if isDown then .ok machine else machine.releaseDeferred time
  else .ok machine

def moveController (machine : Machine) (time : Float) (controller : ControllerId) (raw : UInt16) (value : Float) :
    Checked Machine := do
  let stamp : ControllerStamp := ⟨time, raw⟩
  let last ← read machine.recent controller.index.val
  if last.isSame stamp then return machine
  else
    let recent ← write machine.recent controller.index.val stamp
    let machine ← route { machine with recent } time controller value
    if controller = .sustainPedal then machine.movePedal time value else return machine

def receive (machine : Machine) (time : Float) (call : Call) : Checked Machine :=
  if machine.core.isSuspended then .ok machine
  else match call with
    | .noteOn _ note velocity => machine.noteOn time note velocity
    | .noteOff _ note velocity => machine.noteOff time note velocity
    | .controlChange _ number value =>
        match ControllerId.ofByte? number with
        | none => .ok machine
        | some controller =>
            if controller.midiNumber?.isSome then
              machine.moveController time controller value.toUInt16 (Midi.fractionOfByte value)
            else .ok machine
    | .channelPressure _ pressure =>
        machine.moveController time .channelPressure pressure.toUInt16 (Midi.fractionOfByte pressure)
    | .pitchBend _ bend => machine.moveController time .pitchWheel bend (Midi.fractionOfWord bend)
    | .aftertouch .. | .programChange .. | .channelMode .. => .ok machine

/-- Raw bytes act. -/
def receiveBytes (machine : Machine) (time : Float) (bytes : List UInt8) : Checked Machine := do
  let decoded ← Midi.Cursor.decode machine.core.runningStatus bytes
  decoded.1.foldlM (fun machine call => machine.receive time call)
    (machine.update fun core => { core with runningStatus := decoded.2 })

/-! ### Resets -/

/-- Ends the newest note. -/
def silenceNext (machine : Machine) : Checked Machine := do
  let note := machine.held.head
  let channel ← machine.channelAt note
  stopNote (machine.update (·.sendController 0.0 channel .sustainPedal 0.0 false)) 0.0 channel note
    Midi.defaultVelocity

/-- Ends the held notes. There are at most as many as there are notes. -/
def endNotes (machine : Machine) : Checked Machine :=
  let machine :=
    if machine.held.isEmpty then machine
    else machine.update fun core => core.sendController 0.0 core.manager .sustainPedal 0.0 false
  loop (·.held.isEmpty) silenceNext 128 machine

def silence (machine : Machine) : Checked Machine := do
  let machine ← machine.endNotes
  let silent := machine.update fun core =>
    { core.withRoles .empty with pedal := { core.pedal with isDown := false } }
  return publishVoices { silent with held := .empty, below := .empty, above := .empty, deferred := .empty }

def refillChannels (machine : Machine) : Checked Machine := do
  return { machine with free := ← machine.core.layout.zone.members.foldlM Slots.push machine.free.clear }

def applyLayout (machine : Machine) : Checked Machine := do
  let layout := machine.core.wantedLayout
  let machine ← (machine.update (·.clearEvents)).silence
  let machine := machine.update fun core =>
    { core with layout, published := { core.published with channelCount := layout.zone.memberCount } }
  let machine ← machine.refillChannels
  return machine.update fun core => { core.announceZone.resetRules with hasReset := true }

def reset (machine : Machine) : Checked Machine :=
  if machine.core.isLayoutStale then machine.applyLayout
  else do
    let machine ← (machine.update (·.clearEvents)).silence
    let machine ← (machine.update fun core => core.announceZone.resetRules).refillChannels
    return machine.update fun core => { core with hasReset := true }

/-! ### Operations -/

/-- The start of a block once its messages have acted. -/
def openBlock (machine : Machine) : Checked Machine :=
  if machine.core.isSuspended then .ok (machine.update (·.clearEvents))
  else do
    let machine ← (if machine.core.isLayoutStale then machine.applyLayout else .ok machine)
    return machine.update (·.leaveReset)

def beginBlock (machine : Machine) : Checked Machine :=
  openBlock { machine.update (·.takeMessages) with recent := Vector.replicate 124 .never }

def perform (machine : Machine) : Operation → Checked Machine
  | .beginBlock => machine.beginBlock
  | .call time call => machine.receive time call
  | .bytes time bytes => machine.receiveBytes time bytes
  | .apply message => .ok (machine.update (·.apply message))
  | .post message => .ok (machine.update (·.offer message))
  | .takeMessages => .ok (machine.update (·.takeMessages))
  | .reset => machine.reset
  | .suspend => .ok (machine.update (·.suspend))
  | .resume => (machine.update fun core => { core with isSuspended := false }).reset
  | .clearDirty => .ok (machine.update (·.clearDirty))

def run (machine : Machine) (operations : List Operation) : Checked Machine := operations.foldlM perform machine

/-- The machine of a new engine: no links, no channels given to notes, and the members of the zone free. -/
def boot (engine : Engine) : Checked Machine :=
  refillChannels
    { core := engine.core
      held := .empty
      below := .empty
      above := .empty
      deferred := .empty
      channels := .replicate none
      velocities := .replicate 0
      releases := .replicate Midi.defaultVelocity
      free := ⟨Vector.replicate memberMax ZoneSide.lower.manager, 0, 0⟩
      recent := Vector.replicate 124 .never }

end Machine

end PolyExpression
