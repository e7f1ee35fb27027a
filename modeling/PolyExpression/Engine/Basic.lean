import PolyExpression.Error
import PolyExpression.Midi.Event
import PolyExpression.Parameter.NameTable
import PolyExpression.Parameter.Store
import PolyExpression.Voice.ChannelQueue
import PolyExpression.Voice.Voices

/-!
The state of the engine. The engine turns a stream of notes and controllers on any channel into a stream
in which every held note has a channel of its own. All its operations are functions on this state; times
come in with the events.
-/

namespace PolyExpression

/-- What an engine is built with. -/
structure Configuration where
  sampleRate : Float := 44100.0
  queueCapacity : Nat := 8192
  eventCapacity : Nat := eventCapacityMin

namespace Configuration

/-- The configuration itself if it is usable; otherwise the first of its faults, in the order of its fields. -/
def checked (config : Configuration) : Except Error Configuration :=
  if !(sampleRateMin ≤ config.sampleRate && config.sampleRate ≤ sampleRateMax) then
    .error (.sampleRate config.sampleRate)
  else if config.queueCapacity = 0 ∨ queueCapacityMax < config.queueCapacity then
    .error (.queueCapacity config.queueCapacity)
  else if config.eventCapacity < eventCapacityMin then
    .error (.eventCapacity config.eventCapacity)
  else .ok config

end Configuration

/-- What another thread asks of the parameters. -/
inductive Message where
  | setParameter (id : ParameterId) (ratio : Float)
  | refresh (id : ParameterId)
  | clear
  | clearDirty

/-- What another thread can see of the engine. -/
structure Published where
  ratios : Vector Float parameterCount
  /-- Whether a parameter has changed since somebody last took note of it. -/
  isDirty : Bool
  activeVoices : Nat
  channelCount : Nat

namespace Published

def ratioOf (published : Published) (id : ParameterId) : Float := published.ratios[id.number]

def setRatio (published : Published) (id : ParameterId) (ratio : Float) : Published :=
  { published with ratios := published.ratios.set id.number ratio }

/-- Every parameter's fraction as it stands in a store. -/
def setAll (published : Published) (store : ParameterStore) : Published :=
  { published with ratios := Vector.ofFn fun number => (store.get (.ofNumber number)).ratio }

def ofStore (store : ParameterStore) : Published :=
  setAll
    { ratios := Vector.replicate parameterCount 0.0
      isDirty := false
      activeVoices := 0
      channelCount := store.members } store

@[simp] theorem isDirty_setAll (published : Published) (store : ParameterStore) :
    (published.setAll store).isDirty = published.isDirty := by
  dsimp only [setAll]

@[simp] theorem activeVoices_setAll (published : Published) (store : ParameterStore) :
    (published.setAll store).activeVoices = published.activeVoices := by
  dsimp only [setAll]

@[simp] theorem channelCount_setAll (published : Published) (store : ParameterStore) :
    (published.setAll store).channelCount = published.channelCount := by
  dsimp only [setAll]

end Published

/-- The zone notes are spread over, and how they are moved before they are sent. -/
structure ZoneLayout where
  zone : Zone
  /-- The lowest note of the upper part of the keyboard. -/
  anchor : Note
  transposeBelow : Int
  transposeAbove : Int
  deriving DecidableEq

/-- An integer as a note, the nearest one if there is none. -/
def nearestNote (n : Int) : Note := ⟨min n.toNat 127, by omega⟩

namespace ZoneLayout

/-- The layout that the parameters ask for. -/
def ofStore (store : ParameterStore) : ZoneLayout where
  zone := .ofCount store.side store.members
  anchor := nearestNote (store.get (.zone .anchor)).value
  transposeBelow := store.transposeBelow
  transposeAbove := store.transposeAbove

/-- Whether a note is in the upper part. -/
def isAbove (layout : ZoneLayout) (note : Note) : Bool := layout.anchor.val ≤ note.val

/-- The note that is sent for a held note. -/
def transpose (layout : ZoneLayout) (note : Note) (isAbove : Bool) : Note :=
  nearestNote (note.val + (if isAbove then layout.transposeAbove else layout.transposeBelow))

end ZoneLayout

/-- The sustain pedal and the releases that wait for it. -/
structure Pedal where
  isDown : Bool
  deferred : NoteStack
  velocities : PerNote UInt8

namespace Pedal

def initial : Pedal := ⟨false, .empty, PerNote.replicate Midi.defaultVelocity⟩

/-- A release waits, with its velocity. -/
def hold (pedal : Pedal) (note : Note) (velocity : UInt8) : Pedal :=
  { pedal with deferred := pedal.deferred.push note, velocities := pedal.velocities.set note velocity }

def forget (pedal : Pedal) (note : Note) : Pedal := { pedal with deferred := pedal.deferred.erase note }

def velocityOf (pedal : Pedal) (note : Note) : UInt8 := pedal.velocities.get note

/-- The pedal is up and nothing waits. -/
def release (pedal : Pedal) : Pedal := { pedal with isDown := false, deferred := .empty }

end Pedal

/-- The last thing that came in from a controller in the current block. -/
structure ControllerStamp where
  time : Float
  value : UInt16

namespace ControllerStamp

/-- Before any time that an event can have. -/
def never : ControllerStamp := ⟨-(1.0 / 0.0), 0⟩

/-- Whether two events of a controller are the same; an event without a time is like no other. -/
def isSame (a b : ControllerStamp) : Bool := a.time == b.time && a.value == b.value

end ControllerStamp

structure Engine where
  config : Configuration
  parameters : ParameterStore
  published : Published
  /-- Messages that wait for the next block, oldest first. -/
  pending : List Message
  events : Array Midi.Event
  voices : Voices
  free : ChannelQueue
  pedal : Pedal
  recent : Vector ControllerStamp 124
  layout : ZoneLayout
  runningStatus : UInt8
  isSuspended : Bool
  /-- Whether the events in the output belong to a reset and have to outlast the start of the next block. -/
  hasReset : Bool

namespace Engine

def manager (engine : Engine) : Channel := engine.layout.zone.manager

/-- The free channels are the zone's members in order. -/
def refillChannels (engine : Engine) : Engine :=
  { engine with
    free := engine.layout.zone.members.foldl (fun free channel => (free.push channel).2) engine.free.clear }

/-- A new engine, if the configuration is usable. -/
def create (config : Configuration) : Except Error Engine := do
  let config ← config.checked
  let parameters := ParameterStore.initial
  return refillChannels
    { config, parameters
      published := .ofStore parameters
      pending := []
      events := #[]
      voices := .empty
      free := .empty
      pedal := .initial
      recent := Vector.replicate 124 .never
      layout := .ofStore parameters
      runningStatus := 0
      isSuspended := false
      hasReset := false }

def isAbove (engine : Engine) (note : Note) : Bool := engine.layout.isAbove note

def rule (engine : Engine) (i : RuleIndex) : Rule := engine.parameters.rule i

def modifyRule (engine : Engine) (i : RuleIndex) (f : Rule → Rule) : Engine :=
  { engine with parameters := engine.parameters.modifyRule i f }

def emit (engine : Engine) (event : Midi.Event) : Engine := { engine with events := engine.events.push event }

def clearEvents (engine : Engine) : Engine := { engine with events := #[] }

def publishVoices (engine : Engine) : Engine :=
  { engine with published := { engine.published with activeVoices := engine.voices.held.size } }

/-- Publishes a parameter's fraction as it stands. -/
def publish (engine : Engine) (id : ParameterId) : Engine :=
  { engine with published := engine.published.setRatio id (engine.parameters.get id).ratio }

def markDirty (engine : Engine) : Engine :=
  { engine with published := { engine.published with isDirty := true } }

def clearDirty (engine : Engine) : Engine :=
  { engine with published := { engine.published with isDirty := false } }

/-- The parameter of a name, or what to say if there is none. -/
def findParameter (name : String) : Except Error ParameterId :=
  match ParameterId.named? name with
  | some id => .ok id
  | none => .error (.unknownParameter name)

end Engine

end PolyExpression
