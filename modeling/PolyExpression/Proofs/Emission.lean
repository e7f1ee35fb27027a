import PolyExpression.Engine.Controllers
import PolyExpression.Engine.Reset

/-!
What the parts of an operation send. Each of them changes the state in a way that does not depend on the
output and appends a list of events that does not depend on the output either. Main statements: one equation
for each part that separates the two.
-/

namespace PolyExpression

open Midi (Event)

theorem ParameterStore.get_modifyRule_of_get (store : ParameterStore) {i : RuleIndex} {f : Rule → Rule}
    (hf : ∀ parameter, (f (store.rule i)).get parameter = (store.rule i).get parameter) (id : ParameterId) :
    (store.modifyRule i f).get id = store.get id := by
  cases id with
  | zone parameter => rfl
  | rule j parameter =>
      have hrule := store.rule_modifyRule i j f
      show ((store.modifyRule i f).rule j).get parameter = (store.rule j).get parameter
      by_cases hij : i = j
      · subst hij
        rw [hrule, if_pos rfl, hf]
      · rw [hrule, if_neg hij]

/-! ### Lists of events -/

/-- What sending a controller appends. -/
def controllerEvents (time : Float) (channel : Channel) (controller : ControllerId) (value : Float)
    (isSetup : Bool) : List Event :=
  (controllerEvent? time channel controller value isSetup).toList

/-- The reset of the channel that had a rule's role in `old` and has lost it in `new`, unless it is `own`. -/
def Rule.displacement (rule : Rule) (time : Float) (own : Option Channel) (old new : Roles) : List Event :=
  match rule.target.position? with
  | none => []
  | some (region, role) =>
      let displaced := old.channel? region role
      if displaced = new.channel? region role ∨ displaced = own then []
      else displaced.elim [] fun channel => controllerEvents time channel rule.output rule.resetValue false

/-- One rule's part of the setup around a note, after whose start the roles are `after`. -/
def Rule.setup (rule : Rule) (start : Engine.NoteStart) (isSetup : Bool) (manager : Channel) (after : Roles) :
    List Event :=
  if rule.needsReset start.isAbove then
    (if isSetup then rule.displacement start.time (some start.channel) start.before after else [])
      ++ (if start.isFirst && rule.hasFallback then
          controllerEvents start.time manager rule.output rule.resetValue isSetup
        else [])
      ++ controllerEvents start.time start.channel rule.output rule.resetValue isSetup
  else []

/-- Whether the event is what sending some controller appends. -/
def Midi.Event.SetsController (event : Event) : Prop :=
  ∃ time channel controller value isSetup, event ∈ controllerEvents time channel controller value isSetup

theorem setsController_of_mem {time : Float} {channel : Channel} {controller : ControllerId} {value : Float}
    {isSetup : Bool} {event : Event} (h : event ∈ controllerEvents time channel controller value isSetup) :
    event.SetsController :=
  ⟨time, channel, controller, value, isSetup, h⟩

theorem Rule.setsController_displacement {rule : Rule} {time : Float} {own : Option Channel} {old new : Roles}
    {event : Event} (h : event ∈ rule.displacement time own old new) : event.SetsController := by
  unfold displacement at h
  cases hposition : rule.target.position? with
  | none =>
      rw [hposition] at h
      cases h
  | some position =>
      rw [hposition] at h
      dsimp only at h
      split at h
      · cases h
      · cases hdisplaced : old.channel? position.1 position.2 with
        | none =>
            rw [hdisplaced] at h
            cases h
        | some channel =>
            rw [hdisplaced] at h
            exact setsController_of_mem h

theorem Rule.setsController_setup {rule : Rule} {start : Engine.NoteStart} {isSetup : Bool} {manager : Channel}
    {after : Roles} {event : Event} (h : event ∈ rule.setup start isSetup manager after) :
    event.SetsController := by
  unfold setup at h
  split at h
  · rcases List.mem_append.mp h with h | h
    · rcases List.mem_append.mp h with h | h
      · split at h
        · exact setsController_displacement h
        · cases h
      · split at h
        · exact setsController_of_mem h
        · cases h
    · exact setsController_of_mem h
  · cases h

namespace Engine

/-- The engine with events appended to its output. -/
def emitAll (engine : Engine) (events : List Event) : Engine :=
  { engine with events := engine.events ++ events.toArray }

@[simp] theorem emitAll_nil (engine : Engine) : engine.emitAll [] = engine := by
  simp [emitAll]

@[simp] theorem emitAll_emitAll (engine : Engine) (first second : List Event) :
    (engine.emitAll first).emitAll second = engine.emitAll (first ++ second) := by
  simp [emitAll, Array.append_assoc]

theorem emitAll_ite (engine : Engine) (p : Prop) [Decidable p] (events : List Event) :
    (if p then engine.emitAll events else engine) = engine.emitAll (if p then events else []) := by
  split
  · rfl
  · rw [emitAll_nil]

theorem emit_eq (engine : Engine) (event : Event) : engine.emit event = engine.emitAll [event] := by
  simp [emit, emitAll]

/-- Steps that only append, each depending on the state alone, append what they append one by one. -/
theorem foldl_emitAll {α : Type} {step : Engine → α → Engine} {output : Engine → α → List Event}
    (hstep : ∀ engine item, step engine item = engine.emitAll (output engine item))
    (houtput : ∀ engine events item, output (emitAll engine events) item = output engine item)
    (engine : Engine) (items : List α) :
    items.foldl step engine = engine.emitAll (items.flatMap (output engine)) := by
  induction items generalizing engine with
  | nil => simp
  | cons item items ih =>
      have hsame : output (engine.emitAll (output engine item)) = output engine := funext (houtput engine _)
      rw [List.foldl_cons, hstep, ih, hsame, emitAll_emitAll, List.flatMap_cons]

/-! ### Sending -/

theorem sendController_eq (engine : Engine) (time : Float) (channel : Channel) (controller : ControllerId)
    (value : Float) (isSetup : Bool) : engine.sendController time channel controller value isSetup =
      engine.emitAll (controllerEvents time channel controller value isSetup) := by
  unfold sendController controllerEvents
  cases controllerEvent? time channel controller value isSetup with
  | none => simp
  | some event => exact engine.emit_eq event

theorem resetDisplaced_eq (engine : Engine) (rule : Rule) (time : Float) (own : Option Channel)
    (old new : Roles) :
    engine.resetDisplaced rule time own old new = engine.emitAll (rule.displacement time own old new) := by
  unfold resetDisplaced Rule.displacement
  cases rule.target.position? with
  | none => simp
  | some position =>
      dsimp only
      split
      · simp
      · cases old.channel? position.1 position.2 with
        | none => simp
        | some channel => exact engine.sendController_eq ..

/-- The messages that announce a number of member channels. -/
def announcement (channel : Channel) (members : Nat) : List Event :=
  [⟨0.0, 0.0, .controlChange, channel.val.toUInt8, Midi.registeredMsb, 0, false⟩,
    ⟨0.0, 0.0, .controlChange, channel.val.toUInt8, Midi.registeredLsb, 6, false⟩,
    ⟨0.0, 0.0, .controlChange, channel.val.toUInt8, Midi.dataEntryMsb, members.toUInt8, false⟩]

theorem announceMembers_eq (engine : Engine) (channel : Channel) (members : Nat) :
    engine.announceMembers channel members = engine.emitAll (announcement channel members) := by
  have hemit : ∀ (e : Engine) (event : Event), e.emit event = e.emitAll ((fun _ event => [event]) e event) :=
    emit_eq
  refine (foldl_emitAll hemit (fun _ _ _ => rfl) engine _).trans ?_
  rw [List.flatMap_singleton']
  rfl

/-- What announcing the zone appends. -/
def announcements (engine : Engine) : List Event :=
  if engine.parameters.announces then
    announcement engine.manager engine.layout.zone.memberCount
      ++ announcement engine.layout.zone.oppositeManager 0
  else []

theorem announceZone_eq (engine : Engine) : engine.announceZone = engine.emitAll engine.announcements := by
  unfold announceZone announcements
  split
  · rw [announceMembers_eq, announceMembers_eq, emitAll_emitAll]
  · simp

/-! ### Notes -/

/-- All rules' setup around a note. -/
def setupEvents (engine : Engine) (start : NoteStart) (isSetup : Bool) : List Event :=
  (List.finRange ruleCount).flatMap fun i =>
    (engine.rule i).setup start isSetup engine.manager engine.voices.roles

theorem prepareRule_eq (start : NoteStart) (isSetup : Bool) (engine : Engine) (i : RuleIndex) :
    prepareRule start isSetup engine i =
      engine.emitAll ((engine.rule i).setup start isSetup engine.manager engine.voices.roles) := by
  unfold prepareRule Rule.setup
  simp only [resetDisplaced_eq, sendController_eq, emitAll_ite]
  simp only [emitAll_emitAll, emitAll_ite]
  rfl

theorem prepare_eq (engine : Engine) (start : NoteStart) (isSetup : Bool) :
    engine.prepare start isSetup = engine.emitAll (engine.setupEvents start isSetup) :=
  engine.foldl_emitAll (prepareRule_eq start isSetup) (fun _ _ _ => rfl) _

/-- The circumstances in which a note would start now. -/
def noteStart (engine : Engine) (time : Float) (channel : Channel) (note : Note) : NoteStart :=
  ⟨time, channel, engine.voices.held.isEmpty, engine.isAbove note, engine.voices.roles⟩

/-- The engine with a note among its voices, before anything is sent for it. -/
def withVoice (engine : Engine) (channel : Channel) (note : Note) (velocity : UInt8) : Engine :=
  { engine with voices := engine.voices.start note channel velocity (engine.isAbove note) }

/-- What starting a note appends: the setup, the note, and the setup again. -/
def startEvents (engine : Engine) (time : Float) (channel : Channel) (note : Note) (velocity : UInt8) :
    List Event :=
  (engine.withVoice channel note velocity).setupEvents (engine.noteStart time channel note) true
    ++ noteEvent time .noteOn channel (engine.layout.transpose note (engine.isAbove note)) velocity
    :: (engine.withVoice channel note velocity).setupEvents (engine.noteStart time channel note) false

theorem startNote_eq (engine : Engine) (time : Float) (channel : Channel) (note : Note) (velocity : UInt8) :
    engine.startNote time channel note velocity =
      ((engine.withVoice channel note velocity).publishVoices).emitAll
        (engine.startEvents time channel note velocity) := by
  have h : engine.startNote time channel note velocity =
      ((((engine.withVoice channel note velocity).prepare (engine.noteStart time channel note) true).emit
        (noteEvent time .noteOn channel (engine.layout.transpose note (engine.isAbove note)) velocity)).prepare
          (engine.noteStart time channel note) false).publishVoices := by
    unfold startNote
    simp only [prepare_eq, emit_eq]
    rfl
  rw [h]
  simp only [prepare_eq, emit_eq, emitAll_emitAll]
  simp only [startEvents, List.append_assoc, List.singleton_append]
  rfl

/-- The velocity that ending a note sends. -/
def releaseVelocity (engine : Engine) (note : Note) (velocity : UInt8) : UInt8 :=
  if engine.parameters.overridesRelease then engine.voices.velocityOf note else velocity

/-- What ending a note appends: the note, and the resets of the channels that gain a role by it. -/
def stopEvents (engine : Engine) (time : Float) (channel : Channel) (note : Note) (velocity : UInt8) :
    List Event :=
  noteEvent time .noteOff channel (engine.layout.transpose note (engine.isAbove note))
      (engine.releaseVelocity note velocity)
    :: (List.finRange ruleCount).flatMap fun i =>
      if (engine.rule i).needsReset (engine.isAbove note) then
        (engine.rule i).displacement time none (engine.voices.stop note).roles engine.voices.roles
      else []

/-- The engine without a note among its voices and the waiting releases. -/
def withoutVoice (engine : Engine) (note : Note) : Engine :=
  { engine with voices := engine.voices.stop note, pedal := engine.pedal.forget note }

theorem stopNote_eq (engine : Engine) (time : Float) (channel : Channel) (note : Note) (velocity : UInt8) :
    engine.stopNote time channel note velocity =
      ((engine.withoutVoice note).publishVoices).emitAll (engine.stopEvents time channel note velocity) := by
  let step (e : Engine) (i : RuleIndex) : Engine :=
    if (e.rule i).needsReset (engine.isAbove note) then
      e.resetDisplaced (e.rule i) time none e.voices.roles engine.voices.roles
    else e
  let output (e : Engine) (i : RuleIndex) : List Event :=
    if (e.rule i).needsReset (engine.isAbove note) then
      (e.rule i).displacement time none e.voices.roles engine.voices.roles
    else []
  let event := noteEvent time .noteOff channel (engine.layout.transpose note (engine.isAbove note))
    (engine.releaseVelocity note velocity)
  have hstep : ∀ e i, step e i = e.emitAll (output e i) := by
    intro e i
    simp only [step, output, resetDisplaced_eq, emitAll_ite]
  have hstop : engine.stopNote time channel note velocity =
      (let after := (List.finRange ruleCount).foldl step
        { engine.emit event with voices := engine.voices.stop note }
       { after with pedal := after.pedal.forget note }.publishVoices) := rfl
  rw [hstop, foldl_emitAll hstep (fun _ _ _ => rfl)]
  have hevents : engine.stopEvents time channel note velocity = event ::
      (List.finRange ruleCount).flatMap (output { engine.emit event with voices := engine.voices.stop note }) :=
    rfl
  rw [hevents, ← List.singleton_append, ← emitAll_emitAll]
  simp only [emit_eq]
  rfl

/-- The engine with a channel among the free ones, if the channel is a member's. -/
def giveBack (engine : Engine) (channel : Channel) : Engine :=
  if engine.layout.zone.isMember channel.val.toUInt8 then { engine with free := (engine.free.push channel).2 }
  else engine

theorem releaseNote_eq (engine : Engine) (time : Float) (note : Note) (velocity : UInt8) :
    engine.releaseNote time note velocity =
      (engine.stopNote time (engine.voices.channelOf note) note velocity).giveBack
        (engine.voices.channelOf note) :=
  rfl

/-- What ending a note in a reset appends: the pedal of its channel goes up first. -/
def silenceEvents (engine : Engine) (note : Note) : List Event :=
  controllerEvents 0.0 (engine.voices.channelOf note) .sustainPedal 0.0 false
    ++ engine.stopEvents 0.0 (engine.voices.channelOf note) note Midi.defaultVelocity

theorem silenceNote_eq (engine : Engine) (note : Note) : engine.silenceNote note =
    ((engine.withoutVoice note).publishVoices).emitAll (engine.silenceEvents note) := by
  unfold silenceNote silenceEvents
  dsimp only
  rw [sendController_eq, stopNote_eq, ← emitAll_emitAll]
  rfl

/-! ### Controllers -/

/-- The engine with a controller's value taken in by a rule, before anything is sent for it. -/
def withInput (engine : Engine) (controller : ControllerId) (value : Float) (i : RuleIndex) : Engine :=
  (engine.learn i controller).modifyRule i fun rule => { rule with lastInput := value }

/-- What a rule that has taken a value in appends. -/
def routeEvents (engine : Engine) (time value : Float) (i : RuleIndex) : List Event :=
  (engine.outputChannels (engine.rule i)).flatMap fun channel =>
    controllerEvents time channel (engine.rule i).output ((engine.rule i).shape value) false

theorem routeRule_eq (time : Float) (controller : ControllerId) (value : Float) (engine : Engine)
    (i : RuleIndex) :
    routeRule time controller value engine i = (engine.withInput controller value i).emitAll
      ((engine.withInput controller value i).routeEvents time value i) :=
  foldl_emitAll (fun e channel => e.sendController_eq time channel _ _ false) (fun _ _ _ => rfl) _ _

/-- What resetting a rule appends. -/
def resetEvents (engine : Engine) (i : RuleIndex) : List Event :=
  let rule := engine.rule i
  if rule.resetPolicy = .off ∨ rule.target ≠ .global then []
  else controllerEvents 0.0 engine.manager rule.output (rule.shape (rule.get .initialValue).ratio) false

theorem resetRule_eq (engine : Engine) (i : RuleIndex) : engine.resetRule i =
    (engine.modifyRule i Rule.resetLastInput).emitAll
      ((engine.modifyRule i Rule.resetLastInput).resetEvents i) := by
  unfold resetRule resetEvents
  dsimp only
  split
  · rw [emitAll_nil]
  · rw [sendController_eq]

/-! ### What stays as it is -/

@[simp] theorem toList_events_emitAll (engine : Engine) (events : List Event) :
    (engine.emitAll events).events.toList = engine.events.toList ++ events := by
  simp [emitAll]

@[simp] theorem rule_modifyRule (engine : Engine) (i j : RuleIndex) (f : Rule → Rule) :
    (engine.modifyRule i f).rule j = if i = j then f (engine.rule j) else engine.rule j :=
  engine.parameters.rule_modifyRule i j f

@[simp] theorem voices_startNote (engine : Engine) (time : Float) (channel : Channel) (note : Note)
    (velocity : UInt8) : (engine.startNote time channel note velocity).voices =
      engine.voices.start note channel velocity (engine.isAbove note) := by
  rw [startNote_eq]
  rfl

@[simp] theorem voices_stopNote (engine : Engine) (time : Float) (channel : Channel) (note : Note)
    (velocity : UInt8) : (engine.stopNote time channel note velocity).voices = engine.voices.stop note := by
  rw [stopNote_eq]
  rfl

@[simp] theorem layout_startNote (engine : Engine) (time : Float) (channel : Channel) (note : Note)
    (velocity : UInt8) : (engine.startNote time channel note velocity).layout = engine.layout := by
  rw [startNote_eq]
  rfl

@[simp] theorem layout_stopNote (engine : Engine) (time : Float) (channel : Channel) (note : Note)
    (velocity : UInt8) : (engine.stopNote time channel note velocity).layout = engine.layout := by
  rw [stopNote_eq]
  rfl

@[simp] theorem layout_silenceNote (engine : Engine) (note : Note) :
    (engine.silenceNote note).layout = engine.layout := by
  rw [silenceNote_eq]
  rfl

@[simp] theorem parameters_startNote (engine : Engine) (time : Float) (channel : Channel) (note : Note)
    (velocity : UInt8) : (engine.startNote time channel note velocity).parameters = engine.parameters := by
  rw [startNote_eq]
  rfl

@[simp] theorem parameters_stopNote (engine : Engine) (time : Float) (channel : Channel) (note : Note)
    (velocity : UInt8) : (engine.stopNote time channel note velocity).parameters = engine.parameters := by
  rw [stopNote_eq]
  rfl

@[simp] theorem parameters_silenceNote (engine : Engine) (note : Note) :
    (engine.silenceNote note).parameters = engine.parameters := by
  rw [silenceNote_eq]
  rfl

theorem withInput_frame (engine : Engine) (controller : ControllerId) (value : Float) (i : RuleIndex) :
    ∃ parameters published, engine.withInput controller value i = { engine with parameters, published } := by
  unfold withInput learn
  split
  · exact ⟨_, _, rfl⟩
  · exact ⟨_, _, rfl⟩

@[simp] theorem voices_routeRule (time : Float) (controller : ControllerId) (value : Float) (engine : Engine)
    (i : RuleIndex) : (routeRule time controller value engine i).voices = engine.voices := by
  obtain ⟨parameters, published, hinput⟩ := engine.withInput_frame controller value i
  rw [routeRule_eq, hinput]
  rfl

@[simp] theorem voices_route (engine : Engine) (time : Float) (controller : ControllerId) (value : Float) :
    (engine.route time controller value).voices = engine.voices := by
  unfold route
  dsimp only
  split
  · rw [sendController_eq]
    rfl
  · refine List.foldlRecOn _ _ (motive := fun e : Engine => e.voices = engine.voices) rfl fun e h i _ => ?_
    exact (voices_routeRule time controller value e i).trans h

/-! ### What is sent -/

theorem events_startNote (engine : Engine) (time : Float) (channel : Channel) (note : Note) (velocity : UInt8) :
    (engine.startNote time channel note velocity).events.toList =
      engine.events.toList ++ engine.startEvents time channel note velocity := by
  rw [startNote_eq]
  exact toList_events_emitAll _ _

theorem events_stopNote (engine : Engine) (time : Float) (channel : Channel) (note : Note) (velocity : UInt8) :
    (engine.stopNote time channel note velocity).events.toList =
      engine.events.toList ++ engine.stopEvents time channel note velocity := by
  rw [stopNote_eq]
  exact toList_events_emitAll _ _

theorem events_silenceNote (engine : Engine) (note : Note) :
    (engine.silenceNote note).events.toList = engine.events.toList ++ engine.silenceEvents note := by
  rw [silenceNote_eq]
  exact toList_events_emitAll _ _

theorem events_sendController (engine : Engine) (time : Float) (channel : Channel) (controller : ControllerId)
    (value : Float) : (engine.sendController time channel controller value false).events.toList =
      engine.events.toList ++ controllerEvents time channel controller value false := by
  rw [sendController_eq]
  exact toList_events_emitAll _ _

theorem events_routeRule (time : Float) (controller : ControllerId) (value : Float) (engine : Engine)
    (i : RuleIndex) :
    (routeRule time controller value engine i).events.toList =
      engine.events.toList ++ (engine.withInput controller value i).routeEvents time value i := by
  obtain ⟨parameters, published, hinput⟩ := engine.withInput_frame controller value i
  rw [routeRule_eq, toList_events_emitAll, hinput]

theorem setsController_setupEvents {engine : Engine} {start : NoteStart} {isSetup : Bool} {event : Event}
    (h : event ∈ engine.setupEvents start isSetup) : event.SetsController := by
  obtain ⟨i, -, hevent⟩ := List.mem_flatMap.mp h
  exact Rule.setsController_setup hevent

theorem setsController_routeEvents {engine : Engine} {time value : Float} {i : RuleIndex} {event : Event}
    (h : event ∈ engine.routeEvents time value i) : event.SetsController := by
  obtain ⟨channel, -, hevent⟩ := List.mem_flatMap.mp h
  exact setsController_of_mem hevent

theorem setsController_resetEvents {engine : Engine} {i : RuleIndex} {event : Event}
    (h : event ∈ engine.resetEvents i) : event.SetsController := by
  unfold resetEvents at h
  dsimp only at h
  split at h
  · exact absurd h List.not_mem_nil
  · exact setsController_of_mem h

/-- What starting a note sends is the note and controllers. -/
theorem mem_startEvents {engine : Engine} {time : Float} {channel : Channel} {note : Note} {velocity : UInt8}
    {event : Event} (h : event ∈ engine.startEvents time channel note velocity) :
    event = noteEvent time .noteOn channel (engine.layout.transpose note (engine.isAbove note)) velocity
      ∨ event.SetsController := by
  rcases List.mem_append.mp h with h | h
  · exact .inr (setsController_setupEvents h)
  · rcases List.mem_cons.mp h with h | h
    · exact .inl h
    · exact .inr (setsController_setupEvents h)

/-- What ending a note sends is the note and controllers. -/
theorem mem_stopEvents {engine : Engine} {time : Float} {channel : Channel} {note : Note} {velocity : UInt8}
    {event : Event} (h : event ∈ engine.stopEvents time channel note velocity) :
    event = noteEvent time .noteOff channel (engine.layout.transpose note (engine.isAbove note))
        (engine.releaseVelocity note velocity)
      ∨ event.SetsController := by
  rcases List.mem_cons.mp h with h | h
  · exact .inl h
  · obtain ⟨i, -, h⟩ := List.mem_flatMap.mp h
    split at h
    · exact .inr (Rule.setsController_displacement h)
    · cases h

theorem giveBack_frame (engine : Engine) (channel : Channel) :
    ∃ free, engine.giveBack channel = { engine with free } := by
  unfold giveBack
  split
  · exact ⟨_, rfl⟩
  · exact ⟨_, rfl⟩

@[simp] theorem voices_giveBack (engine : Engine) (channel : Channel) :
    (engine.giveBack channel).voices = engine.voices := by
  obtain ⟨free, hfree⟩ := engine.giveBack_frame channel
  rw [hfree]

@[simp] theorem voices_releaseNote (engine : Engine) (time : Float) (note : Note) (velocity : UInt8) :
    (engine.releaseNote time note velocity).voices = engine.voices.stop note := by
  rw [releaseNote_eq, voices_giveBack, voices_stopNote]

@[simp] theorem voices_silenceNote (engine : Engine) (note : Note) :
    (engine.silenceNote note).voices = engine.voices.stop note := by
  rw [silenceNote_eq]
  rfl

theorem pedal_startNote (engine : Engine) (time : Float) (channel : Channel) (note : Note) (velocity : UInt8) :
    (engine.startNote time channel note velocity).pedal = engine.pedal := by
  rw [startNote_eq]
  dsimp only [emitAll, publishVoices, withVoice]

theorem pedal_stopNote (engine : Engine) (time : Float) (channel : Channel) (note : Note) (velocity : UInt8) :
    (engine.stopNote time channel note velocity).pedal = engine.pedal.forget note := by
  rw [stopNote_eq]
  dsimp only [emitAll, publishVoices, withoutVoice]

theorem pedal_giveBack (engine : Engine) (channel : Channel) :
    (engine.giveBack channel).pedal = engine.pedal := by
  obtain ⟨free, hfree⟩ := engine.giveBack_frame channel
  rw [hfree]

theorem pedal_releaseNote (engine : Engine) (time : Float) (note : Note) (velocity : UInt8) :
    (engine.releaseNote time note velocity).pedal = engine.pedal.forget note := by
  rw [releaseNote_eq, pedal_giveBack, pedal_stopNote]

/-- A rule that takes a value in remembers it. -/
theorem rule_withInput {engine : Engine} {j : RuleIndex} (h : (engine.rule j).input ≠ .learn)
    (controller : ControllerId) (value : Float) (i : RuleIndex) :
    (engine.withInput controller value j).rule i =
      if j = i then { engine.rule i with lastInput := value } else engine.rule i := by
  have hlearn : engine.learn j controller = engine := if_neg h
  unfold withInput
  rw [hlearn]
  exact engine.rule_modifyRule j i _

theorem get_withInput_eq (engine : Engine) (controller : ControllerId) (value : Float) (i : RuleIndex)
    (id : ParameterId) : (engine.withInput controller value i).parameters.get id =
      (engine.learn i controller).parameters.get id :=
  ParameterStore.get_modifyRule_of_get _ (fun _ => rfl) id

/-- Taking a controller in changes no parameter but the input of a rule that learns it. -/
theorem get_withInput (engine : Engine) (controller : ControllerId) (value : Float) (i : RuleIndex)
    {id : ParameterId} (h : ∀ j, id = .rule j .input → (engine.rule j).input ≠ .learn) :
    (engine.withInput controller value i).parameters.get id = engine.parameters.get id := by
  have hlearn : (engine.learn i controller).parameters.get id = engine.parameters.get id := by
    unfold learn
    split
    · rename_i hinput
      show (engine.parameters.modify (.rule i .input) fun input => input.set controller.index.val).get id = _
      rw [ParameterStore.get_modify, if_neg fun heq => h i heq.symm hinput]
    · rfl
  exact (engine.get_withInput_eq controller value i id).trans hlearn

end Engine

end PolyExpression
