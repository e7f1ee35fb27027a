import PolyExpression.Proofs.Setup
import PolyExpression.Proofs.Turns

/-!
What a reset and a change of the zone send. Both end the held notes, the newest first, and then announce the zone and
send the initial values of the rules that target the whole of it. Main statement: in every engine that operations lead
to, each of them puts exactly these events into the output, and leaves nothing of the notes, the pedal or the inputs.
-/

namespace PolyExpression

open Midi (Event)

namespace Engine

variable {engine before after : Engine} {note : Note}

/-! ### The ends of the notes -/

/-- The event that lets the pedal go on a channel. -/
def pedalUp (channel : Channel) : Event := ⟨0.0, 0.0, .controlChange, channel.val.toUInt8, 64, 0, false⟩

theorem controllerEvents_pedalUp (channel : Channel) :
    controllerEvents 0.0 channel .sustainPedal 0.0 false = [pedalUp channel] := by
  have hbyte : Midi.byteOfFraction 0.0 = 0 := by decide +kernel
  show [(⟨0.0, 0.0, .controlChange, channel.val.toUInt8, 64, Midi.byteOfFraction 0.0, false⟩ : Event)] = _
  rw [hbyte]
  rfl

/-- What ending some notes one after the other sends: for each of them the pedal goes up on its channel, the note ends,
and the channels are reset that rules follow only from then on. -/
def partings (engine : Engine) : List Note → List Event
  | [] => []
  | note :: rest =>
      pedalUp (engine.voices.channelOf note) :: engine.ending 0.0 (note, Midi.defaultVelocity)
        :: ((engine.concerned note).flatMap fun rule =>
          rule.handover 0.0 ((engine.withoutVoice note).followed? rule.target) (engine.followed? rule.target))
      ++ (engine.withoutVoice note).partings rest

/-- What ending all held notes sends. The pedal goes up on the manager channel first. -/
def farewell (engine : Engine) : List Event :=
  if engine.voices.held.notes = [] then [] else pedalUp engine.manager :: engine.partings engine.voices.held.notes

theorem stopEvents_eq_ending (h : engine.voices.Coherent engine.layout) (time : Float) (note : Note)
    (velocity : UInt8) : engine.stopEvents time (engine.voices.channelOf note) note velocity =
      engine.ending time (note, velocity) :: (engine.concerned note).flatMap fun rule =>
        rule.handover time ((engine.withoutVoice note).followed? rule.target) (engine.followed? rule.target) := by
  unfold concerned
  rw [flatMap_rulesWith]
  refine congrArg (engine.ending time (note, velocity) :: ·) (List.flatMap_congr fun i _ => ?_)
  have hstopped : (engine.withoutVoice note).voices.Coherent (engine.withoutVoice note).layout := h.stop note
  have hreset := (engine.rule i).displacement_eq time none hstopped h fun _ _ => nofun
  rw [← hreset]
  rfl

theorem endings_eq_partings (h : engine.voices.Coherent engine.layout) (notes : List Note) :
    engine.endings notes = engine.partings notes := by
  induction notes generalizing engine with
  | nil => rfl
  | cons note rest ih =>
      have hrest : (engine.withoutVoice note).endings rest = (engine.withoutVoice note).partings rest :=
        ih (h.stop note)
      rw [endings, partings, hrest, silenceEvents, controllerEvents_pedalUp, stopEvents_eq_ending h]
      rfl

theorem silencing_eq_farewell (h : engine.voices.Coherent engine.layout) : engine.silencing = engine.farewell := by
  unfold silencing farewell
  rw [endings_eq_partings h, controllerEvents_pedalUp]
  by_cases hheld : engine.voices.held.notes = []
  · rw [if_pos (engine.voices.held.isEmpty_iff.mpr hheld), if_pos hheld, hheld]
    rfl
  · rw [if_neg (mt engine.voices.held.isEmpty_iff.mp hheld), if_neg hheld]
    rfl

theorem isNote_handover {rule : Rule} {time : Float} {old new : Option Channel} {event : Event}
    (h : event ∈ rule.handover time old new) : event.isNote = false := by
  unfold Rule.handover at h
  split at h
  · cases h
  · cases old with
    | none => cases h
    | some channel => exact isNote_controllerEvents h

/-- Of what ending some notes sends, one event ends each of them; the others set controllers. -/
theorem filter_isNote_partings (engine : Engine) (notes : List Note) :
    (engine.partings notes).filter Event.isNote =
      notes.map fun note => engine.ending 0.0 (note, Midi.defaultVelocity) := by
  induction notes generalizing engine with
  | nil => rfl
  | cons note rest ih =>
      have hresets : ((engine.concerned note).flatMap fun rule =>
          rule.handover 0.0 ((engine.withoutVoice note).followed? rule.target)
            (engine.followed? rule.target)).filter Event.isNote = [] := by
        refine List.filter_eq_nil_iff.mpr fun event hevent => ?_
        obtain ⟨rule, -, hrule⟩ := List.mem_flatMap.mp hevent
        rw [isNote_handover hrule]
        exact Bool.false_ne_true
      have hpedal : (pedalUp (engine.voices.channelOf note)).isNote = false := rfl
      have hending : (engine.ending 0.0 (note, Midi.defaultVelocity)).isNote = true := rfl
      rw [partings, List.filter_append, List.filter_cons, hpedal, if_neg Bool.false_ne_true, List.filter_cons,
        if_pos hending, hresets, ih]
      rfl

theorem filter_isNote_farewell (engine : Engine) : engine.farewell.filter Event.isNote =
    engine.voices.held.notes.map fun note => engine.ending 0.0 (note, Midi.defaultVelocity) := by
  unfold farewell
  split
  · next hheld =>
      rw [hheld]
      rfl
  · exact engine.filter_isNote_partings engine.voices.held.notes

/-! ### The start of the zone -/

/-- What announcing the zone that the parameters ask for sends, and the initial values of the rules that target all of
it. -/
def greeting (engine : Engine) : List Event :=
  let zone := engine.wantedLayout.zone
  (if engine.parameters.announces then announcement zone.manager zone.memberCount ++ announcement zone.oppositeManager 0
    else [])
  ++ (engine.rulesWith fun rule => rule.resetPolicy ≠ .off ∧ rule.target = .global).flatMap fun rule =>
    controllerEvents 0.0 zone.manager rule.output (rule.shape (rule.get .initialValue).ratio) false

theorem openings_restarted (engine : Engine) : engine.restarted.openings = engine.greeting := by
  let moved : Engine := { engine with layout := engine.wantedLayout }
  have hsame : moved.SameSettings engine.restarted := fun id => ParameterStore.get_forgetInputs _ _ id
  have hopenings : engine.restarted.openings = moved.openings := openings_congr hsame rfl
  rw [hopenings]
  unfold openings greeting
  dsimp only
  rw [flatMap_rulesWith]
  refine congrArg (moved.announcements ++ ·) (List.flatMap_congr fun i _ => ?_)
  have hrule : moved.rule i = engine.rule i := rfl
  unfold resetEvents
  dsimp only
  rw [hrule]
  by_cases hsilent : (engine.rule i).resetPolicy = .off ∨ (engine.rule i).target ≠ .global
  · have hnot : ¬((engine.rule i).resetPolicy ≠ .off ∧ (engine.rule i).target = .global) :=
      fun hsends => hsilent.elim hsends.1 fun hne => hne hsends.2
    rw [if_pos hsilent, if_neg (by simpa using hnot)]
  · have hsends : (engine.rule i).resetPolicy ≠ .off ∧ (engine.rule i).target = .global := by
      simpa [not_or] using hsilent
    rw [if_neg hsilent, if_pos (by simpa using hsends)]
    rfl

theorem time_of_mem_partings (engine : Engine) (notes : List Note) :
    ∀ event ∈ engine.partings notes, event.time = 0.0 := by
  induction notes generalizing engine with
  | nil => exact fun _ hevent => absurd hevent List.not_mem_nil
  | cons note rest ih =>
      refine List.forall_mem_append.mpr ⟨List.forall_mem_cons.mpr ⟨rfl, List.forall_mem_cons.mpr ⟨rfl, ?_⟩⟩, ih _⟩
      intro event hevent
      obtain ⟨rule, -, hrule⟩ := List.mem_flatMap.mp hevent
      exact time_of_mem_handover hrule

theorem time_of_mem_farewell {event : Event} (h : event ∈ engine.farewell) : event.time = 0.0 := by
  unfold farewell at h
  split at h
  · cases h
  · rcases List.mem_cons.mp h with rfl | hmem
    · rfl
    · exact engine.time_of_mem_partings _ event hmem

theorem time_of_mem_announcement {channel : Channel} {members : Nat} {event : Event}
    (h : event ∈ announcement channel members) : event.time = 0.0 := by
  simp only [announcement, List.mem_cons, List.not_mem_nil, or_false] at h
  rcases h with rfl | rfl | rfl <;> rfl

theorem time_of_mem_greeting {event : Event} (h : event ∈ engine.greeting) : event.time = 0.0 := by
  rcases List.mem_append.mp h with hzone | hrules
  · split at hzone
    · exact (List.mem_append.mp hzone).elim time_of_mem_announcement time_of_mem_announcement
    · cases hzone
  · obtain ⟨rule, -, hrule⟩ := List.mem_flatMap.mp hrules
    exact time_of_mem_controllerEvents hrule

/-! ### Starting over -/

/-- An engine has started over: what was in its output has been replaced, and it is as new but for its parameters. -/
structure StartsOver (before after : Engine) : Prop where
  events : after.events.toList = before.farewell ++ before.greeting
  times : ∀ event ∈ after.events.toList, event.time = 0.0
  endings : before.farewell.filter Event.isNote =
    before.voices.held.notes.map fun note => before.ending 0.0 (note, Midi.defaultVelocity)
  held : after.voices.held.notes = []
  deferred : after.pedal.deferred.notes = []
  isDown : after.pedal.isDown = false
  free : after.free.toList = after.layout.zone.members
  lastInput : ∀ i, (after.rule i).lastInput = ((after.rule i).get .initialValue).ratio
  settings : before.SameSettings after
  layout : after.layout = after.wantedLayout

theorem startsOver_reset (h : engine.voices.Coherent engine.layout) : StartsOver engine engine.reset := by
  have hevents : engine.reset.events.toList = engine.farewell ++ engine.greeting := by
    rw [events_reset, silencing_eq_farewell h, openings_restarted]
  have hsettings := engine.sameSettings_reset
  refine ⟨hevents, ?_, engine.filter_isNote_farewell, ?_, engine.deferred_reset, ?_, ?_, fun i => ?_, hsettings, ?_⟩
  · rw [hevents]
    exact fun event hevent => (List.mem_append.mp hevent).elim time_of_mem_farewell time_of_mem_greeting
  · rw [voices_reset, Voices.held_silence]
  · rw [pedal_reset]
    rfl
  · rw [free_reset, layout_reset]
    exact toList_clear_pushAll engine.free engine.wantedLayout.zone
  · have hrule : engine.reset.rule i = (engine.rule i).resetLastInput := by
      unfold rule
      rw [parameters_reset, ParameterStore.rule_forgetInputs, if_pos (List.mem_finRange i)]
    rw [hrule]
    rfl
  · rw [layout_reset, wantedLayout_congr hsettings]

/-- In every engine that operations lead to, a reset and a change to edited parameters of the zone start over, whether
the change is made by itself or at the start of a block. -/
theorem reset_starts_over (h : Reachable engine) : engine.InOrder
    ∧ StartsOver engine engine.reset
    ∧ (engine.isLayoutStale = true → StartsOver engine engine.applyLayout)
    ∧ (engine.isSuspended = false → engine.takeMessages.isLayoutStale = true →
      StartsOver engine.told engine.beginBlock) := by
  have hcoherent : engine.voices.Coherent engine.layout := h.balanced.coherent
  have hreset := startsOver_reset hcoherent
  refine ⟨h.inOrder, hreset, fun hstale => ?_, fun hactive hstale => ?_⟩
  · have hsame : engine.reset = engine.applyLayout := if_pos hstale
    rw [← hsame]
    exact hreset
  · have htold : engine.told.voices.Coherent engine.told.layout := by
      obtain ⟨parameters, published, recent, htold⟩ := engine.told_eq
      rw [htold]
      exact hcoherent
    have hover := startsOver_reset htold
    rw [beginBlock_eq_openBlock, openBlock_eq, if_pos (changesLayout_told_iff.mpr ⟨hactive, hstale⟩)]
    exact ⟨hover.events, hover.times, hover.endings, hover.held, hover.deferred, hover.isDown, hover.free,
      hover.lastInput, hover.settings, hover.layout⟩

/-- While two notes sound the zone moves to the other side, and a message that it has fewer members waits. One rule
targets the whole zone, three follow the newest note. -/
def zoneMoves : List Operation :=
  [.apply (.setParameter (.zone .announce) 1.0), .apply (.setParameter (.rule ⟨4, by decide⟩ .target) 0.0),
    .apply (.setParameter (.rule ⟨4, by decide⟩ .output) 0.602), .beginBlock,
    .call 0.0 (.noteOn 0 50 100), .call 0.0 (.noteOn 0 70 100), .apply (.setParameter (.zone .side) 1.0),
    .post (.setParameter (.zone .members) 0.3)]

theorem reset_starts_over_zoneMoves : Reachable (standard.run zoneMoves)
    ∧ (standard.run zoneMoves).isLayoutStale = true
    ∧ (standard.run zoneMoves).isSuspended = false
    ∧ (standard.run zoneMoves).takeMessages.isLayoutStale = true
    ∧ (standard.run zoneMoves).beginBlock.events.toList.map
        (fun event => (event.command, event.channel, event.data1)) =
      [(.controlChange, 0, 64), (.controlChange, 2, 64), (.noteOff, 2, 70), (.pitchBend, 1, 0),
        (.channelPressure, 1, 0), (.controlChange, 1, 74), (.controlChange, 1, 64), (.noteOff, 1, 50),
        (.controlChange, 15, 101), (.controlChange, 15, 100), (.controlChange, 15, 6), (.controlChange, 0, 101),
        (.controlChange, 0, 100), (.controlChange, 0, 6), (.controlChange, 15, 74)]
    ∧ (standard.run zoneMoves).InOrder
    ∧ StartsOver (standard.run zoneMoves) (standard.run zoneMoves).reset
    ∧ StartsOver (standard.run zoneMoves) (standard.run zoneMoves).applyLayout
    ∧ StartsOver (standard.run zoneMoves).told (standard.run zoneMoves).beginBlock := by
  have hreachable : Reachable (standard.run zoneMoves) := reachable_standard.run zoneMoves
  have hstale : (standard.run zoneMoves).isLayoutStale = true := by decide +kernel
  have hactive : (standard.run zoneMoves).isSuspended = false := by decide +kernel
  have hlater : (standard.run zoneMoves).takeMessages.isLayoutStale = true := by decide +kernel
  obtain ⟨horder, hreset, happly, hblock⟩ := reset_starts_over hreachable
  exact ⟨hreachable, hstale, hactive, hlater, by decide +kernel, horder, hreset, happly hstale, hblock hactive hlater⟩

end Engine

end PolyExpression
