import PolyExpression.Proofs.Admission
import PolyExpression.Proofs.Output

/-!
The setup around a note that starts. The rules whose reset applies to the note's side of the anchor send their reset
values twice, in front of the note and behind it; in front of it a channel which a rule has followed until then is reset
as well. Main statement: in every engine that operations lead to, a note that starts is sent like this and with nothing
else, apart from the end of the note it replaces.
-/

namespace PolyExpression

open Midi (Event)

/-! ### What rules follow -/

/-- The notes of a region among notes that are held. -/
def Region.notesOf (region : Region) (layout : ZoneLayout) (notes : List Note) : List Note :=
  match region with
  | .all => notes
  | .below => notes.filter (· < layout.anchor)
  | .above => notes.filter (layout.anchor ≤ ·)

theorem Voices.Coherent.notes_stack {voices : Voices} {layout : ZoneLayout} (h : voices.Coherent layout)
    (region : Region) : (voices.stack region).notes = region.notesOf layout voices.held.notes := by
  cases region with
  | all => rfl
  | below => exact h.below.trans (List.filter_congr fun note _ => layout.not_isAbove note)
  | above => exact h.above.trans (List.filter_congr fun note _ => rfl)

/-- The channel which a target picks out by a role, if it is one that follows a single note and there is one. -/
def Engine.followed? (engine : Engine) : Target → Option Channel
  | .voice region role =>
      (role.among (region.notesOf engine.layout engine.voices.held.notes)).map engine.voices.channelOf
  | _ => none

theorem Engine.channel?_roles {engine : Engine} (h : engine.voices.Coherent engine.layout) (region : Region)
    (role : Role) : engine.voices.roles.channel? region role = engine.followed? (.voice region role) := by
  rw [h.channel?_eq, NoteStack.withRole?_eq, h.notes_stack]
  rfl

/-- Who is followed is held. -/
theorem Engine.followed?_mem {engine : Engine} (h : engine.voices.Coherent engine.layout) {target : Target}
    {channel : Channel} (hfollowed : engine.followed? target = some channel) :
    channel ∈ engine.voices.heldChannels := by
  cases target with
  | voice region role =>
      rw [← engine.channel?_roles h, h.channel?_eq] at hfollowed
      obtain ⟨note, hnote, rfl⟩ := Option.map_eq_some_iff.mp hfollowed
      exact List.mem_map_of_mem (h.mem_held (NoteStack.mem_of_withRole? hnote))
  | _ => cases hfollowed

theorem Engine.followed?_congr {before after : Engine} (hvoices : after.voices = before.voices)
    (hlayout : after.layout = before.layout) : after.followed? = before.followed? := by
  funext target
  unfold followed?
  rw [hvoices, hlayout]

/-- The reset of a channel which a rule has followed and follows no longer. -/
def Rule.handover (rule : Rule) (time : Float) (old new : Option Channel) : List Event :=
  if old = new then [] else old.elim [] fun channel => controllerEvents time channel rule.output rule.resetValue false

theorem Rule.displacement_eq (rule : Rule) (time : Float) (own : Option Channel) {before after : Engine}
    (hbefore : before.voices.Coherent before.layout) (hafter : after.voices.Coherent after.layout)
    (hown : ∀ channel, before.followed? rule.target = some channel → own ≠ some channel) :
    rule.displacement time own before.voices.roles after.voices.roles =
      rule.handover time (before.followed? rule.target) (after.followed? rule.target) := by
  unfold displacement handover
  cases htarget : rule.target with
  | voice region role =>
      rw [htarget] at hown
      dsimp only [Target.position?]
      rw [before.channel?_roles hbefore, after.channel?_roles hafter]
      cases hold : before.followed? (.voice region role) with
      | none => simp
      | some channel =>
          have hne : some channel ≠ own := (hown channel hold).symm
          simp only [hne, or_false]
  | _ => rfl

/-! ### The setup -/

/-- The event as part of the setup in front of a note. -/
def Midi.Event.asSetup (event : Event) : Event := { event with isSetup := true }

theorem map_asSetup_controllerEvents (time : Float) (channel : Channel) (controller : ControllerId) (value : Float) :
    (controllerEvents time channel controller value false).map Event.asSetup =
      controllerEvents time channel controller value true := by
  unfold controllerEvents controllerEvent?
  dsimp only
  split
  · rfl
  · split
    · rfl
    · cases controller.midiNumber? <;> rfl

/-- What a rule sends in the setup of a note's channel: its reset value, if the output can be sent. Before the first
note the manager gets it too if it stands in for the target. -/
def Rule.entries (rule : Rule) (time : Float) (manager channel : Channel) (isFirst : Bool) : List Event :=
  (if isFirst && rule.hasFallback then controllerEvents time manager rule.output rule.resetValue false else [])
    ++ controllerEvents time channel rule.output rule.resetValue false

theorem Rule.setup_true (rule : Rule) (start : Engine.NoteStart) (manager : Channel) (after : Roles) :
    rule.setup start true manager after = if rule.needsReset start.isAbove then
      rule.displacement start.time (some start.channel) start.before after
        ++ (rule.entries start.time manager start.channel start.isFirst).map Event.asSetup
    else [] := by
  unfold setup entries
  rw [List.map_append, map_asSetup_controllerEvents, apply_ite (List.map Event.asSetup),
    map_asSetup_controllerEvents, List.map_nil, if_pos rfl, List.append_assoc]

namespace Engine

/-- The rules with a property, in their order. -/
def rulesWith (engine : Engine) (p : Rule → Bool) : List Rule := ((List.finRange ruleCount).map engine.rule).filter p

/-- The rules whose reset applies to a note's side of the anchor. -/
def concerned (engine : Engine) (note : Note) : List Rule :=
  engine.rulesWith fun rule => rule.needsReset (engine.isAbove note)

/-- What follows a note that starts on a channel. -/
def setupBehind (before : Engine) (time : Float) (channel : Channel) (note : Note) : List Event :=
  (before.concerned note).flatMap fun rule =>
    rule.entries time before.manager channel before.voices.held.notes.isEmpty

/-- What precedes it: the same as setup, and in front of a rule's part the reset of the channel it has followed. -/
def setupInFront (before after : Engine) (time : Float) (channel : Channel) (note : Note) : List Event :=
  (before.concerned note).flatMap fun rule =>
    rule.handover time (before.followed? rule.target) (after.followed? rule.target)
      ++ (rule.entries time before.manager channel before.voices.held.notes.isEmpty).map Event.asSetup

variable {engine before after : Engine} {note : Note} {channel : Channel}

theorem flatMap_rulesWith (engine : Engine) (p : Rule → Bool) (f : Rule → List Event) :
    (engine.rulesWith p).flatMap f = (List.finRange ruleCount).flatMap fun i =>
      if p (engine.rule i) then f (engine.rule i) else [] := by
  unfold rulesWith
  induction List.finRange ruleCount with
  | nil => rfl
  | cons i rest ih =>
      rw [List.map_cons, List.filter_cons, List.flatMap_cons, ← ih]
      split <;> rfl

/-- What starting a note sends. -/
theorem startEvents_eq_setup (h : Balanced ([channel], engine)) (hnote : note ∉ engine.voices.held.notes)
    (time : Float) (velocity : UInt8) : engine.startEvents time channel note velocity =
      engine.setupInFront (engine.startNote time channel note velocity) time channel note
        ++ noteEvent time .noteOn channel (engine.layout.transpose note (engine.isAbove note)) velocity
        :: engine.setupBehind time channel note := by
  have hafter := (h.start time velocity hnote).coherent
  have hinFront : (engine.withVoice channel note velocity).setupEvents (engine.noteStart time channel note) true =
      engine.setupInFront (engine.startNote time channel note velocity) time channel note := by
    unfold setupInFront setupEvents concerned
    rw [flatMap_rulesWith]
    refine List.flatMap_congr fun i _ => ?_
    -- No held note has the new note's channel, so it never matters that this channel is left out.
    have hown : ∀ other, engine.followed? (engine.rule i).target = some other → some channel ≠ some other := by
      rintro other hother heq
      exact h.not_mem_held (Option.some.inj heq ▸ engine.followed?_mem h.coherent hother)
    have hreset := (engine.rule i).displacement_eq time (some channel) h.coherent hafter hown
    rw [voices_startNote] at hreset
    rw [Rule.setup_true, ← hreset]
    rfl
  have hbehind : (engine.withVoice channel note velocity).setupEvents (engine.noteStart time channel note) false =
      engine.setupBehind time channel note := by
    unfold setupBehind concerned
    rw [flatMap_rulesWith]
    exact List.flatMap_congr fun i _ => rfl
  rw [startEvents, hinFront, hbehind]

/-! ### Notes that start -/

/-- The engine just before a note starts on a channel, when the note has ended that had the channel until then. -/
def vacated (engine : Engine) (time : Float) (channel : Channel) (ended : Option Note) : Engine :=
  ended.elim engine fun old => engine.stopNote time channel old Midi.defaultVelocity

theorem vacated_some (engine : Engine) (time : Float) (channel : Channel) (old : Note) :
    engine.vacated time channel (some old) = engine.stopNote time channel old Midi.defaultVelocity :=
  rfl

theorem events_vacated (engine : Engine) (time : Float) (channel : Channel) (ended : Option Note) :
    (engine.vacated time channel ended).events.toList = engine.events.toList
      ++ ended.elim [] fun old => engine.stopEvents time channel old Midi.defaultVelocity := by
  cases ended with
  | none => exact (List.append_nil _).symm
  | some old => exact engine.events_stopNote ..

/-- A channel is there for a note that is not held. It has been taken from those that are free, or one note has ended
on it; apart from the free channels nothing else has happened. -/
structure Vacates (time : Float) (note : Note) (channel : Channel) (ended : Option Note) (before after : Engine) :
    Prop where
  sounded : ∀ old ∈ ended, old ∈ before.voices.held.notes ∧ before.voices.channelOf old = channel
  balanced : Balanced ([channel], after)
  not_held : note ∉ after.voices.held.notes
  voices : after.voices = (before.vacated time channel ended).voices
  layout : after.layout = (before.vacated time channel ended).layout
  parameters : after.parameters = (before.vacated time channel ended).parameters
  events : after.events = (before.vacated time channel ended).events

theorem vacates_take (h : Balanced ([], engine)) (hpop : engine.free.pop.1 = some channel)
    (hnot : note ∉ engine.voices.held.notes) (time : Float) :
    Vacates time note channel none engine { engine with free := engine.free.pop.2 } :=
  ⟨nofun, h.take hpop, hnot, rfl, rfl, rfl, rfl⟩

theorem vacates_stop (h : Balanced ([], engine)) {old : Note} (hold : old ∈ engine.voices.held.notes)
    (hnot : note ∉ engine.voices.held.notes.erase old) (time : Float) :
    Vacates time note (engine.voices.channelOf old) (some old) engine
      (engine.stopNote time (engine.voices.channelOf old) old Midi.defaultVelocity) where
  sounded := by
    rintro other hother
    obtain rfl := Option.some.inj hother
    exact ⟨hold, rfl⟩
  balanced := h.stop time Midi.defaultVelocity hold
  not_held := by
    rw [voices_stopNote, Voices.held_stop]
    exact hnot
  voices := by rw [vacated_some]
  layout := by rw [vacated_some]
  parameters := by rw [vacated_some]
  events := by rw [vacated_some]

/-- A note that is struck changes nothing, or it starts on a channel that is there for it. -/
theorem strike_starts (h : Balanced ([], engine)) (time : Float) (note : Note) (velocity : UInt8) :
    engine.strike time note velocity = engine ∨ ∃ channel ended between,
      Vacates time note channel ended engine between
      ∧ engine.strike time note velocity = between.startNote time channel note velocity := by
  obtain ⟨-, hstrike⟩ | ⟨hheld, -, hstrike⟩ | ⟨hnot, channel, hpop, hstrike⟩ | ⟨hnot, stolen, hstolen, hstrike⟩ :=
    engine.strike_cases time note velocity
  · exact .inl hstrike
  · exact .inr ⟨_, _, _, vacates_stop h hheld engine.voices.held.nodup.not_mem_erase time, hstrike⟩
  · exact .inr ⟨channel, none, _, vacates_take h hpop hnot time, hstrike⟩
  · have hnew : note ∉ engine.voices.held.notes.erase stolen := fun hmem => hnot (List.mem_of_mem_erase hmem)
    exact .inr ⟨_, _, _, vacates_stop h hstolen hnew time, hstrike⟩

theorem Vacates.startEvents {time : Float} {ended : Option Note} {between : Engine}
    (h : Vacates time note channel ended engine between) (velocity : UInt8) :
    between.startEvents time channel note velocity =
      (engine.vacated time channel ended).setupInFront (between.startNote time channel note velocity) time channel
          note
        ++ noteEvent time .noteOn channel (engine.layout.transpose note (engine.isAbove note)) velocity
        :: (engine.vacated time channel ended).setupBehind time channel note := by
  have hlayout : (engine.vacated time channel ended).layout = engine.layout := by
    cases ended with
    | none => rfl
    | some old => exact engine.layout_stopNote ..
  have hbetween := h.layout.trans hlayout
  have hfollowed := followed?_congr h.voices h.layout
  rw [startEvents_eq_setup h.balanced h.not_held]
  unfold setupInFront setupBehind concerned rulesWith isAbove rule manager
  rw [hfollowed, h.voices, h.parameters, hbetween, hlayout]

/-! ### What an operation sends -/

/-- The events of a message are behind those that were there before it. -/
theorem events_receive (engine : Engine) (time : Float) (call : Midi.Call) :
    (engine.receive time call).events.toList = engine.events.toList ++ engine.emitted (.call time call) := by
  have h := ignoresOutput_receive time call engine.clearEvents engine.events
  dsimp only at h
  rw [clearEvents_after] at h
  rw [h]
  exact Array.toList_append

theorem time_of_mem_controllerEvents {time : Float} {controller : ControllerId} {value : Float} {isSetup : Bool}
    {event : Event} (h : event ∈ controllerEvents time channel controller value isSetup) : event.time = time := by
  have hevent := Option.mem_toList.mp h
  unfold controllerEvent? at hevent
  dsimp only at hevent
  split at hevent
  · rw [← Option.some.inj hevent]
  · split at hevent
    · rw [← Option.some.inj hevent]
    · obtain ⟨number, -, rfl⟩ := Option.map_eq_some_iff.mp hevent
      rfl

theorem time_of_mem_entries {rule : Rule} {time : Float} {manager : Channel} {isFirst : Bool} {event : Event}
    (h : event ∈ rule.entries time manager channel isFirst) : event.time = time := by
  rcases List.mem_append.mp h with hmem | hmem
  · split at hmem
    · exact time_of_mem_controllerEvents hmem
    · cases hmem
  · exact time_of_mem_controllerEvents hmem

theorem time_of_mem_handover {rule : Rule} {time : Float} {old new : Option Channel} {event : Event}
    (h : event ∈ rule.handover time old new) : event.time = time := by
  unfold Rule.handover at h
  split at h
  · cases h
  · cases old with
    | none => cases h
    | some channel => exact time_of_mem_controllerEvents h

theorem time_of_mem_setupBehind {time : Float} {event : Event} (h : event ∈ before.setupBehind time channel note) :
    event.time = time := by
  obtain ⟨rule, -, hrule⟩ := List.mem_flatMap.mp h
  exact time_of_mem_entries hrule

theorem time_of_mem_setupInFront {time : Float} {event : Event}
    (h : event ∈ before.setupInFront after time channel note) : event.time = time := by
  obtain ⟨rule, -, hrule⟩ := List.mem_flatMap.mp h
  rcases List.mem_append.mp hrule with hmem | hmem
  · exact time_of_mem_handover hmem
  · obtain ⟨entry, hentry, rfl⟩ := List.mem_map.mp hmem
    have htime : entry.time = time := time_of_mem_entries hentry
    exact htime

/-- What is sent when a note starts on a channel: the end of the note that had the channel, if there was one, the
setup, the note, and the setup once more. -/
structure SentAround (time : Float) (note : Note) (velocity : UInt8) (channel : Channel) (ended : Option Note)
    (before after : Engine) (sent : List Event) : Prop where
  appended : after.events.toList = before.events.toList ++ sent
  sounded : ∀ old ∈ ended, old ∈ before.voices.held.notes ∧ before.voices.channelOf old = channel
  held : after.voices.held.notes = note :: (before.vacated time channel ended).voices.held.notes
  sent : sent = (ended.elim [] fun old => before.stopEvents time channel old Midi.defaultVelocity)
    ++ ((before.vacated time channel ended).setupInFront after time channel note
      ++ noteEvent time .noteOn channel (before.layout.transpose note (before.isAbove note)) velocity
      :: (before.vacated time channel ended).setupBehind time channel note)
  timesInFront : ∀ event ∈ (before.vacated time channel ended).setupInFront after time channel note, event.time = time
  timesBehind : ∀ event ∈ (before.vacated time channel ended).setupBehind time channel note, event.time = time

/-- Only the note that starts is sent as one that starts. -/
theorem eq_of_startsNote {time : Float} {ended : Option Note} {between : Engine} {velocity : UInt8} {event : Event}
    (hevent : event ∈ (ended.elim [] fun old => engine.stopEvents time channel old Midi.defaultVelocity)
      ++ between.startEvents time channel note velocity) (hstarts : event.command = .noteOn) :
    event = noteEvent time .noteOn channel (between.layout.transpose note (between.isAbove note)) velocity := by
  have hnote : event.isNote = true := by simp [Event.isNote, hstarts]
  rcases List.mem_append.mp hevent with hstop | hstart
  · cases ended with
    | none => cases hstop
    | some old =>
        rcases mem_stopEvents hstop with rfl | hsets
        · cases hstarts
        · exact absurd (hnote.symm.trans hsets.isNote) Bool.false_ne_true.symm
  · rcases mem_startEvents hstart with rfl | hsets
    · rfl
    · exact absurd (hnote.symm.trans hsets.isNote) Bool.false_ne_true.symm

/-- In every engine that operations lead to, a note that starts on a channel is sent between two setups of the channel,
and channels that lose a role to it are reset in the first. -/
theorem started_note_set_up (h : Reachable engine) (time : Float) (input velocity : UInt8) (note : Note)
    (channel : Channel)
    (hstarts : ∃ event ∈ engine.emitted (.call time (.noteOn input (noteToByte note) velocity)),
      event.command = .noteOn ∧ event.channel = channel.val.toUInt8) :
    ∃ ended, SentAround time note velocity channel ended engine
      (engine.perform (.call time (.noteOn input (noteToByte note) velocity)))
      (engine.emitted (.call time (.noteOn input (noteToByte note) velocity))) := by
  obtain ⟨event, hevent, hcommand, hchannel⟩ := hstarts
  have hevents := engine.events_receive time (.noteOn input (noteToByte note) velocity)
  have hperform : engine.perform (.call time (.noteOn input (noteToByte note) velocity)) =
      engine.receive time (.noteOn input (noteToByte note) velocity) := rfl
  rw [hperform]
  -- An engine that sends nothing starts no note.
  have hchanges : engine.receive time (.noteOn input (noteToByte note) velocity) ≠ engine := by
    intro hsame
    rw [hsame, List.self_eq_append_right] at hevents
    rw [hevents] at hevent
    cases hevent
  have hactive : engine.isSuspended = false := by
    refine Bool.eq_false_iff.mpr fun hsuspended => hchanges ?_
    exact if_pos hsuspended
  rw [receive_noteOn hactive] at hevents hchanges ⊢
  rcases strike_starts h.balanced time note velocity with hsame | ⟨own, ended, between, hvacates, hstrike⟩
  · exact absurd hsame hchanges
  · have hsent : engine.emitted (.call time (.noteOn input (noteToByte note) velocity)) =
        (ended.elim [] fun old => engine.stopEvents time own old Midi.defaultVelocity)
          ++ between.startEvents time own note velocity := by
      rw [hstrike, events_startNote, hvacates.events, events_vacated, List.append_assoc] at hevents
      exact (List.append_cancel_left hevents).symm
    have hevent := eq_of_startsNote (hsent ▸ hevent) hcommand
    obtain rfl : own = channel := channelByte_injective ((congrArg Event.channel hevent).symm.trans hchannel)
    have happended := hevents
    rw [hstrike] at happended ⊢
    refine ⟨ended, happended, hvacates.sounded, ?_, ?_, fun _ => time_of_mem_setupInFront,
      fun _ => time_of_mem_setupBehind⟩
    · rw [voices_startNote, Voices.held_start, List.erase_of_not_mem hvacates.not_held, hvacates.voices]
    · rw [hsent, hvacates.startEvents]

/-- A third note takes the channel of the oldest of two. Three rules follow the newest note. -/
theorem started_note_set_up_replacing : Reachable (standard.run bothChannelsTaken)
    ∧ ((standard.run bothChannelsTaken).emitted (.call 3.0 (.noteOn 0 (noteToByte 40) 90))).map
        (fun event => (event.command, event.channel, event.isSetup)) =
      [(.noteOff, 1, false), (.pitchBend, 2, false), (.pitchBend, 1, true), (.channelPressure, 2, false),
        (.channelPressure, 1, true), (.controlChange, 2, false), (.controlChange, 1, true), (.noteOn, 1, false),
        (.pitchBend, 1, false), (.channelPressure, 1, false), (.controlChange, 1, false)]
    ∧ (∃ event ∈ (standard.run bothChannelsTaken).emitted (.call 3.0 (.noteOn 0 (noteToByte 40) 90)),
      event.command = .noteOn ∧ event.channel = (1 : Channel).val.toUInt8)
    ∧ ∃ ended, SentAround 3.0 40 90 1 ended (standard.run bothChannelsTaken)
      ((standard.run bothChannelsTaken).perform (.call 3.0 (.noteOn 0 (noteToByte 40) 90)))
      ((standard.run bothChannelsTaken).emitted (.call 3.0 (.noteOn 0 (noteToByte 40) 90))) := by
  have hreachable : Reachable (standard.run bothChannelsTaken) := reachable_standard.run bothChannelsTaken
  have hstarts : ∃ event ∈ (standard.run bothChannelsTaken).emitted (.call 3.0 (.noteOn 0 (noteToByte 40) 90)),
      event.command = .noteOn ∧ event.channel = (1 : Channel).val.toUInt8 := by decide +kernel
  exact ⟨hreachable, by decide +kernel, hstarts, started_note_set_up hreachable 3.0 0 90 40 1 hstarts⟩

end Engine

end PolyExpression
