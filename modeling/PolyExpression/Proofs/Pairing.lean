import PolyExpression.Proofs.Operations

/-!
Starts and ends of notes. On every channel the events of a run that start notes and those that end them
alternate, and each end belongs to the start before it. Main statement: so it is for every run of a new engine,
and the channels with a start that has not been ended are those of the held notes.
-/

namespace PolyExpression

open Midi (Event)

/-- An event, and whether releases carried the velocity of their note when it was sent. -/
abbrev Entry := Event × Bool

/-- The starts and ends of notes on a channel. -/
def notesOn (channel : UInt8) (log : List Entry) : List Entry :=
  log.filter fun entry => entry.1.isNote && entry.1.channel == channel

/-- Whether starts and ends alternate, each end with the note of the start before it and, where releases carry
it, with its velocity; what is left is the start that has not been ended. -/
inductive Paired : List Entry → Option Event → Prop where
  | silent : Paired [] none
  | start {log : List Entry} {on : Event} {overrides : Bool} (h : Paired log none) (hon : on.command = .noteOn) :
      Paired (log ++ [(on, overrides)]) (some on)
  | stop {log : List Entry} {on off : Event} {overrides : Bool} (h : Paired log (some on))
      (hoff : off.command = .noteOff) (hnote : off.data1 = on.data1)
      (hvelocity : overrides = true → off.data2 = on.data2) : Paired (log ++ [(off, overrides)]) none

theorem notesOn_append (channel : UInt8) (first second : List Entry) :
    notesOn channel (first ++ second) = notesOn channel first ++ notesOn channel second :=
  List.filter_append ..

theorem notesOn_eq_nil {log : List Entry} (h : ∀ entry ∈ log, entry.1.isNote = false) (channel : UInt8) :
    notesOn channel log = [] := by
  refine List.filter_eq_nil_iff.mpr fun entry hentry => ?_
  rw [h entry hentry]
  exact Bool.false_ne_true

namespace Engine

variable {hand : List Channel} {engine after : Engine} {note : Note}

/-! ### The log of a run -/

/-- Events as they stand in a log when they are sent under some parameters. -/
def entries (store : ParameterStore) (events : List Event) : List Entry :=
  events.map fun event => (event, store.overridesRelease)

/-- The events of a run. An operation's messages act before it sends anything, so its events are sent under the
parameters it leaves behind. -/
def log (engine : Engine) : List Operation → List Entry
  | [] => []
  | operation :: operations =>
      entries (engine.perform operation).parameters (engine.emitted operation)
        ++ (engine.perform operation).log operations

theorem entries_append (store : ParameterStore) (first second : List Event) :
    entries store (first ++ second) = entries store first ++ entries store second :=
  List.map_append

theorem notesOn_entries_eq_nil {events : List Event} (h : ∀ event ∈ events, event.isNote = false)
    (channel : UInt8) (store : ParameterStore) : notesOn channel (entries store events) = [] := by
  refine notesOn_eq_nil (fun entry hentry => ?_) channel
  obtain ⟨event, hevent, rfl⟩ := List.mem_map.mp hentry
  exact h event hevent

/-- What starting a note puts on record for a channel. -/
theorem notesOn_startEvents (store : ParameterStore) (time : Float) (channel : Channel) (velocity : UInt8)
    (other : UInt8) : notesOn other (entries store (engine.startEvents time channel note velocity)) =
      if channel.val.toUInt8 = other then
        [(noteEvent time .noteOn channel (engine.layout.transpose note (engine.isAbove note)) velocity,
          store.overridesRelease)]
      else [] := by
  have hsetup : ∀ isSetup, notesOn other (entries store
      ((engine.withVoice channel note velocity).setupEvents (engine.noteStart time channel note) isSetup)) = [] :=
    fun isSetup => notesOn_entries_eq_nil (fun _ hevent => (setsController_setupEvents hevent).isNote) other store
  unfold startEvents
  rw [← List.singleton_append, entries_append, entries_append, notesOn_append, notesOn_append, hsetup, hsetup,
    List.nil_append, List.append_nil]
  by_cases h : channel.val.toUInt8 = other
  · rw [if_pos h]
    exact List.filter_cons_of_pos (by simp [noteEvent, Event.isNote, h])
  · rw [if_neg h]
    exact List.filter_cons_of_neg (by simp [noteEvent, h])

/-- What ending a note puts on record for a channel. -/
theorem notesOn_stopEvents (store : ParameterStore) (time : Float) (channel : Channel) (velocity : UInt8)
    (other : UInt8) : notesOn other (entries store (engine.stopEvents time channel note velocity)) =
      if channel.val.toUInt8 = other then
        [(noteEvent time .noteOff channel (engine.layout.transpose note (engine.isAbove note))
          (engine.releaseVelocity note velocity), store.overridesRelease)]
      else [] := by
  have hresets : notesOn other (entries store ((List.finRange ruleCount).flatMap fun i =>
      if (engine.rule i).needsReset (engine.isAbove note) then
        (engine.rule i).displacement time none (engine.voices.stop note).roles engine.voices.roles
      else [])) = [] := by
    refine notesOn_entries_eq_nil (fun event hevent => ?_) other store
    obtain ⟨i, -, hevent⟩ := List.mem_flatMap.mp hevent
    split at hevent
    · exact (Rule.setsController_displacement hevent).isNote
    · cases hevent
  unfold stopEvents
  rw [← List.singleton_append, entries_append, notesOn_append, hresets, List.append_nil]
  by_cases h : channel.val.toUInt8 = other
  · rw [if_pos h]
    exact List.filter_cons_of_pos (by simp [noteEvent, Event.isNote, h])
  · rw [if_neg h]
    exact List.filter_cons_of_neg (by simp [noteEvent, h])

/-! ### What sounds -/

/-- On the channel of each held note the note is what was started last and not ended, and on no other channel
there is such a start. -/
structure Sounding (log : List Entry) (engine : Engine) : Prop where
  held : ∀ note ∈ engine.voices.held.notes, ∃ on,
    Paired (notesOn (engine.voices.channelOf note).val.toUInt8 log) (some on)
      ∧ on.data1 = noteToByte (engine.layout.transpose note (engine.isAbove note))
      ∧ on.data2 = engine.voices.velocityOf note
  silent : ∀ channel : UInt8, (∀ note ∈ engine.voices.held.notes,
    (engine.voices.channelOf note).val.toUInt8 ≠ channel) → Paired (notesOn channel log) none

namespace Sounding

variable {log : List Entry} {channel : Channel}

/-- Sending controllers makes no difference. -/
theorem send (h : Sounding log engine) (hvoices : after.voices = engine.voices)
    (hlayout : after.layout = engine.layout) {sent : List Entry} (hsent : ∀ other, notesOn other sent = []) :
    Sounding (log ++ sent) after := by
  have hlog : ∀ other, notesOn other (log ++ sent) = notesOn other log := by
    intro other
    rw [notesOn_append, hsent, List.append_nil]
  refine ⟨fun note hnote => ?_, fun other hother => ?_⟩
  · rw [hvoices] at hnote ⊢
    unfold isAbove
    rw [hlog, hlayout]
    exact h.held note hnote
  · rw [hvoices] at hother
    rw [hlog]
    exact h.silent other hother

theorem start (h : Sounding log engine) (hchannel : channel ∉ engine.voices.heldChannels)
    (hnote : note ∉ engine.voices.held.notes) (store : ParameterStore) (time : Float) (velocity : UInt8) :
    Sounding (log ++ entries store (engine.startEvents time channel note velocity))
      (engine.startNote time channel note velocity) := by
  have hvoices := engine.voices_startNote time channel note velocity
  have hlayout := engine.layout_startNote time channel note velocity
  have hheld : (engine.startNote time channel note velocity).voices.held.notes =
      note :: engine.voices.held.notes := by
    rw [hvoices, Voices.held_start, List.erase_of_not_mem hnote]
  have hothers : ∀ other ∈ engine.voices.held.notes, engine.voices.channelOf other ≠ channel := by
    intro other hother heq
    exact hchannel (heq ▸ List.mem_map_of_mem hother)
  have hfree : Paired (notesOn channel.val.toUInt8 log) none :=
    h.silent _ fun other hother heq => hothers other hother (channelByte_injective heq)
  refine ⟨fun other hother => ?_, fun other hother => ?_⟩
  · unfold isAbove
    rw [hheld] at hother
    rw [hvoices, hlayout, Voices.channelOf_start, Voices.velocityOf_start, notesOn_append, notesOn_startEvents]
    rcases List.mem_cons.mp hother with rfl | hmem
    · rw [if_pos rfl, if_pos rfl, if_pos rfl]
      exact ⟨_, .start hfree rfl, rfl, rfl⟩
    · have hne : note ≠ other := fun heq => hnote (heq ▸ hmem)
      have hbyte : channel.val.toUInt8 ≠ (engine.voices.channelOf other).val.toUInt8 :=
        fun heq => hothers other hmem (channelByte_injective heq).symm
      rw [if_neg hne, if_neg hne, if_neg hbyte, List.append_nil]
      exact h.held other hmem
  · rw [hheld, hvoices] at hother
    have hbyte : channel.val.toUInt8 ≠ other := by
      have hfirst := hother note List.mem_cons_self
      rw [Voices.channelOf_start, if_pos rfl] at hfirst
      exact hfirst
    rw [notesOn_append, notesOn_startEvents, if_neg hbyte, List.append_nil]
    refine h.silent other fun held hmem => ?_
    have hne : note ≠ held := fun heq => hnote (heq ▸ hmem)
    have hrest := hother held (List.mem_cons_of_mem _ hmem)
    rw [Voices.channelOf_start, if_neg hne] at hrest
    exact hrest

theorem stop (h : Sounding log engine) (hbalanced : Balanced (hand, engine))
    (hnote : note ∈ engine.voices.held.notes) (time : Float) (velocity : UInt8)
    (hvoices : after.voices = engine.voices.stop note) (hlayout : after.layout = engine.layout) :
    Sounding (log ++ entries engine.parameters
      (engine.stopEvents time (engine.voices.channelOf note) note velocity)) after := by
  obtain ⟨on, hpaired, hkey, hvelocity⟩ := h.held note hnote
  have hheld : after.voices.held.notes = engine.voices.held.notes.erase note := by
    rw [hvoices, Voices.held_stop]
  have hstopped : Paired (notesOn (engine.voices.channelOf note).val.toUInt8 (log ++ entries engine.parameters
      (engine.stopEvents time (engine.voices.channelOf note) note velocity))) none := by
    rw [notesOn_append, notesOn_stopEvents, if_pos rfl]
    -- The layout is still the one the note started with: it changes only while no note is held.
    refine .stop hpaired rfl hkey.symm fun hoverrides => ?_
    show engine.releaseVelocity note velocity = on.data2
    rw [hvelocity]
    exact if_pos hoverrides
  refine ⟨fun other hother => ?_, fun other hother => ?_⟩
  · unfold isAbove
    rw [hheld] at hother
    obtain ⟨hne, hmem⟩ := engine.voices.held.nodup.mem_erase_iff.mp hother
    have hbyte : (engine.voices.channelOf note).val.toUInt8 ≠ (engine.voices.channelOf other).val.toUInt8 :=
      fun heq => hne (hbalanced.channelOf_injective hnote hmem (channelByte_injective heq)).symm
    rw [hvoices, hlayout, Voices.channelOf_stop, Voices.velocityOf_stop, notesOn_append, notesOn_stopEvents,
      if_neg hbyte, List.append_nil]
    exact h.held other hmem
  · by_cases hbyte : (engine.voices.channelOf note).val.toUInt8 = other
    · rw [← hbyte]
      exact hstopped
    · rw [hheld, hvoices] at hother
      rw [notesOn_append, notesOn_stopEvents, if_neg hbyte, List.append_nil]
      refine h.silent other fun held hmem => ?_
      by_cases heq : held = note
      · rw [heq]
        exact hbyte
      · exact hother held ((List.mem_erase_of_ne heq).mpr hmem)

end Sounding

theorem Act.sounding {before after : Moment} (hact : Act before after) (hbalanced : Balanced before)
    {earlier : List Entry}
    (h : Sounding (earlier ++ entries before.2.parameters before.2.events.toList) before.2) :
    Sounding (earlier ++ entries after.2.parameters after.2.events.toList) after.2 := by
  have hget : after.2.parameters.get (.zone .overrideRelease) =
      before.2.parameters.get (.zone .overrideRelease) :=
    hact.get_eq nofun
  have hentries : entries after.2.parameters = entries before.2.parameters := by
    unfold entries ParameterStore.overridesRelease
    rw [hget]
  have happend : ∀ sent, after.2.events.toList = before.2.events.toList ++ sent →
      Sounding ((earlier ++ entries before.2.parameters before.2.events.toList)
        ++ entries before.2.parameters sent) after.2 →
      Sounding (earlier ++ entries after.2.parameters after.2.events.toList) after.2 := by
    intro sent hsent hsounding
    rw [hentries, hsent, entries_append, ← List.append_assoc]
    exact hsounding
  have hnothing : ∀ store other, notesOn other (entries store []) = [] := fun _ _ => rfl
  cases hact with
  | quiet hquiet =>
      refine happend [] ?_ (h.send hquiet.voices hquiet.layout (hnothing _))
      rw [hquiet.events, List.append_nil]
  | hold velocity hnote => exact happend [] (List.append_nil _).symm (h.send (by rfl) (by rfl) (hnothing _))
  | take hpop => exact happend [] (List.append_nil _).symm (h.send (by rfl) (by rfl) (hnothing _))
  | give hand channel engine =>
      obtain ⟨free, hfree⟩ := engine.giveBack_frame channel
      rw [hfree] at happend ⊢
      exact happend [] (List.append_nil _).symm (h.send (by rfl) (by rfl) (hnothing _))
  | @start hand engine note time channel velocity hnote =>
      dsimp only at h happend ⊢
      have hsounding := h.start hbalanced.not_mem_held hnote engine.parameters time velocity
      exact happend (engine.startEvents time channel note velocity) (engine.events_startNote ..) hsounding
  | @stop hand engine note time velocity hnote =>
      dsimp only at h happend ⊢
      have hvoices := engine.voices_stopNote time (engine.voices.channelOf note) note velocity
      have hlayout := engine.layout_stopNote time (engine.voices.channelOf note) note velocity
      have hsounding := h.stop hbalanced hnote time velocity hvoices hlayout
      exact happend (engine.stopEvents time (engine.voices.channelOf note) note velocity)
        (engine.events_stopNote ..) hsounding
  | @silence hand engine note hnote =>
      have hsustain : ∀ other, notesOn other (entries engine.parameters
          (controllerEvents 0.0 (engine.voices.channelOf note) .sustainPedal 0.0 false)) = [] :=
        fun other => notesOn_entries_eq_nil (fun _ => isNote_controllerEvents) other _
      refine happend (engine.silenceEvents note) (engine.events_silenceNote note) ?_
      unfold silenceEvents
      rw [entries_append, ← List.append_assoc]
      exact (h.send rfl rfl hsustain).stop hbalanced hnote 0.0 Midi.defaultVelocity
        (engine.voices_silenceNote note) (engine.layout_silenceNote note)
  | report hand engine time controller value =>
      rw [sendController_eq] at happend ⊢
      refine happend _ (toList_events_emitAll _ _) (h.send (by rfl) (by rfl) fun other => ?_)
      exact notesOn_entries_eq_nil (fun _ => isNote_controllerEvents) other _
  | route hand engine time controller value i =>
      obtain ⟨parameters, published, hinput⟩ := engine.withInput_frame controller value i
      rw [routeRule_eq, hinput] at happend ⊢
      refine happend _ (toList_events_emitAll _ _) (h.send (by rfl) (by rfl) fun other => ?_)
      exact notesOn_entries_eq_nil (fun _ hevent => (setsController_routeEvents hevent).isNote) other _
  | @restart hand engine after hrestart =>
      obtain ⟨sent, hevents, hsent⟩ := hrestart.events
      have hlog : ∀ other, Paired (notesOn other
          ((earlier ++ entries engine.parameters engine.events.toList) ++ entries engine.parameters sent))
            none := by
        intro other
        rw [notesOn_append, notesOn_entries_eq_nil hsent, List.append_nil]
        refine h.silent other fun note hnote => ?_
        rw [hrestart.held] at hnote
        exact absurd hnote List.not_mem_nil
      refine happend sent hevents ⟨fun note hnote => ?_, fun other _ => hlog other⟩
      rw [hrestart.voices] at hnote
      exact absurd hnote List.not_mem_nil

/-! ### Runs -/

theorem Sounding.perform {earlier : List Entry} (h : Sounding earlier engine)
    (hbalanced : Balanced ([], engine)) (operation : Operation) :
    Sounding (earlier ++ entries (engine.perform operation).parameters
      (engine.emitted operation)) (engine.perform operation) := by
  let P : Moment → Prop := fun moment =>
    Sounding (earlier ++ entries moment.2.parameters moment.2.events.toList) moment.2
  have hbriefed : P ([], engine.clearEvents.briefed operation) := by
    obtain ⟨parameters, published, pending, heq⟩ := engine.clearEvents.briefed_eq operation
    have hnothing : ∀ other, notesOn other (entries parameters []) = [] := fun _ => rfl
    have hsame : Sounding (earlier ++ entries parameters []) engine := h.send rfl rfl hnothing
    rw [heq]
    exact ⟨hsame.held, hsame.silent⟩
  have hperform : P ([], engine.clearEvents.perform operation) :=
    perform_preserves (fun hact hb hP => hact.sounding hb hP) hbalanced.clearEvents rfl operation hbriefed
  obtain ⟨kept, hkept⟩ := engine.perform_eq operation
  rw [hkept]
  exact ⟨hperform.held, hperform.silent⟩

theorem Sounding.run {earlier : List Entry} (h : Sounding earlier engine) (hbalanced : Balanced ([], engine))
    (operations : List Operation) : Sounding (earlier ++ engine.log operations) (engine.run operations) := by
  induction operations generalizing engine earlier with
  | nil =>
      rw [log, List.append_nil]
      exact h
  | cons operation operations ih =>
      have hnext := ih (h.perform hbalanced operation) (hbalanced.perform operation)
      rw [log, ← List.append_assoc]
      exact hnext

theorem sounding_of_create {config : Configuration} (h : create config = .ok engine) : Sounding [] engine := by
  have hheld : engine.voices.held.notes = [] := by
    rw [(create_eq h).1]
    rfl
  refine ⟨fun note hnote => ?_, fun _ _ => .silent⟩
  rw [hheld] at hnote
  exact absurd hnote List.not_mem_nil

/-- In the events of any run of a new engine, taken channel by channel, starts and ends of notes alternate, each
end with the note and, where releases carry it, the velocity of the start before it. The channels left with a
start are those of the held notes. -/
theorem notes_paired {config : Configuration} {start : Engine} (h : create config = .ok start)
    (operations : List Operation) (channel : UInt8) :
    ∃ unmatched, Paired (notesOn channel (start.log operations)) unmatched
      ∧ (unmatched.isSome ↔ ∃ note ∈ (start.run operations).voices.held.notes,
        ((start.run operations).voices.channelOf note).val.toUInt8 = channel) := by
  have hrun : Sounding (start.log operations) (start.run operations) :=
    (sounding_of_create h).run (balanced_of_create h) operations
  by_cases hsounds : ∃ note ∈ (start.run operations).voices.held.notes,
      ((start.run operations).voices.channelOf note).val.toUInt8 = channel
  · obtain ⟨note, hnote, rfl⟩ := hsounds
    obtain ⟨on, hpaired, -⟩ := hrun.held note hnote
    exact ⟨some on, hpaired, fun _ => ⟨note, hnote, rfl⟩, fun _ => rfl⟩
  · refine ⟨none, hrun.silent channel fun note hnote heq => hsounds ⟨note, hnote, heq⟩, ?_⟩
    exact ⟨nofun, fun hsound => absurd hsound hsounds⟩

/-- A note starts, notes are transposed and made to end with the velocity they started with, the next block
brings both into force, and the same note starts again. -/
def retuned : List Operation :=
  [.call 0.0 (.noteOn 0 60 100), .post (.setParameter (.zone .transposeAbove) 1.0),
    .post (.setParameter (.zone .overrideRelease) 1.0), .beginBlock, .call 0.0 (.noteOn 0 60 80)]

theorem notes_paired_retuned : create {} = .ok standard
    ∧ (notesOn 1 (standard.log retuned)).map
        (fun entry => (entry.1.command, entry.1.data1, entry.1.data2, entry.2)) =
      [(.noteOn, 60, 100, false), (.noteOff, 60, 100, true), (.noteOn, 108, 80, true)]
    ∧ ∃ unmatched, Paired (notesOn 1 (standard.log retuned)) unmatched
      ∧ (unmatched.isSome ↔ ∃ note ∈ (standard.run retuned).voices.held.notes,
        ((standard.run retuned).voices.channelOf note).val.toUInt8 = 1) :=
  ⟨create_standard, by decide +kernel, notes_paired create_standard retuned 1⟩

end Engine

end PolyExpression
