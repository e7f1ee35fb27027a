import PolyExpression.Proofs.Deferral
import PolyExpression.Proofs.Regions
import PolyExpression.Proofs.Seniority

/-!
What becomes of a note that is struck. It is ignored, or it starts: again on its own channel if it is held, on the
channel that has been free for longest, or on that of the held note which the policy picks. Main statement: in every
engine that operations lead to exactly one of these happens, and no other held note is touched by it.
-/

namespace PolyExpression

open Midi (Event)

/-- What can become of a note that is struck. -/
inductive Admission where
  /-- The note is held and stays as it is. -/
  | keep
  /-- The note is held, ends and starts again. -/
  | restart
  /-- The note takes a free channel. -/
  | accept
  /-- The note finds no channel. -/
  | refuse
  /-- A held note gives its channel up. -/
  | replace

namespace Engine

/-- A note starts on a channel, after another one has ended if one is named. The other held notes stay on their channels
and in their order, and so do the releases that wait. -/
structure Starts (time : Float) (note : Note) (velocity : UInt8) (channel : Channel) (ended : Option Note)
    (before after : Engine) : Prop where
  held : after.voices.held.notes = note :: ended.elim before.voices.held.notes before.voices.held.notes.erase
  channelOf : after.voices.channelOf note = channel
  channelOf_other : ∀ other, other ≠ note → after.voices.channelOf other = before.voices.channelOf other
  waiting : after.pedal.waiting = ended.elim before.pedal.waiting fun old => before.pedal.waiting.filter (·.1 ≠ old)
  isDown : after.pedal.isDown = before.pedal.isDown
  /-- Of notes, that one ends and this one starts; the other events set controllers. -/
  sent : ∃ sent, after.events.toList = before.events.toList ++ sent
    ∧ sent.filter Event.isNote = (ended.map fun old => before.ending time (old, Midi.defaultVelocity)).toList
      ++ [noteEvent time .noteOn channel (before.layout.transpose note (before.isAbove note)) velocity]

end Engine

namespace Admission

/-- When it comes to this: whether the note is held, whether a channel is free, and what the policy for excess notes
is. -/
def Applies (engine : Engine) (note : Note) : Admission → Prop
  | keep => note ∈ engine.voices.held.notes ∧ engine.parameters.excessNotes = .ignore
  | restart => note ∈ engine.voices.held.notes ∧ engine.parameters.excessNotes ≠ .ignore
  | accept => note ∉ engine.voices.held.notes ∧ engine.free.toList ≠ []
  | refuse => note ∉ engine.voices.held.notes ∧ engine.free.toList = [] ∧ engine.parameters.excessNotes = .ignore
  | replace => note ∉ engine.voices.held.notes ∧ engine.free.toList = [] ∧ engine.parameters.excessNotes ≠ .ignore

/-- What it does to an engine. The note that gives its channel up is the lowest, highest, oldest or newest held one. -/
def Does (time : Float) (note : Note) (velocity : UInt8) (before after : Engine) : Admission → Prop
  | keep | refuse => after = before
  | restart =>
      before.Starts time note velocity (before.voices.channelOf note) (some note) after ∧ after.free = before.free
  | accept => ∃ channel, before.free.toList = channel :: after.free.toList
      ∧ before.Starts time note velocity channel none after
  | replace => ∃ role stolen, before.parameters.excessNotes = .steal role
      ∧ role.among before.voices.held.notes = some stolen
      ∧ before.Starts time note velocity (before.voices.channelOf stolen) (some stolen) after ∧ after.free = before.free

/-- It always comes to one of them. -/
theorem exists_applies (engine : Engine) (note : Note) : ∃ admission : Admission, admission.Applies engine note := by
  by_cases hheld : note ∈ engine.voices.held.notes
  · by_cases hpolicy : engine.parameters.excessNotes = .ignore
    · exact ⟨.keep, hheld, hpolicy⟩
    · exact ⟨.restart, hheld, hpolicy⟩
  · by_cases hfree : engine.free.toList = []
    · by_cases hpolicy : engine.parameters.excessNotes = .ignore
      · exact ⟨.refuse, hheld, hfree, hpolicy⟩
      · exact ⟨.replace, hheld, hfree, hpolicy⟩
    · exact ⟨.accept, hheld, hfree⟩

/-- It never comes to two of them. -/
theorem Applies.unique {engine : Engine} {note : Note} {a b : Admission} (ha : a.Applies engine note)
    (hb : b.Applies engine note) : a = b := by
  cases a <;> cases b <;> first | rfl | simp_all [Applies]

end Admission

namespace Engine

variable {engine : Engine} {note : Note}

/-! ### Starting a note -/

/-- Of what starting a note sends, one event starts a note; the others set controllers. -/
theorem filter_isNote_startEvents (engine : Engine) (time : Float) (channel : Channel) (note : Note)
    (velocity : UInt8) : (engine.startEvents time channel note velocity).filter Event.isNote =
      [noteEvent time .noteOn channel (engine.layout.transpose note (engine.isAbove note)) velocity] := by
  have hsetup : ∀ isSetup, ((engine.withVoice channel note velocity).setupEvents
      (engine.noteStart time channel note) isSetup).filter Event.isNote = [] := by
    refine fun isSetup => List.filter_eq_nil_iff.mpr fun event hevent => ?_
    rw [(setsController_setupEvents hevent).isNote]
    exact Bool.false_ne_true
  have hnote : Event.isNote (noteEvent time .noteOn channel
      (engine.layout.transpose note (engine.isAbove note)) velocity) = true := rfl
  rw [startEvents, List.filter_append, List.filter_cons, if_pos hnote, hsetup, hsetup, List.nil_append]

theorem free_startNote (engine : Engine) (time : Float) (channel : Channel) (note : Note) (velocity : UInt8) :
    (engine.startNote time channel note velocity).free = engine.free := by
  rw [startNote_eq]
  rfl

theorem free_replaceNote (engine : Engine) (time : Float) (old new : Note) (velocity : UInt8) :
    (engine.replaceNote time old new velocity).free = engine.free := by
  unfold replaceNote
  dsimp only
  rw [free_startNote, free_stopNote]

theorem starts_startNote (engine : Engine) (hnote : note ∉ engine.voices.held.notes) (time : Float) (channel : Channel)
    (velocity : UInt8) :
    Starts time note velocity channel none engine (engine.startNote time channel note velocity) where
  held := by
    rw [voices_startNote, Voices.held_start, List.erase_of_not_mem hnote]
    rfl
  channelOf := by rw [voices_startNote, Voices.channelOf_start, if_pos rfl]
  channelOf_other := by
    intro other hne
    rw [voices_startNote, Voices.channelOf_start, if_neg (Ne.symm hne)]
  waiting := by
    rw [pedal_startNote]
    rfl
  isDown := by rw [pedal_startNote]
  sent := ⟨engine.startEvents time channel note velocity, engine.events_startNote time channel note velocity,
    engine.filter_isNote_startEvents time channel note velocity⟩

/-- The channel may have been taken from the queue just before. -/
theorem starts_startNote_taken {free : ChannelQueue} (hnote : note ∉ engine.voices.held.notes) (time : Float)
    (channel : Channel) (velocity : UInt8) : Starts time note velocity channel none engine
      ({ engine with free := free }.startNote time channel note velocity) := by
  have hstarts := starts_startNote { engine with free := free } hnote time channel velocity
  exact ⟨hstarts.held, hstarts.channelOf, hstarts.channelOf_other, hstarts.waiting, hstarts.isDown, hstarts.sent⟩

theorem starts_replaceNote {old new : Note} (hnew : new ∉ engine.voices.held.notes.erase old) (time : Float)
    (velocity : UInt8) : Starts time new velocity (engine.voices.channelOf old) (some old) engine
      (engine.replaceNote time old new velocity) := by
  let stopped := engine.stopNote time (engine.voices.channelOf old) old Midi.defaultVelocity
  have hvoices : stopped.voices = engine.voices.stop old := engine.voices_stopNote ..
  have hpedal : stopped.pedal = engine.pedal.forget old := engine.pedal_stopNote ..
  have hlayout : stopped.layout = engine.layout := engine.layout_stopNote ..
  have hheld : stopped.voices.held.notes = engine.voices.held.notes.erase old := by rw [hvoices, Voices.held_stop]
  have hstart : Starts time new velocity (engine.voices.channelOf old) none stopped
      (engine.replaceNote time old new velocity) := stopped.starts_startNote (hheld ▸ hnew) time _ velocity
  refine ⟨?_, hstart.channelOf, fun other hne => ?_, ?_, ?_, ?_⟩
  · rw [hstart.held, hheld]
    rfl
  · rw [hstart.channelOf_other other hne, hvoices, Voices.channelOf_stop]
  · rw [hstart.waiting, hpedal]
    exact Pedal.waiting_forget _ _
  · rw [hstart.isDown, hpedal]
    rfl
  · obtain ⟨sent, hsent, hnotes⟩ := hstart.sent
    have hevents : stopped.events.toList = engine.events.toList
        ++ engine.stopEvents time (engine.voices.channelOf old) old Midi.defaultVelocity := engine.events_stopNote ..
    have habove : stopped.isAbove new = engine.isAbove new := congrArg (·.isAbove new) hlayout
    refine ⟨engine.stopEvents time (engine.voices.channelOf old) old Midi.defaultVelocity ++ sent, ?_, ?_⟩
    · rw [hsent, hevents, List.append_assoc]
    · rw [List.filter_append, filter_isNote_stopEvents, hnotes, hlayout, habove]
      rfl

/-! ### Striking a note -/

/-- Some note has a role, unless there is none at all. -/
theorem exists_withRole {notes : List Note} (h : notes ≠ []) (role : Role) : ∃ note, role.among notes = some note := by
  cases role with
  | lowest => exact Option.isSome_iff_exists.mp (List.isSome_min?_of_ne_nil h)
  | highest => exact Option.isSome_iff_exists.mp (List.isSome_max?_of_ne_nil h)
  | oldest => exact ⟨notes.getLast h, List.getLast?_eq_getLast_of_ne_nil h⟩
  | newest => exact ⟨notes.head h, List.head?_eq_some_head h⟩

/-- When no channel is free, some note is held. -/
theorem Balanced.held_ne_nil (h : Balanced ([], engine)) (hfree : engine.free.toList = []) :
    engine.voices.held.notes ≠ [] := by
  intro hheld
  have hlength := h.length_free
  have hpos := engine.layout.zone.memberCount_pos
  rw [hfree, hheld] at hlength
  simp only [List.length_nil, Nat.add_zero] at hlength
  exact absurd hlength hpos.ne

theorem strike_held (hheld : note ∈ engine.voices.held.notes) (time : Float) (velocity : UInt8) :
    engine.strike time note velocity = match engine.parameters.excessNotes with
      | .ignore => engine
      | .steal _ => engine.replaceNote time note note velocity :=
  if_pos (NoteStack.contains_iff.mpr hheld)

theorem strike_free {channel : Channel} (hnot : note ∉ engine.voices.held.notes)
    (hpop : engine.free.pop.1 = some channel) (time : Float) (velocity : UInt8) :
    engine.strike time note velocity =
      { engine with free := engine.free.pop.2 }.startNote time channel note velocity := by
  unfold strike
  rw [if_neg (mt NoteStack.contains_iff.mp hnot), ← Prod.eta engine.free.pop, hpop]

theorem strike_full (hnot : note ∉ engine.voices.held.notes) (hfree : engine.free.toList = []) (time : Float)
    (velocity : UInt8) : engine.strike time note velocity =
      engine.stolenNote?.elim engine fun stolen => engine.replaceNote time stolen note velocity := by
  have hpop : engine.free.pop.1 = none := by rw [engine.free.pop_toList.1, hfree, List.head?_nil]
  unfold strike
  rw [if_neg (mt NoteStack.contains_iff.mp hnot), ← Prod.eta engine.free.pop, hpop]

/-- Striking a note does what it comes to. -/
theorem does_strike (h : Balanced ([], engine)) {admission : Admission} (happlies : admission.Applies engine note)
    (time : Float) (velocity : UInt8) :
    admission.Does time note velocity engine (engine.strike time note velocity) := by
  cases admission with
  | keep =>
      obtain ⟨hheld, hpolicy⟩ := happlies
      show engine.strike time note velocity = engine
      rw [strike_held hheld, hpolicy]
  | restart =>
      obtain ⟨hheld, hpolicy⟩ := happlies
      have hstrike : engine.strike time note velocity = engine.replaceNote time note note velocity := by
        rw [strike_held hheld]
        split
        · next hignore => exact absurd hignore hpolicy
        · rfl
      rw [hstrike]
      exact ⟨starts_replaceNote engine.voices.held.nodup.not_mem_erase time velocity,
        engine.free_replaceNote time note note velocity⟩
  | accept =>
      obtain ⟨hnot, hfree⟩ := happlies
      obtain ⟨channel, rest, hqueue⟩ := List.exists_cons_of_ne_nil hfree
      have hpop : engine.free.pop.1 = some channel := by rw [engine.free.pop_toList.1, hqueue, List.head?_cons]
      refine ⟨channel, ?_⟩
      rw [strike_free hnot hpop]
      refine ⟨?_, starts_startNote_taken hnot time channel velocity⟩
      rw [free_startNote]
      exact Ring.toList_of_pop hpop
  | refuse =>
      obtain ⟨hnot, hfree, hpolicy⟩ := happlies
      show engine.strike time note velocity = engine
      rw [strike_full hnot hfree, stolenNote?, hpolicy]
      rfl
  | replace =>
      obtain ⟨hnot, hfree, hpolicy⟩ := happlies
      cases hsteals : engine.parameters.excessNotes with
      | ignore => exact absurd hsteals hpolicy
      | steal role =>
          obtain ⟨stolen, hstolen⟩ := exists_withRole (h.held_ne_nil hfree) role
          have hstrike : engine.strike time note velocity = engine.replaceNote time stolen note velocity := by
            rw [strike_full hnot hfree, stolenNote?, hsteals]
            dsimp only
            rw [NoteStack.withRole?_eq, hstolen, Option.elim_some]
          have hnew : note ∉ engine.voices.held.notes.erase stolen := fun hmem => hnot (List.mem_of_mem_erase hmem)
          refine ⟨role, stolen, hsteals, hstolen, ?_⟩
          rw [hstrike]
          exact ⟨starts_replaceNote hnew time velocity, engine.free_replaceNote time stolen note velocity⟩

/-- In every engine that operations lead to, exactly one thing becomes of a note that is struck. The channel which it
takes has been in the queue for longest, and the oldest and the newest note are so by the time they have been held. -/
theorem struck_note_admitted (h : Reachable engine) (hactive : engine.isSuspended = false) (time : Float)
    (channel velocity : UInt8) (note : Note) : engine.InOrder ∧ ∃! admission : Admission,
      admission.Applies engine note ∧ admission.Does time note velocity engine
        (engine.receive time (.noteOn channel (noteToByte note) velocity)) := by
  obtain ⟨admission, happlies⟩ := Admission.exists_applies engine note
  refine ⟨h.inOrder, admission, ⟨happlies, ?_⟩, fun other hother => hother.1.unique happlies⟩
  rw [receive_noteOn hactive]
  exact does_strike h.balanced happlies time velocity

/-- Two notes hold both channels there are, and the release of the older one waits for the pedal. -/
def bothChannelsTaken : List Operation :=
  [.apply (.setParameter (.zone .members) 0.1), .apply (.setParameter (.zone .holdOnSustain) 1.0), .beginBlock,
    .call 0.0 (.noteOn 0 50 100), .call 0.0 (.noteOn 0 70 100), .call 0.0 (.controlChange 0 64 127),
    .call 0.0 (.noteOff 0 50 64)]

theorem struck_note_admitted_bothChannelsTaken : Reachable (standard.run bothChannelsTaken)
    ∧ (standard.run bothChannelsTaken).isSuspended = false
    ∧ (standard.run bothChannelsTaken).voices.held.notes = [70, 50]
    ∧ (standard.run bothChannelsTaken).pedal.deferred.notes = [50]
    ∧ (standard.run bothChannelsTaken).free.toList = []
    ∧ (standard.run bothChannelsTaken).parameters.excessNotes = .steal .oldest
    ∧ (standard.run bothChannelsTaken).InOrder ∧ ∃! admission : Admission,
      admission.Applies (standard.run bothChannelsTaken) 40
        ∧ admission.Does 3.0 40 90 (standard.run bothChannelsTaken)
          ((standard.run bothChannelsTaken).receive 3.0 (.noteOn 0 (noteToByte 40) 90)) :=
  ⟨reachable_standard.run bothChannelsTaken, by decide +kernel, by decide +kernel, by decide +kernel,
    by decide +kernel, by decide +kernel,
    struck_note_admitted (reachable_standard.run bothChannelsTaken) (by decide +kernel) 3.0 0 90 40⟩

end Engine

end PolyExpression
