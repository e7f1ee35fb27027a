import PolyExpression.Proofs.Pairing
import PolyExpression.Proofs.PedalSafety

/-!
Notes that are struck again while their release waits for the pedal. A note waits only after it has been
released; striking it takes the release back, unless the engine ignores notes that are held already. Main
statement: after that, and as long as the note is not released again, the pedal that goes up ends other notes only.
-/

namespace PolyExpression

open Midi (Event Call)

/-- Whether a message releases a note. -/
def Midi.Call.lifts (note : Note) : Call → Bool
  | .noteOff _ byte _ => noteOfByte? byte == some note
  | _ => false

theorem noteOfByte?_noteToByte (note : Note) : noteOfByte? (noteToByte note) = some note := by
  unfold noteOfByte?
  rw [dif_pos ((toNat_noteToByte note).symm ▸ note.isLt)]
  exact congrArg some (Fin.ext (toNat_noteToByte note))

namespace Engine

variable {engine : Engine} {note : Note}

/-- Whether an operation releases a note. -/
def lifts (engine : Engine) (note : Note) : Operation → Bool
  | .call _ call => call.lifts note
  | .bytes _ bytes => (Midi.Stream.decode engine.runningStatus bytes).1.any fun call => call.lifts note
  | _ => false

/-- Whether some operation of a run releases a note. -/
def liftsIn (engine : Engine) (note : Note) : List Operation → Bool
  | [] => false
  | operation :: operations => engine.lifts note operation || (engine.perform operation).liftsIn note operations

/-! ### Notes that wait -/

theorem pedal_replaceNote (engine : Engine) (time : Float) (old new : Note) (velocity : UInt8) :
    (engine.replaceNote time old new velocity).pedal = engine.pedal.forget old := by
  unfold replaceNote
  dsimp only
  rw [pedal_startNote, pedal_stopNote]

/-- Striking a note makes none wait. -/
theorem deferred_strike_subset (time : Float) (note : Note) (velocity : UInt8) :
    (engine.strike time note velocity).pedal.deferred.notes ⊆ engine.pedal.deferred.notes := by
  obtain ⟨-, h⟩ | ⟨-, -, h⟩ | ⟨-, channel, -, h⟩ | ⟨-, stolen, -, h⟩ := engine.strike_cases time note velocity
  · rw [h]
    exact List.Subset.refl _
  · rw [h, pedal_replaceNote, Pedal.notes_forget]
    exact List.erase_subset
  · rw [h, pedal_startNote]
    exact List.Subset.refl _
  · rw [h, pedal_replaceNote, Pedal.notes_forget]
    exact List.erase_subset

/-- Releasing a note makes no other wait. -/
theorem not_mem_deferred_lift {other : Note} (hne : other ≠ note) (h : note ∉ engine.pedal.deferred.notes)
    (time : Float) (velocity : UInt8) :
    note ∉ (engine.lift time other velocity).pedal.deferred.notes := by
  unfold lift
  split
  · split
    · show note ∉ (engine.pedal.hold other velocity).deferred.notes
      rw [Pedal.notes_hold]
      exact List.not_mem_cons_of_ne_of_not_mem hne.symm fun hmem => h (List.mem_of_mem_erase hmem)
    · rw [pedal_releaseNote, Pedal.notes_forget]
      exact fun hmem => h (List.mem_of_mem_erase hmem)
  · exact h

/-- Controllers make no note wait. -/
theorem deferred_moveController_subset (time : Float) (controller : ControllerId) (raw : UInt16) (value : Float) :
    (engine.moveController time controller raw value).pedal.deferred.notes ⊆ engine.pedal.deferred.notes := by
  have hroute : ∀ e : Engine, (e.route time controller value).pedal = e.pedal := by
    intro e
    obtain ⟨parameters, published, events, hroute⟩ := e.route_frame time controller value
    rw [hroute]
  have hmove : ∀ e : Engine, (e.movePedal time value).pedal.deferred.notes ⊆ e.pedal.deferred.notes := by
    intro e
    unfold movePedal
    dsimp only
    split
    · split
      · exact List.Subset.refl _
      · rw [(releaseDeferred_spec _ time).2.1]
        exact List.nil_subset _
    · exact List.Subset.refl _
  unfold moveController
  dsimp only
  split
  · exact List.Subset.refl _
  · split
    · refine List.Subset.trans (hmove _) ?_
      rw [hroute]
      exact List.Subset.refl _
    · rw [hroute]
      exact List.Subset.refl _

theorem not_mem_deferred_receive {call : Call} (hcall : call.lifts note = false)
    (h : note ∉ engine.pedal.deferred.notes) (time : Float) :
    note ∉ (engine.receive time call).pedal.deferred.notes := by
  have hmove : ∀ controller raw value,
      note ∉ (engine.moveController time controller raw value).pedal.deferred.notes :=
    fun controller raw value hmem => h (deferred_moveController_subset time controller raw value hmem)
  unfold receive
  split
  · exact h
  · cases call with
    | noteOn channel byte velocity =>
        dsimp only
        cases noteOfByte? byte with
        | none => exact h
        | some struck => exact fun hmem => h (deferred_strike_subset time struck velocity hmem)
    | noteOff channel byte velocity =>
        dsimp only
        cases hbyte : noteOfByte? byte with
        | none => exact h
        | some other =>
            have hne : other ≠ note := by
              rintro rfl
              have hlifts : (Call.noteOff channel byte velocity).lifts other = true := beq_iff_eq.mpr hbyte
              exact Bool.false_ne_true (hcall.symm.trans hlifts)
            exact not_mem_deferred_lift hne h time velocity
    | controlChange channel number value =>
        dsimp only
        cases ControllerId.ofByte? number with
        | none => exact h
        | some controller =>
            dsimp only
            split
            · exact hmove _ _ _
            · exact h
    | channelPressure channel pressure => exact hmove _ _ _
    | pitchBend channel bend => exact hmove _ _ _
    | _ => exact h

theorem not_mem_deferred_receiveAll {calls : List Call} (hcalls : (calls.any fun call => call.lifts note) = false)
    (h : note ∉ engine.pedal.deferred.notes) (time : Float) :
    note ∉ (calls.foldl (fun e call => e.receive time call) engine).pedal.deferred.notes := by
  induction calls generalizing engine with
  | nil => exact h
  | cons call calls ih =>
      rw [List.any_cons, Bool.or_eq_false_iff] at hcalls
      exact ih hcalls.2 (not_mem_deferred_receive hcalls.1 h time)

theorem deferred_reset (engine : Engine) : engine.reset.pedal.deferred.notes = [] := by
  rw [pedal_reset]
  rfl

theorem deferred_openBlock_subset (engine : Engine) :
    engine.openBlock.pedal.deferred.notes ⊆ engine.pedal.deferred.notes := by
  rw [openBlock_eq]
  split
  · show engine.reset.pedal.deferred.notes ⊆ _
    rw [deferred_reset]
    exact List.nil_subset _
  · split <;> exact List.Subset.refl _

/-- Only its release makes a note wait. -/
theorem not_mem_deferred_perform {operation : Operation} (hlifts : engine.lifts note operation = false)
    (h : note ∉ engine.pedal.deferred.notes) : note ∉ (engine.perform operation).pedal.deferred.notes := by
  have hreset : ∀ e : Engine, note ∉ e.reset.pedal.deferred.notes := by
    intro e
    rw [deferred_reset]
    exact List.not_mem_nil
  cases operation with
  | beginBlock =>
      obtain ⟨parameters, published, recent, htold⟩ := engine.told_eq
      have hpedal : engine.told.pedal = engine.pedal := by rw [htold]
      show note ∉ engine.told.openBlock.pedal.deferred.notes
      intro hmem
      have hwaits := deferred_openBlock_subset engine.told hmem
      rw [hpedal] at hwaits
      exact h hwaits
  | call time call => exact not_mem_deferred_receive hlifts h time
  | bytes time bytes =>
      let opened := { engine with runningStatus := (Midi.Stream.decode engine.runningStatus bytes).2 }
      have hopened : note ∉ opened.pedal.deferred.notes := h
      exact not_mem_deferred_receiveAll hlifts hopened time
  | apply message =>
      obtain ⟨parameters, published, happly⟩ := engine.apply_eq message
      show note ∉ (engine.apply message).pedal.deferred.notes
      rw [happly]
      exact h
  | post message =>
      show note ∉ (engine.offer message).pedal.deferred.notes
      rw [offer_eq]
      split <;> exact h
  | takeMessages =>
      obtain ⟨parameters, published, htake⟩ := engine.takeMessages_eq
      show note ∉ engine.takeMessages.pedal.deferred.notes
      rw [htake]
      exact h
  | reset => exact hreset engine
  | suspend => exact h
  | resume => exact hreset _
  | clearDirty => exact h

theorem not_mem_deferred_run {operations : List Operation} (hlifts : engine.liftsIn note operations = false)
    (h : note ∉ engine.pedal.deferred.notes) : note ∉ (engine.run operations).pedal.deferred.notes := by
  induction operations generalizing engine with
  | nil => exact h
  | cons operation operations ih =>
      obtain ⟨hfirst, hrest⟩ := Bool.or_eq_false_iff.mp hlifts
      exact ih hrest (not_mem_deferred_perform hfirst h)

/-! ### What the pedal ends -/

/-- Whether an event ends one of some notes as an engine has them. -/
def EndsOneOf (engine : Engine) (notes : List Note) (event : Event) : Prop :=
  ∃ note ∈ notes, event.channel = (engine.voices.channelOf note).val.toUInt8
    ∧ event.data1 = noteToByte (engine.layout.transpose note (engine.isAbove note))

/-- Whether on the way from one engine to another some notes end and no others. -/
structure EndsAmong (notes : List Note) (before after : Engine) : Prop where
  held : ∀ note ∈ before.voices.held.notes, note ∉ notes → note ∈ after.voices.held.notes
  sent : ∃ sent, after.events.toList = before.events.toList ++ sent
    ∧ ∀ event ∈ sent, event.command = .noteOff → before.EndsOneOf notes event

namespace EndsAmong

variable {notes : List Note} {before between after : Engine}

theorem refl (notes : List Note) (engine : Engine) : EndsAmong notes engine engine :=
  ⟨fun _ hheld _ => hheld, [], (List.append_nil _).symm, fun _ hevent => absurd hevent List.not_mem_nil⟩

/-- Events that are no notes may come first. -/
theorem of_quiet (h : EndsAmong notes between after) (hvoices : between.voices = before.voices)
    (hlayout : between.layout = before.layout) {quiet : List Event}
    (hevents : between.events.toList = before.events.toList ++ quiet)
    (hquiet : ∀ event ∈ quiet, event.isNote = false) : EndsAmong notes before after := by
  obtain ⟨sent, hafter, hsent⟩ := h.sent
  refine ⟨fun note hheld => h.held note (hvoices.symm ▸ hheld), quiet ++ sent, ?_, fun event hevent hoff => ?_⟩
  · rw [hafter, hevents, List.append_assoc]
  · rcases List.mem_append.mp hevent with hmem | hmem
    · have hnote : event.isNote = true := by simp [Midi.Event.isNote, hoff]
      exact absurd (hnote.symm.trans (hquiet event hmem)) Bool.false_ne_true.symm
    · obtain ⟨note, hnote, hchannel, hdata⟩ := hsent event hmem hoff
      rw [hvoices] at hchannel
      unfold Engine.isAbove at hdata
      rw [hlayout] at hdata
      exact ⟨note, hnote, hchannel, hdata⟩

end EndsAmong

/-- Of what ending a note sends, one event ends a note, and it ends this one. -/
theorem endsOneOf_stopEvents {time : Float} {velocity : UInt8} {event : Event}
    (hevent : event ∈ engine.stopEvents time (engine.voices.channelOf note) note velocity)
    (hoff : event.command = .noteOff) : engine.EndsOneOf [note] event := by
  rcases mem_stopEvents hevent with rfl | hsets
  · exact ⟨note, List.mem_singleton_self note, rfl, rfl⟩
  · have hnote : event.isNote = true := by simp [Midi.Event.isNote, hoff]
    exact absurd (hnote.symm.trans hsets.isNote) Bool.false_ne_true.symm

theorem events_giveBack (engine : Engine) (channel : Channel) : (engine.giveBack channel).events = engine.events := by
  obtain ⟨free, hfree⟩ := engine.giveBack_frame channel
  rw [hfree]

theorem endsAmong_releaseNote (engine : Engine) (time : Float) (note : Note) (velocity : UInt8) :
    EndsAmong [note] engine (engine.releaseNote time note velocity) := by
  refine ⟨fun other hheld hne => ?_, engine.stopEvents time (engine.voices.channelOf note) note velocity, ?_, ?_⟩
  · rw [voices_releaseNote, Voices.held_stop]
    exact (List.mem_erase_of_ne fun heq => hne (List.mem_singleton.mpr heq)).mpr hheld
  · rw [releaseNote_eq, events_giveBack, events_stopNote]
  · exact fun event => endsOneOf_stopEvents

theorem endsAmong_releaseDeferred (engine : Engine) (time : Float) :
    EndsAmong engine.pedal.deferred.notes engine (engine.releaseDeferred time) := by
  have hall : ∀ (notes : List Note) (e : Engine), EndsAmong notes e
      (notes.foldl (fun e note => e.releaseNote time note (e.pedal.velocityOf note)) e) := by
    intro notes
    induction notes with
    | nil => exact EndsAmong.refl []
    | cons first rest ih =>
        intro e
        rw [List.foldl_cons]
        have hfirst := e.endsAmong_releaseNote time first (e.pedal.velocityOf first)
        have hvoices := e.voices_releaseNote time first (e.pedal.velocityOf first)
        have hlayout := (e.sameMode_releaseNote time first (e.pedal.velocityOf first)).layout
        have hrest := ih (e.releaseNote time first (e.pedal.velocityOf first))
        generalize e.releaseNote time first (e.pedal.velocityOf first) = released at hfirst hvoices hlayout hrest
        obtain ⟨sent, hsent, hends⟩ := hfirst.sent
        obtain ⟨sent', hsent', hends'⟩ := hrest.sent
        refine ⟨fun note hheld hnot => ?_, sent ++ sent', ?_, fun event hevent hoff => ?_⟩
        · have hne : note ∉ [first] := fun hmem => hnot (List.mem_cons.mpr (.inl (List.mem_singleton.mp hmem)))
          exact hrest.held note (hfirst.held note hheld hne) fun hmem => hnot (List.mem_cons_of_mem first hmem)
        · rw [hsent', hsent, List.append_assoc]
        · rcases List.mem_append.mp hevent with hmem | hmem
          · obtain ⟨note, hnote, hevent⟩ := hends event hmem hoff
            exact ⟨note, List.mem_cons.mpr (.inl (List.mem_singleton.mp hnote)), hevent⟩
          · obtain ⟨note, hnote, hchannel, hdata⟩ := hends' event hmem hoff
            rw [hvoices, Voices.channelOf_stop] at hchannel
            unfold Engine.isAbove at hdata
            rw [hlayout] at hdata
            exact ⟨note, List.mem_cons_of_mem first hnote, hchannel, hdata⟩
  exact hall engine.pedal.deferred.notes engine

theorem events_route (engine : Engine) (time : Float) (controller : ControllerId) (value : Float) :
    ∃ sent, (engine.route time controller value).events.toList = engine.events.toList ++ sent
      ∧ ∀ event ∈ sent, event.isNote = false := by
  unfold route
  dsimp only
  split
  · exact ⟨_, engine.events_sendController .., fun _ => isNote_controllerEvents⟩
  · refine List.foldlRecOn _ _ (motive := fun e : Engine => ∃ sent, e.events.toList = engine.events.toList ++ sent
      ∧ ∀ event ∈ sent, event.isNote = false)
      ⟨[], (List.append_nil _).symm, fun _ hevent => absurd hevent List.not_mem_nil⟩ ?_
    rintro e ⟨sent, hevents, hsent⟩ i -
    rw [events_routeRule, hevents, List.append_assoc]
    exact ⟨_, rfl, fun event hevent => (List.mem_append.mp hevent).elim (hsent event) fun h => (setsController_routeEvents h).isNote⟩

/-- A controller ends those notes at most that wait for the pedal. -/
theorem endsAmong_moveController (engine : Engine) (time : Float) (controller : ControllerId) (raw : UInt16)
    (value : Float) :
    EndsAmong engine.pedal.deferred.notes engine (engine.moveController time controller raw value) := by
  let stamped : Engine := { engine with recent := engine.recent.set controller.index ⟨time, raw⟩ }
  obtain ⟨sent, hevents, hsent⟩ := stamped.events_route time controller value
  obtain ⟨parameters, published, events, hroute⟩ := stamped.route_frame time controller value
  have hquiet : ∀ {after : Engine}, EndsAmong engine.pedal.deferred.notes (stamped.route time controller value) after →
      EndsAmong engine.pedal.deferred.notes engine after :=
    fun h => h.of_quiet (by rw [hroute]) (by rw [hroute]) hevents hsent
  have hpedal : (stamped.route time controller value).pedal = engine.pedal := by rw [hroute]
  have hnone : ∀ event ∈ ([] : List Event), event.isNote = false := fun _ hevent => absurd hevent List.not_mem_nil
  unfold moveController
  dsimp only
  split
  · exact EndsAmong.refl _ engine
  · refine hquiet ?_
    split
    · unfold movePedal
      dsimp only
      split
      · split
        · exact EndsAmong.refl _ _ |>.of_quiet rfl rfl (List.append_nil _).symm hnone
        · have hrelease := endsAmong_releaseDeferred { stamped.route time controller value with
            pedal := { (stamped.route time controller value).pedal with isDown := 0.5 ≤ value } } time
          have hsame : EndsAmong (stamped.route time controller value).pedal.deferred.notes
              (stamped.route time controller value) (releaseDeferred _ time) :=
            hrelease.of_quiet rfl rfl (List.append_nil _).symm hnone
          rw [hpedal] at hsame ⊢
          exact hsame
      · exact EndsAmong.refl _ _
    · exact EndsAmong.refl _ _

theorem receive_sustainPedal (hactive : engine.isSuspended = false) (time : Float) (channel value : UInt8) :
    engine.receive time (.controlChange channel 64 value) =
      engine.moveController time .sustainPedal value.toUInt16 (Midi.fractionOfByte value) := by
  unfold receive
  rw [hactive, if_neg Bool.false_ne_true]
  rfl

theorem endsAmong_receive_sustainPedal (engine : Engine) (time : Float) (channel value : UInt8) :
    EndsAmong engine.pedal.deferred.notes engine (engine.receive time (.controlChange channel 64 value)) := by
  cases hsuspended : engine.isSuspended with
  | true =>
      have hsame : engine.receive time (.controlChange channel 64 value) = engine := if_pos hsuspended
      rw [hsame]
      exact EndsAmong.refl _ engine
  | false =>
      rw [receive_sustainPedal hsuspended]
      exact engine.endsAmong_moveController time .sustainPedal value.toUInt16 (Midi.fractionOfByte value)

/-- Whether a move of the pedal ends other notes only. -/
structure Spares (engine : Engine) (note : Note) (time : Float) (channel value : UInt8) : Prop where
  /-- Each note it ends is another one, and one that waits. -/
  ends : ∀ event ∈ engine.emitted (.call time (.controlChange channel 64 value)), event.command = .noteOff →
    engine.EndsOneOf (engine.pedal.deferred.notes.filter (· ≠ note)) event
  /-- No note ends on the channel of the one that is spared. -/
  apart : note ∈ engine.voices.held.notes →
    ∀ event ∈ engine.emitted (.call time (.controlChange channel 64 value)), event.command = .noteOff →
      event.channel ≠ (engine.voices.channelOf note).val.toUInt8
  /-- The note stays held. -/
  held : note ∈ engine.voices.held.notes →
    note ∈ (engine.receive time (.controlChange channel 64 value)).voices.held.notes

/-- The pedal ends none but the notes that wait. -/
theorem spares_of_not_mem (hbalanced : Balanced ([], engine)) (h : note ∉ engine.pedal.deferred.notes)
    (time : Float) (channel value : UInt8) : engine.Spares note time channel value := by
  have hcleared := engine.clearEvents.endsAmong_receive_sustainPedal time channel value
  obtain ⟨sent, hevents, hsent⟩ := hcleared.sent
  have hemitted : engine.emitted (.call time (.controlChange channel 64 value)) = sent := hevents
  rw [← hemitted] at hsent
  have hends : ∀ event ∈ engine.emitted (.call time (.controlChange channel 64 value)), event.command = .noteOff →
      engine.EndsOneOf (engine.pedal.deferred.notes.filter (· ≠ note)) event := by
    intro event hevent hoff
    obtain ⟨other, hother, hended⟩ := hsent event hevent hoff
    have hne : other ≠ note := fun heq => h (heq ▸ hother)
    exact ⟨other, List.mem_filter.mpr ⟨hother, decide_eq_true hne⟩, hended⟩
  refine ⟨hends, fun hheld event hevent hoff hsame => ?_, fun hheld => ?_⟩
  · obtain ⟨other, hother, hchannel, -⟩ := hends event hevent hoff
    obtain ⟨hdeferred, hne⟩ := List.mem_filter.mp hother
    have hsameChannel := channelByte_injective (hchannel.symm.trans hsame)
    exact of_decide_eq_true hne
      (hbalanced.channelOf_injective (hbalanced.deferred other hdeferred) hheld hsameChannel)
  · exact (engine.endsAmong_receive_sustainPedal time channel value).held note hheld h

/-! ### A note that waits is struck again -/

/-- A note that waits is held, so striking it is ignored or starts it afresh. -/
theorem strike_waiting (hbalanced : Balanced ([], engine)) (hwaits : note ∈ engine.pedal.deferred.notes)
    (time : Float) (velocity : UInt8) :
    (engine.parameters.excessNotes = .ignore ∧ engine.strike time note velocity = engine)
    ∨ (engine.parameters.excessNotes ≠ .ignore
      ∧ engine.strike time note velocity = engine.replaceNote time note note velocity) := by
  have hheld := hbalanced.deferred note hwaits
  obtain ⟨hignore, h⟩ | ⟨-, hsteals, h⟩ | ⟨hnot, -⟩ | ⟨hnot, -⟩ := engine.strike_cases time note velocity
  · exact .inl ⟨hignore hheld, h⟩
  · exact .inr ⟨hsteals, h⟩
  · exact absurd hheld hnot
  · exact absurd hheld hnot

theorem receive_noteOn (hactive : engine.isSuspended = false) (time : Float) (channel : UInt8) (note : Note)
    (velocity : UInt8) :
    engine.receive time (.noteOn channel (noteToByte note) velocity) = engine.strike time note velocity := by
  unfold receive
  rw [hactive, if_neg Bool.false_ne_true]
  dsimp only
  rw [noteOfByte?_noteToByte]
  rfl

/-- Striking a note that waits takes its release back: from then on, as long as nothing releases the note again, it
does not wait and the pedal spares it. An engine that ignores notes held already is the exception; there nothing
changes and the release still waits. -/
theorem strike_supersedes_release (h : Reachable engine) (hactive : engine.isSuspended = false)
    (hwaits : note ∈ engine.pedal.deferred.notes) (time : Float) (channel velocity : UInt8) :
    (engine.parameters.excessNotes = .ignore →
      engine.receive time (.noteOn channel (noteToByte note) velocity) = engine)
    ∧ (engine.parameters.excessNotes ≠ .ignore →
      note ∉ (engine.receive time (.noteOn channel (noteToByte note) velocity)).pedal.deferred.notes
      ∧ ∀ operations,
        (engine.receive time (.noteOn channel (noteToByte note) velocity)).liftsIn note operations = false →
        let later := (engine.receive time (.noteOn channel (noteToByte note) velocity)).run operations
        note ∉ later.pedal.deferred.notes
          ∧ ∀ laterTime laterChannel value, later.Spares note laterTime laterChannel value) := by
  have hstruck : Reachable (engine.receive time (.noteOn channel (noteToByte note) velocity)) :=
    h.perform (.call time (.noteOn channel (noteToByte note) velocity))
  rw [receive_noteOn hactive] at hstruck ⊢
  obtain ⟨hignores, hstrike⟩ | ⟨hsteals, hstrike⟩ := strike_waiting h.balanced hwaits time velocity
  · exact ⟨fun _ => hstrike, fun hsteals => absurd hignores hsteals⟩
  · have hfree : note ∉ (engine.strike time note velocity).pedal.deferred.notes := by
      rw [hstrike, pedal_replaceNote, Pedal.notes_forget]
      exact engine.pedal.deferred.nodup.not_mem_erase
    refine ⟨fun hignores => absurd hignores hsteals, fun _ => ⟨hfree, fun operations hlifts => ?_⟩⟩
    have hlater := not_mem_deferred_run hlifts hfree
    exact ⟨hlater, spares_of_not_mem (hstruck.run operations).balanced hlater⟩

/-- Two notes wait for the pedal. -/
def twoReleasesWait : List Operation :=
  sustained ++ [.call 0.0 (.noteOn 0 64 100), .call 0.0 (.noteOff 0 64 0)]

/-- One of two notes that wait is struck again, and of the two the pedal ends the other one. -/
theorem strike_supersedes_release_twoReleasesWait :
    Reachable (standard.run twoReleasesWait) ∧ (standard.run twoReleasesWait).isSuspended = false
    ∧ 60 ∈ (standard.run twoReleasesWait).pedal.deferred.notes
    ∧ (standard.run twoReleasesWait).parameters.excessNotes ≠ .ignore
    ∧ ((standard.run twoReleasesWait).receive 0.5 (.noteOn 0 (noteToByte 60) 90)).liftsIn 60
      [.call 0.6 (.noteOff 0 62 0)] = false
    ∧ (((standard.run twoReleasesWait).receive 0.5 (.noteOn 0 (noteToByte 60) 90)).run
      [.call 0.6 (.noteOff 0 62 0)]).Spares 60 0.7 0 0 := by
  have hreachable : Reachable (standard.run twoReleasesWait) := reachable_standard.run twoReleasesWait
  have hactive : (standard.run twoReleasesWait).isSuspended = false := by decide +kernel
  have hwaits : 60 ∈ (standard.run twoReleasesWait).pedal.deferred.notes := by decide +kernel
  have hsteals : (standard.run twoReleasesWait).parameters.excessNotes ≠ .ignore := by decide +kernel
  have hlifts : ((standard.run twoReleasesWait).receive 0.5 (.noteOn 0 (noteToByte 60) 90)).liftsIn 60
      [.call 0.6 (.noteOff 0 62 0)] = false := by decide +kernel
  obtain ⟨-, hlater⟩ := ((strike_supersedes_release hreachable hactive hwaits 0.5 0 90).2 hsteals).2 _ hlifts
  exact ⟨hreachable, hactive, hwaits, hsteals, hlifts, hlater 0.7 0 0⟩

/-- An engine that ignores excess notes ends a note at the pedal although it has been struck again. -/
theorem struck_note_still_waits : ¬∀ (engine : Engine) (note : Note), Reachable engine →
    engine.isSuspended = false → note ∈ engine.pedal.deferred.notes → ∀ time channel velocity,
      note ∉ (engine.receive time (.noteOn channel (noteToByte note) velocity)).pedal.deferred.notes := by
  intro h
  let ignoring : List Operation := .apply (.setParameter (.zone .excessNotes) 0.0) :: sustained
  have hactive : (standard.run ignoring).isSuspended = false := by decide +kernel
  have hwaits : 60 ∈ (standard.run ignoring).pedal.deferred.notes := by decide +kernel
  have hstill : 60 ∈
      ((standard.run ignoring).receive 0.5 (.noteOn 0 (noteToByte 60) 90)).pedal.deferred.notes := by
    decide +kernel
  exact h _ 60 (reachable_standard.run ignoring) hactive hwaits 0.5 0 90 hstill

end Engine

end PolyExpression
