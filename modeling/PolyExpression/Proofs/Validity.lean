import PolyExpression.Midi.Block
import PolyExpression.Proofs.Mode
import PolyExpression.Proofs.Restart
import PolyExpression.Proofs.Transmission

/-!
What is sent as messages on the wire. Channels and controller numbers are in range by what they are made from, and
controller values by rounding; of what comes in only velocities are sent as they are, those of held notes and of releases
that wait among them. Main statement: if they are data bytes, everything a run sends is a message with data that may
travel, and limiting its data gives the same bytes as keeping their low bits.
-/

namespace PolyExpression

open Midi (Event Call Command)

namespace Midi

/-- The velocity that comes in with a message. -/
def Call.velocity? : Call → Option UInt8
  | .noteOff _ _ velocity | .noteOn _ _ velocity => some velocity
  | _ => none

/-- Whether the event is one of the messages that an engine sends, with data that may travel as they are. -/
structure Event.IsMessage (event : Event) : Prop extends event.IsPlain where
  command_mem : event.command ∈ [.noteOff, .noteOn, .controlChange, .channelPressure, .pitchBend]
  controller_le : event.command = .controlChange → event.data1 ≤ VoiceMessage.controllerMax

/-! ### Two ways to encode a message -/

namespace Event

variable {event : Event}

theorem isStatusByte_of_le {b : UInt8} (h : b ≤ 127) : isStatusByte b = false := by
  rw [← dataBits_of_le h]
  exact isStatusByte_dataBits b

theorem limited_of_le {b : UInt8} (h : b ≤ 127) : VoiceMessage.limited b = dataBits b := by
  rw [dataBits_of_le h]
  exact if_pos h

/-- A bend sent low half first is the data bytes it was made from. -/
theorem halves_bendWord (h : event.IsPlain) : (event.bendWord &&& 0x7F).toUInt8 = event.data1
    ∧ (event.bendWord >>> 7 &&& 0x7F).toUInt8 = event.data2 := by
  have hlow : event.data1.toNat < 2 ^ 7 := Nat.lt_succ_of_le (UInt8.le_iff_toNat_le.mp h.data1_le)
  have hhigh : event.data2.toNat < 2 ^ 7 := Nat.lt_succ_of_le (UInt8.le_iff_toNat_le.mp h.data2_le)
  have hword : event.bendWord.toNat = event.data2.toNat * 2 ^ 7 + event.data1.toNat := by
    have hbend := Receiver.bend_eq (isStatusByte_of_le h.data1_le) event.data2
    rw [bendWord, dataBits_of_le h.data1_le, dataBits_of_le h.data2_le, ← hbend]
    exact Nat.mod_eq_of_lt (by omega)
  have hmask : ∀ word : UInt16, (word &&& 0x7F).toUInt8.toNat = word.toNat % 2 ^ 7 := by
    intro word
    have hand : word.toNat &&& 0x7F = word.toNat % 2 ^ 7 := Nat.and_two_pow_sub_one_eq_mod word.toNat 7
    rw [UInt16.toNat_toUInt8, UInt16.toNat_and]
    exact (congrArg (· % 2 ^ 8) hand).trans (by omega)
  constructor
  · apply UInt8.toNat.inj
    rw [hmask, hword]
    omega
  · apply UInt8.toNat.inj
    rw [hmask, UInt16.toNat_shiftRight, hword]
    show (event.data2.toNat * 2 ^ 7 + event.data1.toNat) >>> 7 % 2 ^ 7 = event.data2.toNat
    rw [Nat.shiftRight_eq_div_pow]
    omega

theorem command_ofEvent (event : Event) : (VoiceMessage.ofEvent event).command = event.command := by
  unfold VoiceMessage.ofEvent
  cases event.command <;> rfl

/-- Limiting the data of a message leaves what its low bits are. -/
theorem IsMessage.data_ofEvent (h : event.IsMessage) : (VoiceMessage.ofEvent event).data = event.payload := by
  have hdata1 := limited_of_le h.data1_le
  have hdata2 := limited_of_le h.data2_le
  have hcontroller := h.controller_le
  unfold VoiceMessage.ofEvent payload
  cases hcommand : event.command with
  | controlChange =>
      have hmin : min event.data1 VoiceMessage.controllerMax = dataBits event.data1 := by
        rw [dataBits_of_le h.data1_le]
        exact if_pos (hcontroller hcommand)
      simp only [VoiceMessage.data, Command.dataLength, if_pos, hmin, hdata2]
  | pitchBend =>
      obtain ⟨hlow, hhigh⟩ := halves_bendWord h.toIsPlain
      simp only [VoiceMessage.data, Command.dataLength, if_pos, hlow, hhigh, dataBits_of_le h.data1_le,
        dataBits_of_le h.data2_le]
  | noteOff | noteOn | aftertouch | programChange | channelPressure =>
      simp [VoiceMessage.data, Command.dataLength, hdata1, hdata2]

/-- A message finds its place at any frame, and both encoders make the same bytes of it. -/
theorem IsMessage.place (h : event.IsMessage) (frame : Nat) :
    ∃ placed, PlacedMessage.ofEvent event frame = .ok placed ∧ placed.frame = frame
      ∧ placed.bytes = event.bytes := by
  have hchannel : event.channel.toNat < 16 := Nat.lt_succ_of_le (UInt8.le_iff_toNat_le.mp h.channel_le)
  refine ⟨⟨frame, ⟨event.channel.toNat, hchannel⟩, .ofEvent event⟩, dif_pos hchannel, rfl, ?_⟩
  calc PlacedMessage.bytes ⟨frame, ⟨event.channel.toNat, hchannel⟩, .ofEvent event⟩
      = (VoiceMessage.ofEvent event).command.status event.channel.toNat.toUInt8
          :: (VoiceMessage.ofEvent event).data := rfl
    _ = event.status :: event.payload := by
        rw [command_ofEvent, h.data_ofEvent]
        simp [status]
    _ = event.bytes := event.bytes_eq.symm

end Event

/-! ### What is decoded from bytes -/

namespace Stream

theorem le_of_isStatusByte_eq_false {b : UInt8} (h : isStatusByte b = false) : b ≤ 127 := by
  have hlow := of_decide_eq_false h
  rw [UInt8.le_iff_toNat_le] at hlow ⊢
  exact Nat.le_of_lt_succ (Nat.not_le.mp hlow)

theorem dataByte?_le {bytes rest : List UInt8} {b : UInt8} (h : dataByte? bytes = some (b, rest)) : b ≤ 127 := by
  obtain ⟨hnone, -⟩ | ⟨byte, tail, -, hbyte, hsome⟩ := dataByte?_cases bytes
  · cases hnone.symm.trans h
  · cases hsome.symm.trans h
    exact le_of_isStatusByte_eq_false hbyte

theorem velocity_ofData_le {command : Command} {channel data1 data2 velocity : UInt8} (h : data2 ≤ 127)
    (hvelocity : velocity ∈ (Call.ofData command channel data1 data2).velocity?) : velocity ≤ 127 := by
  cases command with
  | noteOff => exact Option.some.inj hvelocity ▸ h
  | noteOn =>
      by_cases hzero : data2 = 0
      · rw [Call.ofData, if_pos hzero] at hvelocity
        exact Option.some.inj hvelocity ▸ by decide
      · rw [Call.ofData, if_neg hzero] at hvelocity
        exact Option.some.inj hvelocity ▸ h
  | controlChange =>
      unfold Call.ofData at hvelocity
      dsimp only at hvelocity
      split at hvelocity <;> cases hvelocity
  | _ => cases hvelocity

theorem velocity_decodeFirst_le {running first velocity : UInt8} {rest : List UInt8} {call : Call}
    (hcall : (decodeFirst running first rest).call? = some call) (hvelocity : velocity ∈ call.velocity?) :
    velocity ≤ 127 := by
  have hbody : ∀ status body, (decodeBody status body).call? = some call → velocity ≤ 127 := by
    intro status body h
    unfold decodeBody at h
    split at h
    · cases h
    · split at h
      · cases h
      · split at h
        · obtain rfl := Option.some.inj h
          exact velocity_ofData_le (by decide) hvelocity
        · split at h
          · cases h
          · rename_i hsecond
            obtain rfl := Option.some.inj h
            exact velocity_ofData_le (dataByte?_le hsecond) hvelocity
  unfold decodeFirst at hcall
  split at hcall
  · exact hbody _ _ hcall
  · exact hbody _ _ hcall

/-- Velocities that are decoded from bytes are data bytes. -/
theorem velocity_decode_le (running : UInt8) (bytes : List UInt8) :
    ∀ call ∈ (decode running bytes).1, ∀ velocity ∈ call.velocity?, velocity ≤ 127 := by
  have honto : ∀ (running : UInt8) (calls : List Call) (bytes : List UInt8),
      (∀ call ∈ calls, ∀ velocity ∈ call.velocity?, velocity ≤ 127) →
      ∀ call ∈ (decodeOnto running calls bytes).1, ∀ velocity ∈ call.velocity?, velocity ≤ 127 := by
    intro running calls bytes
    induction running, calls, bytes using decodeOnto.induct with
    | case1 running calls =>
        intro h call hcall
        rw [decodeOnto] at hcall
        exact h call (List.mem_reverse.mp hcall)
    | case2 running calls first rest step ih =>
        intro h
        rw [decodeOnto]
        refine ih ?_
        cases hstep : step.call? with
        | none => exact h
        | some decoded =>
            rintro call hcall
            rcases List.mem_cons.mp hcall with rfl | hcall
            · exact fun velocity => velocity_decodeFirst_le hstep
            · exact h call hcall
  exact honto running [] bytes fun _ hcall => absurd hcall List.not_mem_nil

end Stream

end Midi

/-! ### What the engine sends -/

theorem byteOfFraction_le_dataMax (value : Float) : Midi.byteOfFraction value ≤ 127 :=
  UInt8.le_iff_toNat_le.mpr (Midi.byteOfFraction_le value)

theorem channelByte_le (channel : Channel) : channel.val.toUInt8 ≤ 15 := by
  have hlt := channel.isLt
  have hbyte : channel.val.toUInt8.toNat = channel.val := Nat.mod_eq_of_lt (by omega)
  rw [UInt8.le_iff_toNat_le, hbyte]
  exact Nat.le_of_lt_succ hlt

theorem noteToByte_le (note : Note) : noteToByte note ≤ 127 := by
  rw [UInt8.le_iff_toNat_le, toNat_noteToByte]
  exact Nat.le_of_lt_succ note.isLt

/-- The halves of a bend are data bytes. -/
theorem halves_wordOfFraction_le (value : Float) : (Midi.wordOfFraction value &&& 0x7F).toUInt8 ≤ 127
    ∧ (Midi.wordOfFraction value >>> 7).toUInt8 ≤ 127 := by
  have hword := Midi.wordOfFraction_le value
  generalize Midi.wordOfFraction value = word at hword
  rw [UInt8.le_iff_toNat_le, UInt8.le_iff_toNat_le, UInt16.toNat_toUInt8, UInt16.toNat_toUInt8, UInt16.toNat_and,
    UInt16.toNat_shiftRight]
  have hlow : word.toNat &&& 0x7F ≤ 127 := Nat.and_le_right
  have hhigh : word.toNat >>> 7 ≤ 127 := by
    rw [Nat.shiftRight_eq_div_pow]
    simp only [Midi.wordMax14] at hword
    omega
  exact ⟨(Nat.mod_le _ _).trans hlow, (Nat.mod_le _ _).trans hhigh⟩

theorem ControllerId.midiNumber?_le {controller : ControllerId} {number : UInt8}
    (h : controller.midiNumber? = some number) : number ≤ 119 := by
  unfold midiNumber? at h
  split at h
  · rename_i hlow
    obtain rfl := Option.some.inj h
    have hbyte : controller.toByte.toNat = controller.index.val := Nat.mod_eq_of_lt (by omega)
    rw [UInt8.le_iff_toNat_le, hbyte]
    exact Nat.le_of_lt_succ hlow
  · cases h

theorem isMessage_controlChange (time value : Float) (channel : Channel) {number data : UInt8} (isSetup : Bool)
    (hnumber : number ≤ 119) (hdata : data ≤ 127) :
    Event.IsMessage ⟨time, value, .controlChange, channel.val.toUInt8, number, data, isSetup⟩ where
  channel_le := channelByte_le channel
  data1_le := UInt8.le_trans hnumber (by decide)
  data2_le := hdata
  command_mem := by simp only [List.mem_cons, true_or, or_true]
  controller_le _ := hnumber

theorem Midi.Event.SetsController.isMessage {event : Event} (h : event.SetsController) : event.IsMessage := by
  obtain ⟨time, channel, controller, value, isSetup, h⟩ := h
  have hchannel := channelByte_le channel
  have hvalue := byteOfFraction_le_dataMax value
  have hzero : (0 : UInt8) ≤ 127 := by decide
  obtain ⟨hlow, hhigh⟩ := halves_wordOfFraction_le value
  unfold controllerEvents controllerEvent? at h
  dsimp only at h
  split at h
  · obtain rfl := List.mem_singleton.mp h
    exact ⟨⟨hchannel, hlow, hhigh⟩, by simp only [List.mem_cons, true_or, or_true], nofun⟩
  · split at h
    · obtain rfl := List.mem_singleton.mp h
      exact ⟨⟨hchannel, hvalue, hzero⟩, by simp only [List.mem_cons, true_or, or_true], nofun⟩
    · obtain ⟨number, hnumber, rfl⟩ := Option.map_eq_some_iff.mp (Option.mem_toList.mp h)
      exact isMessage_controlChange time value channel isSetup (ControllerId.midiNumber?_le hnumber) hvalue

theorem isMessage_noteEvent {command : Command} (hcommand : command = .noteOff ∨ command = .noteOn) (time : Float)
    (channel : Channel) (note : Note) {velocity : UInt8} (h : velocity ≤ 127) :
    (noteEvent time command channel note velocity).IsMessage := by
  refine ⟨⟨channelByte_le channel, noteToByte_le note, h⟩, ?_, ?_⟩
  · rcases hcommand with rfl | rfl <;> simp [noteEvent]
  · rcases hcommand with rfl | rfl <;> simp [noteEvent]

namespace Engine

theorem isMessage_announcement {channel : Channel} {members : Nat} (h : members ≤ memberMax) {event : Event}
    (hevent : event ∈ announcement channel members) : event.IsMessage := by
  have hmembers : members.toUInt8 ≤ 127 := by
    have hbyte : members.toUInt8.toNat ≤ members := Nat.mod_le _ _
    simp only [memberMax] at h
    exact UInt8.le_iff_toNat_le.mpr (hbyte.trans (h.trans (by decide)))
  simp only [announcement, List.mem_cons, List.not_mem_nil, or_false] at hevent
  rcases hevent with rfl | rfl | rfl
  · exact isMessage_controlChange _ _ channel false (by decide) (by decide)
  · exact isMessage_controlChange _ _ channel false (by decide) (by decide)
  · exact isMessage_controlChange _ _ channel false (by decide) hmembers

/-- The output consists of messages, and the velocities of the notes and of the releases are data bytes. -/
structure Valid (engine : Engine) : Prop where
  events : ∀ event ∈ engine.events.toList, event.IsMessage
  velocities : ∀ note, engine.voices.velocityOf note ≤ 127
  releases : ∀ note, engine.pedal.velocityOf note ≤ 127

variable {engine before after : Engine} {velocity : UInt8}

namespace Valid

theorem congr (h : Valid before) (hevents : after.events = before.events)
    (hvoices : after.voices.velocityOf = before.voices.velocityOf)
    (hpedal : after.pedal.velocityOf = before.pedal.velocityOf) : Valid after where
  events := hevents ▸ h.events
  velocities := hvoices ▸ h.velocities
  releases := hpedal ▸ h.releases

theorem emitAll (h : Valid engine) {sent : List Event} (hsent : ∀ event ∈ sent, event.IsMessage) :
    Valid (engine.emitAll sent) where
  events := by
    rw [toList_events_emitAll]
    exact fun event hevent => (List.mem_append.mp hevent).elim (h.events event) (hsent event)
  velocities := h.velocities
  releases := h.releases

theorem clearEvents (h : Valid engine) : Valid engine.clearEvents :=
  ⟨fun _ hevent => absurd hevent List.not_mem_nil, h.velocities, h.releases⟩

theorem foldl {α : Type} {step : Engine → α → Engine} {items : List α}
    (hstep : ∀ engine item, item ∈ items → Valid engine → Valid (step engine item)) (h : Valid engine) :
    Valid (items.foldl step engine) :=
  List.foldlRecOn items step (motive := Valid) h fun e he item hitem => hstep e item hitem he

/-! ### Notes -/

theorem startNote (h : Valid engine) (time : Float) (channel : Channel) (note : Note) (hvelocity : velocity ≤ 127) :
    Valid (engine.startNote time channel note velocity) := by
  have hwith : Valid (engine.withVoice channel note velocity).publishVoices := by
    refine ⟨h.events, fun other => ?_, h.releases⟩
    show (engine.voices.start note channel velocity (engine.isAbove note)).velocityOf other ≤ 127
    rw [Voices.velocityOf_start]
    split
    · exact hvelocity
    · exact h.velocities other
  rw [startNote_eq]
  refine hwith.emitAll fun event hevent => ?_
  rcases mem_startEvents hevent with rfl | hsets
  · exact isMessage_noteEvent (.inr rfl) _ _ _ hvelocity
  · exact hsets.isMessage

theorem releaseVelocity_le (h : Valid engine) (note : Note) (hvelocity : velocity ≤ 127) :
    engine.releaseVelocity note velocity ≤ 127 := by
  unfold releaseVelocity
  split
  · exact h.velocities note
  · exact hvelocity

theorem isMessage_stopEvents (h : Valid engine) {time : Float} {channel : Channel} {note : Note}
    (hvelocity : velocity ≤ 127) {event : Event} (hevent : event ∈ engine.stopEvents time channel note velocity) :
    event.IsMessage := by
  rcases mem_stopEvents hevent with rfl | hsets
  · exact isMessage_noteEvent (.inl rfl) _ _ _ (h.releaseVelocity_le note hvelocity)
  · exact hsets.isMessage

theorem withoutVoice (h : Valid engine) (note : Note) : Valid (engine.withoutVoice note) :=
  h.congr rfl (engine.voices.velocityOf_stop note) rfl

theorem stopNote (h : Valid engine) (time : Float) (channel : Channel) (note : Note) (hvelocity : velocity ≤ 127) :
    Valid (engine.stopNote time channel note velocity) := by
  have hwithout : Valid (engine.withoutVoice note).publishVoices := (h.withoutVoice note).congr rfl rfl rfl
  rw [stopNote_eq]
  exact hwithout.emitAll fun _ => h.isMessage_stopEvents hvelocity

theorem giveBack (h : Valid engine) (channel : Channel) : Valid (engine.giveBack channel) := by
  obtain ⟨free, hfree⟩ := engine.giveBack_frame channel
  rw [hfree]
  exact h.congr rfl rfl rfl

theorem releaseNote (h : Valid engine) (time : Float) (note : Note) (hvelocity : velocity ≤ 127) :
    Valid (engine.releaseNote time note velocity) := by
  rw [releaseNote_eq]
  exact (h.stopNote time _ note hvelocity).giveBack _

theorem releaseDeferred (h : Valid engine) (time : Float) : Valid (engine.releaseDeferred time) :=
  foldl (fun _ note _ he => he.releaseNote time note (he.releases note)) h

theorem replaceNote (h : Valid engine) (time : Float) (old new : Note) (hvelocity : velocity ≤ 127) :
    Valid (engine.replaceNote time old new velocity) :=
  (h.stopNote time _ old (by decide)).startNote time _ new hvelocity

theorem strike (h : Valid engine) (time : Float) (note : Note) (hvelocity : velocity ≤ 127) :
    Valid (engine.strike time note velocity) := by
  obtain ⟨-, hsame⟩ | ⟨-, -, hagain⟩ | ⟨-, channel, -, hfree⟩ | ⟨-, stolen, -, hsteal⟩ :=
    engine.strike_cases time note velocity
  · rw [hsame]
    exact h
  · rw [hagain]
    exact h.replaceNote time note note hvelocity
  · have htake : Valid { engine with free := engine.free.pop.2 } := h.congr rfl rfl rfl
    rw [hfree]
    exact htake.startNote time channel note hvelocity
  · rw [hsteal]
    exact h.replaceNote time stolen note hvelocity

theorem hold (h : Valid engine) (note : Note) (hvelocity : velocity ≤ 127) :
    Valid { engine with pedal := engine.pedal.hold note velocity } where
  events := h.events
  velocities := h.velocities
  releases := by
    intro other
    show (engine.pedal.velocities.set note velocity).get other ≤ 127
    rw [PerNote.get_set]
    split
    · exact hvelocity
    · exact h.releases other

theorem lift (h : Valid engine) (time : Float) (note : Note) (hvelocity : velocity ≤ 127) :
    Valid (engine.lift time note velocity) := by
  unfold Engine.lift
  split
  · split
    · exact h.hold note hvelocity
    · exact h.releaseNote time note hvelocity
  · exact h

/-! ### Controllers -/

theorem routeRule (h : Valid engine) (time : Float) (controller : ControllerId) (value : Float) (i : RuleIndex) :
    Valid (routeRule time controller value engine i) := by
  obtain ⟨parameters, published, hinput⟩ := engine.withInput_frame controller value i
  have hwith : Valid (engine.withInput controller value i) := by
    rw [hinput]
    exact h.congr rfl rfl rfl
  rw [routeRule_eq]
  exact hwith.emitAll fun _ hevent => (setsController_routeEvents hevent).isMessage

theorem route (h : Valid engine) (time : Float) (controller : ControllerId) (value : Float) :
    Valid (engine.route time controller value) := by
  unfold Engine.route
  dsimp only
  split
  · rw [sendController_eq]
    exact h.emitAll fun _ hevent => (setsController_of_mem hevent).isMessage
  · exact foldl (fun _ i _ he => he.routeRule time controller value i) h

theorem movePedal (h : Valid engine) (time value : Float) : Valid (engine.movePedal time value) := by
  have hmove : Valid { engine with pedal := { engine.pedal with isDown := 0.5 ≤ value } } := h.congr rfl rfl rfl
  unfold Engine.movePedal
  dsimp only
  split
  · split
    · exact hmove
    · exact hmove.releaseDeferred time
  · exact h

theorem moveController (h : Valid engine) (time : Float) (controller : ControllerId) (raw : UInt16)
    (value : Float) : Valid (engine.moveController time controller raw value) := by
  have hstamp : Valid { engine with recent := engine.recent.set controller.index ⟨time, raw⟩ } := h.congr rfl rfl rfl
  have hroute := hstamp.route time controller value
  unfold Engine.moveController
  dsimp only
  split
  · exact h
  · split
    · exact hroute.movePedal time value
    · exact hroute

/-! ### Operations -/

theorem receive (h : Valid engine) (time : Float) {call : Call}
    (hvelocity : ∀ velocity ∈ call.velocity?, velocity ≤ 127) : Valid (engine.receive time call) := by
  unfold Engine.receive
  split
  · exact h
  · cases call with
    | noteOn channel byte velocity =>
        dsimp only
        cases noteOfByte? byte with
        | none => exact h
        | some note => exact h.strike time note (hvelocity velocity rfl)
    | noteOff channel byte velocity =>
        dsimp only
        cases noteOfByte? byte with
        | none => exact h
        | some note => exact h.lift time note (hvelocity velocity rfl)
    | controlChange channel number value =>
        dsimp only
        split
        · exact h
        · split
          · exact h.moveController ..
          · exact h
    | channelPressure channel pressure => exact h.moveController ..
    | pitchBend channel bend => exact h.moveController ..
    | _ => exact h

theorem receiveBytes (h : Valid engine) (time : Float) (bytes : List UInt8) :
    Valid (engine.receiveBytes time bytes) := by
  have hdecoded := Midi.Stream.velocity_decode_le engine.runningStatus bytes
  have hopened : Valid { engine with runningStatus := (Midi.Stream.decode engine.runningStatus bytes).2 } :=
    h.congr rfl rfl rfl
  exact foldl (fun _ call hcall he => he.receive time (hdecoded call hcall)) hopened

theorem endings (h : Valid engine) (notes : List Note) : ∀ event ∈ engine.endings notes, event.IsMessage := by
  induction notes generalizing engine with
  | nil => exact fun _ hevent => absurd hevent List.not_mem_nil
  | cons note notes ih =>
      intro event hevent
      rcases List.mem_append.mp hevent with hnote | hlater
      · rcases List.mem_append.mp hnote with hpedal | hstop
        · exact (setsController_of_mem hpedal).isMessage
        · exact h.isMessage_stopEvents (by decide) hstop
      · exact ih (h.withoutVoice note) event hlater

theorem silencing (h : Valid engine) : ∀ event ∈ engine.silencing, event.IsMessage := by
  intro event hevent
  rcases List.mem_append.mp hevent with hpedal | hnotes
  · split at hpedal
    · cases hpedal
    · exact (setsController_of_mem hpedal).isMessage
  · exact h.endings _ event hnotes

end Valid

theorem isMessage_openings {event : Event} (h : event ∈ engine.openings) : event.IsMessage := by
  rcases List.mem_append.mp h with hannounce | hrules
  · unfold announcements at hannounce
    split at hannounce
    · rcases List.mem_append.mp hannounce with hzone | hother
      · exact isMessage_announcement engine.layout.zone.memberCount_le hzone
      · exact isMessage_announcement (Nat.zero_le _) hother
    · cases hannounce
  · obtain ⟨i, -, hreset⟩ := List.mem_flatMap.mp hrules
    exact (setsController_resetEvents hreset).isMessage

namespace Valid

theorem reset (h : Valid engine) : Valid engine.reset := by
  have hrestarted : Valid engine.restarted :=
    ⟨fun _ hevent => absurd hevent List.not_mem_nil, h.velocities, h.releases⟩
  rw [reset_eq]
  refine hrestarted.emitAll fun event hevent => ?_
  exact (List.mem_append.mp hevent).elim (h.silencing event) isMessage_openings

theorem takeMessages (h : Valid engine) : Valid engine.takeMessages := by
  obtain ⟨parameters, published, htake⟩ := engine.takeMessages_eq
  rw [htake]
  exact h.congr rfl rfl rfl

theorem beginBlock (h : Valid engine) : Valid engine.beginBlock := by
  obtain ⟨parameters, published, recent, htold⟩ := engine.told_eq
  have hready : Valid engine.told := by
    rw [htold]
    exact h.congr rfl rfl rfl
  rw [beginBlock_eq_openBlock, openBlock_eq]
  split
  · exact hready.reset.congr rfl rfl rfl
  · split
    · exact hready.congr rfl rfl rfl
    · exact hready.clearEvents

theorem perform (h : Valid engine) {operation : Operation}
    (hvelocity : ∀ time call, operation = .call time call → ∀ velocity ∈ call.velocity?, velocity ≤ 127) :
    Valid (engine.perform operation) := by
  cases operation with
  | beginBlock => exact h.beginBlock
  | call time call => exact h.receive time (hvelocity time call rfl)
  | bytes time bytes => exact h.receiveBytes time bytes
  | apply message =>
      obtain ⟨parameters, published, happly⟩ := engine.apply_eq message
      show Valid (engine.apply message)
      rw [happly]
      exact h.congr rfl rfl rfl
  | post message =>
      show Valid (engine.offer message)
      rw [offer_eq]
      split
      · exact h.congr rfl rfl rfl
      · exact h
  | takeMessages => exact h.takeMessages
  | reset => exact h.reset
  | suspend => exact h.congr rfl rfl rfl
  | resume => exact (h.congr rfl rfl rfl : Valid { engine with isSuspended := false }).reset
  | clearDirty => exact h.congr rfl rfl rfl

/-- Every event that a run sends is a message. -/
theorem transcript (h : Valid engine) {operations : List Operation}
    (hvelocity : ∀ time call, .call time call ∈ operations → ∀ velocity ∈ call.velocity?, velocity ≤ 127) :
    ∀ event ∈ engine.transcript operations, event.IsMessage := by
  induction operations generalizing engine with
  | nil => exact fun _ hevent => absurd hevent List.not_mem_nil
  | cons operation operations ih =>
      have hfirst : ∀ time call, operation = .call time call → ∀ velocity ∈ call.velocity?, velocity ≤ 127 :=
        fun time call heq => hvelocity time call (heq ▸ List.mem_cons_self)
      have hrest : ∀ time call, .call time call ∈ operations → ∀ velocity ∈ call.velocity?, velocity ≤ 127 :=
        fun time call hmem => hvelocity time call (List.mem_cons_of_mem _ hmem)
      intro event hevent
      rcases List.mem_append.mp hevent with hemitted | hlater
      · exact (h.clearEvents.perform hfirst).events event hemitted
      · exact ih (h.perform hfirst) hrest event hlater

end Valid

theorem valid_of_create {config : Configuration} (h : create config = .ok engine) : Valid engine := by
  obtain ⟨hvoices, -, hpedal, hevents⟩ := create_eq h
  refine ⟨?_, fun note => ?_, fun note => ?_⟩
  · rw [hevents]
    exact fun _ hevent => absurd hevent List.not_mem_nil
  · rw [hvoices, Voices.velocityOf, Voices.empty, PerNote.get_replicate]
    decide
  · rw [hpedal, Pedal.velocityOf, Pedal.initial, PerNote.get_replicate]
    decide

/-- Every event that a run sends is a message whose channel, controller number and data are in range. It finds its place
at any frame of a block, and the two encoders make the same bytes of it. Decoded messages may come in with any bytes but
velocities above the data bytes; raw bytes and edits may be any. -/
theorem sends_messages {config : Configuration} {start : Engine} (h : create config = .ok start)
    (operations : List Operation)
    (hvelocity : ∀ time call, .call time call ∈ operations → ∀ velocity ∈ call.velocity?, velocity ≤ 127) :
    ∀ event ∈ start.transcript operations, event.IsMessage ∧ ∀ frame, ∃ placed,
      Midi.PlacedMessage.ofEvent event frame = .ok placed ∧ placed.frame = frame ∧ placed.bytes = event.bytes := by
  intro event hevent
  have hmessage := (valid_of_create h).transcript hvelocity event hevent
  exact ⟨hmessage, hmessage.place⟩

/-- A note that is moved beyond the highest one, a bend and a controller beyond their ranges, and the end of the note. -/
def beyondDataRange : List Operation :=
  [.apply (.setParameter (.zone .transposeAbove) 1.0), .beginBlock, .call 0.0 (.noteOn 0 120 127),
    .call 0.1 (.pitchBend 0 0xFFFF), .call 0.2 (.controlChange 0 1 255), .bytes 0.3 [0x90, 120, 0]]

theorem sends_messages_beyondDataRange : create {} = .ok standard
    ∧ (∀ time call, .call time call ∈ beyondDataRange → ∀ velocity ∈ call.velocity?, velocity ≤ 127)
    ∧ (standard.transcript beyondDataRange).map Event.bytes =
      [[0xE1, 0, 64], [0xD1, 0], [0xB1, 74, 64], [0x91, 127, 127], [0xE1, 0, 64], [0xD1, 0], [0xB1, 74, 64],
        [0xE1, 127, 127], [0xB0, 1, 127], [0x81, 127, 64]]
    ∧ ∀ event ∈ standard.transcript beyondDataRange, event.IsMessage ∧ ∀ frame, ∃ placed,
      Midi.PlacedMessage.ofEvent event frame = .ok placed ∧ placed.frame = frame ∧ placed.bytes = event.bytes := by
  have hvelocity : ∀ time call, .call time call ∈ beyondDataRange →
      ∀ velocity ∈ call.velocity?, velocity ≤ 127 := by
    simp only [beyondDataRange, List.mem_cons, List.not_mem_nil, reduceCtorEq, Operation.call.injEq, or_false, false_or]
    rintro time call (⟨-, rfl⟩ | ⟨-, rfl⟩ | ⟨-, rfl⟩) velocity hmem
    · exact Option.some.inj hmem ▸ by decide
    · cases hmem
    · cases hmem
  exact ⟨create_standard, hvelocity, by decide +kernel, sends_messages create_standard beyondDataRange hvelocity⟩

end Engine

end PolyExpression
