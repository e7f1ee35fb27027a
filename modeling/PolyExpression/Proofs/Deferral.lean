import PolyExpression.Proofs.Superseding

/-!
Releases that wait for the pedal. A release that comes in while the pedal is down waits with its velocity, in front of
those that wait already, and a later one for the same note takes its place. Main statement: in every run of a new engine
the notes that wait are held ones, each waiting once and only while the pedal is down, and the pedal that goes up ends
them and no others, the latest release first.
-/

namespace PolyExpression

open Midi (Event Call)

/-- A note and the velocity of its release. -/
abbrev Release := Note × UInt8

/-- The release that a message asks for. -/
def Midi.Call.release? : Call → Option Release
  | .noteOff _ byte velocity => (noteOfByte? byte).map fun note => (note, velocity)
  | _ => none

/-- The releases heard, the latest first and of each note only the last, when a message has come in. -/
def hearRelease (heard : List Release) (call : Call) : List Release :=
  call.release?.elim heard fun release => release :: heard.filter (·.1 ≠ release.1)

/-- The releases that wait, the latest first. -/
def Pedal.waiting (pedal : Pedal) : List Release :=
  pedal.deferred.notes.map fun note => (note, pedal.velocityOf note)

theorem Pedal.waiting_forget (pedal : Pedal) (note : Note) :
    (pedal.forget note).waiting = pedal.waiting.filter (·.1 ≠ note) := by
  have hnotes : (pedal.forget note).deferred.notes = pedal.deferred.notes.filter (· != note) := by
    rw [notes_forget, pedal.deferred.nodup.erase_eq_filter]
  calc (pedal.forget note).waiting
      = (pedal.deferred.notes.filter (· != note)).map fun other => (other, pedal.velocityOf other) := by
        rw [waiting, hnotes]
        rfl
    _ = pedal.waiting.filter (·.1 ≠ note) := by
        rw [waiting, List.filter_map]
        congr 1
        exact List.filter_congr fun other _ => (decide_not ..).symm

theorem Pedal.waiting_hold (pedal : Pedal) (note : Note) (velocity : UInt8) :
    (pedal.hold note velocity).waiting = (note, velocity) :: pedal.waiting.filter (·.1 ≠ note) := by
  have hvelocity : ∀ other, (pedal.hold note velocity).velocityOf other =
      if note = other then velocity else pedal.velocityOf other := fun other => PerNote.get_set ..
  have hothers : ∀ other ∈ pedal.deferred.notes.erase note,
      (other, (pedal.hold note velocity).velocityOf other) = (other, pedal.velocityOf other) := by
    intro other hother
    have hne : note ≠ other := (pedal.deferred.nodup.mem_erase_iff.mp hother).1.symm
    rw [hvelocity, if_neg hne]
  have hforget : (pedal.forget note).waiting =
      (pedal.deferred.notes.erase note).map fun other => (other, pedal.velocityOf other) := by
    rw [waiting, notes_forget]
    rfl
  rw [← waiting_forget, hforget, waiting, notes_hold, List.map_cons, hvelocity, if_pos rfl,
    List.map_congr_left hothers]

theorem mem_deferred_of_mem_waiting {pedal : Pedal} {release : Release} (h : release ∈ pedal.waiting) :
    release.1 ∈ pedal.deferred.notes := by
  obtain ⟨note, hnote, rfl⟩ := List.mem_map.mp h
  exact hnote

/-- What is listed among some releases is listed among them when another note's release has come in front. -/
theorem sublist_release {waiting heard : List Release} (h : waiting.Sublist heard) (release : Release)
    (hnot : ∀ other ∈ waiting, other.1 ≠ release.1) :
    waiting.Sublist (release :: heard.filter (·.1 ≠ release.1)) := by
  have hall : waiting.filter (·.1 ≠ release.1) = waiting :=
    List.filter_eq_self.mpr fun other hother => decide_eq_true (hnot other hother)
  rw [← hall]
  exact (h.filter _).cons release

namespace Engine

variable {engine before between after : Engine} {note : Note}

/-- The messages that come in with an operation. -/
def calls (engine : Engine) : Operation → List Call
  | .call _ call => [call]
  | .bytes _ bytes => (Midi.Stream.decode engine.runningStatus bytes).1
  | _ => []

/-- The messages that come in during a run. -/
def callsIn (engine : Engine) : List Operation → List Call
  | [] => []
  | operation :: operations => engine.calls operation ++ (engine.perform operation).callsIn operations

/-- The releases that come in during a run, the latest first and of each note only the last. -/
def releasesIn (engine : Engine) (operations : List Operation) : List Release :=
  (engine.callsIn operations).foldl hearRelease []

/-! ### What waits has been heard -/

/-- Unless the engine is suspended, the releases that wait are among those heard, in the same order. -/
def WaitsAmong (heard : List Release) (engine : Engine) : Prop :=
  engine.isSuspended = false → engine.pedal.waiting.Sublist heard

variable {heard : List Release}

theorem waitsAmong_of_waiting_eq_nil (h : engine.pedal.deferred.notes = []) : WaitsAmong heard engine := by
  intro _
  rw [Pedal.waiting, h]
  exact List.nil_sublist _

theorem waiting_strike_sublist (engine : Engine) (time : Float) (note : Note) (velocity : UInt8) :
    (engine.strike time note velocity).pedal.waiting.Sublist engine.pedal.waiting := by
  have hforget : ∀ old, (engine.pedal.forget old).waiting.Sublist engine.pedal.waiting := by
    intro old
    rw [Pedal.waiting_forget]
    exact List.filter_sublist
  obtain ⟨-, h⟩ | ⟨-, -, h⟩ | ⟨-, channel, -, h⟩ | ⟨-, stolen, -, h⟩ := engine.strike_cases time note velocity
  · rw [h]
  · rw [h, pedal_replaceNote]
    exact hforget note
  · rw [h, pedal_startNote]
  · rw [h, pedal_replaceNote]
    exact hforget stolen

/-- A release that comes in waits, is carried out at once, or is for a note that is not held and cannot be waiting. -/
theorem waiting_lift_sublist (hbalanced : Balanced ([], engine)) (h : engine.pedal.waiting.Sublist heard)
    (time : Float) (note : Note) (velocity : UInt8) :
    (engine.lift time note velocity).pedal.waiting.Sublist ((note, velocity) :: heard.filter (·.1 ≠ note)) := by
  have hothers : (engine.pedal.waiting.filter (·.1 ≠ note)).Sublist (heard.filter (·.1 ≠ note)) := h.filter _
  unfold lift
  split
  · split
    · show (engine.pedal.hold note velocity).waiting.Sublist _
      rw [Pedal.waiting_hold]
      exact hothers.cons_cons _
    · rw [pedal_releaseNote, Pedal.waiting_forget]
      exact hothers.cons _
  · rename_i hheld
    have hnot : ∀ other ∈ engine.pedal.waiting, other.1 ≠ note := by
      rintro other hother rfl
      exact hheld (NoteStack.contains_iff.mpr (hbalanced.deferred _ (mem_deferred_of_mem_waiting hother)))
    exact sublist_release h (note, velocity) hnot

theorem pedal_route (engine : Engine) (time : Float) (controller : ControllerId) (value : Float) :
    (engine.route time controller value).pedal = engine.pedal := by
  obtain ⟨parameters, published, events, hroute⟩ := engine.route_frame time controller value
  rw [hroute]

/-- A controller leaves what waits as it is, or nothing waits any more. -/
theorem waiting_moveController_sublist (engine : Engine) (time : Float) (controller : ControllerId) (raw : UInt16)
    (value : Float) :
    (engine.moveController time controller raw value).pedal.waiting.Sublist engine.pedal.waiting := by
  have hmove : ∀ e : Engine, (e.movePedal time value).pedal.waiting.Sublist e.pedal.waiting := by
    intro e
    unfold movePedal
    dsimp only
    split
    · split
      · exact List.Sublist.refl _
      · rw [Pedal.waiting, (releaseDeferred_spec _ time).2.1]
        exact List.nil_sublist _
    · exact List.Sublist.refl _
  unfold moveController
  dsimp only
  split
  · exact List.Sublist.refl _
  · split
    · exact (hmove _).trans (by rw [pedal_route])
    · rw [pedal_route]

theorem WaitsAmong.receive (h : WaitsAmong heard engine) (hbalanced : Balanced ([], engine)) (time : Float)
    (call : Call) : WaitsAmong (hearRelease heard call) (engine.receive time call) := by
  intro hlater
  have hactive : engine.isSuspended = false := (engine.sameMode_receive time call).isSuspended ▸ hlater
  have hwaits := h hactive
  have hmove : ∀ controller raw value,
      (engine.moveController time controller raw value).pedal.waiting.Sublist heard :=
    fun controller raw value => (engine.waiting_moveController_sublist time controller raw value).trans hwaits
  unfold Engine.receive hearRelease
  rw [hactive, if_neg Bool.false_ne_true]
  cases call with
  | noteOn channel byte velocity =>
      dsimp only [Midi.Call.release?]
      cases noteOfByte? byte with
      | none => exact hwaits
      | some struck => exact (engine.waiting_strike_sublist time struck velocity).trans hwaits
  | noteOff channel byte velocity =>
      dsimp only [Midi.Call.release?]
      cases noteOfByte? byte with
      | none => exact hwaits
      | some lifted => exact waiting_lift_sublist hbalanced hwaits time lifted velocity
  | controlChange channel number value =>
      dsimp only [Midi.Call.release?]
      cases ControllerId.ofByte? number with
      | none => exact hwaits
      | some controller =>
          dsimp only
          split
          · exact hmove _ _ _
          · exact hwaits
  | channelPressure channel pressure => exact hmove _ _ _
  | pitchBend channel bend => exact hmove _ _ _
  | _ => exact hwaits

theorem WaitsAmong.receiveAll (h : WaitsAmong heard engine) (hbalanced : Balanced ([], engine)) (time : Float)
    (calls : List Call) :
    WaitsAmong (calls.foldl hearRelease heard) (calls.foldl (fun e call => e.receive time call) engine) := by
  induction calls generalizing engine heard with
  | nil => exact h
  | cons call calls ih =>
      exact ih (h.receive hbalanced time call) ((receive_acts hbalanced time call).balanced hbalanced)

theorem WaitsAmong.perform (h : WaitsAmong heard engine) (hbalanced : Balanced ([], engine))
    (operation : Operation) :
    WaitsAmong ((engine.calls operation).foldl hearRelease heard) (engine.perform operation) := by
  cases operation with
  | beginBlock =>
      obtain ⟨parameters, published, recent, htold⟩ := engine.told_eq
      have hwaits : WaitsAmong heard engine.told := by
        rw [htold]
        exact h
      show WaitsAmong heard engine.told.openBlock
      rw [openBlock_eq]
      split
      · exact waitsAmong_of_waiting_eq_nil engine.told.deferred_reset
      · split
        · exact hwaits
        · exact hwaits
  | call time call => exact h.receive hbalanced time call
  | bytes time bytes =>
      let opened := { engine with runningStatus := (Midi.Stream.decode engine.runningStatus bytes).2 }
      have hopened : Balanced ([], opened) := ⟨hbalanced.coherent, hbalanced.perm, hbalanced.deferred⟩
      have hwaits : WaitsAmong heard opened := h
      exact hwaits.receiveAll hopened time _
  | apply message =>
      obtain ⟨parameters, published, happly⟩ := engine.apply_eq message
      show WaitsAmong heard (engine.apply message)
      rw [happly]
      exact h
  | post message =>
      show WaitsAmong heard (engine.offer message)
      rw [offer_eq]
      split
      · exact h
      · exact h
  | takeMessages =>
      obtain ⟨parameters, published, htake⟩ := engine.takeMessages_eq
      show WaitsAmong heard engine.takeMessages
      rw [htake]
      exact h
  | reset => exact waitsAmong_of_waiting_eq_nil engine.deferred_reset
  | suspend => exact fun hactive => absurd hactive Bool.false_ne_true.symm
  | resume => exact waitsAmong_of_waiting_eq_nil (deferred_reset _)
  | clearDirty => exact h

theorem WaitsAmong.run (h : WaitsAmong heard engine) (hbalanced : Balanced ([], engine))
    (operations : List Operation) :
    WaitsAmong ((engine.callsIn operations).foldl hearRelease heard) (engine.run operations) := by
  induction operations generalizing engine heard with
  | nil => exact h
  | cons operation operations ih =>
      rw [callsIn, List.foldl_append]
      exact ih (h.perform hbalanced operation) (hbalanced.perform operation)

/-! ### What the pedal ends -/

/-- The event that ends a note with a release. -/
def ending (engine : Engine) (time : Float) (release : Release) : Event :=
  noteEvent time .noteOff (engine.voices.channelOf release.1)
    (engine.layout.transpose release.1 (engine.isAbove release.1)) (engine.releaseVelocity release.1 release.2)

/-- On the way from one engine to another some releases are carried out, one after the other; no other note ends, and
each keeps its channel. -/
structure CarriesOut (time : Float) (releases : List Release) (before after : Engine) : Prop where
  held : after.voices.held.notes = before.voices.held.notes.filter (· ∉ releases.map Prod.fst)
  channelOf : after.voices.channelOf = before.voices.channelOf
  velocityOf : after.voices.velocityOf = before.voices.velocityOf
  layout : after.layout = before.layout
  parameters : after.parameters = before.parameters
  free : after.free.toList = before.free.toList ++ releases.map fun release => before.voices.channelOf release.1
  sent : ∃ sent, after.events.toList = before.events.toList ++ sent
    ∧ sent.filter Event.isNote = releases.map (before.ending time)

namespace CarriesOut

variable {time : Float} {first second : List Release}

theorem refl (time : Float) (engine : Engine) : CarriesOut time [] engine engine where
  held := (List.filter_eq_self.mpr fun _ _ => rfl).symm
  channelOf := rfl
  velocityOf := rfl
  layout := rfl
  parameters := rfl
  free := (List.append_nil _).symm
  sent := ⟨[], (List.append_nil _).symm, rfl⟩

theorem ending_eq (h : CarriesOut time first before after) : after.ending time = before.ending time := by
  funext release
  simp only [ending, isAbove, releaseVelocity, h.channelOf, h.velocityOf, h.layout, h.parameters]

theorem trans (h : CarriesOut time first before between) (h' : CarriesOut time second between after) :
    CarriesOut time (first ++ second) before after where
  held := by
    rw [h'.held, h.held, List.filter_filter]
    refine List.filter_congr fun note _ => ?_
    rw [List.map_append, ← Bool.decide_and]
    exact decide_eq_decide.mpr (by rw [List.mem_append, not_or, and_comm])
  channelOf := h'.channelOf.trans h.channelOf
  velocityOf := h'.velocityOf.trans h.velocityOf
  layout := h'.layout.trans h.layout
  parameters := h'.parameters.trans h.parameters
  free := by rw [h'.free, h.free, h.channelOf, List.map_append, List.append_assoc]
  sent := by
    obtain ⟨sent, hafter, hnotes⟩ := h.sent
    obtain ⟨sent', hafter', hnotes'⟩ := h'.sent
    refine ⟨sent ++ sent', ?_, ?_⟩
    · rw [hafter', hafter, List.append_assoc]
    · rw [List.filter_append, hnotes, hnotes', h.ending_eq, List.map_append]

end CarriesOut

/-- Of what ending a note sends, one event ends a note; the others set controllers. -/
theorem filter_isNote_stopEvents (engine : Engine) (time : Float) (channel : Channel) (note : Note)
    (velocity : UInt8) : (engine.stopEvents time channel note velocity).filter Event.isNote =
      [noteEvent time .noteOff channel (engine.layout.transpose note (engine.isAbove note))
        (engine.releaseVelocity note velocity)] := by
  have hresets : ((List.finRange ruleCount).flatMap fun i =>
      if (engine.rule i).needsReset (engine.isAbove note) then
        (engine.rule i).displacement time none (engine.voices.stop note).roles engine.voices.roles
      else []).filter Event.isNote = [] := by
    refine List.filter_eq_nil_iff.mpr fun event hevent => ?_
    obtain ⟨i, -, hreset⟩ := List.mem_flatMap.mp hevent
    split at hreset
    · rw [(Rule.setsController_displacement hreset).isNote]
      exact Bool.false_ne_true
    · exact absurd hreset List.not_mem_nil
  have hnote : Event.isNote (noteEvent time .noteOff channel (engine.layout.transpose note (engine.isAbove note))
      (engine.releaseVelocity note velocity)) = true := rfl
  rw [stopEvents, List.filter_cons, if_pos hnote, hresets]

theorem free_stopNote (engine : Engine) (time : Float) (channel : Channel) (note : Note) (velocity : UInt8) :
    (engine.stopNote time channel note velocity).free = engine.free := by
  rw [stopNote_eq]
  rfl

/-- The channel of a note that is released is free behind the others. -/
theorem free_releaseNote (h : Balanced ([], engine)) (hnote : note ∈ engine.voices.held.notes) (time : Float)
    (velocity : UInt8) : (engine.releaseNote time note velocity).free.toList =
      engine.free.toList ++ [engine.voices.channelOf note] := by
  have hstopped := h.stop time velocity hnote
  have hroom := hstopped.size_free_lt
  rw [releaseNote_eq, hstopped.giveBack_eq]
  rw [free_stopNote] at hroom ⊢
  exact (Ring.push_of_lt hroom _).2

theorem parameters_releaseNote (engine : Engine) (time : Float) (note : Note) (velocity : UInt8) :
    (engine.releaseNote time note velocity).parameters = engine.parameters := by
  have hstop := engine.parameters_stopNote time (engine.voices.channelOf note) note velocity
  rw [releaseNote_eq, ← hstop]
  generalize engine.stopNote time (engine.voices.channelOf note) note velocity = stopped
  obtain ⟨free, hfree⟩ := stopped.giveBack_frame (engine.voices.channelOf note)
  rw [hfree]

theorem carriesOut_releaseNote (h : Balanced ([], engine)) (hnote : note ∈ engine.voices.held.notes) (time : Float)
    (velocity : UInt8) : CarriesOut time [(note, velocity)] engine (engine.releaseNote time note velocity) where
  held := by
    rw [voices_releaseNote, Voices.held_stop, engine.voices.held.nodup.erase_eq_filter]
    refine List.filter_congr fun other _ => ?_
    rw [Bool.eq_iff_iff]
    simp
  channelOf := by rw [voices_releaseNote, Voices.channelOf_stop]
  velocityOf := by rw [voices_releaseNote, Voices.velocityOf_stop]
  layout := (engine.sameMode_releaseNote time note velocity).layout
  parameters := engine.parameters_releaseNote time note velocity
  free := free_releaseNote h hnote time velocity
  sent := by
    refine ⟨engine.stopEvents time (engine.voices.channelOf note) note velocity, ?_, ?_⟩
    · rw [releaseNote_eq, events_giveBack, events_stopNote]
    · exact engine.filter_isNote_stopEvents time _ note velocity

/-- The releases that wait are carried out one after the other, the latest first. -/
theorem carriesOut_releaseDeferred (h : Balanced ([], engine)) (time : Float) :
    CarriesOut time engine.pedal.waiting engine (engine.releaseDeferred time) := by
  have hall : ∀ (notes : List Note) (e : Engine), Balanced ([], e) → e.pedal.deferred.notes = notes →
      CarriesOut time e.pedal.waiting e
        (notes.foldl (fun e note => e.releaseNote time note (e.pedal.velocityOf note)) e) := by
    intro notes
    induction notes with
    | nil =>
        intro e _ hdeferred
        rw [Pedal.waiting, hdeferred]
        exact CarriesOut.refl time e
    | cons first rest ih =>
        intro e he hdeferred
        let released := e.releaseNote time first (e.pedal.velocityOf first)
        have hfirst : first ∈ e.voices.held.notes := he.deferred first (hdeferred ▸ List.mem_cons_self)
        have hpedal : released.pedal = e.pedal.forget first := e.pedal_releaseNote time first _
        have hrest : released.pedal.deferred.notes = rest := by
          rw [hpedal, Pedal.notes_forget, hdeferred, List.erase_cons_head]
        have hbalanced : Balanced ([], released) := (releaseNote_acts time _ hfirst).balanced he
        have hwaiting : e.pedal.waiting = [(first, e.pedal.velocityOf first)] ++ released.pedal.waiting := by
          rw [Pedal.waiting, Pedal.waiting, hdeferred, hrest, hpedal]
          rfl
        rw [List.foldl_cons, hwaiting]
        exact (carriesOut_releaseNote he hfirst time _).trans (ih released hbalanced hrest)
  exact hall engine.pedal.deferred.notes engine h rfl

/-- The engine when a move of the pedal has been noted and has gone to the rules that listen to it. -/
def routePedal (engine : Engine) (time : Float) (value : UInt8) : Engine :=
  route { engine with recent := engine.recent.set ControllerId.sustainPedal.index ⟨time, value.toUInt16⟩ } time
    .sustainPedal (Midi.fractionOfByte value)

/-- Whether the engine handles a move of the pedal and takes the pedal to be up then. -/
structure GoesUp (engine : Engine) (time : Float) (value : UInt8) : Prop where
  isActive : engine.isSuspended = false
  holds : engine.parameters.holdsOnSustain = true
  /-- It is not the same as the one before it in the block. -/
  isNew : engine.recent[ControllerId.sustainPedal.index].isSame ⟨time, value.toUInt16⟩ = false
  isUp : value < 64

variable {time : Float} {value : UInt8}

theorem GoesUp.receive_eq (h : engine.GoesUp time value) (channel : UInt8) :
    engine.receive time (.controlChange channel 64 value) =
      releaseDeferred { engine.routePedal time value with
        pedal := { (engine.routePedal time value).pedal with isDown := false } } time := by
  have hholds : (engine.routePedal time value).parameters.holdsOnSustain = true :=
    (holdsOnSustain_route ..).trans h.holds
  have hup : decide (0.5 ≤ Midi.fractionOfByte value) = false := by
    rw [half_le_fractionOfByte]
    exact decide_eq_false (UInt8.not_le.mpr h.isUp)
  have hmove : (engine.routePedal time value).movePedal time (Midi.fractionOfByte value) =
      releaseDeferred { engine.routePedal time value with
        pedal := { (engine.routePedal time value).pedal with isDown := false } } time := by
    unfold movePedal
    dsimp only
    rw [hholds, hup]
    rfl
  rw [receive_sustainPedal h.isActive, ← hmove]
  unfold moveController
  dsimp only
  rw [h.isNew, if_neg Bool.false_ne_true]
  rfl

/-- What becomes of an engine when the pedal goes up: the move itself goes to the rules, and then the releases that wait
are carried out. -/
structure LetsGo (time : Float) (value : UInt8) (engine after : Engine) : Prop where
  /-- Behind what is sent for the move itself, each release that waits ends its note once, the latest first; no other
  note starts or ends. -/
  sent : ∃ routed ended,
    (engine.routePedal time value).events.toList = engine.events.toList ++ routed
      ∧ (∀ event ∈ routed, event.isNote = false)
      ∧ after.events.toList = engine.events.toList ++ routed ++ ended
      ∧ ended.filter Event.isNote = engine.pedal.waiting.map (engine.ending time)
  free : after.free.toList = engine.free.toList ++ engine.pedal.deferred.notes.map engine.voices.channelOf
  deferred : after.pedal.deferred.notes = []
  held : after.voices.held.notes = engine.voices.held.notes.filter (· ∉ engine.pedal.deferred.notes)
  channelOf : after.voices.channelOf = engine.voices.channelOf

theorem GoesUp.letsGo (h : engine.GoesUp time value) (hbalanced : Balanced ([], engine)) (channel : UInt8) :
    LetsGo time value engine (engine.receive time (.controlChange channel 64 value)) := by
  let stamped : Engine :=
    { engine with recent := engine.recent.set ControllerId.sustainPedal.index ⟨time, value.toUInt16⟩ }
  let routed := engine.routePedal time value
  let lowered : Engine := { routed with pedal := { routed.pedal with isDown := false } }
  obtain ⟨parameters, published, events, hframe⟩ :=
    stamped.route_frame time .sustainPedal (Midi.fractionOfByte value)
  have hrouted : routed = { stamped with parameters, published, events } := hframe
  have hlowered : Balanced ([], lowered) := by
    simp only [lowered, hrouted]
    exact ⟨hbalanced.coherent, hbalanced.perm, hbalanced.deferred⟩
  have hoverrides : routed.parameters.overridesRelease = engine.parameters.overridesRelease :=
    congrArg Parameter.isOn (stamped.get_route time .sustainPedal (Midi.fractionOfByte value) nofun)
  have hvoices : lowered.voices = engine.voices := by simp only [lowered, hrouted, stamped]
  have hlayout : lowered.layout = engine.layout := by simp only [lowered, hrouted, stamped]
  have hfree : lowered.free = engine.free := by simp only [lowered, hrouted, stamped]
  have hdeferred : lowered.pedal.deferred = engine.pedal.deferred := by simp only [lowered, hrouted, stamped]
  have hwaiting : lowered.pedal.waiting = engine.pedal.waiting := by
    simp only [lowered, hrouted, stamped]
    rfl
  have hending : lowered.ending time = engine.ending time := by
    funext release
    have hsame : lowered.parameters.overridesRelease = engine.parameters.overridesRelease := hoverrides
    simp only [ending, isAbove, releaseVelocity, hvoices, hlayout, hsame]
  have hnotes : (engine.pedal.waiting.map Prod.fst) = engine.pedal.deferred.notes := by
    simp [Pedal.waiting, Function.comp_def]
  obtain ⟨quiet, hquiet, hcontrollers⟩ := stamped.events_route time .sustainPedal (Midi.fractionOfByte value)
  have hcarries := carriesOut_releaseDeferred hlowered time
  rw [hwaiting] at hcarries
  rw [h.receive_eq]
  refine ⟨?_, ?_, (releaseDeferred_spec lowered time).2.1, ?_, hcarries.channelOf.trans (by rw [hvoices])⟩
  · obtain ⟨ended, hended, hends⟩ := hcarries.sent
    have hlast : lowered.events.toList = engine.events.toList ++ quiet := hquiet
    refine ⟨quiet, ended, hquiet, hcontrollers, ?_, ?_⟩
    · rw [hended, hlast]
    · rw [hends, hending]
  · rw [hcarries.free, hfree, hvoices, ← hnotes, List.map_map]
    rfl
  · rw [hcarries.held, hvoices, hnotes]

/-! ### Runs -/

/-- What an engine that has heard releases, and sent a log, keeps of the releases that wait, and what it does with them
when the pedal goes up. -/
structure KeepsWaiting (engine : Engine) (heard : List Release) (log : List Entry) : Prop where
  held : engine.pedal.deferred.notes ⊆ engine.voices.held.notes
  once : engine.pedal.deferred.notes.Nodup
  up : engine.pedal.isDown = false → engine.pedal.deferred.notes = []
  /-- Each release that waits is the last one heard for its note, and they wait in the order in which they came. -/
  heard : engine.isSuspended = false → engine.pedal.waiting.Sublist heard
  /-- The velocity kept for a held note is that of its start, the last one on its channel and not ended yet. -/
  struck : ∀ note ∈ engine.voices.held.notes, ∃ on,
    Paired (notesOn (engine.voices.channelOf note).val.toUInt8 log) (some on)
      ∧ on.data2 = engine.voices.velocityOf note
  letsGo : ∀ time channel value, engine.GoesUp time value →
    LetsGo time value engine (engine.receive time (.controlChange channel 64 value))

/-- In every run of a new engine the releases that wait are those of held notes, each once and with the velocity heard
last, and only while the pedal is down; when it goes up they are carried out, each once and the latest first. -/
theorem deferred_released_once {config : Configuration} {start : Engine} (h : create config = .ok start)
    (operations : List Operation) :
    (start.run operations).KeepsWaiting (start.releasesIn operations) (start.log operations) := by
  have hbalanced : Balanced ([], start.run operations) := (balanced_of_create h).run operations
  have hwaits : WaitsAmong (start.releasesIn operations) (start.run operations) :=
    (waitsAmong_of_waiting_eq_nil (by rw [(create_eq h).2.2.1]; rfl)).run (balanced_of_create h) operations
  have hsounding : Sounding ([] ++ start.log operations) (start.run operations) :=
    (sounding_of_create h).run (balanced_of_create h) operations
  refine ⟨hbalanced.deferred, (start.run operations).pedal.deferred.nodup, (remembers_of_create h operations).up,
    hwaits, fun note hnote => ?_, fun time channel value hup => hup.letsGo hbalanced channel⟩
  obtain ⟨on, hpaired, -, hvelocity⟩ := hsounding.held note hnote
  exact ⟨on, hpaired, hvelocity⟩

/-- Three notes are struck, and with the pedal down two of them are released, one of the two twice. -/
def releasedTwice : List Operation :=
  [.apply (.setParameter (.zone .holdOnSustain) 1.0), .beginBlock, .bytes 0.0 [0x90, 60, 100, 64, 101, 67, 102],
    .call 0.0 (.controlChange 0 64 127), .call 0.1 (.noteOff 0 60 10), .call 0.2 (.noteOff 0 64 20),
    .bytes 0.3 [0x80, 60, 30]]

theorem deferred_released_once_releasedTwice : create {} = .ok standard
    ∧ (standard.run releasedTwice).GoesUp 0.5 0
    ∧ (standard.run releasedTwice).pedal.waiting = [(60, 30), (64, 20)]
    ∧ standard.releasesIn releasedTwice = [(60, 30), (64, 20)]
    ∧ (standard.run releasedTwice).KeepsWaiting (standard.releasesIn releasedTwice) (standard.log releasedTwice)
    ∧ LetsGo 0.5 0 (standard.run releasedTwice)
      ((standard.run releasedTwice).receive 0.5 (.controlChange 0 64 0)) := by
  have hup : (standard.run releasedTwice).GoesUp 0.5 0 :=
    ⟨by decide +kernel, by decide +kernel, by decide +kernel, by decide⟩
  have hkeeps := deferred_released_once create_standard releasedTwice
  exact ⟨create_standard, hup, by decide +kernel, by decide +kernel, hkeeps, hkeeps.letsGo 0.5 0 0 hup⟩

end Engine

end PolyExpression
