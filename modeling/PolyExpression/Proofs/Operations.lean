import PolyExpression.Proofs.Acts

/-!
Operations as sequences of acts. An operation's messages act first and change nothing but parameters, what
is published of them and the messages that wait; the rest of the operation is a sequence of acts that starts
and ends with no channel in hand. Main statement: so what acts preserve in a balanced engine, operations
preserve from the moment their messages have acted.
-/

namespace PolyExpression

open Midi (Event)

namespace Engine

variable {hand : List Channel} {engine : Engine} {note : Note}

/-! ### Notes -/

theorem releaseNote_acts (time : Float) (velocity : UInt8) (hnote : note ∈ engine.voices.held.notes) :
    Acts (hand, engine) (hand, engine.releaseNote time note velocity) := by
  have hstop : Acts (hand, engine) (engine.voices.channelOf note :: hand,
      engine.stopNote time (engine.voices.channelOf note) note velocity) := .single (.stop time velocity hnote)
  exact hstop.tail (.give hand _ _)

theorem replaceNote_acts (time : Float) (velocity : UInt8) {old new : Note}
    (hold : old ∈ engine.voices.held.notes) (hnew : new ∉ engine.voices.held.notes.erase old) :
    Acts (hand, engine) (hand, engine.replaceNote time old new velocity) := by
  have hstop : Acts (hand, engine) (engine.voices.channelOf old :: hand,
      engine.stopNote time (engine.voices.channelOf old) old Midi.defaultVelocity) := .single (.stop time _ hold)
  refine hstop.tail (.start time _ velocity ?_)
  rw [voices_stopNote, Voices.held_stop]
  exact hnew

theorem held_replaceNote (engine : Engine) (time : Float) (old new : Note) (velocity : UInt8) :
    (engine.replaceNote time old new velocity).voices.held.notes =
      new :: (engine.voices.held.notes.erase old).erase new := by
  unfold replaceNote
  dsimp only
  rw [voices_startNote, Voices.held_start, voices_stopNote, Voices.held_stop]

theorem stolenNote?_mem {stolen : Note} (h : engine.stolenNote? = some stolen) :
    stolen ∈ engine.voices.held.notes := by
  unfold stolenNote? at h
  cases hpolicy : engine.parameters.excessNotes with
  | ignore =>
      rw [hpolicy] at h
      cases h
  | steal role =>
      rw [hpolicy] at h
      exact NoteStack.mem_of_withRole? h

/-- What striking a note comes down to. -/
theorem strike_cases (engine : Engine) (time : Float) (note : Note) (velocity : UInt8) :
    ((note ∈ engine.voices.held.notes → engine.parameters.excessNotes = .ignore)
      ∧ engine.strike time note velocity = engine)
    ∨ (note ∈ engine.voices.held.notes ∧ engine.parameters.excessNotes ≠ .ignore
      ∧ engine.strike time note velocity = engine.replaceNote time note note velocity)
    ∨ (note ∉ engine.voices.held.notes ∧ ∃ channel, engine.free.pop.1 = some channel
      ∧ engine.strike time note velocity =
        { engine with free := engine.free.pop.2 }.startNote time channel note velocity)
    ∨ (note ∉ engine.voices.held.notes ∧ ∃ stolen, stolen ∈ engine.voices.held.notes
      ∧ engine.strike time note velocity = engine.replaceNote time stolen note velocity) := by
  unfold strike
  by_cases hheld : engine.voices.held.contains note = true
  · rw [if_pos hheld]
    cases hpolicy : engine.parameters.excessNotes with
    | ignore => exact .inl ⟨fun _ => rfl, rfl⟩
    | steal role => exact .inr (.inl ⟨NoteStack.contains_iff.mp hheld, nofun, rfl⟩)
  · have hnot : note ∉ engine.voices.held.notes := mt NoteStack.contains_iff.mpr hheld
    rw [if_neg hheld]
    rcases hpop : engine.free.pop with ⟨_ | channel, free⟩
    · cases hstolen : engine.stolenNote? with
      | none => exact .inl ⟨fun hmem => absurd hmem hnot, rfl⟩
      | some stolen => exact .inr (.inr (.inr ⟨hnot, stolen, stolenNote?_mem hstolen, rfl⟩))
    · exact .inr (.inr (.inl ⟨hnot, channel, rfl, rfl⟩))

theorem strike_acts (time : Float) (note : Note) (velocity : UInt8) :
    Acts (hand, engine) (hand, engine.strike time note velocity) := by
  obtain ⟨-, h⟩ | ⟨hheld, -, h⟩ | ⟨hnot, channel, hpop, h⟩ | ⟨hnot, stolen, hstolen, h⟩ :=
    engine.strike_cases time note velocity
  · rw [h]
    exact .refl
  · rw [h]
    exact replaceNote_acts time velocity hheld engine.voices.held.nodup.not_mem_erase
  · rw [h]
    have htake : Acts (hand, engine) (channel :: hand, { engine with free := engine.free.pop.2 }) :=
      .single (.take hpop)
    exact htake.tail (.start time channel velocity hnot)
  · rw [h]
    exact replaceNote_acts time velocity hstolen fun hmem => hnot (List.mem_of_mem_erase hmem)

theorem lift_acts (time : Float) (note : Note) (velocity : UInt8) :
    Acts (hand, engine) (hand, engine.lift time note velocity) := by
  unfold lift
  by_cases hheld : engine.voices.held.contains note = true
  · have hnote := NoteStack.contains_iff.mp hheld
    rw [if_pos hheld]
    split
    · exact .single (.hold velocity hnote)
    · exact releaseNote_acts time velocity hnote
  · rw [if_neg hheld]
    exact .refl

/-- What each release of a held note preserves, the releases that wait preserve together. -/
theorem releaseDeferred_induction {P : Engine → Prop} {time : Float}
    (hstep : ∀ e note velocity, note ∈ e.voices.held.notes → P e → P (releaseNote e time note velocity))
    (hdeferred : ∀ note ∈ engine.pedal.deferred.notes, note ∈ engine.voices.held.notes) (h : P engine) :
    P (engine.releaseDeferred time) := by
  have hall : ∀ (notes : List Note) (e : Engine), notes.Nodup →
      (∀ note ∈ notes, note ∈ e.voices.held.notes) → P e →
      P (notes.foldl (fun e note => e.releaseNote time note (e.pedal.velocityOf note)) e) := by
    intro notes
    induction notes with
    | nil => exact fun _ _ _ h => h
    | cons first rest ih =>
        intro e hnodup hheld h
        obtain ⟨hfirst, hrest⟩ := List.nodup_cons.mp hnodup
        -- No note waits twice, so those that are still to be released stay held.
        let released := e.releaseNote time first (e.pedal.velocityOf first)
        have hothers : ∀ other ∈ rest, other ∈ released.voices.held.notes := by
          intro other hother
          have hne : other ≠ first := fun heq => hfirst (heq ▸ hother)
          rw [voices_releaseNote, Voices.held_stop]
          exact (List.mem_erase_of_ne hne).mpr (hheld other (List.mem_cons_of_mem _ hother))
        rw [List.foldl_cons]
        exact ih released hrest hothers (hstep e first _ (hheld first List.mem_cons_self) h)
  exact hall engine.pedal.deferred.notes engine engine.pedal.deferred.nodup hdeferred h

/-! ### Controllers -/

theorem route_acts (time : Float) (controller : ControllerId) (value : Float) :
    Acts (hand, engine) (hand, engine.route time controller value) := by
  unfold route
  dsimp only
  split
  · exact .single (.report hand engine time controller value)
  · refine List.foldlRecOn _ _ (motive := fun e => Acts (hand, engine) (hand, e)) .refl fun e h i _ => ?_
    exact h.tail (.route hand e time controller value i)

theorem movePedal_acts (h : Balanced (hand, engine)) (time value : Float) :
    Acts (hand, engine) (hand, engine.movePedal time value) := by
  unfold movePedal
  dsimp only
  by_cases hholds : engine.parameters.holdsOnSustain = true
  · have hmove : Acts (hand, engine)
        (hand, { engine with pedal := { engine.pedal with isDown := 0.5 ≤ value } }) :=
      .single (.quiet ⟨rfl, rfl, rfl, rfl, rfl, rfl⟩)
    rw [if_pos hholds]
    split
    · exact hmove
    · have hrelease : ∀ e note velocity, note ∈ e.voices.held.notes → Acts (hand, engine) (hand, e) →
          Acts (hand, engine) (hand, e.releaseNote time note velocity) :=
        fun e note velocity hnote he => he.trans (releaseNote_acts time velocity hnote)
      exact releaseDeferred_induction hrelease h.deferred hmove
  · rw [if_neg hholds]
    exact .refl

theorem moveController_acts (h : Balanced (hand, engine)) (time : Float) (controller : ControllerId)
    (raw : UInt16) (value : Float) :
    Acts (hand, engine) (hand, engine.moveController time controller raw value) := by
  unfold moveController
  dsimp only
  split
  · exact .refl
  · have hstamp : Acts (hand, engine)
        (hand, { engine with recent := engine.recent.set controller.index ⟨time, raw⟩ }) :=
      .single (.quiet ⟨rfl, rfl, rfl, rfl, rfl, rfl⟩)
    have hroute : Acts (hand, engine) (hand, route _ time controller value) :=
      hstamp.trans (route_acts time controller value)
    split
    · exact hroute.trans (movePedal_acts (hroute.balanced h) time value)
    · exact hroute

theorem receive_acts (h : Balanced (hand, engine)) (time : Float) (call : Midi.Call) :
    Acts (hand, engine) (hand, engine.receive time call) := by
  unfold receive
  split
  · exact .refl
  · cases call with
    | noteOn channel note velocity =>
        dsimp only
        cases noteOfByte? note with
        | none => exact .refl
        | some note => exact strike_acts time note velocity
    | noteOff channel note velocity =>
        dsimp only
        cases noteOfByte? note with
        | none => exact .refl
        | some note => exact lift_acts time note velocity
    | controlChange channel number value =>
        dsimp only
        cases ControllerId.ofByte? number with
        | none => exact .refl
        | some controller =>
            dsimp only
            split
            · exact moveController_acts h time controller _ _
            · exact .refl
    | channelPressure channel pressure => exact moveController_acts h time _ _ _
    | pitchBend channel bend => exact moveController_acts h time _ _ _
    | _ => exact .refl

theorem receiveBytes_acts (h : Balanced (hand, engine)) (time : Float) (bytes : List UInt8) :
    Acts (hand, engine) (hand, engine.receiveBytes time bytes) := by
  unfold receiveBytes
  refine List.foldlRecOn _ _ (motive := fun e => Acts (hand, engine) (hand, e)) ?_ fun e he call _ => ?_
  · exact .single (.quiet ⟨rfl, rfl, rfl, rfl, rfl, rfl⟩)
  · exact he.trans (receive_acts (he.balanced h) time call)

/-! ### Resets -/

/-- Ending the held notes one by one leaves none, and their channels in hand. -/
theorem silenceNotes_acts (hand : List Channel) (engine : Engine) (notes : List Note)
    (h : engine.voices.held.notes = notes) : ∃ left, Acts (hand, engine) (left, notes.foldl silenceNote engine)
      ∧ (notes.foldl silenceNote engine).voices.held.notes = [] := by
  induction notes generalizing hand engine with
  | nil => exact ⟨hand, .refl, h⟩
  | cons first rest ih =>
      have hfirst : first ∈ engine.voices.held.notes := by
        rw [h]
        exact List.mem_cons_self
      have hrest : (engine.silenceNote first).voices.held.notes = rest := by
        rw [voices_silenceNote, Voices.held_stop, h, List.erase_cons_head]
      rw [List.foldl_cons]
      obtain ⟨left, hacts, hempty⟩ := ih _ _ hrest
      exact ⟨left, .head (.silence hfirst) hacts, hempty⟩

theorem silence_acts (hand : List Channel) (engine : Engine) :
    ∃ left last, Acts (hand, engine) (left, last) ∧ last.voices.held.notes = []
      ∧ engine.silence =
        { last with voices := last.voices.silence, pedal := last.pedal.release }.publishVoices := by
  unfold silence
  dsimp only
  by_cases hempty : engine.voices.held.isEmpty = true
  · rw [if_pos hempty]
    obtain ⟨left, hacts, hlast⟩ := silenceNotes_acts hand engine _ rfl
    exact ⟨left, _, hacts, hlast, rfl⟩
  · have hreport : Acts (hand, engine)
        (hand, engine.sendController 0.0 engine.manager .sustainPedal 0.0 false) :=
      .single (.report hand engine 0.0 .sustainPedal 0.0)
    rw [if_neg hempty]
    obtain ⟨left, hacts, hlast⟩ := silenceNotes_acts hand (engine.sendController ..) _ rfl
    exact ⟨left, _, hreport.trans hacts, hlast, rfl⟩

theorem toList_refillChannels (engine : Engine) :
    engine.refillChannels.free.toList = engine.layout.zone.members := by
  have hcount := engine.layout.zone.memberCount_le
  have hfit : engine.free.clear.toList.length + engine.layout.zone.members.length ≤ memberMax := by
    rw [Ring.toList_clear, List.length_nil, Zone.length_members, Nat.zero_add]
    exact hcount
  exact Ring.toList_pushAll hfit

theorem isNote_announcement {channel : Channel} {members : Nat} {event : Event}
    (h : event ∈ announcement channel members) : event.isNote = false := by
  rcases List.mem_cons.mp h with rfl | h
  · rfl
  · rcases List.mem_cons.mp h with rfl | h
    · rfl
    · obtain rfl := List.mem_singleton.mp h
      rfl

theorem isNote_announcements {event : Event} (h : event ∈ engine.announcements) : event.isNote = false := by
  unfold announcements at h
  split at h
  · exact (List.mem_append.mp h).elim isNote_announcement isNote_announcement
  · exact absurd h List.not_mem_nil

theorem isNote_resetEvents {i : RuleIndex} {event : Event} (h : event ∈ engine.resetEvents i) :
    event.isNote = false :=
  (setsController_resetEvents h).isNote

/-- Announcing the zone and resetting the rules changes nothing but what the rules remember, and sends
controllers only. -/
theorem announceZone_resetRules_eq (engine : Engine) :
    ∃ parameters sent, engine.announceZone.resetRules = emitAll { engine with parameters } sent
      ∧ (∀ id, parameters.get id = engine.parameters.get id) ∧ ∀ event ∈ sent, event.isNote = false := by
  unfold resetRules
  refine List.foldlRecOn _ _ (motive := fun e => ∃ parameters sent, e = emitAll { engine with parameters } sent
    ∧ (∀ id, parameters.get id = engine.parameters.get id) ∧ ∀ event ∈ sent, event.isNote = false) ?_ ?_
  · exact ⟨engine.parameters, engine.announcements, engine.announceZone_eq, fun _ => rfl,
      fun _ => isNote_announcements⟩
  · rintro _ ⟨parameters, sent, rfl, hget, hsent⟩ i -
    let forgetful : Engine := { engine with parameters := parameters.modifyRule i Rule.resetLastInput }
    refine ⟨forgetful.parameters, sent ++ forgetful.resetEvents i, ?_, fun id => ?_, fun event hevent => ?_⟩
    · rw [resetRule_eq, ← emitAll_emitAll]
      rfl
    · exact (parameters.get_modifyRule_of_get (fun _ => rfl) id).trans (hget id)
    · exact (List.mem_append.mp hevent).elim (hsent event) isNote_resetEvents

theorem clearEvents_eq (h : engine.events = #[]) : engine.clearEvents = engine := by
  unfold clearEvents
  rw [← h]

/-- With all notes ended, an engine that has emptied its voices, freed a zone's channels and sent controllers
has restarted. -/
theorem restart_acts {after : Engine} {sent : List Event} (hand : List Channel)
    (hvoices : after.voices = engine.silence.voices) (hpedal : after.pedal = engine.silence.pedal)
    (hfree : after.free.toList = after.layout.zone.members)
    (hget : ∀ id, after.parameters.get id = engine.silence.parameters.get id)
    (hevents : after.events.toList = engine.silence.events.toList ++ sent)
    (hsent : ∀ event ∈ sent, event.isNote = false) : Acts (hand, engine) ([], after) := by
  obtain ⟨left, last, hacts, hheld, hsilence⟩ := silence_acts hand engine
  rw [hsilence] at hvoices hpedal hget hevents
  have hdeferred : after.pedal.deferred.notes = [] := by
    rw [hpedal]
    rfl
  exact hacts.tail (.restart ⟨hheld, hvoices, hdeferred, hfree, hget, sent, hevents, hsent⟩)

theorem applyLayout_acts (hand : List Channel) (h : engine.events = #[]) :
    Acts (hand, engine) ([], engine.applyLayout) := by
  let moved : Engine := { engine.silence with
    layout := engine.wantedLayout
    published := { engine.silence.published with channelCount := engine.wantedLayout.zone.memberCount } }
  obtain ⟨parameters, sent, heq, hget, hsent⟩ := moved.refillChannels.announceZone_resetRules_eq
  have happly : engine.applyLayout =
      { emitAll { moved.refillChannels with parameters } sent with hasReset := true } := by
    unfold applyLayout
    rw [clearEvents_eq h, ← heq]
  rw [happly]
  exact restart_acts hand rfl rfl moved.toList_refillChannels hget (toList_events_emitAll _ sent) hsent

theorem reset_acts (hand : List Channel) (h : engine.events = #[]) :
    Acts (hand, engine) ([], engine.reset) := by
  unfold reset
  split
  · exact applyLayout_acts hand h
  · obtain ⟨parameters, sent, heq, hget, hsent⟩ := engine.silence.announceZone_resetRules_eq
    rw [clearEvents_eq h, heq]
    exact restart_acts hand rfl rfl (toList_refillChannels _) hget (toList_events_emitAll _ sent) hsent

/-! ### Messages -/

theorem apply_eq (engine : Engine) (message : Message) :
    ∃ parameters published, engine.apply message = { engine with parameters, published } := by
  cases message with
  | setParameter id ratio =>
      unfold apply setParameter
      dsimp only
      split
      · exact ⟨_, _, rfl⟩
      · exact ⟨_, _, rfl⟩
  | clear =>
      unfold apply clearParameters
      dsimp only
      split
      · exact ⟨_, _, rfl⟩
      · exact ⟨_, _, rfl⟩
  | refresh id => exact ⟨_, _, rfl⟩
  | clearDirty => exact ⟨_, _, rfl⟩

/-- What a message does to the parameters. -/
def edit (store : ParameterStore) : Message → ParameterStore
  | .setParameter id ratio => store.modify id (·.setRatio ratio)
  | .clear => store.reset
  | .refresh _ | .clearDirty => store

theorem parameters_apply (engine : Engine) (message : Message) :
    (engine.apply message).parameters = edit engine.parameters message := by
  cases message with
  | setParameter id ratio =>
      unfold apply setParameter
      dsimp only
      split
      · rfl
      · rfl
  | clear =>
      unfold apply clearParameters
      dsimp only
      split
      · rfl
      · rfl
  | refresh id => rfl
  | clearDirty => rfl

theorem lastInput_apply (engine : Engine) (message : Message) (i : RuleIndex) :
    ((engine.apply message).rule i).lastInput = (engine.rule i).lastInput := by
  have hmodify : ∀ (store : ParameterStore) (id : ParameterId) (f : Parameter → Parameter),
      ((store.modify id f).rule i).lastInput = (store.rule i).lastInput := by
    intro store id f
    cases id with
    | zone parameter => rfl
    | rule j parameter =>
        show ((store.modifyRule j _).rule i).lastInput = _
        rw [ParameterStore.rule_modifyRule]
        split <;> rfl
  cases message with
  | setParameter id ratio =>
      unfold apply setParameter
      dsimp only
      split
      · exact hmodify engine.parameters id _
      · exact hmodify engine.parameters id _
  | clear =>
      have hreset : (engine.parameters.reset.rule i).lastInput = (engine.parameters.rule i).lastInput := by
        refine List.foldlRecOn _ _ (motive := fun store : ParameterStore =>
          (store.rule i).lastInput = (engine.parameters.rule i).lastInput) rfl fun store h id _ => ?_
        exact (hmodify store id _).trans h
      unfold apply clearParameters
      dsimp only
      split
      · exact hreset
      · exact hreset
  | refresh id => rfl
  | clearDirty => rfl

/-- The engine once an operation's messages have acted. -/
def briefed (engine : Engine) : Operation → Engine
  | .beginBlock | .takeMessages => engine.takeMessages
  | .apply message => engine.apply message
  | .post message => engine.offer message
  | _ => engine

theorem takeMessages_eq (engine : Engine) :
    ∃ parameters published, engine.takeMessages = { engine with parameters, published, pending := [] } := by
  unfold takeMessages
  refine List.foldlRecOn _ _ (motive := fun e => ∃ parameters published,
    e = { engine with parameters, published, pending := [] }) ?_ ?_
  · exact ⟨_, _, rfl⟩
  · rintro _ ⟨parameters, published, rfl⟩ message -
    exact apply_eq _ message

theorem briefed_eq (engine : Engine) (operation : Operation) :
    ∃ parameters published pending,
      engine.briefed operation = { engine with parameters, published, pending } := by
  have htake := engine.takeMessages_eq
  cases operation with
  | beginBlock =>
      obtain ⟨parameters, published, h⟩ := htake
      exact ⟨parameters, published, [], h⟩
  | takeMessages =>
      obtain ⟨parameters, published, h⟩ := htake
      exact ⟨parameters, published, [], h⟩
  | apply message =>
      obtain ⟨parameters, published, h⟩ := engine.apply_eq message
      exact ⟨parameters, published, engine.pending, h⟩
  | post message =>
      dsimp only [briefed]
      rw [offer_eq]
      split
      · exact ⟨_, _, _, rfl⟩
      · exact ⟨_, _, _, rfl⟩
  | _ => exact ⟨_, _, _, rfl⟩

theorem lastInput_briefed (engine : Engine) (operation : Operation) (i : RuleIndex) :
    ((engine.briefed operation).rule i).lastInput = (engine.rule i).lastInput := by
  have htake : (engine.takeMessages.rule i).lastInput = (engine.rule i).lastInput := by
    unfold takeMessages
    refine List.foldlRecOn _ _
      (motive := fun e : Engine => (e.rule i).lastInput = (engine.rule i).lastInput) rfl ?_
    exact fun e h message _ => (e.lastInput_apply message i).trans h
  cases operation with
  | beginBlock => exact htake
  | takeMessages => exact htake
  | apply message => exact engine.lastInput_apply message i
  | post message =>
      dsimp only [briefed]
      rw [offer_eq]
      split <;> rfl
  | _ => rfl

/-! ### Operations -/

theorem openBlock_acts (h : engine.events = #[]) : Acts ([], engine) ([], engine.openBlock) := by
  have hclear : Acts ([], engine) ([], engine.clearEvents) := by
    rw [clearEvents_eq h]
    exact .refl
  have hread : ∀ e : Engine, Acts ([], e) ([], { e with hasReset := false }) :=
    fun e => .single (.quiet ⟨rfl, rfl, rfl, rfl, rfl, rfl⟩)
  cases hsuspended : engine.isSuspended with
  | true =>
      rw [openBlock_of_isSuspended hsuspended]
      exact hclear
  | false =>
      cases hstale : engine.isLayoutStale with
      | true =>
          rw [openBlock_of_isLayoutStale hsuspended hstale]
          exact (applyLayout_acts [] h).trans (hread engine.applyLayout)
      | false =>
          rw [openBlock_of_current hsuspended hstale]
          split
          · exact hread engine
          · exact hclear

theorem perform_acts (hbalanced : Balanced ([], engine)) (h : engine.events = #[]) (operation : Operation) :
    Acts ([], engine.briefed operation) ([], engine.perform operation) := by
  obtain ⟨parameters, published, pending, hbriefed⟩ := engine.briefed_eq operation
  cases operation with
  | beginBlock =>
      have hforget : ∀ e : Engine, Acts ([], e) ([], { e with recent := Vector.replicate 124 .never }) :=
        fun e => .single (.quiet ⟨rfl, rfl, rfl, rfl, rfl, rfl⟩)
      have hevents : engine.takeMessages.events = #[] := (congrArg events hbriefed).trans h
      exact (hforget engine.takeMessages).trans (openBlock_acts hevents)
  | call time call => exact receive_acts hbalanced time call
  | bytes time bytes => exact receiveBytes_acts hbalanced time bytes
  | apply message => exact .refl
  | post message => exact .refl
  | takeMessages => exact .refl
  | reset => exact reset_acts [] h
  | suspend => exact .single (.quiet ⟨rfl, rfl, rfl, rfl, rfl, rfl⟩)
  | resume =>
      have hopen : Acts ([], engine) ([], { engine with isSuspended := false }) :=
        .single (.quiet ⟨rfl, rfl, rfl, rfl, rfl, rfl⟩)
      exact hopen.trans (reset_acts [] h)
  | clearDirty => exact .single (.quiet ⟨rfl, rfl, rfl, rfl, rfl, rfl⟩)

theorem Balanced.briefed (h : Balanced ([], engine)) (operation : Operation) :
    Balanced ([], engine.briefed operation) := by
  obtain ⟨parameters, published, pending, hbriefed⟩ := engine.briefed_eq operation
  rw [hbriefed]
  exact ⟨h.coherent, h.perm, h.deferred⟩

/-- What every act preserves in a balanced engine, an operation preserves once its messages have acted. -/
theorem perform_preserves {P : Moment → Prop}
    (hact : ∀ {before after : Moment}, Act before after → Balanced before → P before → P after)
    (hbalanced : Balanced ([], engine)) (hevents : engine.events = #[]) (operation : Operation)
    (h : P ([], engine.briefed operation)) : P ([], engine.perform operation) := by
  have hall : ∀ {before after : Moment}, Acts before after → Balanced before → P before →
      Balanced after ∧ P after := by
    intro before after hacts hbefore hP
    induction hacts with
    | refl => exact ⟨hbefore, hP⟩
    | tail _ hlast ih => exact ⟨hlast.balanced ih.1, hact hlast ih.1 ih.2⟩
  exact (hall (perform_acts hbalanced hevents operation) (hbalanced.briefed operation) h).2

theorem Balanced.perform (h : Balanced ([], engine)) (operation : Operation) :
    Balanced ([], engine.perform operation) := by
  have hperform := (perform_acts h.clearEvents rfl operation).balanced (h.clearEvents.briefed operation)
  obtain ⟨kept, hkept⟩ := engine.perform_eq operation
  rw [hkept]
  exact ⟨hperform.coherent, hperform.perm, hperform.deferred⟩

theorem Balanced.run (h : Balanced ([], engine)) (operations : List Operation) :
    Balanced ([], engine.run operations) :=
  List.foldlRecOn operations Engine.perform (motive := fun e => Balanced ([], e)) h
    fun _ he operation _ => he.perform operation

/-- A new engine is silent and has all channels free. -/
theorem create_eq {config : Configuration} (h : create config = .ok engine) :
    engine.voices = .empty ∧ engine.free.toList = engine.layout.zone.members ∧ engine.pedal = .initial
      ∧ engine.events = #[] := by
  unfold create at h
  cases hchecked : config.checked with
  | error fault =>
      rw [hchecked] at h
      cases h
  | ok config =>
      rw [hchecked] at h
      cases h
      exact ⟨rfl, toList_refillChannels _, rfl, rfl⟩

theorem balanced_of_create {config : Configuration} (h : create config = .ok engine) :
    Balanced ([], engine) := by
  obtain ⟨hvoices, hfree, hpedal, -⟩ := create_eq h
  refine ⟨?_, ?_, ?_⟩
  · show engine.voices.Coherent engine.layout
    rw [hvoices]
    exact Voices.coherent_empty _
  · show (engine.free.toList ++ engine.voices.heldChannels).Perm engine.layout.zone.members
    have hheld : engine.voices.heldChannels = [] := by
      rw [hvoices]
      rfl
    rw [hfree, hheld, List.append_nil]
  · intro note hnote
    rw [show engine.pedal.deferred.notes = [] by rw [hpedal]; rfl] at hnote
    exact absurd hnote List.not_mem_nil

/-- Whether operations on a new engine lead to an engine. -/
inductive Reachable : Engine → Prop where
  | create {config : Configuration} {engine : Engine} (h : create config = .ok engine) : Reachable engine
  | perform {engine : Engine} (h : Reachable engine) (operation : Operation) :
      Reachable (engine.perform operation)

theorem Reachable.balanced (h : Reachable engine) : Balanced ([], engine) := by
  induction h with
  | create h => exact balanced_of_create h
  | perform _ operation ih => exact ih.perform operation

theorem Reachable.run (h : Reachable engine) (operations : List Operation) :
    Reachable (engine.run operations) :=
  List.foldlRecOn operations Engine.perform (motive := Reachable) h fun _ he operation _ => he.perform operation

/-- The new engine of the standard configuration. -/
def standard : Engine :=
  refillChannels
    { config := {}
      parameters := ParameterStore.initial
      published := .ofStore ParameterStore.initial
      pending := []
      events := #[]
      voices := .empty
      free := .empty
      pedal := .initial
      recent := Vector.replicate 124 .never
      layout := .ofStore ParameterStore.initial
      runningStatus := 0
      isSuspended := false
      hasReset := false }

theorem create_standard : create {} = .ok standard := by
  have hchecked : ({} : Configuration).checked = .ok {} := rfl
  unfold create
  rw [hchecked]
  rfl

theorem reachable_standard : Reachable standard := .create create_standard

/-- New engines differ in their configurations alone. -/
theorem create_frame {config : Configuration} (h : create config = .ok engine) :
    ∃ config, engine = { standard with config } := by
  unfold create at h
  cases hchecked : config.checked with
  | error fault =>
      rw [hchecked] at h
      cases h
  | ok config =>
      rw [hchecked] at h
      cases h
      refine ⟨config, ?_⟩
      dsimp only [standard, refillChannels]

end Engine

end PolyExpression
