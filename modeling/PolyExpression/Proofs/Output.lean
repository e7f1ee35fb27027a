import PolyExpression.Engine.Run
import PolyExpression.Proofs.Emission

/-!
The output as a log. What an operation does and what it sends does not depend on what is in the output, and
an operation that empties the output does so before it sends anything. The events of an operation are
therefore those in the output after it if the output was empty before it, and the transcript of a run lists
them for all its operations, whatever has been removed from the output in between.
-/

namespace PolyExpression

open Midi (Event)

namespace Engine

/-- The events an operation sends, in order. -/
def emitted (engine : Engine) (operation : Operation) : List Event :=
  (engine.clearEvents.perform operation).events.toList

/-- The events that the operations of a run send, in order. -/
def transcript (engine : Engine) : List Operation → List Event
  | [] => []
  | operation :: operations => engine.emitted operation ++ (engine.perform operation).transcript operations

/-- The engine with earlier events in front of those in its output. -/
def after (engine : Engine) (earlier : Array Event) : Engine :=
  { engine with events := earlier ++ engine.events }

theorem clearEvents_after (engine : Engine) : engine.clearEvents.after engine.events = engine := by
  simp [after, clearEvents]

/-! ### The output does not matter -/

/-- What is in the output makes no difference to a step, and the step leaves it where it is. -/
def IgnoresOutput (step : Engine → Engine) : Prop :=
  ∀ engine earlier, step (engine.after earlier) = (step engine).after earlier

namespace IgnoresOutput

theorem id : IgnoresOutput fun engine => engine := fun _ _ => rfl

theorem comp {first second : Engine → Engine} (hsecond : IgnoresOutput second) (hfirst : IgnoresOutput first) :
    IgnoresOutput fun engine => second (first engine) := by
  intro engine earlier
  dsimp only
  rw [hfirst, hsecond]

/-- A step that depends on a part of the state other than the output. -/
theorem ofView {α : Type} (view : Engine → α) (step : α → Engine → Engine)
    (hview : ∀ engine earlier, view (after engine earlier) = view engine)
    (hstep : ∀ a, IgnoresOutput (step a)) :
    IgnoresOutput fun engine => step (view engine) engine := by
  intro engine earlier
  dsimp only
  rw [hview, hstep]

theorem ite {p : Engine → Prop} [DecidablePred p] {first second : Engine → Engine}
    (hp : ∀ engine earlier, p (after engine earlier) ↔ p engine) (hfirst : IgnoresOutput first)
    (hsecond : IgnoresOutput second) :
    IgnoresOutput fun engine => if p engine then first engine else second engine := by
  intro engine earlier
  dsimp only
  by_cases h : p engine
  · rw [if_pos h, if_pos ((hp engine earlier).mpr h), hfirst]
  · rw [if_neg h, if_neg (mt (hp engine earlier).mp h), hsecond]

theorem foldl {α : Type} (items : List α) {step : Engine → α → Engine}
    (hstep : ∀ item, IgnoresOutput fun engine => step engine item) :
    IgnoresOutput fun engine => items.foldl step engine := by
  intro engine earlier
  dsimp only
  induction items generalizing engine with
  | nil => rfl
  | cons item items ih =>
      have h := hstep item engine earlier
      dsimp only at h
      rw [List.foldl_cons, List.foldl_cons, h, ih]

theorem emitAll {step : Engine → Engine} {events : Engine → List Event} (hstep : IgnoresOutput step)
    (hevents : ∀ engine earlier, events (after engine earlier) = events engine) :
    IgnoresOutput fun engine => (step engine).emitAll (events engine) := by
  intro engine earlier
  dsimp only
  rw [hevents, hstep]
  simp [after, Engine.emitAll, Array.append_assoc]

end IgnoresOutput

section steps

variable (time : Float) (channel : Channel) (note : Note) (velocity : UInt8) (controller : ControllerId)
  (value : Float)

theorem ignoresOutput_startNote : IgnoresOutput fun engine => engine.startNote time channel note velocity := by
  simp only [startNote_eq]
  exact .emitAll (fun _ _ => rfl) fun _ _ => rfl

theorem ignoresOutput_stopNote : IgnoresOutput fun engine => engine.stopNote time channel note velocity := by
  simp only [stopNote_eq]
  exact .emitAll (fun _ _ => rfl) fun _ _ => rfl

theorem ignoresOutput_giveBack : IgnoresOutput fun engine => engine.giveBack channel :=
  .ite (fun _ _ => Iff.rfl) (fun _ _ => rfl) .id

theorem ignoresOutput_releaseNote : IgnoresOutput fun engine => engine.releaseNote time note velocity :=
  .ofView (fun engine => engine.voices.channelOf note)
    (fun channel engine => (engine.stopNote time channel note velocity).giveBack channel) (fun _ _ => rfl)
    fun channel => by
      have h := (ignoresOutput_giveBack channel).comp (ignoresOutput_stopNote time channel note velocity)
      exact h

theorem ignoresOutput_releaseDeferred : IgnoresOutput fun engine => engine.releaseDeferred time :=
  .ofView (fun engine => engine.pedal.deferred.notes)
    (fun notes engine => notes.foldl
      (fun engine note => engine.releaseNote time note (engine.pedal.velocityOf note)) engine)
    (fun _ _ => rfl)
    fun notes => .foldl notes fun note =>
      .ofView (fun engine => engine.pedal.velocityOf note)
        (fun velocity engine => engine.releaseNote time note velocity) (fun _ _ => rfl)
        (ignoresOutput_releaseNote time note)

theorem ignoresOutput_replaceNote (old new : Note) :
    IgnoresOutput fun engine => engine.replaceNote time old new velocity :=
  .ofView (fun engine => engine.voices.channelOf old)
    (fun channel engine =>
      (engine.stopNote time channel old Midi.defaultVelocity).startNote time channel new velocity)
    (fun _ _ => rfl)
    fun channel => by
      have h := (ignoresOutput_startNote time channel new velocity).comp
        (ignoresOutput_stopNote time channel old Midi.defaultVelocity)
      exact h

theorem ignoresOutput_strike : IgnoresOutput fun engine => engine.strike time note velocity := by
  intro engine earlier
  have hreplace : ∀ old, (engine.after earlier).replaceNote time old note velocity =
      (engine.replaceNote time old note velocity).after earlier :=
    fun old => ignoresOutput_replaceNote time velocity old note engine earlier
  have hparameters : (engine.after earlier).parameters = engine.parameters := rfl
  have hfree : (engine.after earlier).free = engine.free := rfl
  have hstolen : (engine.after earlier).stolenNote? = engine.stolenNote? := rfl
  dsimp only [strike]
  rw [hparameters, hfree, hstolen]
  by_cases hheld : engine.voices.held.contains note = true
  · rw [if_pos hheld, if_pos (show (engine.after earlier).voices.held.contains note = true from hheld)]
    cases engine.parameters.excessNotes with
    | ignore => rfl
    | steal role => exact hreplace note
  · rw [if_neg hheld, if_neg (show ¬(engine.after earlier).voices.held.contains note = true from hheld)]
    rcases engine.free.pop with ⟨_ | channel, free⟩
    · cases engine.stolenNote? with
      | none => rfl
      | some stolen => exact hreplace stolen
    · exact ignoresOutput_startNote time channel note velocity { engine with free } earlier

theorem ignoresOutput_lift : IgnoresOutput fun engine => engine.lift time note velocity :=
  .ite (fun _ _ => Iff.rfl)
    (.ite (fun _ _ => Iff.rfl) (fun _ _ => rfl) (ignoresOutput_releaseNote time note velocity)) .id

theorem ignoresOutput_sendController :
    IgnoresOutput fun engine => engine.sendController time channel controller value false := by
  simp only [sendController_eq]
  exact .emitAll .id fun _ _ => rfl

theorem ignoresOutput_withInput (i : RuleIndex) :
    IgnoresOutput fun engine => engine.withInput controller value i := by
  have hlearn : IgnoresOutput fun engine => engine.learn i controller :=
    .ite (fun _ _ => Iff.rfl) (fun _ _ => rfl) .id
  have hinput : IgnoresOutput fun engine => engine.modifyRule i fun rule => { rule with lastInput := value } :=
    fun _ _ => rfl
  exact hinput.comp hlearn

theorem ignoresOutput_routeRule (i : RuleIndex) :
    IgnoresOutput fun engine => routeRule time controller value engine i := by
  have hsend : IgnoresOutput fun engine => engine.emitAll (engine.routeEvents time value i) :=
    .emitAll .id fun _ _ => rfl
  simp only [routeRule_eq]
  exact hsend.comp (ignoresOutput_withInput controller value i)

theorem ignoresOutput_route : IgnoresOutput fun engine => engine.route time controller value := by
  have hlisteners : IgnoresOutput fun engine =>
      ((List.finRange ruleCount).filter (engine.listens controller)).foldl
        (routeRule time controller value) engine :=
    .ofView (fun engine => (List.finRange ruleCount).filter (engine.listens controller))
      (fun listeners engine => listeners.foldl (routeRule time controller value) engine) (fun _ _ => rfl)
      fun listeners => .foldl listeners (ignoresOutput_routeRule time controller value)
  have hmanager : IgnoresOutput fun engine => engine.sendController time engine.manager controller value false :=
    .ofView manager (fun channel engine => engine.sendController time channel controller value false)
      (fun _ _ => rfl) fun channel => ignoresOutput_sendController time channel controller value
  exact .ite (fun _ _ => Iff.rfl) hmanager hlisteners

theorem ignoresOutput_movePedal : IgnoresOutput fun engine => engine.movePedal time value := by
  have hpedal : IgnoresOutput fun engine =>
      { engine with pedal := { engine.pedal with isDown := decide (0.5 ≤ value) } } :=
    fun _ _ => rfl
  have hrelease : IgnoresOutput fun engine =>
      if decide (0.5 ≤ value) = true then engine else engine.releaseDeferred time :=
    .ite (fun _ _ => Iff.rfl) .id (ignoresOutput_releaseDeferred time)
  exact .ite (fun _ _ => Iff.rfl) (hrelease.comp hpedal) .id

theorem ignoresOutput_moveController (raw : UInt16) :
    IgnoresOutput fun engine => engine.moveController time controller raw value := by
  have hstamp : IgnoresOutput fun engine =>
      { engine with recent := engine.recent.set controller.index ⟨time, raw⟩ } :=
    fun _ _ => rfl
  have hpedal : IgnoresOutput fun engine =>
      if controller = .sustainPedal then engine.movePedal time value else engine :=
    .ite (fun _ _ => Iff.rfl) (ignoresOutput_movePedal time value) .id
  exact .ite (fun _ _ => Iff.rfl) .id (hpedal.comp ((ignoresOutput_route time controller value).comp hstamp))

end steps

theorem ignoresOutput_receive (time : Float) (call : Midi.Call) :
    IgnoresOutput fun engine => engine.receive time call := by
  refine .ite (fun _ _ => Iff.rfl) .id ?_
  cases call with
  | noteOn channel note velocity =>
      dsimp only
      cases noteOfByte? note with
      | none => exact .id
      | some note => exact ignoresOutput_strike time note velocity
  | noteOff channel note velocity =>
      dsimp only
      cases noteOfByte? note with
      | none => exact .id
      | some note => exact ignoresOutput_lift time note velocity
  | controlChange channel number value =>
      dsimp only
      cases ControllerId.ofByte? number with
      | none => exact .id
      | some controller =>
          exact .ite (fun _ _ => Iff.rfl)
            (ignoresOutput_moveController time controller (Midi.fractionOfByte value) value.toUInt16) .id
  | channelPressure channel pressure => exact ignoresOutput_moveController time _ _ _
  | pitchBend channel bend => exact ignoresOutput_moveController time _ _ _
  | _ => exact .id

theorem ignoresOutput_receiveBytes (time : Float) (bytes : List UInt8) :
    IgnoresOutput fun engine => engine.receiveBytes time bytes :=
  .ofView (fun engine => Midi.Stream.decode engine.runningStatus bytes)
    (fun decoded engine =>
      decoded.1.foldl (fun engine call => engine.receive time call) { engine with runningStatus := decoded.2 })
    (fun _ _ => rfl)
    fun decoded => by
      have hstatus : IgnoresOutput fun engine => { engine with runningStatus := decoded.2 } := fun _ _ => rfl
      exact (IgnoresOutput.foldl decoded.1 (ignoresOutput_receive time)).comp hstatus

theorem ignoresOutput_apply (message : Message) : IgnoresOutput fun engine => engine.apply message := by
  cases message with
  | setParameter id ratio => exact .ite (fun _ _ => Iff.rfl) (fun _ _ => rfl) fun _ _ => rfl
  | clear => exact .ite (fun _ _ => Iff.rfl) (fun _ _ => rfl) fun _ _ => rfl
  | _ => exact fun _ _ => rfl

theorem ignoresOutput_takeMessages : IgnoresOutput takeMessages :=
  .ofView pending (fun messages engine => messages.foldl apply { engine with pending := [] }) (fun _ _ => rfl)
    fun messages => by
      have hpending : IgnoresOutput fun engine => { engine with pending := [] } := fun _ _ => rfl
      exact (IgnoresOutput.foldl messages ignoresOutput_apply).comp hpending

theorem offer_eq (engine : Engine) (message : Message) : engine.offer message =
    if engine.pending.length < engine.config.queueCapacity then
      { engine with pending := engine.pending ++ [message] }
    else engine := by
  unfold offer post
  by_cases h : engine.pending.length < engine.config.queueCapacity
  · rw [if_pos h, if_pos h]
  · rw [if_neg h, if_neg h]

theorem ignoresOutput_offer (message : Message) : IgnoresOutput fun engine => engine.offer message := by
  simp only [offer_eq]
  exact .ite (fun _ _ => Iff.rfl) (fun _ _ => rfl) .id

/-! ### Operations -/

/-- The start of a block once its messages have acted. -/
def openBlock (engine : Engine) : Engine :=
  if engine.isSuspended then engine.clearEvents
  else
    let engine := if engine.isLayoutStale then engine.applyLayout else engine
    if engine.hasReset then { engine with hasReset := false } else engine.clearEvents

theorem beginBlock_eq (engine : Engine) :
    engine.beginBlock = openBlock { engine.takeMessages with recent := Vector.replicate 124 .never } :=
  rfl

theorem openBlock_of_isSuspended {engine : Engine} (h : engine.isSuspended = true) :
    engine.openBlock = engine.clearEvents :=
  if_pos h

theorem openBlock_of_isLayoutStale {engine : Engine} (h : engine.isSuspended = false)
    (hstale : engine.isLayoutStale = true) :
    engine.openBlock = { engine.applyLayout with hasReset := false } := by
  unfold openBlock
  rw [h, hstale, if_neg Bool.false_ne_true]
  rfl

theorem openBlock_of_current {engine : Engine} (h : engine.isSuspended = false)
    (hstale : engine.isLayoutStale = false) :
    engine.openBlock = if engine.hasReset then { engine with hasReset := false } else engine.clearEvents := by
  have hlayout : (if engine.isLayoutStale then engine.applyLayout else engine) = engine := by
    rw [hstale, if_neg Bool.false_ne_true]
  unfold openBlock
  rw [if_neg (by rw [h]; exact Bool.false_ne_true)]
  dsimp only
  rw [hlayout]

theorem openBlock_after (engine : Engine) (earlier : Array Event) :
    (engine.after earlier).openBlock = engine.openBlock.after earlier
      ∨ (engine.after earlier).openBlock = engine.openBlock := by
  cases h : engine.isSuspended with
  | true =>
      have h' : (engine.after earlier).isSuspended = true := h
      rw [openBlock_of_isSuspended h, openBlock_of_isSuspended h']
      exact .inr rfl
  | false =>
      have h' : (engine.after earlier).isSuspended = false := h
      cases hstale : engine.isLayoutStale with
      | true =>
          have hstale' : (engine.after earlier).isLayoutStale = true := hstale
          rw [openBlock_of_isLayoutStale h hstale, openBlock_of_isLayoutStale h' hstale']
          exact .inr rfl
      | false =>
          have hstale' : (engine.after earlier).isLayoutStale = false := hstale
          rw [openBlock_of_current h hstale, openBlock_of_current h' hstale']
          by_cases hreset : engine.hasReset = true
          · have hreset' : (engine.after earlier).hasReset = true := hreset
            rw [if_pos hreset, if_pos hreset']
            exact .inl rfl
          · have hreset' : ¬(engine.after earlier).hasReset = true := hreset
            rw [if_neg hreset, if_neg hreset']
            exact .inr rfl

theorem beginBlock_after (engine : Engine) (earlier : Array Event) :
    (engine.after earlier).beginBlock = engine.beginBlock.after earlier
      ∨ (engine.after earlier).beginBlock = engine.beginBlock := by
  rw [beginBlock_eq, ignoresOutput_takeMessages]
  exact openBlock_after { engine.takeMessages with recent := Vector.replicate 124 .never } earlier

/-- Events that are in the output already are kept or removed by an operation as a whole, and make no other
difference to it. -/
theorem perform_after (engine : Engine) (earlier : Array Event) (operation : Operation) :
    (engine.after earlier).perform operation = (engine.perform operation).after earlier
      ∨ (engine.after earlier).perform operation = engine.perform operation := by
  cases operation with
  | beginBlock => exact engine.beginBlock_after earlier
  | call time call => exact .inl (ignoresOutput_receive time call engine earlier)
  | bytes time bytes => exact .inl (ignoresOutput_receiveBytes time bytes engine earlier)
  | apply message => exact .inl (ignoresOutput_apply message engine earlier)
  | post message => exact .inl (ignoresOutput_offer message engine earlier)
  | takeMessages => exact .inl (ignoresOutput_takeMessages engine earlier)
  | reset => exact .inr rfl
  | suspend => exact .inl rfl
  | resume => exact .inr rfl
  | clearDirty => exact .inl rfl

/-- An operation does what it does to the engine with nothing in the output. -/
theorem perform_eq (engine : Engine) (operation : Operation) :
    ∃ kept, engine.perform operation = (engine.clearEvents.perform operation).after kept := by
  have h := perform_after engine.clearEvents engine.events operation
  rw [clearEvents_after] at h
  rcases h with h | h
  · exact ⟨engine.events, h⟩
  · exact ⟨#[], h.trans (by simp [after])⟩

theorem voices_perform (engine : Engine) (operation : Operation) :
    (engine.perform operation).voices = (engine.clearEvents.perform operation).voices := by
  obtain ⟨kept, hkept⟩ := engine.perform_eq operation
  rw [hkept]
  rfl

/-- After an operation the output holds what the operation has sent, behind what was there before unless that
has been removed. -/
theorem events_perform (engine : Engine) (operation : Operation) :
    (engine.perform operation).events.toList = engine.events.toList ++ engine.emitted operation
      ∨ (engine.perform operation).events.toList = engine.emitted operation := by
  have h := perform_after engine.clearEvents engine.events operation
  rw [clearEvents_after] at h
  rcases h with h | h
  · rw [h]
    exact .inl Array.toList_append
  · rw [h]
    exact .inr rfl

end Engine

end PolyExpression
