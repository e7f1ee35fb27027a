import PolyExpression.Proofs.Mode
import PolyExpression.Proofs.Restart

/-!
Releases and the pedal. A history of a run keeps what has been heard of the pedal since the engine started over
last, and which notes have been released and not struck again. Main statement: a released note that is still held
waits for the pedal, which the last of its moves that the engine handled itself took down.
-/

namespace PolyExpression

open Midi (Event Call)

/-- What has been heard of the pedal and of releases. -/
structure PedalHistory where
  /-- Whether the last move took the pedal down, if it has moved since the engine started over. -/
  last? : Option Bool
  /-- The same of the moves that were the engine's to handle. -/
  handled? : Option Bool
  /-- The notes that have been released and not struck since. -/
  released : List Note

namespace PedalHistory

def empty : PedalHistory := ⟨none, none, []⟩

/-- The pedal moves; whether the engine handles that depends on its parameters. -/
def move (history : PedalHistory) (isDown isHandled : Bool) : PedalHistory :=
  { history with
    last? := some isDown
    handled? := if isHandled then some isDown else history.handled? }

def strike (history : PedalHistory) (note : Note) : PedalHistory :=
  { history with released := history.released.filter (· ≠ note) }

def lift (history : PedalHistory) (note : Note) : PedalHistory :=
  { history with released := note :: history.released }

/-- The engine starts over. -/
def restart (history : PedalHistory) : PedalHistory := { history with last? := none, handled? := none }

end PedalHistory

theorem ControllerId.eq_sustainPedal_iff {number : UInt8} {controller : ControllerId}
    (h : ofByte? number = some controller) : controller = sustainPedal ↔ number = 64 := by
  unfold ofByte? at h
  split at h
  · obtain rfl := Option.some.inj h
    refine ⟨fun heq => ?_, ?_⟩
    · have hindex : number.toNat = 64 := congrArg (fun controller => controller.index.val) heq
      exact UInt8.toNat.inj hindex
    · rintro rfl
      rfl
  · cases h

namespace Engine

variable {engine after : Engine} {history : PedalHistory} {note : Note}

/-- The history when a message has come in. A suspended engine takes none, and of equal moves of the pedal in a
block only the first counts. -/
def hear (engine : Engine) (history : PedalHistory) (time : Float) (call : Call) : PedalHistory :=
  if engine.isSuspended then history
  else match call with
    | .noteOn _ byte _ => (noteOfByte? byte).elim history history.strike
    | .noteOff _ byte _ => (noteOfByte? byte).elim history history.lift
    | .controlChange _ number value =>
        if number = 64 ∧ (engine.recent.get ControllerId.sustainPedal.index).isSame ⟨time, value.toUInt16⟩ = false
        then history.move (64 ≤ value) engine.parameters.holdsOnSustain
        else history
    | _ => history

def hearAll (engine : Engine) (history : PedalHistory) (time : Float) : List Call → PedalHistory
  | [] => history
  | call :: calls => (engine.receive time call).hearAll (engine.hear history time call) time calls

/-- The history when an operation has been carried out. -/
def observe (engine : Engine) (history : PedalHistory) : Operation → PedalHistory
  | .call time call => engine.hear history time call
  | .bytes time bytes =>
      let decoded := Midi.Stream.decode engine.runningStatus bytes
      hearAll { engine with runningStatus := decoded.2 } history time decoded.1
  | .reset | .resume => history.restart
  | .beginBlock =>
      if engine.isSuspended = false ∧ engine.takeMessages.isLayoutStale = true then history.restart else history
  | _ => history

/-- The history when a run has been carried out. -/
def pedalHistory (engine : Engine) (history : PedalHistory) : List Operation → PedalHistory
  | [] => history
  | operation :: operations =>
      (engine.perform operation).pedalHistory (engine.observe history operation) operations

/-! ### What the engine keeps of the history -/

/-- Held notes that have been released wait for the pedal, which is down if a move that the engine handled took it
down; with the pedal up none waits. -/
structure Remembers (engine : Engine) (history : PedalHistory) : Prop where
  waits : ∀ note ∈ engine.voices.held.notes, note ∈ history.released → note ∈ engine.pedal.deferred.notes
  isDown : engine.pedal.isDown = (history.handled? == some true)
  up : engine.pedal.isDown = false → engine.pedal.deferred.notes = []

namespace Remembers

theorem congr (h : Remembers engine history) (hvoices : after.voices = engine.voices)
    (hpedal : after.pedal = engine.pedal) : Remembers after history := by
  refine ⟨?_, ?_, ?_⟩
  · rw [hvoices, hpedal]
    exact h.waits
  · rw [hpedal]
    exact h.isDown
  · rw [hpedal]
    exact h.up

/-- A note ends: it neither is held nor waits any more. -/
theorem stop (h : Remembers engine history) (hvoices : after.voices = engine.voices.stop note)
    (hpedal : after.pedal = engine.pedal.forget note) : Remembers after history := by
  have hdeferred : after.pedal.deferred.notes = engine.pedal.deferred.notes.erase note := by
    rw [hpedal]
    exact engine.pedal.deferred.notes_erase note
  refine ⟨fun other hother hreleased => ?_, ?_, fun hup => ?_⟩
  · rw [hvoices, Voices.held_stop] at hother
    obtain ⟨hne, hheld⟩ := engine.voices.held.nodup.mem_erase_iff.mp hother
    rw [hdeferred]
    exact (List.mem_erase_of_ne hne).mpr (h.waits other hheld hreleased)
  · rw [hpedal]
    exact h.isDown
  · rw [hpedal] at hup
    rw [hdeferred, h.up hup, List.erase_nil]

/-- A note starts: it is no longer among the released ones. -/
theorem start (h : Remembers engine history) {channel : Channel} {velocity : UInt8} {isAbove : Bool}
    (hvoices : after.voices = engine.voices.start note channel velocity isAbove)
    (hpedal : after.pedal = engine.pedal) : Remembers after (history.strike note) := by
  refine ⟨fun other hother hreleased => ?_, ?_, ?_⟩
  · obtain ⟨hmem, hne⟩ := List.mem_filter.mp hreleased
    have hne : other ≠ note := of_decide_eq_true hne
    rw [hvoices, Voices.held_start] at hother
    have hheld := List.mem_of_mem_erase ((List.mem_cons.mp hother).resolve_left hne)
    rw [hpedal]
    exact h.waits other hheld hmem
  · rw [hpedal]
    exact h.isDown
  · rw [hpedal]
    exact h.up

/-- Fewer released notes make no difference. -/
theorem strike_of_ignored (h : Remembers engine history) (note : Note) :
    Remembers engine (history.strike note) :=
  ⟨fun other hother hreleased => h.waits other hother (List.mem_filter.mp hreleased).1, h.isDown, h.up⟩

end Remembers

/-! ### Notes -/

theorem Remembers.release (h : Remembers engine history) (time : Float) (note : Note) (velocity : UInt8) :
    Remembers (engine.releaseNote time note velocity) history :=
  h.stop (voices_releaseNote ..) (pedal_releaseNote ..)

theorem Remembers.replace (h : Remembers engine history) (time : Float) (old new : Note) (velocity : UInt8) :
    Remembers (engine.replaceNote time old new velocity) (history.strike new) := by
  have hstopped : Remembers (engine.stopNote time (engine.voices.channelOf old) old Midi.defaultVelocity)
      history := h.stop (voices_stopNote ..) (pedal_stopNote ..)
  exact hstopped.start (voices_startNote ..) (pedal_startNote ..)

theorem Remembers.strike (h : Remembers engine history) (time : Float) (note : Note) (velocity : UInt8) :
    Remembers (engine.strike time note velocity) (history.strike note) := by
  obtain ⟨-, hstrike⟩ | ⟨-, -, hstrike⟩ | ⟨-, channel, -, hstrike⟩ | ⟨-, stolen, -, hstrike⟩ :=
    engine.strike_cases time note velocity
  · rw [hstrike]
    exact h.strike_of_ignored note
  · rw [hstrike]
    exact h.replace time note note velocity
  · have htaken : Remembers { engine with free := engine.free.pop.2 } history := h.congr rfl rfl
    rw [hstrike]
    exact htaken.start (voices_startNote ..) (pedal_startNote ..)
  · rw [hstrike]
    exact h.replace time stolen note velocity

theorem Remembers.lift (h : Remembers engine history) (time : Float) (note : Note) (velocity : UInt8) :
    Remembers (engine.lift time note velocity) (history.lift note) := by
  have hothers : ∀ {other : Note}, other ≠ note → other ∈ (history.lift note).released →
      other ∈ history.released :=
    fun hne hmem => (List.mem_cons.mp hmem).resolve_left hne
  unfold Engine.lift
  by_cases hheld : engine.voices.held.contains note = true
  · rw [if_pos hheld]
    by_cases hholds : (engine.parameters.holdsOnSustain && engine.pedal.isDown) = true
    · rw [if_pos hholds]
      obtain ⟨-, hdown⟩ := Bool.and_eq_true_iff.mp hholds
      refine ⟨fun other hother hreleased => ?_, h.isDown, fun hup => ?_⟩
      · have hnotes : (engine.pedal.hold note velocity).deferred.notes =
            note :: engine.pedal.deferred.notes.erase note := engine.pedal.deferred.notes_push note
        show other ∈ (engine.pedal.hold note velocity).deferred.notes
        rw [hnotes]
        by_cases heq : other = note
        · rw [heq]
          exact List.mem_cons_self
        · exact List.mem_cons_of_mem _
            ((List.mem_erase_of_ne heq).mpr (h.waits other hother (hothers heq hreleased)))
      · exact absurd (hdown.symm.trans hup) Bool.false_ne_true.symm
    · rw [if_neg hholds]
      have hended := h.release time note velocity
      refine ⟨fun other hother hreleased => ?_, hended.isDown, hended.up⟩
      have hmem := hother
      rw [voices_releaseNote, Voices.held_stop] at hmem
      exact hended.waits other hother
        (hothers (engine.voices.held.nodup.mem_erase_iff.mp hmem).1 hreleased)
  · rw [if_neg hheld]
    refine ⟨fun other hother hreleased => h.waits other hother (hothers ?_ hreleased), h.isDown, h.up⟩
    rintro rfl
    exact hheld (NoteStack.contains_iff.mpr hother)

/-! ### The pedal -/

/-- Carrying out the releases that wait ends those notes and no others. -/
theorem releaseDeferred_spec (engine : Engine) (time : Float) :
    (∀ note ∈ (engine.releaseDeferred time).voices.held.notes,
      note ∈ engine.voices.held.notes ∧ note ∉ engine.pedal.deferred.notes)
    ∧ (engine.releaseDeferred time).pedal.deferred.notes = []
    ∧ (engine.releaseDeferred time).pedal.isDown = engine.pedal.isDown := by
  have hall : ∀ (notes : List Note) (e last : Engine), e.pedal.deferred.notes = notes →
      notes.foldl (fun e note => e.releaseNote time note (e.pedal.velocityOf note)) e = last →
      (∀ note ∈ last.voices.held.notes, note ∈ e.voices.held.notes ∧ note ∉ notes)
        ∧ last.pedal.deferred.notes = [] ∧ last.pedal.isDown = e.pedal.isDown := by
    intro notes
    induction notes with
    | nil =>
        rintro e _ he rfl
        exact ⟨fun note hnote => ⟨hnote, List.not_mem_nil⟩, he, rfl⟩
    | cons first rest ih =>
        intro e last he hlast
        rw [List.foldl_cons] at hlast
        have hvoices := e.voices_releaseNote time first (e.pedal.velocityOf first)
        have hpedal := e.pedal_releaseNote time first (e.pedal.velocityOf first)
        generalize e.releaseNote time first (e.pedal.velocityOf first) = released at hlast hvoices hpedal
        have hrest : released.pedal.deferred.notes = rest := by
          have hforget : (e.pedal.forget first).deferred.notes = e.pedal.deferred.notes.erase first :=
            e.pedal.deferred.notes_erase first
          rw [hpedal, hforget, he, List.erase_cons_head]
        have hsame : released.pedal.isDown = e.pedal.isDown := by
          rw [hpedal]
          rfl
        obtain ⟨hheld, hdeferred, hdown⟩ := ih released last hrest hlast
        refine ⟨fun note hnote => ?_, hdeferred, hdown.trans hsame⟩
        obtain ⟨hmem, hnot⟩ := hheld note hnote
        rw [hvoices, Voices.held_stop] at hmem
        obtain ⟨hne, hmem⟩ := e.voices.held.nodup.mem_erase_iff.mp hmem
        exact ⟨hmem, fun hin => (List.mem_cons.mp hin).elim hne hnot⟩
  exact hall _ engine _ rfl rfl

theorem Remembers.movePedal (h : Remembers engine history) (time value : Float) :
    Remembers (engine.movePedal time value)
      (history.move (0.5 ≤ value) engine.parameters.holdsOnSustain) := by
  unfold Engine.movePedal
  dsimp only
  by_cases hholds : engine.parameters.holdsOnSustain = true
  · rw [if_pos hholds, hholds]
    by_cases hdown : (decide (0.5 ≤ value)) = true
    · rw [if_pos hdown, hdown]
      exact ⟨h.waits, rfl, fun hup => absurd hup.symm Bool.false_ne_true⟩
    · have hup : decide (0.5 ≤ value) = false := Bool.eq_false_iff.mpr hdown
      rw [if_neg hdown, hup]
      obtain ⟨hheld, hdeferred, hpedal⟩ :=
        releaseDeferred_spec { engine with pedal := { engine.pedal with isDown := false } } time
      refine ⟨fun other hother hreleased => ?_, hpedal, fun _ => hdeferred⟩
      obtain ⟨hmem, hnot⟩ := hheld other hother
      exact absurd (h.waits other hmem hreleased) hnot
  · have hunhandled : engine.parameters.holdsOnSustain = false := Bool.eq_false_iff.mpr hholds
    rw [if_neg hholds, hunhandled]
    exact ⟨h.waits, h.isDown, h.up⟩

/-- Routing a controller changes no parameter but the inputs of rules. -/
theorem get_route (engine : Engine) (time : Float) (controller : ControllerId) (value : Float) {id : ParameterId}
    (hid : ∀ i, id ≠ .rule i .input) :
    (engine.route time controller value).parameters.get id = engine.parameters.get id := by
  have hacts : ∀ {before after : Moment}, Acts before after →
      after.2.parameters.get id = before.2.parameters.get id := by
    intro before after hacts
    induction hacts with
    | refl => rfl
    | @tail between after _ hact ih =>
        have hlast : after.2.parameters.get id = between.2.parameters.get id :=
          hact.get_eq fun i heq => absurd heq (hid i)
        exact hlast.trans ih
  have hrouted : Acts ([], engine) ([], engine.route time controller value) := route_acts time controller value
  exact hacts hrouted

theorem holdsOnSustain_route (engine : Engine) (time : Float) (controller : ControllerId) (value : Float) :
    (engine.route time controller value).parameters.holdsOnSustain = engine.parameters.holdsOnSustain :=
  congrArg Parameter.isOn (engine.get_route time controller value nofun)

theorem Remembers.moveController (h : Remembers engine history) (time : Float) (controller : ControllerId)
    (raw : UInt16) (value : Float) : Remembers (engine.moveController time controller raw value)
      (if controller = .sustainPedal ∧ (engine.recent.get controller.index).isSame ⟨time, raw⟩ = false then
        history.move (0.5 ≤ value) engine.parameters.holdsOnSustain
      else history) := by
  let stamped : Engine := { engine with recent := engine.recent.set controller.index ⟨time, raw⟩ }
  have hrouted : Remembers (stamped.route time controller value) history := by
    obtain ⟨parameters, published, events, hroute⟩ := stamped.route_frame time controller value
    rw [hroute]
    exact h.congr rfl rfl
  have hholds : (stamped.route time controller value).parameters.holdsOnSustain =
      engine.parameters.holdsOnSustain := stamped.holdsOnSustain_route time controller value
  have hstamp : engine.recent[controller.index] = engine.recent.get controller.index := rfl
  unfold Engine.moveController
  dsimp only
  rw [hstamp]
  cases hsame : (engine.recent.get controller.index).isSame ⟨time, raw⟩ with
  | true =>
      rw [if_pos rfl, if_neg fun hmoves => Bool.false_ne_true hmoves.2.symm]
      exact h
  | false =>
      rw [if_neg Bool.false_ne_true, if_congr (and_iff_left rfl) rfl rfl]
      by_cases hpedal : controller = .sustainPedal
      · rw [if_pos hpedal, if_pos hpedal, ← hholds]
        exact hrouted.movePedal time value
      · rw [if_neg hpedal, if_neg hpedal]
        exact hrouted

/-- A value of the pedal is at least a half if its byte has the highest bit. -/
theorem half_le_fractionOfByte (value : UInt8) :
    decide (0.5 ≤ Midi.fractionOfByte value) = decide (64 ≤ value) := by
  have hall : ∀ n : Fin 256, decide (0.5 ≤ Midi.fractionOfByte (UInt8.ofFin n)) = decide (64 ≤ UInt8.ofFin n) := by
    decide +kernel
  exact hall value.toFin

theorem Remembers.controlChange (h : Remembers engine history) (hsuspended : engine.isSuspended = false)
    (time : Float) (channel number value : UInt8) :
    Remembers (engine.receive time (.controlChange channel number value))
      (engine.hear history time (.controlChange channel number value)) := by
  have hactive : ¬engine.isSuspended = true := by
    rw [hsuspended]
    exact Bool.false_ne_true
  unfold receive hear
  rw [if_neg hactive, if_neg hactive]
  dsimp only
  cases hid : ControllerId.ofByte? number with
  | none =>
      have hother : number ≠ 64 := by
        rintro rfl
        cases hid
      rw [if_neg fun hmoves => hother hmoves.1]
      exact h
  | some controller =>
      have hpedal := ControllerId.eq_sustainPedal_iff hid
      dsimp only
      have hmove := h.moveController time controller value.toUInt16 (Midi.fractionOfByte value)
      rw [half_le_fractionOfByte] at hmove
      by_cases hnumber : number = 64
      · obtain rfl := hpedal.mpr hnumber
        have hmidi : ControllerId.sustainPedal.midiNumber?.isSome = true := rfl
        rw [if_congr (and_iff_right rfl) rfl rfl] at hmove
        rw [if_pos hmidi, if_congr (and_iff_right hnumber) rfl rfl]
        exact hmove
      · have hsame : (if number = 64 ∧ (engine.recent.get ControllerId.sustainPedal.index).isSame
            ⟨time, value.toUInt16⟩ = false then history.move (64 ≤ value) engine.parameters.holdsOnSustain
            else history) = history := if_neg fun hmoves => hnumber hmoves.1
        rw [if_neg fun hmoves => hnumber (hpedal.mp hmoves.1)] at hmove
        rw [hsame]
        split
        · exact hmove
        · exact h

theorem Remembers.receive (h : Remembers engine history) (time : Float) (call : Call) :
    Remembers (engine.receive time call) (engine.hear history time call) := by
  cases hsuspended : engine.isSuspended with
  | true =>
      unfold Engine.receive hear
      rw [if_pos hsuspended, if_pos hsuspended]
      exact h
  | false =>
      have hactive : ¬engine.isSuspended = true := by
        rw [hsuspended]
        exact Bool.false_ne_true
      have hother : ∀ controller raw value, controller ≠ .sustainPedal →
          Remembers (engine.moveController time controller raw value) history := by
        intro controller raw value hne
        have hmove := h.moveController time controller raw value
        rw [if_neg fun hmoves => hne hmoves.1] at hmove
        exact hmove
      cases call with
      | controlChange channel number value => exact h.controlChange hsuspended time channel number value
      | noteOn channel byte velocity =>
          unfold Engine.receive hear
          rw [if_neg hactive, if_neg hactive]
          dsimp only
          cases noteOfByte? byte with
          | none => exact h
          | some note => exact h.strike time note velocity
      | noteOff channel byte velocity =>
          unfold Engine.receive hear
          rw [if_neg hactive, if_neg hactive]
          dsimp only
          cases noteOfByte? byte with
          | none => exact h
          | some note => exact h.lift time note velocity
      | channelPressure channel pressure =>
          unfold Engine.receive hear
          rw [if_neg hactive, if_neg hactive]
          exact hother .channelPressure _ _ (by decide)
      | pitchBend channel bend =>
          unfold Engine.receive hear
          rw [if_neg hactive, if_neg hactive]
          exact hother .pitchWheel _ _ (by decide)
      | _ =>
          unfold Engine.receive hear
          rw [if_neg hactive, if_neg hactive]
          exact h

/-! ### Operations -/

theorem Remembers.receiveAll (h : Remembers engine history) (time : Float) (calls : List Call) :
    Remembers (calls.foldl (fun e call => e.receive time call) engine) (engine.hearAll history time calls) := by
  induction calls generalizing engine history with
  | nil => exact h
  | cons call calls ih => exact ih (h.receive time call)

theorem remembers_reset (engine : Engine) (history : PedalHistory) :
    Remembers engine.reset history.restart := by
  refine ⟨fun note hnote => ?_, ?_, fun _ => ?_⟩
  · rw [voices_reset] at hnote
    exact absurd hnote List.not_mem_nil
  · rw [pedal_reset]
    rfl
  · rw [pedal_reset]
    rfl

theorem Remembers.beginBlock (h : Remembers engine history) :
    Remembers engine.beginBlock (engine.observe history .beginBlock) := by
  have htold : Remembers engine.told history := by
    obtain ⟨parameters, published, recent, heq⟩ := engine.told_eq
    rw [heq]
    exact h.congr rfl rfl
  unfold observe
  dsimp only
  rw [beginBlock_eq_openBlock, openBlock_eq, if_congr changesLayout_told_iff.symm rfl rfl]
  split
  · exact (remembers_reset engine.told history).congr rfl rfl
  · split
    · exact htold.congr rfl rfl
    · exact htold.congr rfl rfl

theorem Remembers.perform (h : Remembers engine history) (operation : Operation) :
    Remembers (engine.perform operation) (engine.observe history operation) := by
  cases operation with
  | beginBlock => exact h.beginBlock
  | call time call => exact h.receive time call
  | bytes time bytes =>
      let decoded := Midi.Stream.decode engine.runningStatus bytes
      have hstatus : Remembers { engine with runningStatus := decoded.2 } history := h.congr rfl rfl
      exact hstatus.receiveAll time decoded.1
  | apply message =>
      obtain ⟨parameters, published, heq⟩ := engine.apply_eq message
      have happly : Remembers (engine.apply message) history := by
        rw [heq]
        exact h.congr rfl rfl
      exact happly
  | post message =>
      have hoffer : Remembers (engine.offer message) history := by
        rw [offer_eq]
        split
        · exact h.congr rfl rfl
        · exact h
      exact hoffer
  | takeMessages =>
      obtain ⟨parameters, published, heq⟩ := engine.takeMessages_eq
      have htake : Remembers engine.takeMessages history := by
        rw [heq]
        exact h.congr rfl rfl
      exact htake
  | reset => exact remembers_reset engine history
  | suspend => exact h.congr rfl rfl
  | resume => exact remembers_reset { engine with isSuspended := false } history
  | clearDirty => exact h.congr rfl rfl

theorem Remembers.run (h : Remembers engine history) (operations : List Operation) :
    Remembers (engine.run operations) (engine.pedalHistory history operations) := by
  induction operations generalizing engine history with
  | nil => exact h
  | cons operation operations ih => exact ih (h.perform operation)

theorem remembers_of_create {config : Configuration} (h : create config = .ok engine) (operations : List Operation) :
    Remembers (engine.run operations) (engine.pedalHistory .empty operations) := by
  have hstart : Remembers engine .empty := by
    obtain ⟨config, rfl⟩ := create_frame h
    exact ⟨fun _ hnote => absurd hnote List.not_mem_nil, rfl, fun _ => rfl⟩
  exact hstart.run operations

/-- In every run of a new engine, a released note that is still held waits for the pedal, and of the moves of the
pedal that the engine has handled since it started over last, the last one took it down. -/
theorem released_notes_wait {config : Configuration} {start : Engine} (h : create config = .ok start)
    (operations : List Operation) : ∀ note ∈ (start.run operations).voices.held.notes,
      note ∈ (start.pedalHistory .empty operations).released →
        note ∈ (start.run operations).pedal.deferred.notes
          ∧ (start.pedalHistory .empty operations).handled? = some true := by
  have hrun := remembers_of_create h operations
  intro note hnote hreleased
  have hwaits := hrun.waits note hnote hreleased
  have hdown : (start.run operations).pedal.isDown = true := by
    by_contra hup
    rw [hrun.up (Bool.eq_false_iff.mpr hup)] at hwaits
    exact absurd hwaits List.not_mem_nil
  exact ⟨hwaits, beq_iff_eq.mp (hrun.isDown.symm.trans hdown)⟩

/-- A note is released while the pedal is down. -/
def sustained : List Operation :=
  [.apply (.setParameter (.zone .holdOnSustain) 1.0), .beginBlock, .call 0.0 (.noteOn 0 60 100),
    .call 0.0 (.controlChange 0 64 127), .call 0.0 (.noteOff 0 60 0)]

theorem released_notes_wait_sustained : create {} = .ok standard
    ∧ 60 ∈ (standard.run sustained).voices.held.notes
    ∧ 60 ∈ (standard.pedalHistory .empty sustained).released
    ∧ 60 ∈ (standard.run sustained).pedal.deferred.notes
    ∧ (standard.pedalHistory .empty sustained).handled? = some true := by
  have hheld : 60 ∈ (standard.run sustained).voices.held.notes := by decide +kernel
  have hreleased : 60 ∈ (standard.pedalHistory .empty sustained).released := by decide +kernel
  exact ⟨create_standard, hheld, hreleased, released_notes_wait create_standard sustained 60 hheld hreleased⟩

/-- The pedal goes up while it is not the engine's to handle. -/
def pedalUpUnhandled : List Operation :=
  sustained ++ [.apply (.setParameter (.zone .holdOnSustain) 0.0), .call 0.5 (.controlChange 0 64 0)]

/-- A released note can stay held after the pedal has gone up. -/
theorem released_note_stays_held : ¬∀ (config : Configuration) (start : Engine), create config = .ok start →
    ∀ operations, (start.pedalHistory .empty operations).last? ≠ some true →
      ∀ note ∈ (start.run operations).voices.held.notes,
        note ∉ (start.pedalHistory .empty operations).released := by
  intro h
  have hup : (standard.pedalHistory .empty pedalUpUnhandled).last? = some false := by decide +kernel
  have hheld : 60 ∈ (standard.run pedalUpUnhandled).voices.held.notes := by decide +kernel
  have hreleased : 60 ∈ (standard.pedalHistory .empty pedalUpUnhandled).released := by decide +kernel
  refine h {} standard create_standard pedalUpUnhandled ?_ 60 hheld hreleased
  rw [hup]
  nofun

end Engine

end PolyExpression
