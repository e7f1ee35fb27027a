import PolyExpression.Proofs.Operations

/-!
What comes in as a sequence of strokes. A stroke is the smallest thing that the engine does with a call, in whatever
state it is. Main statement: every decoded message and all bytes are sequences of strokes, so what each stroke preserves
they preserve.
-/

namespace PolyExpression

/-- What every step preserves, steps one after another preserve. -/
theorem preserve_of_step {α : Type} {step : α → α → Prop} {P : α → Prop} {a b : α}
    (hsteps : Relation.ReflTransGen step a b) (hstep : ∀ {a b}, step a b → P a → P b) (h : P a) : P b := by
  induction hsteps with
  | refl => exact h
  | tail _ hlast ih => exact hstep hlast ih

open Midi (Event)

namespace Engine

/-- The smallest parts of what the engine does with a call. -/
inductive Stroke (engine : Engine) : Engine → Prop where
  | start (time : Float) (channel : Channel) (note : Note) (velocity : UInt8) :
      Stroke engine (engine.startNote time channel note velocity)
  | stop (time : Float) (channel : Channel) (note : Note) (velocity : UInt8) :
      Stroke engine (engine.stopNote time channel note velocity)
  | free (free : ChannelQueue) : Stroke engine { engine with free }
  | pedal (pedal : Pedal) : Stroke engine { engine with pedal }
  | recent (recent : Vector ControllerStamp 124) : Stroke engine { engine with recent }
  | running (runningStatus : UInt8) : Stroke engine { engine with runningStatus }
  | emit (events : List Event) : Stroke engine (engine.emitAll events)
  | input (controller : ControllerId) (value : Float) (i : RuleIndex) :
      Stroke engine (engine.withInput controller value i)

/-- Strokes one after another. -/
def Strokes : Engine → Engine → Prop := Relation.ReflTransGen Stroke

variable {engine after : Engine}

theorem Strokes.foldl {α : Type} {step : Engine → α → Engine} (hstep : ∀ engine item, Strokes engine (step engine item))
    (engine : Engine) (items : List α) : Strokes engine (items.foldl step engine) :=
  List.foldlRecOn items step (motive := Strokes engine) .refl fun e h item _ => h.trans (hstep e item)

section steps

variable (engine : Engine) (time : Float)

theorem releaseNote_strokes (note : Note) (velocity : UInt8) :
    Strokes engine (engine.releaseNote time note velocity) := by
  let stopped := engine.stopNote time (engine.voices.channelOf note) note velocity
  have hstop : Strokes engine stopped := .single (.stop time _ note velocity)
  obtain ⟨free, hfree⟩ := stopped.giveBack_frame (engine.voices.channelOf note)
  rw [releaseNote_eq, hfree]
  exact hstop.tail (.free free)

theorem releaseDeferred_strokes : Strokes engine (engine.releaseDeferred time) :=
  Strokes.foldl (fun e note => e.releaseNote_strokes time note (e.pedal.velocityOf note)) engine _

theorem replaceNote_strokes (old new : Note) (velocity : UInt8) :
    Strokes engine (engine.replaceNote time old new velocity) :=
  .tail (.single (.stop time _ old _)) (.start time _ new velocity)

theorem strike_strokes (note : Note) (velocity : UInt8) : Strokes engine (engine.strike time note velocity) := by
  obtain ⟨-, h⟩ | ⟨-, -, h⟩ | ⟨-, channel, -, h⟩ | ⟨-, stolen, -, h⟩ := engine.strike_cases time note velocity
  · rw [h]
    exact .refl
  · rw [h]
    exact engine.replaceNote_strokes time note note velocity
  · rw [h]
    exact .tail (.single (.free engine.free.pop.2)) (.start time channel note velocity)
  · rw [h]
    exact engine.replaceNote_strokes time stolen note velocity

theorem lift_strokes (note : Note) (velocity : UInt8) : Strokes engine (engine.lift time note velocity) := by
  unfold lift
  split
  · split
    · exact .single (.pedal _)
    · exact engine.releaseNote_strokes time note velocity
  · exact .refl

theorem movePedal_strokes (value : Float) : Strokes engine (engine.movePedal time value) := by
  have hmove : Strokes engine { engine with pedal := { engine.pedal with isDown := 0.5 ≤ value } } := .single (.pedal _)
  unfold movePedal
  dsimp only
  split
  · split
    · exact hmove
    · exact hmove.trans (releaseDeferred_strokes _ time)
  · exact .refl

theorem routeRule_strokes (controller : ControllerId) (value : Float) (i : RuleIndex) :
    Strokes engine (routeRule time controller value engine i) := by
  rw [routeRule_eq]
  exact .tail (.single (.input controller value i)) (.emit _)

theorem route_strokes (controller : ControllerId) (value : Float) :
    Strokes engine (engine.route time controller value) := by
  unfold route
  dsimp only
  split
  · rw [sendController_eq]
    exact .single (.emit _)
  · exact Strokes.foldl (fun e i => e.routeRule_strokes time controller value i) engine _

theorem moveController_strokes (controller : ControllerId) (raw : UInt16) (value : Float) :
    Strokes engine (engine.moveController time controller raw value) := by
  have hstamp : Strokes engine { engine with recent := engine.recent.set controller.index ⟨time, raw⟩ } :=
    .single (.recent _)
  have hroute := hstamp.trans (route_strokes _ time controller value)
  unfold moveController
  dsimp only
  split
  · exact .refl
  · split
    · exact hroute.trans (movePedal_strokes _ time value)
    · exact hroute

theorem receive_strokes (call : Midi.Call) : Strokes engine (engine.receive time call) := by
  unfold receive
  split
  · exact .refl
  · cases call with
    | noteOn channel note velocity =>
        dsimp only
        cases noteOfByte? note with
        | none => exact .refl
        | some note => exact engine.strike_strokes time note velocity
    | noteOff channel note velocity =>
        dsimp only
        cases noteOfByte? note with
        | none => exact .refl
        | some note => exact engine.lift_strokes time note velocity
    | controlChange channel number value =>
        dsimp only
        split
        · exact .refl
        · split
          · exact engine.moveController_strokes time _ _ _
          · exact .refl
    | channelPressure channel pressure => exact engine.moveController_strokes time _ _ _
    | pitchBend channel bend => exact engine.moveController_strokes time _ _ _
    | _ => exact .refl

theorem receiveBytes_strokes (bytes : List UInt8) : Strokes engine (engine.receiveBytes time bytes) :=
  .trans (.single (.running _)) (Strokes.foldl (fun e call => e.receive_strokes time call) _ _)

end steps

end Engine

end PolyExpression
