import PolyExpression.Proofs.Mode
import PolyExpression.Proofs.Restart

/-!
Operations as messages and turns. An operation first carries out its messages, one after the other; the rest of it is a
sequence of turns, which are strokes, resets, and changes of the little that neither of them looks after. Main
statements: no turn changes a setting, unless a rule learns its input; and what every turn and every message preserves is
true of every engine that operations lead to if it is true of the new ones.
-/

namespace PolyExpression

open Midi (Event)

namespace Engine

/-- The parts of an operation once its messages have acted. -/
inductive Turn (engine : Engine) : Engine → Prop where
  | stroke {after : Engine} (h : Stroke engine after) : Turn engine after
  | reset : Turn engine engine.reset
  | queue (pending : List Message) : Turn engine { engine with pending }
  | mode (isSuspended hasReset : Bool) (events : Array Event) :
      Turn engine { engine with isSuspended, hasReset, events }

/-- Turns one after another. -/
def Turns : Engine → Engine → Prop := Relation.ReflTransGen Turn

/-- The messages that an operation carries out. -/
def messages (engine : Engine) : Operation → List Message
  | .beginBlock | .takeMessages => engine.pending
  | .apply message => [message]
  | .clearDirty => [.clearDirty]
  | _ => []

variable {engine before after : Engine}

/-- The settings, what is published of them and the mark for edits are the same. -/
structure SameEdits (before after : Engine) : Prop where
  settings : before.SameSettings after
  ratios : after.published.ratios = before.published.ratios
  isDirty : after.published.isDirty = before.published.isDirty

/-- No turn changes a setting, unless a rule learns its input. -/
theorem Turn.sameEdits_or_learns (h : Turn before after) : SameEdits before after
    ∨ ∃ controller value i, (before.rule i).input = .learn ∧ after = before.withInput controller value i := by
  cases h with
  | stroke hstroke =>
      cases hstroke with
      | start time channel note velocity =>
          rw [startNote_eq]
          exact .inl ⟨fun _ => rfl, rfl, rfl⟩
      | stop time channel note velocity =>
          rw [stopNote_eq]
          exact .inl ⟨fun _ => rfl, rfl, rfl⟩
      | input controller value i =>
          by_cases hlearns : (before.rule i).input = .learn
          · exact .inr ⟨controller, value, i, hlearns, rfl⟩
          · have hsame : before.learn i controller = before := if_neg hlearns
            unfold withInput
            rw [hsame]
            exact .inl ⟨fun id => ParameterStore.get_modifyRule_of_get _ (fun _ => rfl) id, rfl, rfl⟩
      | _ => exact .inl ⟨fun _ => rfl, rfl, rfl⟩
  | reset =>
      refine .inl ⟨before.sameSettings_reset, ?_, ?_⟩
      · rw [reset_eq]
        rfl
      · rw [reset_eq]
        rfl
  | _ => exact .inl ⟨fun _ => rfl, rfl, rfl⟩

theorem Strokes.turns (h : Strokes engine after) : Turns engine after :=
  Relation.ReflTransGen.mono (fun _ _ => Turn.stroke) _ _ h

/-- Messages do not look at the messages that wait. -/
theorem apply_withPending (engine : Engine) (pending : List Message) (message : Message) :
    apply { engine with pending } message = { engine.apply message with pending } := by
  cases message with
  | setParameter id ratio =>
      by_cases h : ((engine.parameters.modify id (·.setRatio ratio)).get id).value = (engine.parameters.get id).value <;>
        simp [apply, setParameter, publish, markDirty, h]
  | clear => cases h : engine.parameters.differs engine.parameters.reset <;> simp [apply, clearParameters, markDirty, h]
  | refresh id => rfl
  | clearDirty => rfl

theorem foldl_apply_withPending (engine : Engine) (pending : List Message) (messages : List Message) :
    messages.foldl apply { engine with pending } = { messages.foldl apply engine with pending } := by
  induction messages generalizing engine with
  | nil => rfl
  | cons message messages ih => rw [List.foldl_cons, apply_withPending, ih, List.foldl_cons]

theorem takeMessages_turns (engine : Engine) : Turns (engine.pending.foldl apply engine) engine.takeMessages := by
  have htake : engine.takeMessages = { engine.pending.foldl apply engine with pending := [] } :=
    engine.foldl_apply_withPending [] engine.pending
  rw [htake]
  exact .single (.queue [])

theorem openBlock_turns (engine : Engine) : Turns engine engine.openBlock := by
  rw [openBlock_eq]
  split
  · exact .tail (.single .reset) (.mode engine.reset.isSuspended false engine.reset.events)
  · split
    · exact .single (.mode engine.isSuspended false engine.events)
    · exact .single (.mode engine.isSuspended engine.hasReset #[])

theorem perform_turns (engine : Engine) (operation : Operation) :
    Turns ((engine.messages operation).foldl apply engine) (engine.perform operation) := by
  cases operation with
  | beginBlock =>
      have htold : Turns engine.takeMessages engine.told := .single (.stroke (.recent _))
      exact (engine.takeMessages_turns.trans htold).trans engine.told.openBlock_turns
  | call time call => exact (engine.receive_strokes time call).turns
  | bytes time bytes => exact (engine.receiveBytes_strokes time bytes).turns
  | apply message => exact .refl
  | post message =>
      show Turns engine (engine.offer message)
      rw [offer_eq]
      split
      · exact .single (.queue _)
      · exact .refl
  | takeMessages => exact engine.takeMessages_turns
  | reset => exact .single .reset
  | suspend => exact .single (.mode true engine.hasReset engine.events)
  | resume => exact .tail (.single (.mode false engine.hasReset engine.events)) .reset
  | clearDirty => exact .refl

/-- What every turn and every message preserves, every operation preserves. -/
theorem perform_induction {P : Engine → Prop}
    (hturn : ∀ {before after : Engine}, Turn before after → P before → P after)
    (happly : ∀ (engine : Engine) (message : Message), P engine → P (engine.apply message))
    (h : P engine) (operation : Operation) : P (engine.perform operation) := by
  have htold : P ((engine.messages operation).foldl apply engine) :=
    List.foldlRecOn _ apply (motive := P) h fun e he message _ => happly e message he
  exact preserve_of_step (engine.perform_turns operation) hturn htold

/-- So it is true of all engines if it is true of the new ones. -/
theorem Reachable.induction {P : Engine → Prop}
    (hcreate : ∀ {config : Configuration} {engine : Engine}, Engine.create config = .ok engine → P engine)
    (hturn : ∀ {before after : Engine}, Turn before after → P before → P after)
    (happly : ∀ (engine : Engine) (message : Message), P engine → P (engine.apply message))
    (h : Reachable engine) : P engine := by
  induction h with
  | create h => exact hcreate h
  | perform _ operation ih => exact perform_induction hturn happly ih operation

end Engine

end PolyExpression
