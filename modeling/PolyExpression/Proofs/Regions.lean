import Mathlib.Order.Fin.Basic
import Mathlib.Order.MinMax
import PolyExpression.Proofs.Operations

/-!
The regions of the keyboard. The notes below the anchor and those from it on have stacks of their own, and
the channels of the notes with a role are kept, so that nothing has to be searched for when a controller moves.
Main statement: in every engine that operations lead to both agree with the stack of all held notes.
-/

namespace PolyExpression

/-- The note with a role among notes that are listed newest first. -/
def Role.among (notes : List Note) : Role → Option Note
  | .lowest => notes.min?
  | .highest => notes.max?
  | .oldest => notes.getLast?
  | .newest => notes.head?

theorem first?_upward (notes : List Note) : first? upward notes = notes.min? := by
  cases hfirst : first? upward notes with
  | none =>
      rw [first?_eq_none_iff.mp hfirst]
      rfl
  | some note =>
      obtain ⟨hmem, hall⟩ := isOrder_upward.first?_eq_some_iff.mp hfirst
      have hleast : ∀ other ∈ notes, note ≤ other := fun other hother => of_decide_eq_true (hall other hother)
      exact (List.min?_eq_some_iff.mpr ⟨hmem, hleast⟩).symm

theorem first?_downward (notes : List Note) : first? downward notes = notes.max? := by
  cases hfirst : first? downward notes with
  | none =>
      rw [first?_eq_none_iff.mp hfirst]
      rfl
  | some note =>
      obtain ⟨hmem, hall⟩ := isOrder_downward.first?_eq_some_iff.mp hfirst
      have hgreatest : ∀ other ∈ notes, other ≤ note := fun other hother => of_decide_eq_true (hall other hother)
      exact (List.max?_eq_some_iff.mpr ⟨hmem, hgreatest⟩).symm

theorem NoteStack.withRole?_eq (stack : NoteStack) (role : Role) :
    stack.withRole? role = role.among stack.notes := by
  cases role with
  | lowest => exact stack.lowest?_eq.trans (first?_upward stack.notes)
  | highest => exact stack.highest?_eq.trans (first?_downward stack.notes)
  | oldest => rfl
  | newest => rfl

theorem ZoneLayout.not_isAbove (layout : ZoneLayout) (note : Note) :
    (!layout.isAbove note) = decide (note < layout.anchor) := by
  have hside : (!layout.isAbove note) = decide (¬layout.anchor ≤ note) := (decide_not ..).symm
  rw [hside, decide_eq_decide, not_le]

namespace Engine

variable {engine : Engine}

/-- The stacks of the regions and the channels kept for the roles are what the stack of all held notes makes
them. -/
structure RegionsAgree (engine : Engine) : Prop where
  below : engine.voices.below.notes = engine.voices.held.notes.filter (· < engine.layout.anchor)
  above : engine.voices.above.notes = engine.voices.held.notes.filter (engine.layout.anchor ≤ ·)
  /-- In an empty region no note has a role, and no channel is kept for one. -/
  roles : ∀ region role, engine.voices.roles.channel? region role =
    (role.among (engine.voices.stack region).notes).map engine.voices.channelOf

/-- Whatever sequence of operations made it, the side stacks of an engine list the held notes of their sides, newest
first, under the anchor in use, and each role's channel is that of the note which has the role now. -/
theorem regions_agree (h : Reachable engine) : engine.RegionsAgree := by
  have hcoherent : engine.voices.Coherent engine.layout := h.balanced.coherent
  refine ⟨?_, ?_, fun region role => ?_⟩
  · rw [hcoherent.below]
    exact List.filter_congr fun note _ => engine.layout.not_isAbove note
  · rw [hcoherent.above]
    exact List.filter_congr fun note _ => rfl
  · rw [hcoherent.channel?_eq, NoteStack.withRole?_eq]

/-- Notes start on both sides of the anchor, one of them gives its channel to another one, the anchor is edited, and
one note ends before the edit comes into force. -/
def bothSides : List Operation :=
  [.apply (.setParameter (.zone .members) 0.1), .beginBlock, .call 0.0 (.noteOn 0 50 100),
    .call 0.0 (.noteOn 0 70 100), .call 0.0 (.noteOn 0 40 100), .apply (.setParameter (.zone .anchor) 0.0),
    .call 0.0 (.noteOn 0 60 100)]

theorem regions_agree_bothSides : Reachable (standard.run bothSides)
    ∧ (standard.run bothSides).layout.anchor = 60
    ∧ (standard.run bothSides).voices.held.notes = [60, 40]
    ∧ (standard.run bothSides).voices.below.notes = [40]
    ∧ (standard.run bothSides).RegionsAgree :=
  ⟨reachable_standard.run bothSides, by decide +kernel, by decide +kernel, by decide +kernel,
    regions_agree (reachable_standard.run bothSides)⟩

end Engine

end PolyExpression
