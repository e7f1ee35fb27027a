import PolyExpression.Proofs.Turns

/-!
What the mark of an edited engine is worth. Whatever changes the integer of a parameter sets the mark, and only the
message `clearDirty` takes it off. Main statement: so while the mark is off, every parameter has the integer that it
had when the mark was last taken off.
-/

namespace PolyExpression

namespace Engine

variable {engine before after : Engine}

/-! ### Steps that mark what they change -/

/-- If the mark is off after a step, it was off before, and the step changed no integer. -/
def MarksEdits (before after : Engine) : Prop :=
  after.published.isDirty = false → before.published.isDirty = false
    ∧ ∀ id, (after.parameters.get id).value = (before.parameters.get id).value

namespace MarksEdits

theorem refl (engine : Engine) : MarksEdits engine engine := fun hclean => ⟨hclean, fun _ => rfl⟩

theorem trans {first second third : Engine} (h : MarksEdits first second) (h' : MarksEdits second third) :
    MarksEdits first third := by
  intro hclean
  obtain ⟨hsecond, hlater⟩ := h' hclean
  obtain ⟨hfirst, hearlier⟩ := h hsecond
  exact ⟨hfirst, fun id => (hlater id).trans (hearlier id)⟩

theorem of_same (h : SameEdits before after) : MarksEdits before after := by
  intro hclean
  rw [h.isDirty] at hclean
  exact ⟨hclean, fun id => by rw [h.settings id]⟩

/-- A step that sets the mark may change anything. -/
theorem of_isDirty (hdirty : after.published.isDirty = true) : MarksEdits before after := by
  intro hclean
  rw [hdirty] at hclean
  cases hclean

end MarksEdits

theorem Turn.marksEdits (h : Turn before after) : MarksEdits before after := by
  obtain hsame | ⟨controller, value, i, hlearns, rfl⟩ := h.sameEdits_or_learns
  · exact .of_same hsame
  · have hdirty : (before.withInput controller value i).published.isDirty = true := by
      simp [withInput, learn, hlearns, modifyRule, markDirty]
    exact .of_isDirty hdirty

theorem Turns.marksEdits (h : Turns before after) : MarksEdits before after :=
  preserve_of_step (P := MarksEdits before) h (fun hturn hbefore => hbefore.trans hturn.marksEdits) (.refl before)

/-! ### Messages -/

theorem setParameter_marksEdits (engine : Engine) (id : ParameterId) (ratio : Float) :
    MarksEdits engine (engine.setParameter id ratio) := by
  have hget (other : ParameterId) := engine.parameters.get_modify id other (·.setRatio ratio)
  unfold setParameter
  dsimp only
  split
  · rename_i hvalue
    intro hclean
    refine ⟨hclean, fun other => ?_⟩
    by_cases hother : id = other
    · subst hother
      exact hvalue
    · have hkept : (engine.parameters.modify id (·.setRatio ratio)).get other = engine.parameters.get other := by
        rw [hget, if_neg hother]
      exact congrArg Parameter.value hkept
  · exact .of_isDirty rfl

/-- Going back to the initial values sets the mark if some integer is another one. -/
theorem clearParameters_marksEdits (engine : Engine) : MarksEdits engine engine.clearParameters := by
  unfold clearParameters
  dsimp only
  split
  · exact .of_isDirty rfl
  · rename_i hsame
    intro hclean
    refine ⟨(Published.isDirty_setAll ..).symm.trans hclean, fun id => ?_⟩
    have hagree : ∀ id ∈ ParameterId.all,
        (engine.parameters.get id).value = (engine.parameters.reset.get id).value := by
      simpa [ParameterStore.differs] using hsame
    exact (hagree id id.mem_all).symm

theorem apply_marksEdits (engine : Engine) {message : Message} (h : message ≠ .clearDirty) :
    MarksEdits engine (engine.apply message) := by
  cases message with
  | setParameter id ratio => exact engine.setParameter_marksEdits id ratio
  | refresh id => exact fun hclean => ⟨hclean, fun _ => rfl⟩
  | clear => exact engine.clearParameters_marksEdits
  | clearDirty => exact absurd rfl h

/-! ### Since the mark was taken off -/

/-- The engine once a message has taken the mark off, if it does. -/
def clearing (engine : Engine) : Message → List Engine
  | .clearDirty => [engine.clearDirty]
  | _ => []

/-- The engine at each moment at which one of some messages takes the mark off. -/
def clearingsBy (engine : Engine) : List Message → List Engine
  | [] => []
  | message :: messages => engine.clearing message ++ (engine.apply message).clearingsBy messages

/-- The engine at each moment of a run at which the mark is taken off, by the host or by a message that waited. -/
def clearings (engine : Engine) : List Operation → List Engine
  | [] => []
  | operation :: operations =>
      engine.clearingsBy (engine.messages operation) ++ (engine.perform operation).clearings operations

/-- The last of two lists one after the other. -/
theorem getLastD_append {α : Type} (first second : List α) (none : α) :
    (first ++ second).getLastD none = second.getLastD (first.getLastD none) := by
  simp [List.getLastD_eq_getLast?, List.getLast?_append]

namespace MarksEdits

variable {origin : Engine}

theorem apply (h : MarksEdits origin engine) (message : Message) :
    MarksEdits ((engine.clearing message).getLastD origin) (engine.apply message) := by
  by_cases hclears : message = .clearDirty
  · subst hclears
    exact .refl engine.clearDirty
  · have hnone : engine.clearing message = [] := by
      unfold clearing
      split
      · exact absurd rfl hclears
      · rfl
    rw [hnone]
    exact h.trans (engine.apply_marksEdits hclears)

theorem applyAll (h : MarksEdits origin engine) (messages : List Message) :
    MarksEdits ((engine.clearingsBy messages).getLastD origin) (messages.foldl Engine.apply engine) := by
  induction messages generalizing engine origin with
  | nil => exact h
  | cons message messages ih =>
      rw [clearingsBy, getLastD_append, List.foldl_cons]
      exact ih (h.apply message)

/-- From the last moment at which the mark was taken off, a run marks what it changes. -/
theorem run (h : MarksEdits origin engine) (operations : List Operation) :
    MarksEdits ((engine.clearings operations).getLastD origin) (engine.run operations) := by
  induction operations generalizing engine origin with
  | nil => exact h
  | cons operation operations ih =>
      -- The engine to compare with moves on whenever a message of the operation takes the mark off.
      have htold := h.applyAll (engine.messages operation)
      have hperformed := htold.trans (engine.perform_turns operation).marksEdits
      rw [clearings, getLastD_append]
      exact ih hperformed

end MarksEdits

/-- Nothing but those moments takes the mark off. -/
theorem isDirty_run_of_clearings_eq_nil {operations : List Operation} (h : engine.clearings operations = [])
    (hdirty : engine.published.isDirty = true) : (engine.run operations).published.isDirty = true := by
  have hmarks := (MarksEdits.refl engine).run operations
  rw [h] at hmarks
  by_contra hoff
  have hclean : engine.published.isDirty = false := (hmarks (Bool.eq_false_iff.mpr hoff)).1
  rw [hdirty] at hclean
  cases hclean

/-- The mark misses no edit: if it is off after a run, every parameter has the integer that it had when the mark was
last taken off, or at the start if it never was. -/
theorem value_of_not_isDirty (engine : Engine) (operations : List Operation)
    (hclean : (engine.run operations).published.isDirty = false) (id : ParameterId) :
    ((engine.run operations).parameters.get id).value =
      (((engine.clearings operations).getLastD engine).parameters.get id).value :=
  ((MarksEdits.refl engine).run operations hclean).2 id

/-- The mark is taken off at once and through the queue; the last edit changes a fraction but no integer. -/
def clearedTwice : List Operation :=
  [.apply (.setParameter (.rule ⟨0, by decide⟩ .level) 0.3), .clearDirty, .post (.setParameter (.zone .anchor) 0.4),
    .post .clearDirty, .post (.setParameter (.zone .anchor) 0.401), .beginBlock, .call 0.0 (.noteOn 0 60 100)]

theorem value_of_not_isDirty_clearedTwice : (standard.clearings clearedTwice).length = 2
    ∧ (standard.run clearedTwice).published.isDirty = false
    ∧ ((standard.run clearedTwice).parameters.get (.zone .anchor)).value ≠
      (standard.parameters.get (.zone .anchor)).value
    ∧ ((standard.run clearedTwice).parameters.get (.zone .anchor)).value =
      (((standard.clearings clearedTwice).getLastD standard).parameters.get (.zone .anchor)).value := by
  have hclean : (standard.run clearedTwice).published.isDirty = false := by decide +kernel
  exact ⟨by decide +kernel, hclean, by decide +kernel,
    standard.value_of_not_isDirty clearedTwice hclean (.zone .anchor)⟩

end Engine

end PolyExpression
