import PolyExpression.Proofs.Forgetting
import PolyExpression.Proofs.Fractions

/-!
What other threads see of the engine. Every change of a parameter, of the held notes or of the zone is published, and
nothing else is. Main statements: in every engine that operations lead to, the published fractions are those of the
parameters, and each parameter has its own range and the integer that its fraction stands for; and the published counts
are those of the held notes and of the zone's members.
-/

namespace PolyExpression

/-! ### Publishing -/

namespace Published

theorem ratioOf_setRatio (published : Published) (a b : ParameterId) (ratio : Float) :
    (published.setRatio a ratio).ratioOf b = if a = b then ratio else published.ratioOf b := by
  unfold ratioOf setRatio
  by_cases h : a = b
  · subst h
    simp
  · have hne : a.number.val ≠ b.number.val := fun heq => h (ParameterId.number_injective (Fin.ext heq))
    simp [h, hne]

theorem ratioOf_setAll (published : Published) (store : ParameterStore) (id : ParameterId) :
    (published.setAll store).ratioOf id = (store.get id).ratio := by
  unfold ratioOf setAll
  rw [Fin.getElem_fin, Vector.getElem_ofFn]
  exact congrArg (fun id => (store.get id).ratio) (ParameterId.ofNumber_number id)

end Published

namespace Engine

/-- Other threads see every parameter as it is, and each parameter is one of its range. -/
structure Faithful (engine : Engine) : Prop where
  ratioOf : ∀ id, engine.published.ratioOf id = (engine.parameters.get id).ratio
  range : ∀ id, (engine.parameters.get id).range = id.range
  isConsistent : ∀ id, (engine.parameters.get id).IsConsistent

variable {engine after : Engine}

theorem Faithful.of_same (h : engine.Faithful) (hratios : after.published.ratios = engine.published.ratios)
    (hsettings : engine.SameSettings after) : after.Faithful where
  ratioOf id := by
    have hratio : after.published.ratioOf id = engine.published.ratioOf id := by
      unfold Published.ratioOf
      rw [hratios]
    rw [hratio, hsettings id, h.ratioOf]
  range id := by rw [hsettings id, h.range]
  isConsistent id := by
    rw [hsettings id]
    exact h.isConsistent id

/-- Other threads see the fraction of every parameter as it is. -/
def Mirrored (engine : Engine) : Prop := ∀ id, engine.published.ratioOf id = (engine.parameters.get id).ratio

/-- A change of one parameter that is published. -/
theorem Mirrored.modify (h : engine.Mirrored) (id : ParameterId) (f : Parameter → Parameter) :
    Mirrored ({ engine with parameters := engine.parameters.modify id f }.publish id) := by
  intro other
  show (engine.published.setRatio id ((engine.parameters.modify id f).get id).ratio).ratioOf other =
    ((engine.parameters.modify id f).get other).ratio
  rw [Published.ratioOf_setRatio, h other]
  by_cases hsame : id = other
  · rw [if_pos hsame, hsame]
  · rw [if_neg hsame, ParameterStore.get_modify, if_neg hsame]

theorem Faithful.modify (h : engine.Faithful) (id : ParameterId) {f : Parameter → Parameter}
    (hf : ∀ parameter, parameter.range = id.range → (f parameter).range = id.range ∧ (f parameter).IsConsistent) :
    Faithful ({ engine with parameters := engine.parameters.modify id f }.publish id) := by
  obtain ⟨hrange, hconsistent⟩ := hf _ (h.range id)
  have hget (other : ParameterId) := engine.parameters.get_modify id other f
  refine ⟨Mirrored.modify h.ratioOf id f, fun other => ?_, fun other => ?_⟩
  · show ((engine.parameters.modify id f).get other).range = _
    rw [hget]
    by_cases hsame : id = other
    · rw [if_pos hsame, ← hsame, hrange]
    · rw [if_neg hsame, h.range]
  · show ((engine.parameters.modify id f).get other).IsConsistent
    rw [hget]
    by_cases hsame : id = other
    · rw [if_pos hsame, ← hsame]
      exact hconsistent
    · rw [if_neg hsame]
      exact h.isConsistent other

theorem Faithful.markDirty (h : engine.Faithful) : engine.markDirty.Faithful := ⟨h.ratioOf, h.range, h.isConsistent⟩

/-! ### Messages -/

theorem Mirrored.setParameter (h : engine.Mirrored) (id : ParameterId) (ratio : Float) :
    (engine.setParameter id ratio).Mirrored := by
  have hedited := h.modify id (·.setRatio ratio)
  unfold Engine.setParameter
  dsimp only
  split
  · exact hedited
  · exact hedited

theorem Faithful.setParameter (h : engine.Faithful) (id : ParameterId) (ratio : Float) :
    (engine.setParameter id ratio).Faithful := by
  have hedited := h.modify id (f := (·.setRatio ratio)) fun parameter hrange =>
    ⟨hrange, parameter.isConsistent_setRatio ratio⟩
  unfold Engine.setParameter
  dsimp only
  split
  · exact hedited
  · exact hedited.markDirty

theorem width_lt (id : ParameterId) : id.range.width < 2 ^ 50 := id.width_range.2.trans_lt (by norm_num)

/-- Whatever other threads saw, they see every parameter as it is once all are back at their initial values. -/
theorem mirrored_clearParameters (engine : Engine) : engine.clearParameters.Mirrored := by
  intro id
  have hall := Published.ratioOf_setAll engine.published engine.parameters.reset id
  unfold Engine.clearParameters
  dsimp only
  split
  · exact hall
  · exact hall

theorem Faithful.clearParameters (h : engine.Faithful) : engine.clearParameters.Faithful := by
  have hget (id : ParameterId) : engine.clearParameters.parameters.get id = .ofRange id.range := by
    have hreset : engine.clearParameters.parameters = engine.parameters.reset := parameters_apply engine .clear
    rw [hreset, ParameterStore.get_reset, h.range]
  refine ⟨engine.mirrored_clearParameters, fun id => ?_, fun id => ?_⟩
  · rw [hget]
    rfl
  · rw [hget]
    exact Parameter.isConsistent_ofRange (width_lt id)

theorem Faithful.apply (h : engine.Faithful) (message : Message) : (engine.apply message).Faithful := by
  cases message with
  | setParameter id ratio => exact h.setParameter id ratio
  | refresh id =>
      refine ⟨fun other => ?_, h.range, h.isConsistent⟩
      show (engine.published.setRatio id (engine.parameters.get id).ratio).ratioOf other = _
      rw [Published.ratioOf_setRatio, h.ratioOf]
      by_cases hsame : id = other
      · rw [if_pos hsame, hsame]
        rfl
      · rw [if_neg hsame]
        rfl
  | clear => exact h.clearParameters
  | clearDirty => exact ⟨h.ratioOf, h.range, h.isConsistent⟩

/-! ### Turns -/

theorem Faithful.learn (h : engine.Faithful) (i : RuleIndex) (controller : ControllerId) :
    (engine.learn i controller).Faithful := by
  have hlearned := h.modify (.rule i .input) (f := fun input => input.set controller.index.val) fun parameter hrange =>
    ⟨hrange, parameter.isConsistent_set (hrange ▸ width_lt _) _⟩
  unfold Engine.learn
  split
  · exact hlearned.markDirty
  · exact h

theorem Faithful.turn (h : engine.Faithful) (hturn : Turn engine after) : after.Faithful := by
  obtain hsame | ⟨controller, value, i, -, rfl⟩ := hturn.sameEdits_or_learns
  · exact h.of_same hsame.ratios hsame.settings
  · exact (h.learn i controller).of_same rfl fun id => ParameterStore.get_modifyRule_of_get _ (fun _ => rfl) id

theorem faithful_of_create {config : Configuration} (h : create config = .ok engine) : engine.Faithful := by
  obtain ⟨config, rfl⟩ := create_frame h
  refine ⟨fun id => ?_, fun id => ?_, fun id => ?_⟩
  · exact Published.ratioOf_setAll _ _ id
  · exact congrArg Parameter.range (ParameterStore.get_initial id)
  · show (ParameterStore.initial.get id).IsConsistent
    rw [ParameterStore.get_initial]
    exact Parameter.isConsistent_ofRange (width_lt id)

/-- Whatever an engine does, other threads see its parameters as they are. -/
theorem Reachable.faithful (h : Reachable engine) : engine.Faithful :=
  h.induction faithful_of_create (fun hturn he => he.turn hturn) fun _ message he => he.apply message

/-! ### Counts -/

/-- Other threads see as many voices as notes are held, and as many channels as the zone has members. -/
structure Counted (engine : Engine) : Prop where
  activeVoices : engine.published.activeVoices = engine.voices.held.notes.length
  channelCount : engine.published.channelCount = engine.layout.zone.memberCount

/-- No count is published, and neither the held notes nor the zone change. -/
theorem Counted.of_same (h : engine.Counted) (hactive : after.published.activeVoices = engine.published.activeVoices)
    (hchannels : after.published.channelCount = engine.published.channelCount)
    (hvoices : after.voices = engine.voices) (hlayout : after.layout = engine.layout) : after.Counted where
  activeVoices := by rw [hactive, hvoices, h.activeVoices]
  channelCount := by rw [hchannels, hlayout, h.channelCount]

theorem Counted.markDirty (h : engine.Counted) : engine.markDirty.Counted := h.of_same rfl rfl rfl rfl

theorem Counted.apply (h : engine.Counted) (message : Message) : (engine.apply message).Counted := by
  cases message with
  | setParameter id ratio =>
      unfold Engine.apply Engine.setParameter
      dsimp only
      split
      · exact h.of_same rfl rfl rfl rfl
      · exact h.of_same rfl rfl rfl rfl
  | refresh id => exact h.of_same rfl rfl rfl rfl
  | clear =>
      have hcleared : Counted { engine with
          parameters := engine.parameters.reset
          published := engine.published.setAll engine.parameters.reset } :=
        h.of_same (Published.activeVoices_setAll ..) (Published.channelCount_setAll ..) rfl rfl
      unfold Engine.apply Engine.clearParameters
      dsimp only
      split
      · exact hcleared.markDirty
      · exact hcleared
  | clearDirty => exact h.of_same rfl rfl rfl rfl

theorem Counted.stroke (h : engine.Counted) (hstroke : Stroke engine after) : after.Counted := by
  cases hstroke with
  | start time channel note velocity =>
      rw [startNote_eq]
      exact ⟨rfl, h.channelCount⟩
  | stop time channel note velocity =>
      rw [stopNote_eq]
      exact ⟨rfl, h.channelCount⟩
  | input controller value i =>
      unfold withInput Engine.learn
      split
      · exact h.of_same rfl rfl rfl rfl
      · exact h.of_same rfl rfl rfl rfl
  | _ => exact h.of_same rfl rfl rfl rfl

/-- A reset leaves no note and the zone that it publishes. -/
theorem Counted.reset (h : engine.Counted) : engine.reset.Counted where
  activeVoices := by
    rw [activeVoices_reset, voices_reset]
    rfl
  channelCount := by
    have hpublished : engine.reset.published.channelCount =
        if engine.isLayoutStale then engine.wantedLayout.zone.memberCount else engine.published.channelCount := by
      rw [reset_eq]
      rfl
    rw [hpublished, layout_reset]
    split
    · rfl
    · -- The layout stays, and with it the count that was published.
      rename_i hcurrent
      have hlayout : engine.wantedLayout = engine.layout :=
        of_decide_eq_true (by simpa [isLayoutStale] using hcurrent)
      rw [hlayout, h.channelCount]

theorem Counted.turn (h : engine.Counted) (hturn : Turn engine after) : after.Counted := by
  cases hturn with
  | stroke hstroke => exact h.stroke hstroke
  | reset => exact h.reset
  | _ => exact h.of_same rfl rfl rfl rfl

theorem counted_of_create {config : Configuration} (h : create config = .ok engine) : engine.Counted := by
  obtain ⟨config, rfl⟩ := create_frame h
  refine ⟨rfl, ?_⟩
  show ParameterStore.initial.members = max 1 (min ParameterStore.initial.members memberMax)
  unfold ParameterStore.members
  omega

theorem Reachable.counted (h : Reachable engine) : engine.Counted :=
  h.induction counted_of_create (fun hturn he => he.turn hturn) fun _ message he => he.apply message

/-- Whatever an engine does, what other threads see of it is exact: the fraction of every parameter, how many notes
are held, and how many members the zone has. -/
theorem published_exact (h : Reachable engine) :
    (∀ id, engine.published.ratioOf id = (engine.parameters.get id).ratio)
      ∧ engine.published.activeVoices = engine.voices.held.notes.length
      ∧ engine.published.channelCount = engine.layout.zone.memberCount :=
  ⟨h.faithful.ratioOf, h.counted.activeVoices, h.counted.channelCount⟩

/-- Edits at once and through the queue, a smaller zone, a rule that learns its input, notes, and a suspension in which
an edit still acts. -/
def editsAndLearning : List Operation :=
  [.apply (.setParameter (.rule ⟨1, by decide⟩ .level) 0.3), .apply .clear, .post (.setParameter (.zone .members) 0.2),
    .apply (.setParameter (.rule ⟨1, by decide⟩ .input) 0.992), .beginBlock, .call 0.0 (.controlChange 0 20 100),
    .call 0.0 (.noteOn 0 60 100), .call 0.0 (.noteOn 0 64 90), .suspend,
    .post (.setParameter (.rule ⟨1, by decide⟩ .midpoint) 0.7), .beginBlock]

theorem published_exact_editsAndLearning : Reachable (standard.run editsAndLearning)
    ∧ ((standard.run editsAndLearning).parameters.get (.rule ⟨1, by decide⟩ .input)).value = 20
    ∧ (standard.run editsAndLearning).voices.held.notes.length = 2
    ∧ (standard.run editsAndLearning).layout.zone.memberCount = 4
    ∧ (∀ id, (standard.run editsAndLearning).published.ratioOf id =
        ((standard.run editsAndLearning).parameters.get id).ratio)
    ∧ (standard.run editsAndLearning).published.activeVoices =
      (standard.run editsAndLearning).voices.held.notes.length
    ∧ (standard.run editsAndLearning).published.channelCount =
      (standard.run editsAndLearning).layout.zone.memberCount := by
  have hreachable : Reachable (standard.run editsAndLearning) := reachable_standard.run editsAndLearning
  exact ⟨hreachable, by decide +kernel, by decide +kernel, by decide +kernel, published_exact hreachable⟩

end Engine

end PolyExpression
