import PolyExpression.Proofs.Strokes

/-!
What comes in leaves some things alone: how the engine is configured, the messages that wait, the layout, whether
the engine is suspended and whether its output belongs to a reset. Main statement: so it is for every decoded
message and all bytes.
-/

namespace PolyExpression

namespace Engine

/-- Only what notes and controllers act on differs. -/
structure SameMode (before after : Engine) : Prop where
  config : after.config = before.config
  pending : after.pending = before.pending
  layout : after.layout = before.layout
  isSuspended : after.isSuspended = before.isSuspended
  hasReset : after.hasReset = before.hasReset

namespace SameMode

theorem refl (engine : Engine) : SameMode engine engine := ⟨rfl, rfl, rfl, rfl, rfl⟩

theorem trans {first second third : Engine} (h : SameMode first second) (h' : SameMode second third) :
    SameMode first third where
  config := h'.config.trans h.config
  pending := h'.pending.trans h.pending
  layout := h'.layout.trans h.layout
  isSuspended := h'.isSuspended.trans h.isSuspended
  hasReset := h'.hasReset.trans h.hasReset

end SameMode

theorem Stroke.sameMode {before after : Engine} (h : Stroke before after) : SameMode before after := by
  cases h with
  | start time channel note velocity =>
      rw [startNote_eq]
      exact ⟨rfl, rfl, rfl, rfl, rfl⟩
  | stop time channel note velocity =>
      rw [stopNote_eq]
      exact ⟨rfl, rfl, rfl, rfl, rfl⟩
  | input controller value i =>
      obtain ⟨parameters, published, hinput⟩ := before.withInput_frame controller value i
      rw [hinput]
      exact ⟨rfl, rfl, rfl, rfl, rfl⟩
  | _ => exact ⟨rfl, rfl, rfl, rfl, rfl⟩

theorem Strokes.sameMode {before after : Engine} (h : Strokes before after) : SameMode before after :=
  preserve_of_step (P := SameMode before) h (fun hstroke hbefore => hbefore.trans hstroke.sameMode) (.refl before)

variable (engine : Engine) (time : Float)

theorem sameMode_releaseNote (note : Note) (velocity : UInt8) :
    SameMode engine (engine.releaseNote time note velocity) :=
  (engine.releaseNote_strokes time note velocity).sameMode

/-- Controllers that come in change what the rules remember, and the parameters of rules that learn. -/
theorem route_frame (controller : ControllerId) (value : Float) : ∃ parameters published events,
    engine.route time controller value = { engine with parameters, published, events } := by
  unfold route
  dsimp only
  split
  · rw [sendController_eq]
    exact ⟨_, _, _, rfl⟩
  · refine List.foldlRecOn _ _ (motive := fun e => ∃ parameters published events,
      e = { engine with parameters, published, events })
      ⟨engine.parameters, engine.published, engine.events, rfl⟩ ?_
    rintro _ ⟨parameters, published, events, rfl⟩ i -
    obtain ⟨parameters, published, hinput⟩ :=
      withInput_frame { engine with parameters, published, events } controller value i
    rw [routeRule_eq, hinput]
    exact ⟨_, _, _, rfl⟩

theorem sameMode_receive (call : Midi.Call) : SameMode engine (engine.receive time call) :=
  (engine.receive_strokes time call).sameMode

theorem sameMode_receiveBytes (bytes : List UInt8) : SameMode engine (engine.receiveBytes time bytes) :=
  (engine.receiveBytes_strokes time bytes).sameMode

/-! ### The start of a block -/

/-- The engine at the start of a block when its messages have acted. -/
def told (engine : Engine) : Engine := { engine.takeMessages with recent := Vector.replicate 124 .never }

theorem told_eq (engine : Engine) : ∃ parameters published recent,
    engine.told = { engine with parameters, published, pending := [], recent } := by
  obtain ⟨parameters, published, htake⟩ := engine.takeMessages_eq
  unfold told
  rw [htake]
  exact ⟨_, _, _, rfl⟩

theorem beginBlock_eq_openBlock (engine : Engine) : engine.beginBlock = engine.told.openBlock := rfl

/-- Whether the start of a block, once its messages have acted, brings a new layout into force. -/
def changesLayout (engine : Engine) : Bool := !engine.isSuspended && engine.isLayoutStale

/-- Whether the start of a block, once its messages have acted, leaves the output as it is: it belongs to a reset,
and the engine neither is suspended nor changes its layout. -/
def keepsOutput (engine : Engine) : Bool :=
  !engine.isSuspended && !engine.isLayoutStale && engine.hasReset

variable {engine}

theorem changesLayout_told_iff : engine.told.changesLayout = true ↔
    engine.isSuspended = false ∧ engine.takeMessages.isLayoutStale = true := by
  have hstale : engine.told.isLayoutStale = engine.takeMessages.isLayoutStale := rfl
  have hsuspended : engine.told.isSuspended = engine.isSuspended := by
    obtain ⟨parameters, published, recent, htold⟩ := engine.told_eq
    rw [htold]
  unfold changesLayout
  rw [hstale, hsuspended, Bool.and_eq_true, Bool.not_eq_true']

theorem keepsOutput_told_iff : engine.told.keepsOutput = true ↔
    engine.isSuspended = false ∧ engine.takeMessages.isLayoutStale = false ∧ engine.hasReset = true := by
  have hstale : engine.told.isLayoutStale = engine.takeMessages.isLayoutStale := rfl
  obtain ⟨parameters, published, recent, htold⟩ := engine.told_eq
  unfold keepsOutput
  rw [hstale, htold, Bool.and_eq_true, Bool.and_eq_true, Bool.not_eq_true', Bool.not_eq_true', and_assoc]

/-- At the start of a block the engine starts over if it changes its layout; otherwise only its output is kept or
emptied. -/
theorem openBlock_eq (engine : Engine) : engine.openBlock =
    if engine.changesLayout then { engine.reset with hasReset := false }
    else if engine.keepsOutput then { engine with hasReset := false }
    else engine.clearEvents := by
  by_cases hsuspended : engine.isSuspended = true
  · have hchanges : engine.changesLayout = false := by simp [changesLayout, hsuspended]
    have hkeeps : engine.keepsOutput = false := by simp [keepsOutput, hsuspended]
    rw [openBlock_of_isSuspended hsuspended, hchanges, hkeeps]
    rfl
  · have hactive : engine.isSuspended = false := Bool.eq_false_iff.mpr hsuspended
    by_cases hstale : engine.isLayoutStale = true
    · have hchanges : engine.changesLayout = true := by simp [changesLayout, hactive, hstale]
      have happly : engine.reset = engine.applyLayout := if_pos hstale
      rw [openBlock_of_isLayoutStale hactive hstale, hchanges, if_pos rfl, happly]
    · have hcurrent : engine.isLayoutStale = false := Bool.eq_false_iff.mpr hstale
      have hchanges : engine.changesLayout = false := by simp [changesLayout, hcurrent]
      have hkeeps : engine.keepsOutput = engine.hasReset := by simp [keepsOutput, hactive, hcurrent]
      rw [openBlock_of_current hactive hcurrent, hchanges, hkeeps]
      rfl

end Engine

end PolyExpression
