import PolyExpression.Proofs.Likeness
import PolyExpression.Proofs.Turns

/-!
A reset erases history. The ranges of parameters never change, so the engine's parameters are known from their
values and ratios; with the same parameters two engines are alike once they have started over and a block has
started. Main statement: from then on they send the same in every run, if raw bytes find the same running status.
-/

namespace PolyExpression

/-! ### Ranges -/

namespace ParameterStore

theorem get_initial (id : ParameterId) : initial.get id = .ofRange id.range := by
  cases id with
  | zone parameter =>
      show (Vector.ofFn fun place => Parameter.ofRange (ParameterId.zone (.ofPlace place)).range)[parameter.place] = _
      rw [Fin.getElem_fin, Vector.getElem_ofFn]
      exact congrArg (fun parameter => Parameter.ofRange (ParameterId.zone parameter).range)
        (ZoneParameter.ofPlace_place parameter)
  | rule i parameter =>
      have hrule : initial.rule i = Rule.initial i := by
        show (Vector.ofFn Rule.initial)[i] = _
        rw [Fin.getElem_fin, Vector.getElem_ofFn]
      show (initial.rule i).get parameter = _
      rw [hrule]
      show (Vector.ofFn fun place => Parameter.ofRange (ParameterId.rule i (.ofPlace place)).range)[parameter.place] = _
      rw [Fin.getElem_fin, Vector.getElem_ofFn]
      exact congrArg (fun parameter => Parameter.ofRange (ParameterId.rule i parameter).range)
        (RuleParameter.ofPlace_place parameter)

/-- Clearing brings every parameter back to its initial value. -/
theorem get_reset (store : ParameterStore) (id : ParameterId) : store.reset.get id = .ofRange (store.get id).range := by
  have hfold (ids : List ParameterId) (s : ParameterStore) :
      (ids.foldl (fun s id => s.modify id Parameter.reset) s).get id =
        if id ∈ ids then .ofRange (s.get id).range else s.get id := by
    induction ids generalizing s with
    | nil => exact (if_neg List.not_mem_nil).symm
    | cons other ids ih =>
        rw [List.foldl_cons, ih, get_modify]
        by_cases hsame : other = id
        · rw [if_pos hsame, if_pos (List.mem_cons.mpr (.inl hsame.symm)), Parameter.reset_eq_ofRange]
          exact ite_self _
        · rw [if_neg hsame]
          by_cases hmem : id ∈ ids
          · rw [if_pos hmem, if_pos (List.mem_cons_of_mem _ hmem)]
          · rw [if_neg hmem, if_neg (List.not_mem_cons_of_ne_of_not_mem (Ne.symm hsame) hmem)]
  exact (hfold _ store).trans (if_pos (ParameterId.mem_all id))

/-- Rules that forget their inputs leave nothing but the parameters. -/
theorem forgetInputs_congr {a b : ParameterStore} (h : ∀ id, b.get id = a.get id) :
    b.forgetInputs (List.finRange ruleCount) = a.forgetInputs (List.finRange ruleCount) := by
  have hrule : ∀ i, (b.rule i).resetLastInput = (a.rule i).resetLastInput := by
    intro i
    have hparameters : (b.rule i).parameters = (a.rule i).parameters := by
      refine Vector.ext fun n hn => ?_
      have hget := h (.rule i (.ofPlace ⟨n, hn⟩))
      simp only [get, Rule.get, RuleParameter.place_ofPlace] at hget
      exact hget
    unfold Rule.resetLastInput Rule.get
    rw [hparameters]
  refine eq_of_rule ?_ fun i => ?_
  · rw [zone_forgetInputs, zone_forgetInputs]
    refine Vector.ext fun n hn => ?_
    have hget := h (.zone (.ofPlace ⟨n, hn⟩))
    simp only [get, ZoneParameter.place_ofPlace] at hget
    exact hget
  · rw [rule_forgetInputs, rule_forgetInputs, if_pos (List.mem_finRange i), if_pos (List.mem_finRange i), hrule]

end ParameterStore

namespace Engine

variable {engine a b : Engine}

theorem range_edit (store : ParameterStore) (message : Message) (id : ParameterId) :
    ((edit store message).get id).range = (store.get id).range := by
  cases message with
  | setParameter other ratio =>
      show ((store.modify other (·.setRatio ratio)).get id).range = _
      rw [ParameterStore.get_modify]
      split
      · rfl
      · rfl
  | clear =>
      show (store.reset.get id).range = _
      rw [ParameterStore.get_reset]
      rfl
  | refresh other => rfl
  | clearDirty => rfl

theorem range_withInput (engine : Engine) (controller : ControllerId) (value : Float) (i : RuleIndex)
    (id : ParameterId) :
    ((engine.withInput controller value i).parameters.get id).range = (engine.parameters.get id).range := by
  rw [get_withInput_eq]
  unfold learn
  split
  · show ((engine.parameters.modify (.rule i .input) fun input => input.set controller.index.val).get id).range = _
    rw [ParameterStore.get_modify]
    split
    · rfl
    · rfl
  · rfl

theorem Turn.range_eq {before after : Engine} (h : Turn before after) (id : ParameterId) :
    (after.parameters.get id).range = (before.parameters.get id).range := by
  obtain hsame | ⟨controller, value, i, -, rfl⟩ := h.sameEdits_or_learns
  · rw [hsame.settings id]
  · exact before.range_withInput controller value i id

theorem range_takeMessages (engine : Engine) (id : ParameterId) :
    (engine.takeMessages.parameters.get id).range = (engine.parameters.get id).range := by
  unfold takeMessages
  refine List.foldlRecOn _ _
    (motive := fun e : Engine => (e.parameters.get id).range = (engine.parameters.get id).range) rfl ?_
  intro e h message _
  rw [parameters_apply, range_edit]
  exact h

/-- Parameters keep the ranges they are made with. -/
theorem Reachable.range (h : Reachable engine) (id : ParameterId) : (engine.parameters.get id).range = id.range := by
  refine h.induction (P := fun e => (e.parameters.get id).range = id.range) ?_ ?_ ?_
  · intro config engine hcreate
    obtain ⟨config, rfl⟩ := create_frame hcreate
    exact congrArg Parameter.range (ParameterStore.get_initial id)
  · intro before after hturn hbefore
    exact (hturn.range_eq id).trans hbefore
  · intro engine message hengine
    rw [parameters_apply, range_edit]
    exact hengine

theorem Reachable.get_congr (ha : Reachable a) (hb : Reachable b) {id : ParameterId}
    (hvalue : (b.parameters.get id).value = (a.parameters.get id).value)
    (hratio : (b.parameters.get id).ratio = (a.parameters.get id).ratio) :
    b.parameters.get id = a.parameters.get id := by
  have hrange := (hb.range id).trans (ha.range id).symm
  generalize a.parameters.get id = p at hvalue hratio hrange
  generalize b.parameters.get id = q at hvalue hratio hrange
  obtain ⟨range, value, ratio⟩ := p
  obtain ⟨range', value', ratio'⟩ := q
  obtain rfl : range' = range := hrange
  obtain rfl : value' = value := hvalue
  obtain rfl : ratio' = ratio := hratio
  rfl

/-! ### Configuration -/

theorem Turn.config_eq {before after : Engine} (h : Turn before after) : after.config = before.config := by
  cases h with
  | stroke hstroke => exact hstroke.sameMode.config
  | reset => exact before.config_reset
  | _ => rfl

/-- Engines keep the configuration they are made with. -/
theorem config_perform (engine : Engine) (operation : Operation) :
    (engine.perform operation).config = engine.config := by
  refine perform_induction (P := fun e => e.config = engine.config) ?_ ?_ rfl operation
  · intro before after hturn hbefore
    exact hturn.config_eq.trans hbefore
  · intro e message he
    obtain ⟨parameters, published, happly⟩ := e.apply_eq message
    rw [happly]
    exact he

theorem config_run (engine : Engine) (operations : List Operation) :
    (engine.run operations).config = engine.config :=
  List.foldlRecOn operations Engine.perform (motive := fun e => e.config = engine.config) rfl
    fun e h operation _ => (e.config_perform operation).trans h

/-! ### Starting over -/

theorem takeMessages_of_pending_eq_nil (h : engine.pending = []) : engine.takeMessages = engine := by
  unfold takeMessages
  rw [h, List.foldl_nil, ← h]

/-- An engine that is resumed and starts a block, apart from its output. -/
theorem clearEvents_beginBlock_resume (h : engine.pending = []) :
    engine.resume.beginBlock.clearEvents =
      { restarted { engine with isSuspended := false, recent := Vector.replicate 124 .never } with
        hasReset := false } := by
  let opened : Engine := { engine with isSuspended := false }
  have hresume : engine.resume = opened.restarted.emitAll (opened.silencing ++ opened.restarted.openings) :=
    opened.reset_eq
  have hpending : engine.resume.pending = [] := opened.pending_reset.trans h
  have htold : engine.resume.told = { engine.resume with recent := Vector.replicate 124 .never } := by
    unfold told
    rw [takeMessages_of_pending_eq_nil hpending]
  have hactive : engine.resume.told.isSuspended = false := by
    rw [htold]
    exact opened.isSuspended_reset
  have hcurrent : engine.resume.told.isLayoutStale = false := by
    rw [htold]
    exact opened.isLayoutStale_reset
  have hhas : engine.resume.told.hasReset = true := by
    rw [htold]
    exact opened.hasReset_reset
  rw [beginBlock_eq_openBlock, openBlock_of_current hactive hcurrent, if_pos hhas, htold, hresume]
  dsimp only [emitAll, clearEvents, restarted, opened]
  rfl

/-- However two engines with the same configuration and the same parameters have been run, after they have been
resumed and have started a block they send the same in every run, if raw bytes find the same running status. -/
theorem transcript_beginBlock_resume (ha : Reachable a) (hb : Reachable b) (hconfig : b.config = a.config)
    (hvalues : ∀ id, (b.parameters.get id).value = (a.parameters.get id).value)
    (hratios : ∀ id, (b.parameters.get id).ratio = (a.parameters.get id).ratio)
    (hpa : a.pending = []) (hpb : b.pending = []) {operations : List Operation}
    (hraw : ∀ operation ∈ operations, operation.isRaw = true → b.runningStatus = a.runningStatus) :
    a.resume.beginBlock.transcript operations = b.resume.beginBlock.transcript operations := by
  have hparameters : ∀ id, b.parameters.get id = a.parameters.get id :=
    fun id => ha.get_congr hb (hvalues id) (hratios id)
  have hrestarted : Alike (b.runningStatus = a.runningStatus)
      (restarted { a with isSuspended := false, recent := Vector.replicate 124 .never })
      (restarted { b with isSuspended := false, recent := Vector.replicate 124 .never }) :=
    alike_restarted hconfig (hpb.trans hpa.symm) rfl rfl (ParameterStore.forgetInputs_congr hparameters) id
  have halike : Alike (b.runningStatus = a.runningStatus) a.resume.beginBlock.clearEvents
      b.resume.beginBlock.clearEvents := by
    rw [clearEvents_beginBlock_resume hpa, clearEvents_beginBlock_resume hpb]
    exact hrestarted.forgetReset
  exact halike.transcript hraw

/-- The running status outlasts a reset. -/
example : (standard.run [.bytes 0.0 [0xB0]]).resume.beginBlock.runningStatus = 0xB0 := by decide +kernel

/-- A note stays held, controllers have moved, and the bytes of a message have broken off. -/
def heldMidMessage : List Operation :=
  [.call 0.0 (.noteOn 0 60 100), .call 0.1 (.noteOn 0 64 90), .call 0.2 (.noteOff 0 60 0),
    .call 0.3 (.controlChange 0 64 127), .call 0.4 (.pitchBend 0 12000), .bytes 0.5 [0xB0, 74]]

/-- Notes that take channels, a pedal that moves, an edit and a reset. -/
def notesAndReset : List Operation :=
  [.call 0.0 (.noteOn 0 60 80), .apply (.setParameter (.zone .holdOnSustain) 1.0),
    .call 0.1 (.controlChange 0 64 127), .call 0.2 (.noteOff 0 60 0), .call 0.3 (.channelPressure 0 40), .reset,
    .call 0.4 (.noteOn 0 61 80)]

theorem transcript_beginBlock_resume_heldMidMessage : Reachable (standard.run heldMidMessage) ∧ Reachable standard
    ∧ (standard.run heldMidMessage).voices.held.notes = [64] ∧ (standard.run heldMidMessage).runningStatus = 0xB0
    ∧ (∀ id, standard.parameters.get id = (standard.run heldMidMessage).parameters.get id)
    ∧ (standard.run heldMidMessage).pending = [] ∧ standard.pending = []
    ∧ (∀ operation ∈ notesAndReset, operation.isRaw = false)
    ∧ ((standard.run heldMidMessage).resume.beginBlock.transcript notesAndReset).countP Midi.Event.isNote = 3
    ∧ (standard.run heldMidMessage).resume.beginBlock.transcript notesAndReset =
      standard.resume.beginBlock.transcript notesAndReset := by
  have hreached : Reachable (standard.run heldMidMessage) := reachable_standard.run heldMidMessage
  have hlearn : ∀ i, (standard.rule i).input ≠ .learn := by decide +kernel
  have hsteady : standard.Steady heldMidMessage :=
    steady_of_not_isBriefing reachable_standard.balanced hlearn (by decide +kernel)
  have hparameters : ∀ id, standard.parameters.get id = (standard.run heldMidMessage).parameters.get id :=
    fun id => (hsteady heldMidMessage List.prefix_rfl id).symm
  have hpending : (standard.run heldMidMessage).pending = [] := List.isEmpty_iff.mp (by decide +kernel)
  have hconfig : standard.config = (standard.run heldMidMessage).config := (standard.config_run heldMidMessage).symm
  have hdecoded : ∀ operation ∈ notesAndReset, operation.isRaw = false := by decide +kernel
  have hsame := transcript_beginBlock_resume hreached reachable_standard hconfig
    (fun id => congrArg Parameter.value (hparameters id)) (fun id => congrArg Parameter.ratio (hparameters id))
    hpending rfl
    fun operation (hoperation : operation ∈ notesAndReset) hraw =>
      absurd ((hdecoded operation hoperation).symm.trans hraw) Bool.false_ne_true
  exact ⟨hreached, reachable_standard, by decide +kernel, by decide +kernel, hparameters, hpending, rfl, hdecoded,
    by decide +kernel, hsame⟩

end Engine

end PolyExpression
