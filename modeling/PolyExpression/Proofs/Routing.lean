import PolyExpression.Proofs.Forgetting
import PolyExpression.Proofs.Repetition
import PolyExpression.Proofs.Setup

/-!
Where controllers go. The rules that listen to a controller, or learn it, send their outputs one after the other to the
channels of their targets, which are read off the held notes here; a controller that no rule listens to goes to the
manager. Main statement: in every engine that operations lead to, a controller that is not the same as the one before it
is sent like this, and what the rules know changes in nothing else.
-/

namespace PolyExpression

open Midi (Event Call)

/-! ### Rules that hear a controller -/

theorem ControllerId.ofValue_index (controller : ControllerId) :
    ControllerId.ofValue controller.index.val = controller := by
  have hindex := controller.index.isLt
  refine congrArg ControllerId.mk (Fin.ext ?_)
  show min (controller.index.val : Int).toNat 123 = controller.index.val
  omega

/-- A rule that learns takes a controller as its input. -/
def Rule.learn (rule : Rule) (controller : ControllerId) : Rule :=
  if rule.input = .learn then rule.modify .input fun input => input.set controller.index.val else rule

/-- A rule that has taken a controller's value in. -/
def Rule.hear (rule : Rule) (controller : ControllerId) (value : Float) : Rule :=
  { rule.learn controller with lastInput := value }

section hear

variable {rule : Rule} {controller : ControllerId} {value : Float} {parameter : RuleParameter}

/-- Nothing but the input of a rule that learns is changed. -/
theorem Rule.get_hear (h : parameter = .input → rule.input ≠ .learn) :
    (rule.hear controller value).get parameter = rule.get parameter := by
  show (rule.learn controller).get parameter = _
  unfold learn
  split
  · next hlearns =>
      have hne : ¬RuleParameter.input = parameter := fun heq => h heq.symm hlearns
      rw [get_modify, if_neg hne]
  · rfl

theorem Rule.get_hear_of_ne (parameter : RuleParameter) (h : parameter ≠ .input) :
    (rule.hear controller value).get parameter = rule.get parameter :=
  get_hear fun heq => absurd heq h

theorem Rule.input_hear (hlearns : rule.input = .learn) (hlow : (rule.get .input).range.low ≤ controller.index.val)
    (hhigh : (controller.index.val : Int) ≤ (rule.get .input).range.high) :
    (rule.hear controller value).input = controller := by
  have hget : (rule.hear controller value).get .input = (rule.get .input).set controller.index.val := by
    show (rule.learn controller).get .input = _
    rw [learn, if_pos hlearns, get_modify, if_pos rfl]
  unfold input
  rw [hget]
  show ControllerId.ofValue ((rule.get .input).range.clamp controller.index.val) = controller
  rw [Range.clamp_of_mem hlow hhigh]
  exact controller.ofValue_index

theorem Rule.output_hear : (rule.hear controller value).output = rule.output := by
  unfold output
  rw [get_hear_of_ne .output nofun]

theorem Rule.target_hear : (rule.hear controller value).target = rule.target := by
  unfold target
  rw [get_hear_of_ne .target nofun]

theorem Rule.hasFallback_hear : (rule.hear controller value).hasFallback = rule.hasFallback := by
  unfold hasFallback
  rw [get_hear_of_ne .fallback nofun]

theorem Rule.shape_hear : (rule.hear controller value).shape = rule.shape := by
  funext x
  unfold shape curve
  rw [get_hear_of_ne .curve nofun, get_hear_of_ne .level nofun, get_hear_of_ne .midpoint nofun,
    get_hear_of_ne .invert nofun]

end hear

namespace Engine

variable {engine before between after : Engine} {time value : Float} {controller : ControllerId}

theorem rule_withInput_eq_hear (engine : Engine) (controller : ControllerId) (value : Float) (i j : RuleIndex) :
    (engine.withInput controller value i).rule j =
      if i = j then (engine.rule j).hear controller value else engine.rule j := by
  have hlearn : (engine.learn i controller).rule j =
      if i = j then (engine.rule j).learn controller else engine.rule j := by
    unfold learn
    split
    · next hlearns =>
        show (engine.modifyRule i _).rule j = _
        rw [rule_modifyRule]
        refine if_ctx_congr Iff.rfl (fun hij => ?_) fun _ => rfl
        exact (if_pos (hij ▸ hlearns)).symm
    · next hknows =>
        split
        · next hij => exact (if_neg (hij ▸ hknows)).symm
        · rfl
  unfold withInput
  rw [rule_modifyRule, hlearn]
  split
  · rfl
  · rfl

/-! ### Where they send it -/

/-- The channels of a target among the held notes. -/
def targeted (engine : Engine) : Target → List Channel
  | .global => [engine.manager]
  | .allBelow => (Region.below.notesOf engine.layout engine.voices.held.notes).map engine.voices.channelOf
  | .allAbove => (Region.above.notesOf engine.layout engine.voices.held.notes).map engine.voices.channelOf
  | .voice region role => (engine.followed? (.voice region role)).toList

/-- The channels that a rule's output goes to. While no note is held the manager may stand in for them. -/
def destinations (engine : Engine) (rule : Rule) : List Channel :=
  if engine.voices.held.notes = [] ∧ rule.hasFallback = true then [engine.manager] else engine.targeted rule.target

theorem outputChannels_eq_destinations (h : Balanced ([], engine)) (rule : Rule) :
    engine.outputChannels rule = engine.destinations rule := by
  have hcount : engine.voices.held.notes.length ≤ 16 := by
    have hlength := h.length_free
    have hmax := engine.layout.zone.memberCount_le
    rw [List.length_nil] at hlength
    simp only [memberMax] at hmax
    omega
  have hchannels : ∀ region, (engine.voices.stack region).channels engine.voices.channelOf =
      (region.notesOf engine.layout engine.voices.held.notes).map engine.voices.channelOf := by
    intro region
    have hfew : (engine.voices.stack region).notes.length ≤ 16 := by
      rw [h.coherent.notes_stack]
      cases region with
      | all => exact hcount
      | _ => exact (List.length_filter_le _ _).trans hcount
    rw [NoteStack.channels, List.take_of_length_le hfew, h.coherent.notes_stack]
  have hempty : (engine.voices.held.isEmpty && rule.hasFallback) = true ↔
      engine.voices.held.notes = [] ∧ rule.hasFallback = true := by
    rw [Bool.and_eq_true, NoteStack.isEmpty_iff]
  refine if_congr hempty rfl ?_
  cases rule.target with
  | global => rfl
  | allBelow => exact hchannels .below
  | allAbove => exact hchannels .above
  | voice region role =>
      show (((engine.voices.stack region).withRole? role).map engine.voices.channelOf).toList = _
      rw [← h.coherent.channel?_eq, engine.channel?_roles h.coherent]
      rfl

/-- What a rule sends when a value comes in. -/
def reply (engine : Engine) (time value : Float) (i : RuleIndex) : List Event :=
  (engine.destinations (engine.rule i)).flatMap fun channel =>
    controllerEvents time channel (engine.rule i).output ((engine.rule i).shape value) false

/-- The rules that a controller matches, in their order. -/
def matching (engine : Engine) (controller : ControllerId) : List RuleIndex :=
  (List.finRange ruleCount).filter fun i =>
    (engine.rule i).input = controller ∨ (engine.rule i).input = .learn

/-- What is sent for a controller. -/
def routed (engine : Engine) (time : Float) (controller : ControllerId) (value : Float) : List Event :=
  if engine.matching controller = [] then controllerEvents time engine.manager controller value false
  else (engine.matching controller).flatMap (engine.reply time value)

/-! ### Rules one after the other -/

/-- Some rules have heard a controller and answered it. -/
structure Hears (controller : ControllerId) (value : Float) (heard : List RuleIndex) (sent : List Event)
    (before after : Engine) : Prop where
  rule : ∀ i, after.rule i = if i ∈ heard then (before.rule i).hear controller value else before.rule i
  voices : after.voices = before.voices
  layout : after.layout = before.layout
  sent : after.events.toList = before.events.toList ++ sent

theorem Hears.refl (controller : ControllerId) (value : Float) (engine : Engine) :
    Hears controller value [] [] engine engine :=
  ⟨fun _ => (if_neg List.not_mem_nil).symm, rfl, rfl, (List.append_nil _).symm⟩

/-- What a rule sends depends on the held notes and on the rule. -/
theorem reply_congr (time value : Float) {i : RuleIndex} (hvoices : after.voices = before.voices)
    (hlayout : after.layout = before.layout)
    (houtput : (after.rule i).output = (before.rule i).output)
    (htarget : (after.rule i).target = (before.rule i).target)
    (hfallback : (after.rule i).hasFallback = (before.rule i).hasFallback)
    (hshape : (after.rule i).shape = (before.rule i).shape) :
    after.reply time value i = before.reply time value i := by
  have hfollowed := followed?_congr hvoices hlayout
  have htargeted : after.targeted = before.targeted := by
    funext target
    unfold targeted manager
    rw [hfollowed, hvoices, hlayout]
  have hdestinations : after.destinations (after.rule i) = before.destinations (before.rule i) := by
    unfold destinations manager
    rw [htargeted, hvoices, hlayout, htarget, hfallback]
  unfold reply
  rw [hdestinations, houtput, hshape]

theorem hears_routeRule (h : Balanced ([], engine)) (time : Float) (controller : ControllerId) (value : Float)
    (i : RuleIndex) : Hears controller value [i] (engine.reply time value i) engine
      (routeRule time controller value engine i) := by
  obtain ⟨parameters, published, hframe⟩ := engine.withInput_frame controller value i
  have hrule := engine.rule_withInput_eq_hear controller value i
  have hvoices : (engine.withInput controller value i).voices = engine.voices := by rw [hframe]
  have hlayout : (engine.withInput controller value i).layout = engine.layout := by rw [hframe]
  have hown : (engine.withInput controller value i).rule i = (engine.rule i).hear controller value :=
    (hrule i).trans (if_pos rfl)
  have hreply : (engine.withInput controller value i).routeEvents time value i = engine.reply time value i := by
    refine Eq.trans ?_ (reply_congr time value hvoices hlayout (hown ▸ Rule.output_hear)
      (hown ▸ Rule.target_hear) (hown ▸ Rule.hasFallback_hear) (hown ▸ Rule.shape_hear))
    unfold routeEvents reply
    rw [outputChannels_eq_destinations (h.withInput controller value i)]
  refine ⟨fun j => ?_, ?_, ?_, ?_⟩
  · rw [routeRule_eq]
    refine (hrule j).trans (if_congr ?_ rfl rfl)
    rw [List.mem_singleton, eq_comm]
  · rw [voices_routeRule]
  · rw [routeRule_eq]
    exact hlayout
  · rw [events_routeRule, hreply]

theorem Hears.reply_eq {heard : List RuleIndex} {sent : List Event}
    (h : Hears controller value heard sent before after) {i : RuleIndex} (hi : i ∉ heard) (time : Float) :
    after.reply time value i = before.reply time value i := by
  have hrule : after.rule i = before.rule i := (h.rule i).trans (if_neg hi)
  exact reply_congr time value h.voices h.layout (by rw [hrule]) (by rw [hrule]) (by rw [hrule]) (by rw [hrule])

/-- Other rules hear the same controller afterwards. -/
theorem Hears.trans {first second : List RuleIndex} {sent later : List Event}
    (h : Hears controller value first sent before between) (h' : Hears controller value second later between after)
    (hdisjoint : ∀ i ∈ second, i ∉ first) : Hears controller value (first ++ second) (sent ++ later) before after where
  rule := by
    intro i
    rw [h'.rule i, h.rule i]
    by_cases hi : i ∈ second
    · rw [if_pos hi, if_neg (hdisjoint i hi), if_pos (List.mem_append_right first hi)]
    · rw [if_neg hi]
      exact if_congr (by rw [List.mem_append, or_iff_left hi]) rfl rfl
  voices := h'.voices.trans h.voices
  layout := h'.layout.trans h.layout
  sent := by rw [h'.sent, h.sent, List.append_assoc]

theorem hears_foldl_routeRule (h : Balanced ([], engine)) (time : Float) (controller : ControllerId) (value : Float)
    {listeners : List RuleIndex} (hnodup : listeners.Nodup) :
    Hears controller value listeners (listeners.flatMap (engine.reply time value)) engine
      (listeners.foldl (routeRule time controller value) engine) := by
  induction listeners generalizing engine with
  | nil => exact .refl controller value engine
  | cons i rest ih =>
      obtain ⟨hi, hrest⟩ := List.nodup_cons.mp hnodup
      have hfirst := hears_routeRule h time controller value i
      have hothers := ih (h.route time controller value i) hrest
      -- No rule comes twice, so the others still reply as if this one had not heard the controller.
      have hreplies : rest.flatMap ((routeRule time controller value engine i).reply time value) =
          rest.flatMap (engine.reply time value) := by
        refine List.flatMap_congr fun j hj => hfirst.reply_eq (fun hmem => hi ?_) time
        rw [← List.mem_singleton.mp hmem]
        exact hj
      rw [hreplies] at hothers
      refine hfirst.trans hothers fun j hj hmem => hi ?_
      rw [← List.mem_singleton.mp hmem]
      exact hj

theorem matching_eq (engine : Engine) (controller : ControllerId) :
    (List.finRange ruleCount).filter (engine.listens controller) = engine.matching controller := by
  refine List.filter_congr fun i _ => ?_
  rw [Bool.eq_iff_iff, decide_eq_true_eq, or_comm]
  simp [listens]

/-- The rules that a controller matches hear it and reply, or it goes to the manager. -/
theorem hears_route (h : Balanced ([], engine)) (time : Float) (controller : ControllerId) (value : Float) :
    Hears controller value (engine.matching controller) (engine.routed time controller value) engine
      (engine.route time controller value) := by
  unfold route routed
  dsimp only
  rw [matching_eq]
  cases hmatching : engine.matching controller with
  | nil =>
      rw [List.isEmpty_nil, if_pos rfl, if_pos rfl, sendController_eq]
      exact ⟨fun _ => (if_neg List.not_mem_nil).symm, rfl, rfl, toList_events_emitAll _ _⟩
  | cons i rest =>
      have hnodup : (i :: rest).Nodup := hmatching ▸ (List.nodup_finRange ruleCount).filter _
      rw [if_neg (List.cons_ne_nil i rest)]
      exact hears_foldl_routeRule h time controller value hnodup

/-! ### Controllers that move -/

theorem isSendable_of_move {call : Call} {raw : UInt16} (h : call.move? = some (controller, raw, value)) :
    controller.IsSendable := by
  cases call with
  | channelPressure channel pressure =>
      cases h
      exact .inr (.inr rfl)
  | pitchBend channel bend =>
      cases h
      exact .inr (.inl rfl)
  | controlChange channel number byte =>
      unfold Call.move? at h
      dsimp only at h
      split at h
      · cases h
      · split at h
        · next hnumber =>
            cases h
            exact .inl hnumber
        · cases h
  | _ => cases h

/-- The pedal that goes up ends the notes whose releases wait, and sends nothing otherwise. -/
theorem movePedal_spec (h : Balanced ([], engine)) (time value : Float) :
    (engine.movePedal time value).parameters = engine.parameters ∧ ∃ released,
      (engine.movePedal time value).events.toList = engine.events.toList ++ released
      ∧ if engine.parameters.holdsOnSustain = true ∧ ¬0.5 ≤ value then
          released.filter Event.isNote = engine.pedal.waiting.map (engine.ending time)
        else released = [] := by
  unfold movePedal
  dsimp only
  by_cases hholds : engine.parameters.holdsOnSustain = true
  · rw [if_pos hholds]
    by_cases hdown : 0.5 ≤ value
    · rw [decide_eq_true hdown, if_pos rfl]
      refine ⟨rfl, [], (List.append_nil _).symm, ?_⟩
      rw [if_neg fun hup => hup.2 hdown]
    · let lowered : Engine := { engine with pedal := { engine.pedal with isDown := false } }
      have hlowered : Balanced ([], lowered) := ⟨h.coherent, h.perm, h.deferred⟩
      have hcarries : CarriesOut time engine.pedal.waiting lowered (lowered.releaseDeferred time) :=
        carriesOut_releaseDeferred hlowered time
      obtain ⟨released, hreleased, hends⟩ := hcarries.sent
      rw [decide_eq_false hdown, if_neg Bool.false_ne_true]
      refine ⟨hcarries.parameters, released, hreleased, ?_⟩
      rw [if_pos ⟨hholds, hdown⟩]
      exact hends
  · rw [if_neg hholds]
    refine ⟨rfl, [], (List.append_nil _).symm, ?_⟩
    rw [if_neg fun hup => hholds hup.1]

/-- What a controller that moves does to what is sent and to the rules. -/
structure Routes (time : Float) (controller : ControllerId) (value : Float) (before after : Engine) : Prop where
  learned : ∀ i, (before.rule i).input = .learn → (after.rule i).input = controller
  lastInput : ∀ i ∈ before.matching controller, (after.rule i).lastInput = value
  others : ∀ i, i ∉ before.matching controller → after.rule i = before.rule i
  parameters : ∀ id, (∀ i, id = .rule i .input → (before.rule i).input ≠ .learn) →
    after.parameters.get id = before.parameters.get id
  unmatched : before.matching controller = [] → ∃ event,
    controllerEvent? time before.manager controller value false = some event
      ∧ before.routed time controller value = [event]
  /-- The pedal that goes up lets go of the releases that wait, but only after its move has been sent. -/
  sent : ∃ released,
    after.events.toList = before.events.toList ++ before.routed time controller value ++ released
      ∧ if controller = .sustainPedal ∧ before.parameters.holdsOnSustain = true ∧ ¬0.5 ≤ value then
          released.filter Event.isNote = before.pedal.waiting.map (before.ending time)
        else released = []

/-- A rule's input can be any controller. -/
theorem Reachable.range_input (h : Reachable engine) (i : RuleIndex) (controller : ControllerId) :
    ((engine.rule i).get .input).range.low ≤ controller.index.val
      ∧ (controller.index.val : Int) ≤ ((engine.rule i).get .input).range.high := by
  have hrange : ((engine.rule i).get .input).range = (ParameterId.rule i .input).range := h.range (.rule i .input)
  have hlow : (ParameterId.rule i .input).range.low = 0 := rfl
  have hhigh : (ParameterId.rule i .input).range.high = 123 := rfl
  have hindex := controller.index.isLt
  rw [hrange, hlow, hhigh]
  omega

theorem Hears.parameters {heard : List RuleIndex} {sent : List Event}
    (h : Hears controller value heard sent before after)
    (hzone : ∀ parameter, after.parameters.get (.zone parameter) = before.parameters.get (.zone parameter))
    {id : ParameterId} (hid : ∀ i, id = .rule i .input → (before.rule i).input ≠ .learn) :
    after.parameters.get id = before.parameters.get id := by
  cases id with
  | zone parameter => exact hzone parameter
  | rule i parameter =>
      show (after.rule i).get parameter = (before.rule i).get parameter
      rw [h.rule i]
      split
      · exact Rule.get_hear fun heq => hid i (heq ▸ rfl)
      · rfl

/-- A move of a controller in two steps: the rules hear it, and the pedal may let go of what waits. -/
theorem moveController_spec (h : Balanced ([], engine)) (time : Float) (controller : ControllerId) (raw : UInt16)
    (value : Float) (hnew : (engine.recent.get controller.index).isSame ⟨time, raw⟩ = false) :
    ∃ moved, Hears controller value (engine.matching controller) (engine.routed time controller value) engine moved
      ∧ (∀ parameter, moved.parameters.get (.zone parameter) = engine.parameters.get (.zone parameter))
      ∧ (engine.moveController time controller raw value).parameters = moved.parameters
      ∧ ∃ released,
        (engine.moveController time controller raw value).events.toList = moved.events.toList ++ released
        ∧ if controller = .sustainPedal ∧ engine.parameters.holdsOnSustain = true ∧ ¬0.5 ≤ value then
            released.filter Event.isNote = engine.pedal.waiting.map (engine.ending time)
          else released = [] := by
  let stamped : Engine := { engine with recent := engine.recent.set controller.index ⟨time, raw⟩ }
  let moved : Engine := stamped.route time controller value
  have hstamped : Balanced ([], stamped) := ⟨h.coherent, h.perm, h.deferred⟩
  have hhears := hears_route hstamped time controller value
  have hmove : engine.moveController time controller raw value =
      if controller = .sustainPedal then moved.movePedal time value else moved := by
    unfold moveController
    dsimp only
    exact if_neg fun hrepeated => Bool.false_ne_true (hnew.symm.trans hrepeated)
  have hzone : ∀ parameter, moved.parameters.get (.zone parameter) = engine.parameters.get (.zone parameter) :=
    fun parameter => stamped.get_route time controller value fun i => by simp
  refine ⟨moved, ⟨hhears.rule, hhears.voices, hhears.layout, hhears.sent⟩, hzone, ?_⟩
  rw [hmove]
  by_cases hpedal : controller = .sustainPedal
  · rw [if_pos hpedal]
    have hmoved : Balanced ([], moved) := by
      obtain ⟨parameters, published, events, hroute⟩ := stamped.route_frame time controller value
      show Balanced ([], stamped.route time controller value)
      rw [hroute]
      exact ⟨h.coherent, h.perm, h.deferred⟩
    have hvoices : moved.voices = engine.voices := hhears.voices
    have hlayout : moved.layout = engine.layout := hhears.layout
    have hwaits : moved.pedal = engine.pedal := stamped.pedal_route time controller value
    have hholds : moved.parameters.holdsOnSustain = engine.parameters.holdsOnSustain :=
      congrArg Parameter.isOn (hzone .holdOnSustain)
    have hoverrides : moved.parameters.overridesRelease = engine.parameters.overridesRelease :=
      congrArg Parameter.isOn (hzone .overrideRelease)
    have hending : moved.ending time = engine.ending time := by
      funext release
      simp only [ending, isAbove, releaseVelocity, hvoices, hlayout, hoverrides]
    obtain ⟨hparameters, released, hreleased, hends⟩ := movePedal_spec hmoved time value
    rw [hholds, hwaits, hending] at hends
    refine ⟨hparameters, released, hreleased, ?_⟩
    simpa only [hpedal, true_and] using hends
  · rw [if_neg hpedal]
    refine ⟨rfl, [], (List.append_nil _).symm, ?_⟩
    rw [if_neg fun hup => hpedal hup.1]

/-- In every engine that operations lead to, a controller which is not the same as the one before it is sent as the
rules have it. Which note is the oldest or the newest goes by the time for which it has been held. -/
theorem moved_controller_routed (h : Reachable engine) (hactive : engine.isSuspended = false) {call : Call}
    {raw : UInt16} (hmove : call.move? = some (controller, raw, value))
    (hnew : (engine.recent.get controller.index).isSame ⟨time, raw⟩ = false) :
    engine.InOrder ∧ Routes time controller value engine (engine.receive time call) := by
  obtain ⟨moved, hhears, hzone, hparameters, released, hreleased, hends⟩ :=
    moveController_spec h.balanced time controller raw value hnew
  have hrule : ∀ i, (engine.moveController time controller raw value).rule i = moved.rule i :=
    fun i => congrArg (fun parameters => parameters.rule i) hparameters
  refine ⟨h.inOrder, ?_⟩
  rw [receive_of_move hactive hmove]
  refine ⟨fun i hlearns => ?_, fun i hi => ?_, fun i hi => ?_, fun id hid => ?_, fun hnone => ?_, released, ?_, hends⟩
  · have hi : i ∈ engine.matching controller :=
      List.mem_filter.mpr ⟨List.mem_finRange i, decide_eq_true (.inr hlearns)⟩
    obtain ⟨hlow, hhigh⟩ := h.range_input i controller
    rw [hrule, hhears.rule i, if_pos hi]
    exact Rule.input_hear hlearns hlow hhigh
  · rw [hrule, hhears.rule i, if_pos hi]
    rfl
  · rw [hrule, hhears.rule i, if_neg hi]
  · rw [hparameters]
    exact hhears.parameters hzone hid
  · obtain ⟨event, hevent⟩ := (isSendable_of_move hmove).exists_event time engine.manager value false
    refine ⟨event, hevent, ?_⟩
    rw [routed, if_pos hnone, controllerEvents, hevent]
    rfl
  · rw [hreleased, hhears.sent]

/-- Two notes sound below the anchor, the release of one of them waits for the pedal, and the rule for that side
takes the next controller that moves as its input. -/
def ruleLearnsPedal : List Operation :=
  [.apply (.setParameter (.zone .holdOnSustain) 1.0), .call 0.0 (.noteOn 0 50 100), .call 0.0 (.noteOn 0 70 100),
    .call 0.0 (.noteOn 0 40 100), .call 0.0 (.controlChange 0 64 127), .call 0.0 (.noteOff 0 50 64),
    .apply (.setParameter (.rule ⟨3, by decide⟩ .input) 0.992),
    .apply (.setParameter (.rule ⟨3, by decide⟩ .output) 0.602),
    .apply (.setParameter (.rule ⟨3, by decide⟩ .target) 0.0714)]

theorem moved_controller_routed_ruleLearnsPedal : Reachable (standard.run ruleLearnsPedal)
    ∧ (standard.run ruleLearnsPedal).isSuspended = false
    ∧ (Call.controlChange 0 64 10).move? = some (.sustainPedal, 10, Midi.fractionOfByte 10)
    ∧ ((standard.run ruleLearnsPedal).recent.get ControllerId.sustainPedal.index).isSame ⟨3.0, 10⟩ = false
    ∧ (standard.run ruleLearnsPedal).voices.held.notes = [40, 70, 50]
    ∧ (standard.run ruleLearnsPedal).matching .sustainPedal = [⟨3, by decide⟩]
    ∧ (standard.run ruleLearnsPedal).destinations ((standard.run ruleLearnsPedal).rule ⟨3, by decide⟩) = [3, 1]
    ∧ ((standard.run ruleLearnsPedal).rule ⟨3, by decide⟩).output = .soundFive
    ∧ (standard.run ruleLearnsPedal).pedal.deferred.notes = [50]
    ∧ (standard.run ruleLearnsPedal).InOrder
    ∧ Routes 3.0 .sustainPedal (Midi.fractionOfByte 10) (standard.run ruleLearnsPedal)
      ((standard.run ruleLearnsPedal).receive 3.0 (.controlChange 0 64 10)) := by
  have hreachable : Reachable (standard.run ruleLearnsPedal) := reachable_standard.run ruleLearnsPedal
  have hactive : (standard.run ruleLearnsPedal).isSuspended = false := by decide +kernel
  have hmove : (Call.controlChange 0 64 10).move? = some (.sustainPedal, 10, Midi.fractionOfByte 10) := rfl
  have hnew : ((standard.run ruleLearnsPedal).recent.get ControllerId.sustainPedal.index).isSame ⟨3.0, 10⟩ =
      false := by
    decide +kernel
  exact ⟨hreachable, hactive, hmove, hnew, by decide +kernel, by decide +kernel, by decide +kernel, by decide +kernel,
    by decide +kernel, moved_controller_routed hreachable hactive hmove hnew⟩

end Engine

end PolyExpression
