import PolyExpression.Proofs.LastSent

/-!
Rules that target one side of the anchor. A note that joins the side is sent the rule's last input when it
starts, and an input goes to all notes of the side at once. Main statement: so in every run in which no
parameter changes, what was last sent to each note of the side is the rule's last input.
-/

namespace PolyExpression

open Midi (Event)

namespace Engine

variable {hand : List Channel} {channel : Channel} {origin engine after : Engine} {i : RuleIndex}
  {isAbove : Bool} {note : Note} {log sent : List Event}

/-- A rule with an output of its own targets all notes on a side of the anchor, and resets channels. -/
structure TakesSide (engine : Engine) (i : RuleIndex) (isAbove : Bool) : Prop extends SoleOutput engine i where
  target : (engine.rule i).target = if isAbove then .allAbove else .allBelow
  resetPolicy_ne : (engine.rule i).resetPolicy ≠ .off

namespace TakesSide

theorem position? (h : engine.TakesSide i isAbove) : (engine.rule i).target.position? = none := by
  rw [h.target]
  cases isAbove <;> rfl

theorem needsReset (h : engine.TakesSide i isAbove) : (engine.rule i).needsReset isAbove = true := by
  unfold Rule.needsReset
  rw [h.target]
  cases isAbove <;> simp [h.resetPolicy_ne]

theorem resetValue (h : engine.TakesSide i isAbove) :
    (engine.rule i).resetValue = (engine.rule i).shape (engine.rule i).lastInput := by
  unfold Rule.resetValue
  rw [h.target]
  cases isAbove <;> simp

theorem sameSettings (h : origin.TakesSide i isAbove) (hsame : origin.SameSettings engine) :
    engine.TakesSide i isAbove where
  toSoleOutput := hsame.soleOutput h.toSoleOutput
  target := (hsame.target i).trans h.target
  resetPolicy_ne := by
    rw [hsame.resetPolicy]
    exact h.resetPolicy_ne

/-- The end of a note resets no channel for the rule. -/
theorem settings_stopEvents_eq_nil (h : engine.TakesSide i isAbove) (time : Float) (own : Channel) (note : Note)
    (velocity : UInt8) (other : Channel) :
    settings (engine.rule i).output other (engine.stopEvents time own note velocity) = [] := by
  rw [h.settings_stopEvents, Rule.displacement_eq_nil h.position?]
  exact ite_self _

end TakesSide

/-- The channels of the held notes on a side of the anchor are all of those the rule's output goes to. -/
theorem TakesSide.outputChannels (h : engine.TakesSide i isAbove) (hbalanced : Balanced (hand, engine))
    (hnote : note ∈ engine.voices.held.notes) : engine.outputChannels (engine.rule i) =
      (engine.voices.held.notes.filter fun note => engine.isAbove note == isAbove).map
        engine.voices.channelOf := by
  have hcount := hbalanced.length_free
  have hmax := engine.layout.zone.memberCount_le
  -- The targets are cut at 16 channels, which is more than there are members.
  have hlength : ∀ p : Note → Bool, (engine.voices.held.notes.filter p).length ≤ 16 := by
    intro p
    have hfilter := List.length_filter_le p engine.voices.held.notes
    simp only [memberMax] at hmax
    omega
  rw [outputChannels_eq hnote, h.target]
  cases isAbove with
  | false =>
      have hside : (fun note => engine.isAbove note == false) = fun note => !engine.layout.isAbove note := by
        funext note
        exact beq_false (engine.isAbove note)
      show (engine.voices.below.notes.take 16).map engine.voices.channelOf = _
      rw [hbalanced.coherent.below, List.take_of_length_le (hlength _), hside]
  | true =>
      have hside : (fun note => engine.isAbove note == true) = fun note => engine.layout.isAbove note := by
        funext note
        exact beq_true (engine.isAbove note)
      show (engine.voices.above.notes.take 16).map engine.voices.channelOf = _
      rw [hbalanced.coherent.above, List.take_of_length_le (hlength _), hside]

/-- What a rule sends for an input reaches every note on its side. -/
theorem TakesSide.carries_routeEvents (h : engine.TakesSide i isAbove) (hbalanced : Balanced (hand, engine))
    (hnote : note ∈ engine.voices.held.notes) (hnoteSide : engine.isAbove note = isAbove) (time value : Float)
    (log : List Event) : Carries (engine.rule i).output (engine.voices.channelOf note)
      (log ++ engine.routeEvents time value i) ((engine.rule i).shape value) := by
  have hnodup : ((engine.voices.held.notes.filter fun note => engine.isAbove note == isAbove).map
      engine.voices.channelOf).Nodup :=
    (List.filter_sublist.map engine.voices.channelOf).nodup hbalanced.nodup_heldChannels
  have hchannel : engine.voices.channelOf note ∈
      (engine.voices.held.notes.filter fun note => engine.isAbove note == isAbove).map engine.voices.channelOf :=
    List.mem_map_of_mem (List.mem_filter.mpr ⟨hnote, beq_iff_eq.mpr hnoteSide⟩)
  unfold routeEvents
  rw [h.outputChannels hbalanced hnote]
  exact carries_append h.isSendable (settings_controllers hnodup hchannel)

/-- Every held note on a side of the anchor has been sent a rule's last input. -/
def InSync (origin : Engine) (i : RuleIndex) (isAbove : Bool) (log : List Event) (engine : Engine) : Prop :=
  ∀ note ∈ engine.voices.held.notes, engine.isAbove note = isAbove →
    Carries (origin.rule i).output (engine.voices.channelOf note) log
      ((origin.rule i).shape (engine.rule i).lastInput)

namespace InSync

theorem congr (h : InSync origin i isAbove log engine) (hvoices : after.voices = engine.voices)
    (hlayout : after.layout = engine.layout) (hlast : (after.rule i).lastInput = (engine.rule i).lastInput) :
    InSync origin i isAbove log after := by
  intro note hnote hside
  unfold Engine.isAbove at hside
  rw [hlayout] at hside
  rw [hvoices] at hnote ⊢
  rw [hlast]
  exact h note hnote hside

/-- Nothing changes for notes that stay and whose channels are sent nothing of the rule's output. -/
theorem send (h : InSync origin i isAbove log engine)
    (hheld : ∀ note ∈ after.voices.held.notes, note ∈ engine.voices.held.notes)
    (hchannel : after.voices.channelOf = engine.voices.channelOf) (hlayout : after.layout = engine.layout)
    (hlast : (after.rule i).lastInput = (engine.rule i).lastInput)
    (hsent : ∀ note ∈ after.voices.held.notes,
      settings (origin.rule i).output (engine.voices.channelOf note) sent = []) :
    InSync origin i isAbove (log ++ sent) after := by
  intro note hnote hside
  have hbefore : engine.isAbove note = isAbove := by
    unfold Engine.isAbove at hside ⊢
    rw [← hlayout]
    exact hside
  rw [hchannel, hlast]
  exact (h note (hheld note hnote) hbefore).append (hsent note hnote)

theorem start (h : InSync origin i isAbove log engine) (hside : origin.TakesSide i isAbove)
    (hsame : origin.SameSettings engine) (hbalanced : Balanced (channel :: hand, engine))
    (hnote : note ∉ engine.voices.held.notes) (time : Float) (velocity : UInt8) :
    InSync origin i isAbove (log ++ engine.startEvents time channel note velocity)
      (engine.startNote time channel note velocity) := by
  have hnow := hside.sameSettings hsame
  have hvoices := engine.voices_startNote time channel note velocity
  have hrule : (engine.startNote time channel note velocity).rule i = engine.rule i :=
    congrArg (fun store => store.rule i) (engine.parameters_startNote ..)
  intro other hother hotherSide
  have hotherBefore : engine.isAbove other = isAbove := by
    unfold Engine.isAbove at hotherSide ⊢
    rw [← engine.layout_startNote time channel note velocity]
    exact hotherSide
  rw [hvoices, Voices.held_start, List.erase_of_not_mem hnote] at hother
  rw [hvoices, Voices.channelOf_start, hrule, ← hsame.output, ← hsame.shape]
  rcases List.mem_cons.mp hother with rfl | hmem
  · have hreset : (engine.rule i).needsReset (engine.isAbove other) = true := by
      rw [hotherBefore]
      exact hnow.needsReset
    rw [if_pos rfl, ← hnow.resetValue]
    exact hnow.carries_startEvents time velocity hbalanced.manager_ne hreset log
  · have hne : note ≠ other := fun heq => hnote (heq ▸ hmem)
    have hown : channel ≠ engine.voices.channelOf other :=
      fun heq => hbalanced.not_mem_held (heq ▸ List.mem_map_of_mem hmem)
    have hnothing : settings (engine.rule i).output (engine.voices.channelOf other)
        (engine.startEvents time channel note velocity) = [] := by
      rw [hnow.settings_startEvents time channel note velocity (hbalanced.manager_ne_channelOf hmem) hown,
        Rule.displacement_eq_nil hnow.position?]
      exact ite_self _
    rw [if_neg hne, hsame.output, hsame.shape]
    rw [hsame.output] at hnothing
    exact (h other hmem hotherBefore).append hnothing

/-- An input goes to every note on the side. -/
theorem route (hside : origin.TakesSide i isAbove) (hsame : origin.SameSettings engine)
    (hbalanced : Balanced (hand, engine)) (time : Float) (controller : ControllerId) (value : Float) :
    InSync origin i isAbove (log ++ (engine.withInput controller value i).routeEvents time value i)
      (routeRule time controller value engine i) := by
  have hlearn := (hside.sameSettings hsame).input_ne
  have hsameAfter := hsame.withInput hside.input_ne controller value i
  have hlast : ((routeRule time controller value engine i).rule i).lastInput = value := by
    have hrule := rule_withInput (hlearn i) controller value i
    rw [if_pos rfl] at hrule
    rw [routeRule_eq]
    exact congrArg Rule.lastInput hrule
  have hbalancedAfter := hbalanced.withInput controller value i
  intro note hnote hnoteSide
  rw [hlast]
  rw [routeRule_eq] at hnote hnoteSide ⊢
  have hnow := hside.sameSettings hsameAfter
  have hcarries := hnow.carries_routeEvents hbalancedAfter hnote hnoteSide time value log
  rw [hsameAfter.output, hsameAfter.shape] at hcarries
  exact hcarries

theorem stop (h : InSync origin i isAbove log engine) (hside : origin.TakesSide i isAbove)
    (hsame : origin.SameSettings engine) (note : Note) (time : Float) (velocity : UInt8) :
    InSync origin i isAbove (log ++ engine.stopEvents time (engine.voices.channelOf note) note velocity)
      (engine.stopNote time (engine.voices.channelOf note) note velocity) := by
  have hvoices := engine.voices_stopNote time (engine.voices.channelOf note) note velocity
  have hparameters := engine.parameters_stopNote time (engine.voices.channelOf note) note velocity
  refine h.send ?_ ?_ (engine.layout_stopNote ..) ?_ fun other _ => ?_
  · rw [hvoices, Voices.held_stop]
    exact fun _ => List.mem_of_mem_erase
  · rw [hvoices]
    rfl
  · exact congrArg (fun store => (store.rule i).lastInput) hparameters
  · rw [← hsame.output]
    exact (hside.sameSettings hsame).settings_stopEvents_eq_nil ..

theorem silence (h : InSync origin i isAbove log engine) (hside : origin.TakesSide i isAbove)
    (hsame : origin.SameSettings engine) (hbalanced : Balanced (hand, engine))
    (hnote : note ∈ engine.voices.held.notes) :
    InSync origin i isAbove (log ++ engine.silenceEvents note) (engine.silenceNote note) := by
  have hvoices := engine.voices_silenceNote note
  refine h.send ?_ ?_ (engine.layout_silenceNote note) ?_ fun other hother => ?_
  · rw [hvoices, Voices.held_stop]
    exact fun _ => List.mem_of_mem_erase
  · rw [hvoices]
    rfl
  · exact congrArg (fun store => (store.rule i).lastInput) (engine.parameters_silenceNote note)
  · rw [hvoices, Voices.held_stop] at hother
    obtain ⟨hne, hmem⟩ := engine.voices.held.nodup.mem_erase_iff.mp hother
    have hown : engine.voices.channelOf note ≠ engine.voices.channelOf other :=
      fun heq => hne (hbalanced.channelOf_injective hnote hmem heq).symm
    have hnow := hside.sameSettings hsame
    have hnothing := hnow.settings_stopEvents_eq_nil 0.0 (engine.voices.channelOf note) note Midi.defaultVelocity
      (engine.voices.channelOf other)
    rw [hsame.output] at hnothing
    unfold silenceEvents
    rw [settings_append, hnothing, List.append_nil]
    exact settings_controllerEvents_of_ne (.inr hown)

theorem report (h : InSync origin i isAbove log engine) (hbalanced : Balanced (hand, engine)) (time : Float)
    (controller : ControllerId) (value : Float) :
    InSync origin i isAbove (log ++ controllerEvents time engine.manager controller value false)
      (engine.sendController time engine.manager controller value false) := by
  rw [sendController_eq]
  refine h.send (fun _ hnote => hnote) (by rfl) (by rfl) (by rfl) fun note hnote => ?_
  exact settings_controllerEvents_of_ne (.inr (hbalanced.manager_ne_channelOf hnote))

/-- What other rules send makes no difference. -/
theorem route_other (h : InSync origin i isAbove log engine) (hside : origin.TakesSide i isAbove)
    (hsame : origin.SameSettings engine) {j : RuleIndex} (hj : j ≠ i) (time : Float) (controller : ControllerId)
    (value : Float) :
    InSync origin i isAbove (log ++ (engine.withInput controller value j).routeEvents time value j)
      (routeRule time controller value engine j) := by
  have hsameAfter := hsame.withInput hside.input_ne controller value j
  have hrule := rule_withInput ((hside.sameSettings hsame).input_ne j) controller value i
  have hvoices := voices_routeRule time controller value engine j
  obtain ⟨parameters, published, hinput⟩ := engine.withInput_frame controller value j
  rw [if_neg hj] at hrule
  refine h.send ?_ ?_ ?_ ?_ fun note _ => ?_
  · rw [hvoices]
    exact fun _ hnote => hnote
  · rw [hvoices]
  · rw [routeRule_eq, hinput]
    rfl
  · rw [routeRule_eq]
    exact congrArg Rule.lastInput hrule
  · rw [← hsameAfter.output]
    exact (hsameAfter.soleOutput hside.toSoleOutput).settings_routeEvents_of_ne hj time value

end InSync

theorem Act.inSync {before after : Moment} (hact : Act before after) (hbalanced : Balanced before)
    (hside : origin.TakesSide i isAbove) (hsame : origin.SameSettings before.2) {earlier : List Event}
    (h : InSync origin i isAbove (earlier ++ before.2.events.toList) before.2) :
    InSync origin i isAbove (earlier ++ after.2.events.toList) after.2 := by
  have happend : ∀ sent, after.2.events.toList = before.2.events.toList ++ sent →
      InSync origin i isAbove ((earlier ++ before.2.events.toList) ++ sent) after.2 →
      InSync origin i isAbove (earlier ++ after.2.events.toList) after.2 := by
    intro sent hsent hsync
    rw [hsent, ← List.append_assoc]
    exact hsync
  cases hact with
  | @quiet hand engine after hquiet =>
      have hlast := congrArg (fun store => (store.rule i).lastInput) hquiet.parameters
      rw [show ((hand, after) : Moment).2.events = engine.events from hquiet.events]
      exact h.congr hquiet.voices hquiet.layout hlast
  | hold velocity hnote => exact h.congr (by rfl) (by rfl) (by rfl)
  | take hpop => exact h.congr (by rfl) (by rfl) (by rfl)
  | give hand channel engine =>
      obtain ⟨free, hfree⟩ := engine.giveBack_frame channel
      rw [hfree]
      exact h.congr (by rfl) (by rfl) (by rfl)
  | @start hand engine note time channel velocity hnote =>
      dsimp only at h hsame happend ⊢
      exact happend _ (engine.events_startNote ..) (h.start hside hsame hbalanced hnote time velocity)
  | @stop hand engine note time velocity hnote =>
      dsimp only at h hsame happend ⊢
      exact happend _ (engine.events_stopNote ..) (h.stop hside hsame note time velocity)
  | @silence hand engine note hnote =>
      dsimp only at h hsame happend ⊢
      exact happend _ (engine.events_silenceNote note) (h.silence hside hsame hbalanced hnote)
  | report hand engine time controller value =>
      dsimp only at h happend ⊢
      exact happend _ (engine.events_sendController ..) (h.report hbalanced time controller value)
  | route hand engine time controller value j =>
      dsimp only at h hsame happend ⊢
      by_cases hj : j = i
      · subst hj
        exact happend _ (events_routeRule ..) (InSync.route hside hsame hbalanced time controller value)
      · exact happend _ (events_routeRule ..) (h.route_other hside hsame hj time controller value)
  | @restart hand engine after hrestart =>
      intro note hnote
      rw [hrestart.voices] at hnote
      exact absurd hnote List.not_mem_nil

/-! ### Runs -/

theorem InSync.perform (h : InSync origin i isAbove log engine) (hbalanced : Balanced ([], engine))
    (hside : origin.TakesSide i isAbove) (hsame : origin.SameSettings engine) {operation : Operation}
    (hperform : origin.SameSettings (engine.perform operation)) :
    InSync origin i isAbove (log ++ engine.emitted operation) (engine.perform operation) := by
  let P : Moment → Prop := fun moment =>
    origin.SameSettings moment.2 ∧ InSync origin i isAbove (log ++ moment.2.events.toList) moment.2
  obtain ⟨kept, hkept⟩ := engine.perform_eq operation
  rw [hkept] at hperform ⊢
  have hbriefed : P ([], engine.clearEvents.briefed operation) := by
    have hlast := engine.clearEvents.lastInput_briefed operation i
    refine ⟨SameSettings.briefed (show origin.SameSettings engine.clearEvents from hsame) hperform, ?_⟩
    obtain ⟨parameters, published, pending, heq⟩ := engine.clearEvents.briefed_eq operation
    rw [heq] at hlast ⊢
    rw [show engine.clearEvents.events.toList = [] from rfl, List.append_nil]
    exact h.congr (by rfl) (by rfl) hlast
  have hlast : P ([], engine.clearEvents.perform operation) := by
    refine perform_preserves (fun hact hb hP => ?_) hbalanced.clearEvents rfl operation hbriefed
    exact ⟨hP.1.act hside.input_ne hact, hact.inSync hb hside hP.1 hP.2⟩
  exact hlast.2

theorem InSync.run {operations : List Operation} (h : InSync origin i isAbove log engine)
    (hbalanced : Balanced ([], engine)) (hside : origin.TakesSide i isAbove)
    (hsame : origin.SameSettings engine) (hsteady : engine.Steady operations) :
    InSync origin i isAbove (log ++ engine.transcript operations) (engine.run operations) := by
  induction operations generalizing engine log with
  | nil =>
      rw [transcript, List.append_nil]
      exact h
  | cons operation operations ih =>
      have hnext : origin.SameSettings (engine.perform operation) :=
        fun id => (hsteady.sameSettings id).trans (hsame id)
      rw [transcript, ← List.append_assoc]
      exact ih (h.perform hbalanced hside hsame hnext) (hbalanced.perform operation) hnext hsteady.tail

/-- Without changes of parameters, what has last been sent of a rule's output to each held note on its side of
the anchor is the rule's last input. -/
theorem side_in_sync (h : Reachable engine) (hheld : engine.voices.held.notes = [])
    (hside : engine.TakesSide i isAbove) {operations : List Operation} (hsteady : engine.Steady operations) :
    ∀ note ∈ (engine.run operations).voices.held.notes, (engine.run operations).isAbove note = isAbove →
      Carries (engine.rule i).output ((engine.run operations).voices.channelOf note)
        (engine.transcript operations)
        (((engine.run operations).rule i).shape ((engine.run operations).rule i).lastInput) := by
  have hstart : InSync engine i isAbove [] engine := by
    intro note hnote
    rw [hheld] at hnote
    exact absurd hnote List.not_mem_nil
  have hsame : engine.SameSettings (engine.run operations) := hsteady operations (List.prefix_refl _)
  have hrun := hstart.run h.balanced hside (fun _ => rfl) hsteady
  intro note hnote hnoteSide
  rw [hsame.shape]
  exact hrun note hnote hnoteSide

/-- A new engine whose third rule sends its controller to all notes below the anchor. -/
def split : Engine := standard.run [.apply (.setParameter (.rule ⟨2, by decide⟩ .target) (1.0 / 14.0))]

/-- The controller moves before a note is held, between two notes and after them, and one of them is struck
again. -/
def notesJoinSide : List Operation :=
  [.call 0.0 (.controlChange 0 74 90), .call 0.1 (.noteOn 0 40 100), .call 0.2 (.controlChange 0 74 20),
    .call 0.3 (.noteOn 0 42 100), .call 0.4 (.noteOn 0 80 100), .call 0.5 (.controlChange 0 74 30),
    .call 0.6 (.noteOn 0 40 90)]

theorem split_takesSide : split.TakesSide ⟨2, by decide⟩ false where
  input_ne := by decide +kernel
  isSendable := .inl (by decide +kernel)
  output_ne := by decide +kernel
  target := by decide +kernel
  resetPolicy_ne := by decide +kernel

theorem side_in_sync_notesJoinSide : Reachable split ∧ split.voices.held.notes = []
    ∧ split.TakesSide ⟨2, by decide⟩ false ∧ split.Steady notesJoinSide
    ∧ (split.run notesJoinSide).voices.held.notes = [40, 80, 42] ∧ (split.run notesJoinSide).isAbove 42 = false
    ∧ Carries (split.rule ⟨2, by decide⟩).output ((split.run notesJoinSide).voices.channelOf 42)
      (split.transcript notesJoinSide)
      (((split.run notesJoinSide).rule ⟨2, by decide⟩).shape
        ((split.run notesJoinSide).rule ⟨2, by decide⟩).lastInput) := by
  have hreachable : Reachable split := reachable_standard.run _
  have hheld : split.voices.held.notes = [] := by decide +kernel
  have hsteady : split.Steady notesJoinSide :=
    steady_of_not_isBriefing hreachable.balanced split_takesSide.input_ne (by decide +kernel)
  exact ⟨hreachable, hheld, split_takesSide, hsteady, by decide +kernel, by decide +kernel,
    side_in_sync hreachable hheld split_takesSide hsteady 42 (by decide +kernel) (by decide +kernel)⟩

end Engine

end PolyExpression
