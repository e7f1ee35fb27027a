import Mathlib.Order.Fin.Basic
import PolyExpression.Proofs.LastSent

/-!
What a reset leaves behind. Whatever the engine did before, its state after a reset depends on its parameters
and on leftovers in its tables alone, and its output is what ending the held notes sends and then what starting
over sends. Main statements: that equation, and that a second reset in a row changes nothing but the output,
from which it takes the ends of the notes.
-/

namespace PolyExpression

open Midi (Event)

/-! ### Filling a ring again -/

namespace Ring

variable {α : Type} {capacity : Nat}

theorem head_pushAll (ring : Ring α capacity) (items : List α) : (ring.pushAll items).head = ring.head := by
  refine List.foldlRecOn items _ (motive := fun pushed : Ring α capacity => pushed.head = ring.head) rfl ?_
  intro pushed h item _
  unfold push
  split
  · exact h
  · exact h

/-- Items that are in their slots already are pushed by counting them. -/
theorem pushAll_of_present {ring : Ring α capacity} {items : List α}
    (hfit : ring.size + items.length ≤ capacity)
    (h : (List.range' ring.size items.length).map (fun place => ring.slots[ring.slot place]) = items) :
    ring.pushAll items = { ring with size := ring.size + items.length, size_le := hfit } := by
  induction items generalizing ring with
  | nil => rfl
  | cons item items ih =>
      rw [List.length_cons, List.range'_succ, List.map_cons] at h
      obtain ⟨hitem, hitems⟩ := List.cons.inj h
      rw [List.length_cons] at hfit
      have hlt : ring.size < capacity := by omega
      have hpush : (ring.push item).2 = { ring with size := ring.size + 1, size_le := hlt } := by
        unfold push
        rw [dif_pos hlt]
        simp [← hitem]
      have hrest : (ring.push item).2.pushAll items =
          { ring with size := ring.size + 1 + items.length, size_le := by omega } := by
        rw [hpush]
        exact ih (by dsimp only; omega) hitems
      have hsize : ring.size + 1 + items.length = ring.size + (items.length + 1) := by omega
      exact hrest.trans (by simp only [hsize, List.length_cons])

/-- A ring that has been filled from empty is the same when it is filled so again. -/
theorem pushAll_clear_pushAll (ring : Ring α capacity) {items : List α} (h : items.length ≤ capacity) :
    (ring.clear.pushAll items).clear.pushAll items = ring.clear.pushAll items := by
  have hlist : (ring.clear.pushAll items).toList = items :=
    toList_pushAll (by rw [toList_clear, List.length_nil, Nat.zero_add]; exact h)
  have hsize : (ring.clear.pushAll items).size = items.length := by rw [← length_toList, hlist]
  have hhead : (ring.clear.pushAll items).head = 0 := head_pushAll ring.clear items
  generalize ring.clear.pushAll items = full at hlist hsize hhead
  obtain ⟨slots, head, size, hlt, hle⟩ := full
  obtain rfl : head = 0 := hhead
  obtain rfl : size = items.length := hsize
  -- Emptied, the ring still has in its slots what is pushed again.
  let emptied : Ring α capacity := ⟨slots, 0, 0, hlt, Nat.zero_le _⟩
  have hpresent : (List.range' 0 items.length).map (fun place => slots[emptied.slot place]) = items := by
    rw [← List.range_eq_range']
    exact hlist
  have hagain : emptied.pushAll items = _ := pushAll_of_present (by simpa [emptied] using h) hpresent
  simpa [clear, emptied] using hagain

end Ring

/-! ### What rules forget -/

namespace ParameterStore

/-- Stores with the same parameters of the zone and the same rules are the same. -/
theorem eq_of_rule {a b : ParameterStore} (hzone : a.zone = b.zone) (hrule : ∀ i, a.rule i = b.rule i) :
    a = b := by
  obtain ⟨zone, rules⟩ := a
  obtain rfl : zone = b.zone := hzone
  have hrules : rules = b.rules := Vector.ext fun i hi => hrule ⟨i, hi⟩
  rw [hrules]

/-- The last inputs of some rules set back to their initial values. -/
def forgetInputs (store : ParameterStore) (rules : List RuleIndex) : ParameterStore :=
  rules.foldl (fun store i => store.modifyRule i Rule.resetLastInput) store

theorem zone_forgetInputs (store : ParameterStore) (rules : List RuleIndex) :
    (store.forgetInputs rules).zone = store.zone :=
  List.foldlRecOn rules _ (motive := fun s : ParameterStore => s.zone = store.zone) rfl fun _ h _ _ => h

theorem rule_forgetInputs (store : ParameterStore) (rules : List RuleIndex) (i : RuleIndex) :
    (store.forgetInputs rules).rule i = if i ∈ rules then (store.rule i).resetLastInput else store.rule i := by
  induction rules generalizing store with
  | nil => rfl
  | cons first rest ih =>
      have hrest := ih (store.modifyRule first Rule.resetLastInput)
      have hidem : ∀ rule : Rule, rule.resetLastInput.resetLastInput = rule.resetLastInput := fun _ => rfl
      rw [rule_modifyRule] at hrest
      show ((store.modifyRule first Rule.resetLastInput).forgetInputs rest).rule i = _
      rw [hrest]
      by_cases hfirst : first = i
      · rw [hfirst, if_pos rfl, if_pos List.mem_cons_self, hidem, ite_self]
      · have hmem : i ∈ first :: rest ↔ i ∈ rest :=
          List.mem_cons.trans (or_iff_right fun heq => hfirst heq.symm)
        simp only [if_neg hfirst, hmem]

theorem get_forgetInputs (store : ParameterStore) (rules : List RuleIndex) (id : ParameterId) :
    (store.forgetInputs rules).get id = store.get id :=
  List.foldlRecOn rules _ (motive := fun s : ParameterStore => s.get id = store.get id) rfl
    fun s h _ _ => (s.get_modifyRule_of_get (fun _ => rfl) id).trans h

theorem forgetInputs_forgetInputs (store : ParameterStore) (rules : List RuleIndex) :
    (store.forgetInputs rules).forgetInputs rules = store.forgetInputs rules := by
  refine eq_of_rule (zone_forgetInputs _ rules) fun i => ?_
  rw [rule_forgetInputs, rule_forgetInputs]
  split
  · rfl
  · rfl

end ParameterStore

namespace Engine

variable {engine after : Engine}

/-- The engine once all rules have forgotten their inputs. -/
def withoutInputs (engine : Engine) : Engine :=
  { engine with parameters := engine.parameters.forgetInputs (List.finRange ruleCount) }

theorem SameSettings.resetEvents (h : engine.SameSettings after) (hlayout : after.layout = engine.layout) :
    after.resetEvents = engine.resetEvents := by
  funext i
  unfold Engine.resetEvents manager
  dsimp only
  rw [h.resetPolicy, h.target, h.output, h.shape, h.get_rule, hlayout]

theorem resetRules_eq (engine : Engine) : engine.resetRules =
    engine.withoutInputs.emitAll ((List.finRange ruleCount).flatMap engine.resetEvents) := by
  have hall : ∀ (rules : List RuleIndex) (e : Engine), rules.foldl resetRule e =
      emitAll { e with parameters := e.parameters.forgetInputs rules } (rules.flatMap e.resetEvents) := by
    intro rules
    induction rules with
    | nil => exact fun e => e.emitAll_nil.symm
    | cons i rules ih =>
        intro e
        let forgetful := e.modifyRule i Rule.resetLastInput
        have hsame : e.SameSettings forgetful := fun id => e.parameters.get_modifyRule_of_get (fun _ => rfl) id
        have hevents : ((forgetful.emitAll (forgetful.resetEvents i)).resetEvents) = e.resetEvents :=
          hsame.resetEvents rfl
        have hfirst : forgetful.resetEvents i = e.resetEvents i := congrFun (hsame.resetEvents rfl) i
        rw [List.foldl_cons, resetRule_eq, ih, hevents, hfirst, List.flatMap_cons, ← emitAll_emitAll]
        rfl
  exact hall _ engine

/-! ### Ending all notes -/

/-- What ending notes one after another in a reset appends. -/
def endings (engine : Engine) : List Note → List Event
  | [] => []
  | note :: notes => engine.silenceEvents note ++ (engine.withoutVoice note).endings notes

/-- What ending all held notes in a reset appends. -/
def silencing (engine : Engine) : List Event :=
  (if engine.voices.held.isEmpty then [] else controllerEvents 0.0 engine.manager .sustainPedal 0.0 false)
    ++ engine.endings engine.voices.held.notes

/-- What ending notes sends depends on the voices, the layout and the parameters. -/
theorem endings_congr (hvoices : after.voices = engine.voices) (hlayout : after.layout = engine.layout)
    (hparameters : after.parameters = engine.parameters) (notes : List Note) :
    after.endings notes = engine.endings notes := by
  induction notes generalizing engine after with
  | nil => rfl
  | cons note notes ih =>
      have hnext : (after.withoutVoice note).endings notes = (engine.withoutVoice note).endings notes :=
        ih (congrArg (fun voices => voices.stop note) hvoices) hlayout hparameters
      have hfirst : after.silenceEvents note = engine.silenceEvents note := by
        unfold silenceEvents stopEvents releaseVelocity isAbove rule
        rw [hvoices, hlayout, hparameters]
      rw [endings, endings, hnext, hfirst]

theorem silencing_congr (hvoices : after.voices = engine.voices) (hlayout : after.layout = engine.layout)
    (hparameters : after.parameters = engine.parameters) : after.silencing = engine.silencing := by
  unfold silencing manager
  rw [endings_congr hvoices hlayout hparameters, hvoices, hlayout]

theorem foldl_silenceNote (engine : Engine) (notes : List Note) : ∃ voices deferred activeVoices,
    notes.foldl silenceNote engine = emitAll { engine with
      voices
      pedal := { engine.pedal with deferred }
      published := { engine.published with activeVoices } } (engine.endings notes)
    ∧ voices.silence = engine.voices.silence := by
  induction notes generalizing engine with
  | nil => exact ⟨_, _, _, engine.emitAll_nil.symm, rfl⟩
  | cons note notes ih =>
      let next := (engine.withoutVoice note).publishVoices.emitAll (engine.silenceEvents note)
      obtain ⟨voices, deferred, activeVoices, hrest, hvoices⟩ := ih next
      have hendings : next.endings notes = (engine.withoutVoice note).endings notes :=
        endings_congr (by rfl) (by rfl) (by rfl) notes
      refine ⟨voices, deferred, activeVoices, ?_, hvoices⟩
      rw [List.foldl_cons, silenceNote_eq, hrest, hendings, endings, ← emitAll_emitAll]
      rfl

theorem silence_eq (engine : Engine) : engine.silence = emitAll { engine with
    voices := engine.voices.silence
    pedal := engine.pedal.release
    published := { engine.published with activeVoices := 0 } } engine.silencing := by
  let opening : List Event :=
    if engine.voices.held.isEmpty then [] else controllerEvents 0.0 engine.manager .sustainPedal 0.0 false
  have hopening : (if engine.voices.held.isEmpty then engine
      else engine.sendController 0.0 engine.manager .sustainPedal 0.0 false) = engine.emitAll opening := by
    dsimp only [opening]
    split
    · rw [emitAll_nil]
    · rw [sendController_eq]
  obtain ⟨voices, deferred, activeVoices, hnotes, hvoices⟩ :=
    foldl_silenceNote (engine.emitAll opening) engine.voices.held.notes
  have hendings : (engine.emitAll opening).endings engine.voices.held.notes =
      engine.endings engine.voices.held.notes := endings_congr (by rfl) (by rfl) (by rfl) _
  have hsilence : engine.silence =
      let ended := engine.voices.held.notes.foldl silenceNote (engine.emitAll opening)
      publishVoices { ended with voices := ended.voices.silence, pedal := ended.pedal.release } := by
    unfold silence
    dsimp only
    rw [hopening]
    rfl
  have hsilencing : engine.silencing = opening ++ engine.endings engine.voices.held.notes := rfl
  rw [hsilence, hnotes, hendings, hsilencing, ← emitAll_emitAll]
  dsimp only [publishVoices, emitAll]
  rw [hvoices]
  rfl

/-- Ending the held notes sends nothing exactly if there are none. -/
theorem silencing_eq_nil_iff : engine.silencing = [] ↔ engine.voices.held.notes = [] := by
  unfold silencing
  constructor
  · intro h
    cases hheld : engine.voices.held.notes with
    | nil => rfl
    | cons note notes =>
        rw [hheld] at h
        have hfirst := (List.append_eq_nil_iff.mp (List.append_eq_nil_iff.mp h).2).1
        exact absurd (List.append_eq_nil_iff.mp hfirst).2 (List.cons_ne_nil _ _)
  · intro h
    rw [if_pos (engine.voices.held.isEmpty_iff.mpr h), h]
    rfl

/-! ### Starting over -/

/-- The engine as it starts over: without notes, under the layout that the parameters ask for, its rules without
inputs, and nothing in the output. -/
def restarted (engine : Engine) : Engine :=
  { engine with
    parameters := engine.parameters.forgetInputs (List.finRange ruleCount)
    published :=
      { engine.published with
        activeVoices := 0
        channelCount :=
          if engine.isLayoutStale then engine.wantedLayout.zone.memberCount else engine.published.channelCount }
    events := #[]
    voices := engine.voices.silence
    free := engine.free.clear.pushAll engine.wantedLayout.zone.members
    pedal := engine.pedal.release
    layout := engine.wantedLayout
    hasReset := true }

/-- What starting over sends once no note is held. -/
def openings (engine : Engine) : List Event :=
  engine.announcements ++ (List.finRange ruleCount).flatMap engine.resetEvents

theorem announceZone_resetRules_openings (engine : Engine) :
    engine.announceZone.resetRules = engine.withoutInputs.emitAll engine.openings := by
  rw [announceZone_eq, resetRules_eq]
  have hevents : (engine.emitAll engine.announcements).resetEvents = engine.resetEvents := rfl
  rw [hevents, openings, ← emitAll_emitAll]
  rfl

theorem openings_congr (h : engine.SameSettings after) (hlayout : after.layout = engine.layout) :
    after.openings = engine.openings := by
  unfold openings announcements ParameterStore.announces manager
  rw [h.resetEvents hlayout, h, hlayout]

theorem wantedLayout_congr (h : engine.SameSettings after) : after.wantedLayout = engine.wantedLayout := by
  unfold wantedLayout ZoneLayout.ofStore ParameterStore.side ParameterStore.members
    ParameterStore.transposeBelow ParameterStore.transposeAbove
  simp only [h _]

theorem applyLayout_eq (h : engine.isLayoutStale = true) :
    engine.applyLayout = engine.restarted.emitAll (engine.silencing ++ engine.restarted.openings) := by
  let moved := { engine.clearEvents.silence with
    layout := engine.wantedLayout
    published := { engine.clearEvents.silence.published with
      channelCount := engine.wantedLayout.zone.memberCount } }
  have happly : engine.applyLayout =
      { moved.refillChannels.announceZone.resetRules with hasReset := true } := rfl
  have hsilencing : engine.clearEvents.silencing = engine.silencing := silencing_congr (by rfl) (by rfl) (by rfl)
  have hsilence := engine.clearEvents.silence_eq
  have hopenings : moved.refillChannels.openings = engine.restarted.openings := by
    refine openings_congr (fun id => ?_) rfl
    have hsame : moved.refillChannels.parameters = engine.parameters := engine.clearEvents.parameters_silence
    rw [hsame]
    exact (ParameterStore.get_forgetInputs _ _ id).symm
  rw [happly, announceZone_resetRules_openings, hopenings]
  dsimp only [moved]
  rw [hsilence, hsilencing]
  unfold restarted
  rw [if_pos h, ← emitAll_emitAll]
  rfl

theorem reset_eq (engine : Engine) :
    engine.reset = engine.restarted.emitAll (engine.silencing ++ engine.restarted.openings) := by
  unfold reset
  by_cases hstale : engine.isLayoutStale = true
  · rw [if_pos hstale]
    exact applyLayout_eq hstale
  · have hlayout : engine.wantedLayout = engine.layout :=
      of_decide_eq_true (by simpa [isLayoutStale] using hstale)
    have hsilencing : engine.clearEvents.silencing = engine.silencing :=
      silencing_congr (by rfl) (by rfl) (by rfl)
    have hopenings : engine.clearEvents.silence.openings = engine.restarted.openings := by
      refine openings_congr (fun id => ?_) ?_
      · rw [engine.clearEvents.parameters_silence]
        exact (ParameterStore.get_forgetInputs _ _ id).symm
      · rw [silence_eq]
        exact hlayout.symm
    rw [if_neg hstale, announceZone_resetRules_openings, hopenings, silence_eq, hsilencing]
    unfold restarted
    rw [if_neg hstale, hlayout, ← emitAll_emitAll]
    dsimp only [withoutInputs, refillChannels, emitAll, clearEvents]
    rfl

section reset

variable (engine : Engine)

theorem config_reset : engine.reset.config = engine.config := by
  rw [reset_eq]
  dsimp only [emitAll, restarted]

theorem pending_reset : engine.reset.pending = engine.pending := by
  rw [reset_eq]
  dsimp only [emitAll, restarted]

theorem isSuspended_reset : engine.reset.isSuspended = engine.isSuspended := by
  rw [reset_eq]
  dsimp only [emitAll, restarted]

theorem parameters_reset :
    engine.reset.parameters = engine.parameters.forgetInputs (List.finRange ruleCount) := by
  rw [reset_eq]
  dsimp only [emitAll, restarted]

theorem voices_reset : engine.reset.voices = engine.voices.silence := by
  rw [reset_eq]
  dsimp only [emitAll, restarted]

theorem free_reset : engine.reset.free = engine.free.clear.pushAll engine.wantedLayout.zone.members := by
  rw [reset_eq]
  dsimp only [emitAll, restarted]

theorem pedal_reset : engine.reset.pedal = engine.pedal.release := by
  rw [reset_eq]
  dsimp only [emitAll, restarted]

theorem layout_reset : engine.reset.layout = engine.wantedLayout := by
  rw [reset_eq]
  dsimp only [emitAll, restarted]

theorem activeVoices_reset : engine.reset.published.activeVoices = 0 := by
  rw [reset_eq]
  dsimp only [emitAll, restarted]

theorem hasReset_reset : engine.reset.hasReset = true := by
  rw [reset_eq]
  dsimp only [emitAll, restarted]

theorem events_reset : engine.reset.events.toList = engine.silencing ++ engine.restarted.openings := by
  have hnone : engine.restarted.events.toList = [] := rfl
  rw [reset_eq, toList_events_emitAll, hnone, List.nil_append]

theorem sameSettings_reset : engine.SameSettings engine.reset := by
  intro id
  rw [parameters_reset]
  exact ParameterStore.get_forgetInputs _ _ id

/-- A reset brings the layout up to date. -/
theorem isLayoutStale_reset : engine.reset.isLayoutStale = false := by
  have hwanted : engine.reset.wantedLayout = engine.reset.layout :=
    (wantedLayout_congr engine.sameSettings_reset).trans engine.layout_reset.symm
  unfold isLayoutStale
  exact decide_eq_false (not_not_intro hwanted)

end reset

/-! ### Resetting twice -/

theorem silencing_reset (engine : Engine) : engine.reset.silencing = [] := by
  rw [silencing_eq_nil_iff, voices_reset]
  rfl

/-- After a reset there is nothing to start over but the output. -/
theorem restarted_reset (engine : Engine) : engine.reset.restarted = engine.reset.clearEvents := by
  have hwanted : engine.reset.wantedLayout = engine.wantedLayout := wantedLayout_congr engine.sameSettings_reset
  have hfree : engine.reset.free.clear.pushAll engine.reset.wantedLayout.zone.members = engine.reset.free := by
    rw [hwanted, free_reset]
    refine Ring.pushAll_clear_pushAll _ ?_
    rw [Zone.length_members]
    exact engine.wantedLayout.zone.memberCount_le
  have hforget : engine.reset.parameters.forgetInputs (List.finRange ruleCount) = engine.reset.parameters := by
    rw [parameters_reset]
    exact ParameterStore.forgetInputs_forgetInputs _ _
  have hlayout : engine.reset.wantedLayout = engine.reset.layout := hwanted.trans engine.layout_reset.symm
  have hvoices : engine.reset.voices.silence = engine.reset.voices := by
    rw [voices_reset]
    rfl
  have hpedal : engine.reset.pedal.release = engine.reset.pedal := by
    rw [pedal_reset]
    rfl
  have hpublished : { engine.reset.published with activeVoices := 0 } = engine.reset.published := by
    rw [← engine.activeVoices_reset]
  unfold restarted clearEvents
  rw [isLayoutStale_reset, hfree, hforget, hlayout, hvoices, hpedal, if_neg Bool.false_ne_true, hpublished,
    engine.hasReset_reset]

theorem reset_reset (engine : Engine) :
    engine.reset.reset = engine.reset.clearEvents.emitAll engine.restarted.openings := by
  have hopenings : engine.reset.clearEvents.openings = engine.restarted.openings := by
    refine openings_congr (fun id => ?_) engine.layout_reset
    show engine.reset.parameters.get id = _
    rw [parameters_reset]
    dsimp only [restarted]
  rw [reset_eq engine.reset, silencing_reset, List.nil_append, restarted_reset, hopenings]

/-- A second reset in a row leaves everything as the first one did but for the output, from whose front it takes
what the first one sent to end notes. So the two are one exactly if no note was held. -/
theorem reset_again (engine : Engine) :
    engine.reset = engine.reset.reset.after engine.silencing.toArray
      ∧ (engine.reset.reset = engine.reset ↔ engine.voices.held.notes = []) := by
  have hevents : engine.reset.events = engine.silencing.toArray ++ engine.restarted.openings.toArray := by
    rw [← Array.toList_inj, events_reset, Array.toList_append]
  have hagain : engine.reset.reset.events = engine.restarted.openings.toArray := by
    have hnone : engine.reset.clearEvents.events.toList = [] := rfl
    rw [reset_reset, ← Array.toList_inj, toList_events_emitAll, hnone, List.nil_append]
  have hfirst : engine.reset = engine.reset.reset.after engine.silencing.toArray := by
    unfold after
    rw [hagain, ← hevents, reset_reset]
    dsimp only [emitAll, clearEvents]
  refine ⟨hfirst, fun h => ?_, fun hheld => ?_⟩
  · have hsame : engine.reset.reset.events = engine.reset.events := congrArg Engine.events h
    have hsize := congrArg Array.size hsame
    rw [hagain, hevents, Array.size_append, List.size_toArray, List.size_toArray] at hsize
    exact silencing_eq_nil_iff.mp (List.eq_nil_of_length_eq_zero (by omega))
  · have hnothing : engine.silencing = [] := silencing_eq_nil_iff.mpr hheld
    rw [hnothing] at hfirst
    exact (hfirst.trans (by simp [after])).symm

/-- A note is held when the engine is reset for the first time. -/
def oneNoteHeld : List Operation := [.beginBlock, .call 0.0 (.noteOn 0 60 100)]

/-- The end of a held note does not outlast a second reset. -/
theorem reset_forgets_ends : ¬∀ engine, Reachable engine → engine.reset.reset = engine.reset := by
  intro h
  have hsame := h _ (reachable_standard.run oneNoteHeld)
  have hsize := congrArg (fun e => e.events.size) hsame
  have hdiffers : (standard.run oneNoteHeld).reset.reset.events.size ≠
      (standard.run oneNoteHeld).reset.events.size := by
    decide +kernel
  exact hdiffers hsize

end Engine

end PolyExpression
