import PolyExpression.Proofs.NameLookup
import PolyExpression.Proofs.Publication
import PolyExpression.Proofs.Sections
import PolyExpression.Settings.Upgrade

/-!
Imports of settings. What an import sets is told from the lines of the text alone, without a reader's state and without
the table of names. Main statements: after an import at once, whatever the engine was, every parameter is what the last
line of its name inside the engine's sections says, or at its initial value; and an import through the queue leaves the
same engine behind once the next block has started.
-/

namespace PolyExpression

/-! ### The last setting of a parameter -/

/-- The last setting of a parameter in a list of settings. -/
def lastSetting? (settings : List (ParameterId × Float)) (id : ParameterId) : Option Float :=
  settings.foldl (fun last entry => if entry.1 = id then some entry.2 else last) none

theorem lastSetting?_append_singleton (settings : List (ParameterId × Float)) (entry : ParameterId × Float)
    (id : ParameterId) : lastSetting? (settings ++ [entry]) id =
      if entry.1 = id then some entry.2 else lastSetting? settings id := by
  unfold lastSetting?
  rw [List.foldl_append]
  rfl

theorem lastSetting?_eq_getLast? (settings : List (ParameterId × Float)) (id : ParameterId) :
    lastSetting? settings id =
      (settings.filterMap fun entry => if entry.1 = id then some entry.2 else none).getLast? := by
  induction settings using List.reverseRecOn with
  | nil => rfl
  | append_singleton settings entry ih =>
      rw [lastSetting?_append_singleton, ih, List.filterMap_append]
      by_cases hsame : entry.1 = id
      · simp [hsame]
      · simp [hsame]

namespace Settings

/-- The lines inside the engine's sections of a text, in order. -/
def inside (text : List Char) : List (List Char) := (sections (linesOf text)).flatten

/-- The fraction that a line gives a parameter, if it is a setting of the parameter's name. -/
def ratioFor? (id : ParameterId) (line : List Char) : Option Float :=
  match setting? line with
  | some (name, ratio) => if name = id.name.toList then some ratio else none
  | none => none

/-- The fraction that the last line of a parameter's name inside the engine's sections gives it. -/
def lastRatio? (text : List Char) (id : ParameterId) : Option Float :=
  ((inside text).filterMap (ratioFor? id)).getLast?

theorem read_eq_filterMap (text : List Char) : read text = (inside text).filterMap known? := by
  rw [read, ofLines_eq_flatMap, inside, List.filterMap_flatten, List.flatMap_def]

/-- Looking a name up and then comparing the parameter is comparing the name. -/
theorem ratioFor?_eq_bind (id : ParameterId) (line : List Char) :
    ratioFor? id line = (known? line).bind fun entry => if entry.1 = id then some entry.2 else none := by
  unfold ratioFor? known?
  cases setting? line with
  | none => rfl
  | some setting =>
      obtain ⟨name, ratio⟩ := setting
      have hfound (id : ParameterId) : ParameterId.named? (String.ofList name) = some id ↔ name = id.name.toList :=
        ParameterId.named?_eq_some_iff.trans String.ofList_eq
      dsimp only
      cases hnamed : ParameterId.named? (String.ofList name) with
      | none =>
          have hother : name ≠ id.name.toList := fun hname => by simp [(hfound id).mpr hname] at hnamed
          simp [hother]
      | some found =>
          have hsame : found = id ↔ name = id.name.toList := by
            rw [← hfound id, hnamed, Option.some.injEq]
          simp [hsame]

theorem lastSetting?_read (text : List Char) (id : ParameterId) : lastSetting? (read text) id = lastRatio? text id := by
  have hline : (fun line => (known? line).bind fun entry => if entry.1 = id then some entry.2 else none) = ratioFor? id :=
    funext fun line => (ratioFor?_eq_bind id line).symm
  rw [lastSetting?_eq_getLast?, read_eq_filterMap, List.filterMap_filterMap, hline, lastRatio?]

end Settings

/-- The parameter that a setting makes of the initial one. -/
def Parameter.restored (range : Range) (setting? : Option Float) : Parameter :=
  match setting? with
  | none => .ofRange range
  | some ratio => (ofRange range).setRatio ratio

theorem Parameter.setRatio_restored (range : Range) (setting? : Option Float) (ratio : Float) :
    (restored range setting?).setRatio ratio = restored range (some ratio) := by
  cases setting? <;> rfl

namespace Engine

/-! ### Imports at once -/

section importNow

variable (engine : Engine) (text : List Char)

/-- An import clears the parameters of an engine that has taken its messages, and then makes one setting after the
other. -/
theorem importNow_eq : (engine.importNow text).2 =
    (Settings.read text).foldl (fun e entry => e.setParameter entry.1 entry.2) engine.takeMessages.clearParameters := by
  show (importMessages (Settings.read text)).foldl apply engine.takeMessages = _
  rw [importMessages, List.foldl_cons, List.foldl_map]
  rfl

theorem pending_foldl_apply (messages : List Message) : (messages.foldl apply engine).pending = engine.pending := by
  have hkept := congrArg Engine.pending (engine.foldl_apply_withPending engine.pending messages)
  exact hkept

theorem pending_takeMessages : engine.takeMessages.pending = [] := by
  obtain ⟨parameters, published, htake⟩ := engine.takeMessages_eq
  rw [htake]

theorem pending_importNow : (engine.importNow text).2.pending = [] :=
  (engine.takeMessages.pending_foldl_apply _).trans engine.pending_takeMessages

/-- Whatever a parameter was, its last setting makes it of the initial one. -/
theorem get_importNow (id : ParameterId) : (engine.importNow text).2.parameters.get id =
    .restored (engine.parameters.get id).range (lastSetting? (Settings.read text) id) := by
  rw [importNow_eq]
  -- From the last setting on: it overrides what earlier ones of the same name have made of the parameter.
  induction Settings.read text using List.reverseRecOn with
  | nil =>
      show (engine.takeMessages.apply .clear).parameters.get id = .ofRange _
      rw [parameters_apply, ← range_takeMessages]
      exact ParameterStore.get_reset _ id
  | append_singleton settings entry ih =>
      rw [List.foldl_append, lastSetting?_append_singleton]
      show (apply _ (.setParameter entry.1 entry.2)).parameters.get id = _
      rw [parameters_apply]
      show (ParameterStore.modify _ entry.1 (·.setRatio entry.2)).get id = _
      rw [ParameterStore.get_modify, ih, Parameter.setRatio_restored]
      by_cases hsame : entry.1 = id
      · rw [if_pos hsame, if_pos hsame]
      · rw [if_neg hsame, if_neg hsame]

theorem mirrored_importNow : (engine.importNow text).2.Mirrored := by
  rw [importNow_eq]
  exact List.foldlRecOn _ _ (motive := Mirrored) engine.takeMessages.mirrored_clearParameters fun _ he entry _ =>
    he.setParameter entry.1 entry.2

end importNow

/-- What an import leaves behind is told by the text alone, whatever the parameters were and whatever messages were
waiting: no message waits any more, every parameter has the fraction that the last line of its name inside the engine's
sections gives it, moved inside the unit interval, with the integer of that fraction, or is at its initial value if
there is no such line; and other threads see it so. -/
theorem importNow_spec {engine : Engine} (hranges : ∀ id, (engine.parameters.get id).range = id.range)
    (text : List Char) :
    (engine.importNow text).2.pending = []
      ∧ ∀ id, (engine.importNow text).2.parameters.get id = (match Settings.lastRatio? text id with
          | some ratio =>
              { range := id.range, value := id.range.valueOf (unitClamp ratio), ratio := unitClamp ratio }
          | none => { range := id.range, value := id.range.initial, ratio := id.range.initialRatio })
        ∧ (engine.importNow text).2.published.ratioOf id = ((engine.importNow text).2.parameters.get id).ratio := by
  refine ⟨engine.pending_importNow text, fun id => ⟨?_, engine.mirrored_importNow text id⟩⟩
  rw [get_importNow, hranges id, Settings.lastSetting?_read]
  cases Settings.lastRatio? text id with
  | none => rfl
  | some ratio => rfl

/-- A parameter that the import does not name has been moved, a note is held, and two edits wait. -/
def leftover : List Operation :=
  [.apply (.setParameter (.zone .transposeBelow) 0.9), .call 0.0 (.noteOn 0 60 100),
    .post (.setParameter (.zone .anchor) 0.1), .post (.setParameter (.zone .members) 0.4)]

/-- A text with two sections of the engine and a name that comes again, inside and outside of them. -/
def repeated : List Char :=
  ("Z1ANC = 0.9\n[mpeemulator]\nZ1ANC = 0.4 ; once\nZ1CHN = 0.2\n[other]\nZ1ANC = 0.6\n[mpeemulator]\n z1anc=0.75\n"
    ++ "Z1XYZ = 1\n").toList

theorem importNow_spec_leftover :
    (∀ id, ((standard.run leftover).parameters.get id).range = id.range)
    ∧ (standard.run leftover).pending.length = 2
    ∧ ((standard.run leftover).importNow repeated).2.pending = []
    ∧ (((standard.run leftover).importNow repeated).2.parameters.get (.zone .anchor)).ratio = unitClamp 0.75
    ∧ ((standard.run leftover).parameters.get (.zone .transposeBelow)).value = 86
    ∧ (((standard.run leftover).importNow repeated).2.parameters.get (.zone .transposeBelow)).value =
      (ParameterId.zone .transposeBelow).range.initial := by
  have hranges := (reachable_standard.run leftover).range
  obtain ⟨hpending, hparameters⟩ := importNow_spec hranges repeated
  have hgiven : Settings.lastRatio? repeated (.zone .anchor) = some 0.75 := by decide +kernel
  have hnone : Settings.lastRatio? repeated (.zone .transposeBelow) = none := by decide +kernel
  obtain ⟨hanchor, -⟩ := hparameters (.zone .anchor)
  obtain ⟨htranspose, -⟩ := hparameters (.zone .transposeBelow)
  rw [hgiven] at hanchor
  rw [hnone] at htranspose
  exact ⟨hranges, by decide +kernel, hpending, congrArg Parameter.ratio hanchor, by decide +kernel,
    congrArg Parameter.value htranspose⟩

/-! ### Imports through the queue -/

/-- Messages for which there is room act behind those that were waiting. -/
theorem takeMessages_offerAll {engine : Engine} {messages : List Message}
    (hroom : engine.pending.length + messages.length ≤ engine.config.queueCapacity) :
    (engine.offerAll messages).takeMessages = messages.foldl apply engine.takeMessages := by
  have hall : messages.take (engine.config.queueCapacity - engine.pending.length) = messages :=
    List.take_of_length_le (by omega)
  unfold offerAll
  rw [hall]
  exact List.foldl_append ..

/-- If the queue has room for an import, the next block starts as if the import had been made at once, and the same
number of settings is reported. -/
theorem beginBlock_importLater {engine : Engine} {text : List Char}
    (hroom : engine.pending.length + 1 + (Settings.read text).length ≤ engine.config.queueCapacity) :
    (engine.importLater text).1 = (engine.importNow text).1
      ∧ (engine.importLater text).2.beginBlock = (engine.importNow text).2.beginBlock := by
  have hlength : (importMessages (Settings.read text)).length = (Settings.read text).length + 1 := by
    rw [importMessages, List.length_cons, List.length_map]
  -- Messages are all that a block's start takes from the queue, so the two engines meet before the layout is looked at.
  have hlater : (engine.importLater text).2.takeMessages = (engine.importNow text).2 :=
    takeMessages_offerAll (by omega)
  have hnow : (engine.importNow text).2.takeMessages = (engine.importNow text).2 :=
    takeMessages_of_pending_eq_nil (engine.pending_importNow text)
  refine ⟨rfl, ?_⟩
  unfold beginBlock
  rw [hlater, hnow]

/-- The import changes the zone while a note is held, so the block starts with a reset. -/
theorem beginBlock_importLater_leftover :
    (standard.run leftover).pending.length + 1 + (Settings.read repeated).length
      ≤ (standard.run leftover).config.queueCapacity
    ∧ (standard.run leftover).voices.held.notes = [60]
    ∧ ((standard.run leftover).importNow repeated).2.isLayoutStale = true
    ∧ ((standard.run leftover).importLater repeated).1 = ((standard.run leftover).importNow repeated).1
    ∧ ((standard.run leftover).importLater repeated).2.beginBlock =
      ((standard.run leftover).importNow repeated).2.beginBlock := by
  have hroom : (standard.run leftover).pending.length + 1 + (Settings.read repeated).length
      ≤ (standard.run leftover).config.queueCapacity := by decide +kernel
  exact ⟨hroom, by decide +kernel, by decide +kernel, beginBlock_importLater hroom⟩

end Engine

end PolyExpression
